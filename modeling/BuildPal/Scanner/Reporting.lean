import BuildPal.Scanner.Scans
/-!
# Reads that are reported late

The condition stack holds macro reads back until something is defined or
included, and drops those of a conditional it takes to be without effect. A
file is tame if that makes no difference: each read in it is reported before
the file ends, whatever the values of the macros, or it is in a stretch that
drops it and comes to the same place, whatever the values. What a tame file
reports late is what another program reports at once.
-/
open BuildPal.Lib

namespace BuildPal.Scanner

/-! ## Pending reads -/

namespace ConditionStack
variable (cs : ConditionStack)

@[simp] theorem pending_addMacro (name : MacroName) : (cs.addMacro name).pending = cs.pending ++ [name] := by
  simp [pending, addMacro]

@[simp] theorem pending_empty : pending {} = [] := rfl

/-- Reads of a conditional, and of what Clang did not report of it, are pending alike. -/
theorem pending_takeMacros (condition : Condition) :
    (cs.takeMacros condition).macros = condition.macros ++ cs.macros := by
  unfold takeMacros
  split
  · rename_i h
    simp [List.isEmpty_iff.1 h]
  · rfl

theorem ifLastConditionSkippable_pending {condition : Condition} {rest : List Condition} {text : List RawToken}
    {next : Handled} {names : List MacroName}
    (hnext : next.dropped = [] → next.reported ++ next.stack.pending = names)
    (hcommit : pending { macros := [], conditions := condition :: rest } = names) :
    (ifLastConditionSkippable condition rest text next).dropped = [] →
      (ifLastConditionSkippable condition rest text next).reported ++
        (ifLastConditionSkippable condition rest text next).stack.pending = names := by
  unfold ifLastConditionSkippable
  split
  · exact hnext
  · intro _
    simpa [commit] using hcommit

/-- A directive that drops nothing reports what is pending, or leaves it so. -/
theorem directive_pending (directive : Directive) (h : (cs.directive directive).dropped = []) :
    (cs.directive directive).reported ++ (cs.directive directive).stack.pending = cs.pending := by
  obtain ⟨macros, conditions⟩ := cs
  cases directive with
  | if_ taken => simp [ConditionStack.directive, ifDirective, pending]
  | elif text taken =>
    cases conditions with
    | nil => simp [ConditionStack.directive, elifDirective, commit]
    | cons condition rest =>
      -- the block before the directive is either skippable, or everything is committed
      refine ifLastConditionSkippable_pending (fun _ => ?_) ?_ h
      · simp [pending]
      · simp [pending]
  | else_ text =>
    cases conditions with
    | nil => simp [ConditionStack.directive, elseDirective, commit]
    | cons condition rest =>
      refine ifLastConditionSkippable_pending (fun _ => ?_) ?_ h
      · simp [pending, pending_takeMacros]
      · simp [pending, pending_takeMacros]
  | endif text =>
    cases conditions with
    | nil => simp [ConditionStack.directive, endifDirective]
    | cons condition rest =>
      refine ifLastConditionSkippable_pending (fun hdrop => ?_) ?_ h
      · -- the macros of the condition are all there is to drop
        simp only [pending_takeMacros, List.append_eq_nil_iff] at hdrop
        simp [pending, hdrop.1, hdrop.2]
      · simp [pending, pending_takeMacros]

end ConditionStack

/-! ## Tame programs -/

/-- Whatever the values of the macros, the program only reads and goes through conditionals that report nothing, and
comes to `q` with the stack `cs₀`. -/
inductive Passes (cs₀ : ConditionStack) (q : Prog) : ConditionStack → Prog → Prop where
  | here : Passes cs₀ q cs₀ q
  | read {cs name next} (h : ∀ value, Passes cs₀ q (cs.addMacro name) (next value)) :
    Passes cs₀ q cs (.read name next)
  | conditional {cs directive next} (hquiet : (cs.directive directive).reported = [])
    (h : Passes cs₀ q (cs.directive directive).stack next) : Passes cs₀ q cs (.conditional directive next)

/-- The stretch comes to `q`, and so to what `q` includes. -/
theorem Passes.includes {cs₀ cs : ConditionStack} {p q : Prog} (h : Passes cs₀ q cs p) {i : Inclusion}
    (hi : q.Includes i) : p.Includes i := by
  induction h with
  | here => exact hi
  | read _ ih => exact ⟨none, ih none⟩
  | conditional _ _ ih => exact ih

/-- With the condition stack, the program does what the other one does that reports every read at once: nothing is
dropped but in a stretch that passes, and nothing is left pending at the end. -/
inductive Reported (file : FileId) : ConditionStack → Prog → Prog → Prop where
  | done : Reported file {} .done .done
  | read {cs name next next'} (h : ∀ value, Reported file (cs.addMacro name) (next value) (next' value)) :
    Reported file cs (.read name next) (.read name next')
  | conditional {cs directive next p'} (hkept : (cs.directive directive).dropped = [])
    (h : Reported file (cs.directive directive).stack next p') : Reported file cs (.conditional directive next) p'
  | define {cs name value next p'} (h : Reported file {} next p') :
    Reported file cs (.define name value next) (.define name value p')
  | undef {cs name next p'} (h : Reported file {} next p') : Reported file cs (.undef name next) (.undef name p')
  /-- What is pending is not committed, but it is not the macro that is defined. -/
  | pragmaOnce {cs next p'} (hother : macroForPragmaOnce file ∉ cs.pending) (h : Reported file cs next p') :
    Reported file cs (.pragmaOnce next) (.pragmaOnce p')
  | include {cs i next p'} (hfound : i.file ≠ none) (h : Reported file {} next p') :
    Reported file cs (.include i next) (.include i p')
  /-- A header that was not found commits nothing. -/
  | missing {cs i next p'} (hmissing : i.file = none) (h : Reported file cs next p') :
    Reported file cs (.include i next) (.include i p')
  | pass {cs p q p'} (hpass : Passes cs q cs p) (h : Reported file cs q p') : Reported file cs p p'

/-- If the macro has a value, the program reads it and does nothing else. -/
def Prog.GuardedBy (guard : MacroName) (p : Prog) : Prop :=
  ∃ next, p = .read guard next ∧ ∀ value, next (some value) = .done

/-- What the file reports late it may as well report at once; and so does an include guard of the file. -/
def Prog.Tame (file : FileId) (guard : Option MacroName) (p : Prog) : Prop :=
  ∃ p', Reported file {} p p' ∧ ∀ g ∈ guard, p'.GuardedBy g

/-! ## Reporting late -/

theorem foldl_ctxMacroUsed (names : List MacroName) (s : Tracker) :
    names.foldl Tracker.ctxMacroUsed s =
      { s with ctx := (names.map fun name => (name, s.macroState name)).foldl HeaderCtx.macroUsed s.ctx } := by
  induction names generalizing s with
  | nil => rfl
  | cons name names ih =>
    rw [List.foldl_cons, ih]
    rfl

theorem Tracker.commitMacros_def (s : Tracker) : s.commitMacros = { s with
    conditionStack := {}
    ctx := (s.conditionStack.pending.map fun name => (name, s.macroState name)).foldl HeaderCtx.macroUsed s.ctx } := by
  simp [commitMacros, handle, ConditionStack.commit, foldl_ctxMacroUsed]

@[simp] theorem Tracker.commitMacros_stack (s : Tracker) : s.commitMacros.conditionStack = {} := by
  rw [Tracker.commitMacros_def]

/-- Macro reads go through the condition stack. -/
structure Setup.Delayed (S : Setup) : Prop where
  caching : S.caching ≠ .disabled
  immediate : S.immediate = false

namespace Setup.Delayed
variable {S : Setup} (hS : S.Delayed) (s : Tracker)
include hS

theorem macroUsed (name : MacroName) : (S.macroUsed s name).commitMacros = s.commitMacros.ctxMacroUsed name := by
  simp [Setup.macroUsed, hS.caching, hS.immediate, Tracker.commitMacros_def, Tracker.ctxMacroUsed]

theorem conditional {directive : Directive} (h : (s.conditionStack.directive directive).dropped = []) :
    (S.conditional s directive).commitMacros = s.commitMacros := by
  have hpending := s.conditionStack.directive_pending directive h
  simp only [Setup.conditional, hS.immediate, Bool.false_eq_true, if_false, Tracker.handle, h, List.append_nil,
    foldl_ctxMacroUsed, Tracker.commitMacros_def]
  rw [← hpending, List.map_append, List.foldl_append]

theorem conditional_stack (directive : Directive) :
    (S.conditional s directive).conditionStack = (s.conditionStack.directive directive).stack := by
  simp [Setup.conditional, hS.immediate, Tracker.handle, foldl_ctxMacroUsed]

theorem macroUsed_stack (name : MacroName) :
    (S.macroUsed s name).conditionStack = s.conditionStack.addMacro name := by
  simp [Setup.macroUsed, hS.caching, hS.immediate]

theorem macroDefined (name : MacroName) (value : String) :
    S.macroDefined s name value = s.commitMacros.ctxMacroChanged name (some value) := by
  simp [Setup.macroDefined, hS.caching]

theorem macroUndefined (name : MacroName) : S.macroUndefined s name = s.commitMacros.ctxMacroChanged name none := by
  simp [Setup.macroUndefined, hS.caching]

end Setup.Delayed

theorem HeaderCtx.macroUsed_macroChanged {ctx : HeaderCtx} {m : Macro} {name : MacroName} (h : name ≠ m.1) :
    (ctx.macroChanged name).macroUsed m = (ctx.macroUsed m).macroChanged name := by
  have hchanged : m.1 ∈ (ctx.macroChanged name).changedHere ↔ m.1 ∈ ctx.changedHere := by
    simp [macroChanged, Ne.symm h]
  have hused : (ctx.macroChanged name).usedHere = ctx.usedHere := rfl
  simp only [macroUsed, hchanged, hused]
  split <;> rfl

theorem HeaderCtx.foldl_macroUsed_macroChanged {name : MacroName} (used : List Macro) (ctx : HeaderCtx)
    (h : name ∉ used.map (·.1)) :
    used.foldl macroUsed (ctx.macroChanged name) = (used.foldl macroUsed ctx).macroChanged name := by
  induction used generalizing ctx with
  | nil => rfl
  | cons m used ih =>
    simp only [List.map_cons, List.mem_cons, not_or] at h
    rw [List.foldl_cons, List.foldl_cons, macroUsed_macroChanged h.1, ih _ h.2]

/-- What is pending may as well be committed first. -/
theorem Tracker.ctxMacroChanged_commitMacros {s : Tracker} {name : MacroName} (value : MacroValue)
    (h : name ∉ s.conditionStack.pending) :
    (s.ctxMacroChanged name value).commitMacros = s.commitMacros.ctxMacroChanged name value := by
  -- the new value is not that of a pending macro
  have hvalues : s.conditionStack.pending.map (fun n => (n, s.macroState.defineMacro name value n)) =
      s.conditionStack.pending.map fun n => (n, s.macroState n) := by
    refine List.map_congr_left fun n hn => ?_
    have hne : n ≠ name := by
      rintro rfl
      exact h hn
    simp [MacroState.defineMacro, hne]
  have hnames : name ∉ (s.conditionStack.pending.map fun n => (n, s.macroState n)).map (·.1) := by
    simpa using h
  simp only [commitMacros_def, ctxMacroChanged, hvalues, HeaderCtx.foldl_macroUsed_macroChanged _ _ hnames]

end BuildPal.Scanner
