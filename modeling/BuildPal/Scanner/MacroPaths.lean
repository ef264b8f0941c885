import BuildPal.Scanner.Replay
import BuildPal.Scanner.Reporting
/-!
# The macro paths of a header

Every header that is preprocessed hands the macros it used to `Cache::addEntry`,
and `CacheTree::getChild` goes down its tree along them. We list these calls for
scans in which Clang may also skip a header for its include guard, and say for
which files the lists of one header fit into one tree.
-/
open BuildPal.Lib

namespace BuildPal.Scanner

/-! ## Headers that are skipped for their include guard -/

/-- Which macro is the include guard of a file, if it has one. Clang finds out when it first gets to the end of the
file; `Known` says whether it has, in a scan. -/
abbrev ControllingMacro := FileId → Option MacroName

abbrev Known := Tracker → FileId → Bool

/-- No file has an include guard. -/
def unguarded : ControllingMacro := fun _ => none

namespace Setup
variable (S : Setup) (guard : ControllingMacro)

/-- The guard for which Clang skips the file. -/
def skippedFor (known : Known) (s : Tracker) (file : FileId) : Option MacroName :=
  (guard file).filter fun name => known s file && (s.macroState name).isSome

/-- `headerSkipped`, of a header with a `ControllingMacro`. -/
def headerGuarded (s : Tracker) (h : IncludedHeaders) (name : MacroName) : Tracker :=
  (if S.caching = .disabled then s else (s.ctxMacroUsed (macroForPragmaOnce h.file)).ctxMacroUsed name).addHeader
    (S.makeHeader h)

/-- A header is skipped, replayed or preprocessed. -/
def includeHeader (known : Known) : Nat → IncludedHeaders → Tracker → Option Tracker
  | 0, _, _ => none
  | depth + 1, h, s =>
    match skippedFor guard known s h.file with
    | some name => some (S.headerGuarded s h name)
    | none =>
      match S.findEntry s h.file with
      | (some hit, cache) => some (S.leaveWithEntry true s h cache hit)
      | (none, cache) =>
        (S.lex (includeHeader known depth) h (S.files h.file) (Tracker.enterFile { s with cache := cache } h.file)).map
          (S.leaveHeader s h)

/-- Without include guards this is what it is in a scan. -/
theorem includeHeader_unguarded (known : Known) (depth : Nat) :
    S.includeHeader unguarded known depth = S.enterHeader depth := by
  induction depth with
  | zero => rfl
  | succ depth ih =>
    funext h s
    simp only [includeHeader, enterHeader, ih]
    rfl

end Setup

/-! ## Calls of `addEntry` -/

/-- The tree `getChild` is called for, and the macros it is called with. -/
structure AddEntry where
  file : FileId
  tree : Trie MacroName MacroValue CacheEntry
  usedMacros : List Macro

namespace Setup
variable (S : Setup) (guard : ControllingMacro)

/-- `calls` are those of a header that is entered. -/
def inclusionCalls (calls : IncludedHeaders → Tracker → List AddEntry) (parent : IncludedHeaders) (i : Inclusion)
    (s : Tracker) : List AddEntry :=
  match i.file with
  | none => []
  | some file =>
    if s.macroState (macroForPragmaOnce file) ≠ none then [] else calls (S.included parent i file) s.commitMacros

def lexCalls (enter : IncludedHeaders → Tracker → Option Tracker) (calls : IncludedHeaders → Tracker → List AddEntry)
    (h : IncludedHeaders) : Prog → Tracker → List AddEntry
  | .done, _ => []
  | .read name next, s => lexCalls enter calls h (next (s.macroState name)) (S.macroUsed s name)
  | .conditional directive next, s => lexCalls enter calls h next (S.conditional s directive)
  | .define name value next, s => lexCalls enter calls h next (S.macroDefined s name value)
  | .undef name next, s => lexCalls enter calls h next (S.macroUndefined s name)
  | .pragmaOnce next, s => lexCalls enter calls h next (S.pragmaOnce s h.file)
  | .include i next, s =>
    S.inclusionCalls calls h i s ++ ((S.inclusionDirective enter h i s).map (lexCalls enter calls h next)).getD []

/-- The call `leaveHeader` makes. -/
def leaveCalls (h : IncludedHeaders) (child : Tracker) : List AddEntry :=
  if S.caching = .enabled ∧ child.ctx.isViableForCache then
    [⟨h.file, child.cache.cacheContainer (h.file, S.searchPathId), child.ctx.usedHere⟩]
  else []

def includeCalls (known : Known) : Nat → IncludedHeaders → Tracker → List AddEntry
  | 0, _, _ => []
  | depth + 1, h, s =>
    match skippedFor guard known s h.file with
    | some _ => []
    | none =>
      match S.findEntry s h.file with
      | (some _, _) => []
      | (none, cache) =>
        let entered := Tracker.enterFile { s with cache := cache } h.file
        S.lexCalls (S.includeHeader guard known depth) (includeCalls known depth) h (S.files h.file) entered ++
          ((S.lex (S.includeHeader guard known depth) h (S.files h.file) entered).map (S.leaveCalls h)).getD []

end Setup

/-- The calls of scans that share the caches. A scan that the naive preprocessor answers makes none. -/
def scanCalls (guard : ControllingMacro) (depth turns : Nat) : List (Known × Call) → Caches → List AddEntry
  | [], _ => []
  | (known, call) :: scans, caches =>
    match call.runNaive turns caches.naive with
    | none => []
    | some (some _, naive) => scanCalls guard depth turns scans { caches with naive }
    | some (none, naive) =>
      let S := call.setup
      let entered := Tracker.enterFile { cache := caches.cache } call.source.main.file
      S.lexCalls (S.includeHeader guard known depth) (S.includeCalls guard known depth) call.source.main
          call.source.prog entered ++
        ((S.lex (S.includeHeader guard known depth) call.source.main call.source.prog entered).map fun s =>
          scanCalls guard depth turns scans { naive, cache := s.cache }).getD []

/-- The lists are equal, or differ first in the value of a macro. -/
def Consistent : List Macro → List Macro → Prop
  | [], [] => True
  | (name, value) :: used, (name', value') :: used' => name = name' ∧ (value = value' → Consistent used used')
  | _, _ => False

/-- What `getChild` asserts, whatever entry is then put into the tree. -/
def AddEntry.Asserts (a : AddEntry) : Prop :=
  a.tree.Open a.usedMacros ∧ ∀ e, (a.tree.insert e a.usedMacros).2.1 = a.usedMacros

/-! ## Consistent paths -/

theorem Consistent.refl : ∀ used : List Macro, Consistent used used
  | [] => trivial
  | (_, _) :: used => ⟨rfl, fun _ => refl used⟩

theorem Consistent.of_values {before : List Macro} {name : MacroName} {value value' : MacroValue} (h : value ≠ value')
    (rest rest' : List Macro) : Consistent (before ++ (name, value) :: rest) (before ++ (name, value') :: rest') := by
  induction before with
  | nil => exact ⟨rfl, fun heq => absurd heq h⟩
  | cons m before ih =>
    obtain ⟨n, v⟩ := m
    exact ⟨rfl, fun _ => ih⟩

theorem Consistent.not_longer {used : List Macro} {m : Macro} {rest : List Macro} :
    ¬ Consistent (used ++ m :: rest) used := by
  induction used with
  | nil => exact id
  | cons m used ih =>
    obtain ⟨n, v⟩ := m
    intro h
    exact ih (h.2 rfl)

/-- Preprocessing the file comes to an end with these macros used. -/
def Ends (S : Setup) (file : FileId) (used : List Macro) : Prop :=
  ∃ h σ r, h.file = file ∧ Preprocesses S h σ r ∧ r.ctx.usedHere = used

namespace Ends
variable {S : Setup} {file : FileId} {used used' : List Macro}

theorem consistent (h : Ends S file used) (h' : Ends S file used') : Consistent used used' := by
  obtain ⟨header, σ, r, rfl, hr, rfl⟩ := h
  obtain ⟨header', σ', r', hfile, hr', rfl⟩ := h'
  rcases hr.matches hfile σ' with ⟨t, ht, hsync, -⟩ | ⟨before, name, value, rest, hused, hne, hparts⟩
  · obtain rfl := hr'.unique ht
    rw [hsync.used]
    exact .refl _
  · -- they part at a macro with two values
    obtain ⟨rest', hused'⟩ := hparts r' hr'
    rw [hused, hused']
    exact .of_values (Ne.symm hne) rest rest'

theorem not_asks {name : MacroName} (hasks : Asks S file used name) : ¬ Ends S file used := by
  obtain ⟨header, σ, r, value, rest, hfile, hr, hused⟩ := hasks
  intro hends
  have hlonger : Ends S file (used ++ (name, value) :: rest) := ⟨header, σ, r, hfile, hr, hused⟩
  exact Consistent.not_longer (hlonger.consistent hends)

theorem follows (h : Ends S file used) : Trie.Follows (Asks S file) [] used := by
  obtain ⟨header, σ, r, rfl, hr, rfl⟩ := h
  exact CacheOk.follows_of_preprocesses hr [] _ rfl

end Ends

/-! ## Going through a tame file -/

/-- The calls that come after something, if that comes to an end. -/
theorem mem_getD_map {α β : Type} {o : Option α} {f : α → List β} {b : β} :
    b ∈ (o.map f).getD [] ↔ ∃ a, o = some a ∧ b ∈ f a := by
  cases o with
  | none => simp
  | some a => simp

section Tame
variable {S : Setup} (hS : S.Delayed)
include hS

/-- A stretch that passes changes nothing but what was dropped. -/
theorem Passes.lex {cs₀ cs : ConditionStack} {p q : Prog} (h : Passes cs₀ q cs p) (s : Tracker)
    (hs : s.conditionStack = cs) : ∃ dropped, ∀ enter calls header,
      S.lex enter header p s = S.lex enter header q { s with conditionStack := cs₀, dropped := dropped } ∧
        S.lexCalls enter calls header p s =
          S.lexCalls enter calls header q { s with conditionStack := cs₀, dropped := dropped } := by
  induction h generalizing s with
  | here =>
    subst hs
    exact ⟨s.dropped, fun _ _ _ => ⟨rfl, rfl⟩⟩
  | @read cs name next _ ih =>
    have hused : S.macroUsed s name = { s with conditionStack := cs.addMacro name } := by
      simp [Setup.macroUsed, hS.caching, hS.immediate, hs]
    obtain ⟨dropped, hlex⟩ := ih (s.macroState name) (S.macroUsed s name) (by rw [hused])
    rw [hused] at hlex
    refine ⟨dropped, fun enter calls header => ?_⟩
    rw [Setup.lex, Setup.lexCalls, hused]
    exact hlex enter calls header
  | @conditional cs directive next hquiet _ ih =>
    have hhandled : S.conditional s directive = { s with
        conditionStack := (cs.directive directive).stack
        dropped := s.dropped ++ (cs.directive directive).dropped } := by
      simp [Setup.conditional, hS.immediate, Tracker.handle, hs, hquiet]
    obtain ⟨dropped, hlex⟩ := ih (S.conditional s directive) (by rw [hhandled])
    rw [hhandled] at hlex
    refine ⟨dropped, fun enter calls header => ?_⟩
    rw [Setup.lex, Setup.lexCalls, hhandled]
    exact hlex enter calls header

end Tame

/-- The setup in which the files report what they read at once. -/
def Setup.promptly (S : Setup) (files : FileId → Prog) : Setup := { S with files := files, immediate := true }

/-- The macros are what preprocessing the file comes to, and the tree holds nothing else. -/
structure AddEntry.Ok (S : Setup) (a : AddEntry) : Prop where
  used : Ends S a.file a.usedMacros
  asking : a.tree.Asking (Asks S a.file) []
  held : ∀ path e, a.tree.Holds path e → EntryOk S False a.file path e

theorem AddEntry.Ok.asserts {S : Setup} {a : AddEntry} (h : a.Ok S) : a.Asserts := by
  have hunique : ∀ c n n', Asks S a.file c n → Asks S a.file c n' → n = n' := fun _ _ _ => asks_unique
  refine ⟨?_, fun e => ?_⟩
  · refine Trie.open_of_asking hunique (fun c n => Ends.not_asks) a.tree a.usedMacros [] h.asking (fun path e he => ?_)
      h.used.follows h.used
    obtain ⟨header, σ, r, hfile, -, hr, hused, -, -⟩ := h.held path e he
    exact ⟨header, σ, r, hfile, hr, hused⟩
  · exact (Trie.insert_spec hunique e a.usedMacros [] a.tree h.asking h.used.follows).way

/-- Beside a header that is entered, preprocessing it as `S` says. -/
def Shadows (S : Setup) (P : FileId → Prop) (enter : IncludedHeaders → Tracker → Option Tracker)
    (calls : IncludedHeaders → Tracker → List AddEntry) : Prop :=
  ∀ past h s s', P h.file → Mirrors S False past s s' →
    (∀ t, enter h s = some t → ∃ t', Settles (S.direct.enterHeader · h s') t' ∧ Mirrors S False past t t') ∧
      ∀ a ∈ calls h s, a.Ok S

section Shadows
variable {S : Setup} {files : FileId → Prog} {P : FileId → Prop} {enter : IncludedHeaders → Tracker → Option Tracker}
  {calls : IncludedHeaders → Tracker → List AddEntry} {past : List Use} {s s' t : Tracker}

/-- The parent's stack is empty after a header, and as it was if the header was not found. -/
theorem Shadows.inclusionDirective (hS : S.Delayed) (henter : Shadows (S.promptly files) P enter calls)
    (parent : IncludedHeaders) {i : Inclusion} (hreach : ∀ file, i.file = some file → P file)
    (hs : Mirrors (S.promptly files) False past s.commitMacros s') :
    (∀ t, S.inclusionDirective enter parent i s = some t →
      (∃ t', Settles (fun depth => (S.promptly files).direct.inclusionDirective
        ((S.promptly files).direct.enterHeader depth) parent i s') t' ∧
        Mirrors (S.promptly files) False past t.commitMacros t') ∧
      (i.file ≠ none → t.conditionStack = {}) ∧ (i.file = none → t.conditionStack = s.conditionStack)) ∧
      ∀ a ∈ S.inclusionCalls calls parent i s, a.Ok (S.promptly files) := by
  have hprompt : (S.promptly files).Prompt := ⟨hS.caching, rfl⟩
  have hmacros : s'.macroState = s.macroState := by
    rw [hs.macroState, Tracker.commitMacros_def]
  unfold Setup.inclusionDirective Setup.inclusionCalls
  cases hi : i.file with
  | none =>
    refine ⟨fun t ht => ?_, by simp⟩
    cases ht
    refine ⟨⟨_, .const rfl, ?_⟩, by simp, fun _ => rfl⟩
    have hmissing := (Mirrors.related hprompt).missing i.fileName hs
    rw [Tracker.commitMacros_def] at hmissing ⊢
    exact hmissing
  | some file =>
    dsimp only
    by_cases honce : s.macroState (macroForPragmaOnce file) ≠ none
    · refine ⟨fun t ht => ?_, by simp [honce]⟩
      rw [if_pos honce] at ht
      cases ht
      simp only [hmacros, if_pos honce]
      have hskipped := (Mirrors.related hprompt).headerSkipped (S.included parent i file) hs
      rw [Tracker.commitMacros_eq (s.commitMacros_stack)] at hskipped
      have hstack : (S.headerSkipped s.commitMacros (S.included parent i file)).conditionStack = {} := hskipped.stack
      refine ⟨⟨_, .const rfl, ?_⟩, fun _ => hstack, by simp⟩
      rw [Tracker.commitMacros_eq hstack]
      exact hskipped
    · simp only [if_neg honce, hmacros]
      obtain ⟨hrun, hcalls⟩ := henter past (S.included parent i file) s.commitMacros s' (hreach file hi) hs
      refine ⟨fun t ht => ?_, hcalls⟩
      obtain ⟨t', ht', hr⟩ := hrun t ht
      rw [Tracker.commitMacros_eq hs.stack']
      refine ⟨⟨t', ht', ?_⟩, fun _ => hr.stack, by simp⟩
      rw [Tracker.commitMacros_eq hr.stack]
      exact hr

/-- Beside the program `p`, going through `p'` with every read reported at once. -/
def ShadowsLex (S : Setup) (files : FileId → Prog) (enter : IncludedHeaders → Tracker → Option Tracker)
    (calls : IncludedHeaders → Tracker → List AddEntry) (past : List Use) (header : IncludedHeaders) (p p' : Prog)
    (s s' : Tracker) : Prop :=
  (∀ t, S.lex enter header p s = some t → ∃ t', Settles (fun depth => (S.promptly files).direct.lex
      ((S.promptly files).direct.enterHeader depth) header p' s') t' ∧ Mirrors (S.promptly files) False past t t') ∧
    ∀ a ∈ S.lexCalls enter calls header p s, a.Ok (S.promptly files)

theorem Shadows.include (hS : S.Delayed) (henter : Shadows (S.promptly files) P enter calls) {header : IncludedHeaders}
    {i : Inclusion} (hreach : ∀ file, i.file = some file → P file) {next p' : Prog} {cs : ConditionStack}
    (hs : Mirrors (S.promptly files) False past s.commitMacros s')
    (hcs : (i.file ≠ none → {} = cs) ∧ (i.file = none → s.conditionStack = cs))
    (hnext : ∀ t t', t.conditionStack = cs → Mirrors (S.promptly files) False past t.commitMacros t' →
      ShadowsLex S files enter calls past header next p' t t') :
    ShadowsLex S files enter calls past header (.include i next) (.include i p') s s' := by
  obtain ⟨hrun, hcalls⟩ := henter.inclusionDirective hS header hreach hs
  have hstack : ∀ t, S.inclusionDirective enter header i s = some t → t.conditionStack = cs := by
    intro t ht
    obtain ⟨-, hfound, hmissing⟩ := hrun t ht
    by_cases hi : i.file = none
    · rw [hmissing hi, hcs.2 hi]
    · rw [hfound hi, hcs.1 hi]
  refine ⟨fun t ht => ?_, fun a ha => ?_⟩
  · obtain ⟨t₁, ht₁, ht⟩ := Option.bind_eq_some_iff.1 ht
    obtain ⟨⟨t₁', ht₁', hr⟩, -⟩ := hrun t₁ ht₁
    obtain ⟨t', ht', hr'⟩ := (hnext t₁ t₁' (hstack t₁ ht₁) hr).1 t ht
    exact ⟨t', ht₁'.bind ht', hr'⟩
  · rcases List.mem_append.1 ha with ha | ha
    · exact hcalls a ha
    · obtain ⟨t₁, ht₁, ha⟩ := mem_getD_map.1 ha
      obtain ⟨⟨t₁', -, hr⟩, -⟩ := hrun t₁ ht₁
      exact (hnext t₁ t₁' (hstack t₁ ht₁) hr).2 a ha

/-- A tame file reports what the prompt one does. -/
theorem Shadows.lex (hS : S.Delayed) (henter : Shadows (S.promptly files) P enter calls) {header : IncludedHeaders}
    {cs : ConditionStack} {p p' : Prog} (h : Reported header.file cs p p')
    (hreach : ∀ i file, p.Includes i → i.file = some file → P file) {s s' : Tracker} (hcs : s.conditionStack = cs)
    (hs : Mirrors (S.promptly files) False past s.commitMacros s') :
    ShadowsLex S files enter calls past header p p' s s' := by
  induction h generalizing s s' with
  | done =>
    rw [Tracker.commitMacros_eq hcs] at hs
    refine ⟨fun t ht => ?_, by simp [Setup.lexCalls]⟩
    cases ht
    exact ⟨s', .const rfl, hs⟩
  | @read cs name next next' _ ih =>
    have hmacros : s'.macroState = s.macroState := by
      rw [hs.macroState, Tracker.commitMacros_def]
    have hnext : Mirrors (S.promptly files) False past (S.macroUsed s name).commitMacros (s'.ctxMacroUsed name) := by
      rw [hS.macroUsed]
      exact hs.ctxMacroUsed name
    have hrest := ih (s.macroState name) (fun i file hi => hreach i file ⟨_, hi⟩)
      (by rw [hS.macroUsed_stack, hcs]) hnext
    simp only [ShadowsLex, Setup.lex, Setup.lexCalls, Setup.direct_prompt.macroUsed, hmacros]
    exact hrest
  | @conditional cs directive next p' hkept _ ih =>
    subst hcs
    refine ih hreach (hS.conditional_stack s directive) ?_
    rw [hS.conditional s hkept]
    exact hs
  | @define cs name value next p' _ ih =>
    have hnext := hs.ctxMacroChanged name (some value)
    rw [← hS.macroDefined] at hnext
    have hrest := ih hreach hnext.stack (by rwa [Tracker.commitMacros_eq hnext.stack])
    simp only [ShadowsLex, Setup.lex, Setup.lexCalls, Setup.direct_prompt.macroDefined hs.stack']
    exact hrest
  | @undef cs name next p' _ ih =>
    have hnext := hs.ctxMacroChanged name none
    rw [← hS.macroUndefined] at hnext
    have hrest := ih hreach hnext.stack (by rwa [Tracker.commitMacros_eq hnext.stack])
    simp only [ShadowsLex, Setup.lex, Setup.lexCalls, Setup.direct_prompt.macroUndefined hs.stack']
    exact hrest
  | @pragmaOnce cs next p' hother _ ih =>
    -- nothing is committed, but it makes no difference to commit first
    have hnext := hs.ctxMacroChanged (macroForPragmaOnce header.file) (some " 1")
    rw [← Tracker.ctxMacroChanged_commitMacros _ (hcs ▸ hother)] at hnext
    have honce : S.pragmaOnce s header.file = s.ctxMacroChanged (macroForPragmaOnce header.file) (some " 1") := by
      simp [Setup.pragmaOnce, hS.caching]
    have hrest := ih hreach (s := s.ctxMacroChanged (macroForPragmaOnce header.file) (some " 1")) hcs hnext
    simp only [ShadowsLex, Setup.lex, Setup.lexCalls, Setup.direct_prompt.pragmaOnce, honce]
    exact hrest
  | @«include» cs i next p' hfound _ ih =>
    exact henter.include hS (fun file hi => hreach i file (.inl rfl) hi) hs ⟨fun _ => rfl, fun h => absurd h hfound⟩
      fun t t' => ih fun j file hj => hreach j file (.inr hj)
  | @missing cs i next p' hmissing _ ih =>
    exact henter.include hS (fun file hi => hreach i file (.inl rfl) hi) hs
      ⟨fun h => absurd hmissing h, fun _ => hcs⟩ fun t t' => ih fun j file hj => hreach j file (.inr hj)
  | @pass cs p q p' hpass _ ih =>
    -- what was pending before the stretch is pending after it
    obtain ⟨dropped, hlex⟩ := hpass.lex hS s hcs
    obtain ⟨hlex, hcalls⟩ := hlex enter calls header
    have hsame : Mirrors (S.promptly files) False past
        (Tracker.commitMacros { s with conditionStack := cs, dropped := dropped }) s' := by
      rw [Tracker.commitMacros_def] at hs ⊢
      rw [hcs] at hs
      exact ⟨hs.macroState, hs.stack, hs.stack', hs.used, hs.changed, hs.headers, hs.cache, hs.hits, hs.grown⟩
    have hrest := ih (fun i file hi => hreach i file (hpass.includes hi))
      (s := { s with conditionStack := cs, dropped := dropped }) rfl hsame
    simp only [ShadowsLex, hlex, hcalls]
    exact hrest

theorem noteUsed_twice {changed : List MacroName} {used : List Macro} {m m' : Macro} (h : m'.1 = m.1) :
    noteUsed changed (noteUsed changed used m) m' = noteUsed changed used m := by
  refine if_pos ?_
  by_cases hknown : m.1 ∈ changed ∨ m.1 ∈ used.map (·.1)
  · rw [noteUsed, if_pos hknown, h]
    exact hknown
  · rw [noteUsed, if_neg hknown, h]
    simp

/-- Macros that are noted in a header of their own come to the parent as they are. -/
theorem HeaderCtx.propagate_pair (ctx : HeaderCtx) (m m' : Macro) :
    ctx.propagate ((macroUsed {} m).macroUsed m').usedHere [] [] = (ctx.macroUsed m).macroUsed m' := by
  have hfirst : noteUsed [] [] m = [m] := by simp [noteUsed]
  rw [propagate_eq]
  simp only [macroUsed_eq, List.foldl_nil]
  by_cases hname : m'.1 = m.1
  · -- the second is the first again
    rw [noteUsed_twice hname, noteUsed_twice hname, hfirst]
    rfl
  · have hsecond : noteUsed [] [m] m' = [m, m'] := by simp [noteUsed, hname]
    rw [hfirst, hsecond]
    rfl

/-- To skip a header for its guard is to note what entering it would. -/
theorem direct_guarded {S : Setup} {h : IncludedHeaders} {name : MacroName} (hguard : (S.files h.file).GuardedBy name)
    {s : Tracker} (hdefined : (s.macroState name).isSome) :
    Settles (S.direct.enterHeader · h s)
      (((s.ctxMacroUsed (macroForPragmaOnce h.file)).ctxMacroUsed name).addHeader (S.makeHeader h)) := by
  obtain ⟨next, hread, hdone⟩ := hguard
  obtain ⟨value, hvalue⟩ := Option.isSome_iff_exists.1 hdefined
  have hlex : ∀ depth, S.direct.lex (S.direct.enterHeader depth) h (S.files h.file) (s.enterFile h.file) =
      some ((s.enterFile h.file).ctxMacroUsed name) := by
    intro depth
    have hsame : (s.enterFile h.file).macroState name = some value := hvalue
    rw [hread]
    simp only [Setup.lex, Setup.direct_prompt.macroUsed, hsame, hdone]
  have hctx := s.ctx.propagate_pair (macroForPragmaOnce h.file, s.macroState (macroForPragmaOnce h.file))
    (name, s.macroState name)
  have hleave := Setup.direct_settles ⟨0, fun depth _ => hlex depth⟩
  have hsame : S.direct.leaveHeader s h ((s.enterFile h.file).ctxMacroUsed name) =
      ((s.ctxMacroUsed (macroForPragmaOnce h.file)).ctxMacroUsed name).addHeader (S.makeHeader h) := by
    rw [Setup.direct_leaveHeader]
    simp only [Tracker.enterFile, Tracker.ctxMacroUsed, ← hctx]
    simp [HeaderCtx.macroUsed_eq]
  rwa [hsame] at hleave

/-- A header that is preprocessed is left, and what it used is added to its tree. -/
theorem leaveCalls_ok {header : IncludedHeaders} {r : Tracker}
    (hcache : CacheOk S False t.cache) (hr : Preprocesses S header s.macroState r)
    (hused : r.ctx.usedHere = t.ctx.usedHere) : ∀ a ∈ S.leaveCalls header t, a.Ok S := by
  intro a ha
  unfold Setup.leaveCalls at ha
  split at ha
  · obtain rfl := List.mem_singleton.1 ha
    exact ⟨⟨header, s.macroState, r, rfl, hr, hused⟩, (hcache header.file).1, (hcache header.file).2⟩
  · cases ha

/-- The files of `P` report at once what those of `S` report late. They include none but each other. -/
structure Setup.Promptly (S : Setup) (files : FileId → Prog) (guard : ControllingMacro) (P : FileId → Prop) : Prop where
  reported {file} : P file → Reported file {} (S.files file) (files file)
  guarded {file} : P file → ∀ g ∈ guard file, (files file).GuardedBy g
  includes {i file includer} : P includer → (S.files includer).Includes i → i.file = some file → P file

/-- Every header is skipped, replayed or preprocessed as the prompt files say. -/
theorem shadows_includeHeader (hS : S.Delayed) (henabled : S.caching = .enabled) {guard : ControllingMacro}
    (hfiles : S.Promptly files guard P) (known : Known) (depth : Nat) :
    Shadows (S.promptly files) P (S.includeHeader guard known depth) (S.includeCalls guard known depth) := by
  induction depth with
  | zero =>
    intro past h s s' hP hs
    simp [Setup.includeHeader, Setup.includeCalls]
  | succ depth ih =>
    intro past h s s' hP hs
    -- as in `includeHeader`: for its guard, from the cache, or for real
    unfold Setup.includeHeader Setup.includeCalls
    cases hskip : Setup.skippedFor guard known s h.file with
    | some name =>
      refine ⟨fun t ht => ?_, by simp⟩
      obtain ⟨hguard, hdefined⟩ := Option.filter_eq_some_iff.1 hskip
      have hdefined : (s'.macroState name).isSome := by
        rw [hs.macroState]
        exact (Bool.and_eq_true_iff.1 hdefined).2
      have hsettles := direct_guarded (S := S.promptly files) (hfiles.guarded hP name hguard) hdefined
      have hskipped := ((hs.ctxMacroUsed (macroForPragmaOnce h.file)).ctxMacroUsed name).addHeader (S.makeHeader h)
      have ht' : S.headerGuarded s h name = t := Option.some.inj ht
      rw [Setup.headerGuarded, if_neg hS.caching] at ht'
      exact ⟨_, hsettles, ht' ▸ hskipped⟩
    | none =>
      obtain ⟨hcache, hhit⟩ := hs.cache.findEntry h.file s.macroState
      have hfind : S.findEntry s h.file = s.cache.findEntry S.expired h.file S.searchPathId s.macroState := by
        simp [Setup.findEntry, henabled]
      change CacheOk _ _ (s.cache.findEntry S.expired h.file S.searchPathId s.macroState).2 at hcache
      change ∀ hit, (s.cache.findEntry S.expired h.file S.searchPathId s.macroState).1 = some hit → _ at hhit
      rw [← hfind] at hcache hhit
      dsimp only
      generalize S.findEntry s h.file = found at hcache hhit ⊢
      obtain ⟨hit, cache⟩ := found
      cases hit with
      | some hit =>
        refine ⟨fun t ht => ?_, by simp⟩
        cases ht
        -- the values on the way to the entry are those of now, so that the entry says what happens now
        obtain ⟨hentry, hagree⟩ := hhit hit rfl
        obtain ⟨r, hr⟩ := hentry.replays hagree
        have hpre : Preprocesses (S.promptly files) h s'.macroState r := hs.macroState.symm ▸ hr.preprocesses
        obtain ⟨t', ht', hmacros', hctx', hstack'⟩ := hpre.lex hs.stack'
        refine ⟨_, Setup.direct_settles ht', ?_⟩
        exact hs.leaveWithEntry rfl hs.stack List.prefix_rfl hs.hits hcache hr hr.macroState.1 (fun _ => rfl) hmacros'
          hctx' hstack'
      | none =>
        have hentered := hs.enterFile hcache h.file
        have hlex := ih.lex hS (hfiles.reported hP) (fun i file => hfiles.includes hP) hentered.stack
          (by rwa [Tracker.commitMacros_eq hentered.stack])
        obtain ⟨hrun, hcalls⟩ := hlex
        refine ⟨fun t ht => ?_, fun a ha => ?_⟩
        · obtain ⟨t₁, ht₁, rfl⟩ := Option.map_eq_some_iff.1 ht
          obtain ⟨t₁', ht₁', hmirrors⟩ := hrun t₁ ht₁
          exact ⟨_, Setup.direct_settles ht₁', hs.leaveHeader hmirrors ht₁'⟩
        · rcases List.mem_append.1 ha with ha | ha
          · exact hcalls a ha
          · obtain ⟨t₁, ht₁, ha⟩ := mem_getD_map.1 ha
            obtain ⟨t₁', ⟨n, hn⟩, hmirrors⟩ := hrun t₁ ht₁
            obtain ⟨r, hr, -, hctx⟩ := preprocesses_of_lex hs.stack' (hn n (Nat.le_refl n))
            rw [hs.macroState] at hr
            exact leaveCalls_ok (hmirrors.cache.imp False.elim) hr (by rw [hctx, hmirrors.used]) a ha

end Shadows

/-! ## Scans -/

/-- What a scan keeps of the cache in the source itself, which need not be tame. -/
structure Kept (S : Setup) (s : Tracker) : Prop where
  cache : CacheOk S False s.cache
  hits : ∀ u ∈ s.uses, u.found = true → ∃ r, Replays S False u.header u.macroState u.usedMacros u.entry r

namespace Kept
variable {S : Setup} {files : FileId → Prog} {P : FileId → Prop} {s t : Tracker}

theorem congr (h : Kept S s) (hcache : t.cache = s.cache) (huses : t.uses = s.uses) : Kept S t :=
  ⟨hcache ▸ h.cache, huses ▸ h.hits⟩

theorem commitMacros (h : Kept S s) : Kept S s.commitMacros := by
  rw [Tracker.commitMacros_def]
  exact h.congr rfl rfl

/-- Only headers are compared, not what comes before them. -/
theorem mirrors (h : Kept S s) : Mirrors S False [] s.commitMacros s.commitMacros := by
  have hkept := h.commitMacros
  refine ⟨rfl, s.commitMacros_stack, s.commitMacros_stack, rfl, rfl, fun _ => rfl, hkept.cache.imp And.left, ?_,
    List.nil_prefix⟩
  intro u hu hfound
  obtain ⟨r, hr⟩ := hkept.hits u hu hfound
  exact ⟨r, hr.imp And.left⟩

theorem of_mirrors {past : List Use} (h : Mirrors S False past s t) : Kept S s := by
  refine ⟨h.cache.imp False.elim, fun u hu hfound => ?_⟩
  obtain ⟨r, hr⟩ := h.hits u hu hfound
  exact ⟨r, hr.imp False.elim⟩

theorem of_commitMacros (h : Kept S s.commitMacros) : Kept S s := by
  rw [Tracker.commitMacros_def] at h
  exact h.congr rfl rfl

theorem lex (hS : S.Delayed) {enter : IncludedHeaders → Tracker → Option Tracker}
    {calls : IncludedHeaders → Tracker → List AddEntry} (henter : Shadows (S.promptly files) P enter calls)
    (header : IncludedHeaders) (prog : Prog) (hreach : ∀ i file, prog.Includes i → i.file = some file → P file)
    (h : Kept (S.promptly files) s) :
    (∀ t, S.lex enter header prog s = some t → Kept (S.promptly files) t) ∧
      ∀ a ∈ S.lexCalls enter calls header prog s, a.Ok (S.promptly files) := by
  induction prog generalizing s with
  | done =>
    refine ⟨fun t ht => ?_, by simp [Setup.lexCalls]⟩
    cases ht
    exact h
  | read name next ih =>
    refine ih (s.macroState name) (fun i file hi => hreach i file ⟨_, hi⟩) (of_commitMacros ?_)
    rw [hS.macroUsed]
    exact h.commitMacros.congr rfl rfl
  | conditional directive next ih =>
    refine ih hreach (h.congr ?_ ?_)
    · simp [Setup.conditional, hS.immediate, Tracker.handle, foldl_ctxMacroUsed]
    · simp [Setup.conditional, hS.immediate, Tracker.handle, foldl_ctxMacroUsed]
  | define name value next ih =>
    refine ih hreach ?_
    rw [hS.macroDefined]
    exact h.commitMacros.congr rfl rfl
  | undef name next ih =>
    refine ih hreach ?_
    rw [hS.macroUndefined]
    exact h.commitMacros.congr rfl rfl
  | pragmaOnce next ih =>
    refine ih hreach ?_
    simp only [Setup.pragmaOnce, if_neg hS.caching]
    exact h.congr rfl rfl
  | «include» i next ih =>
    have hnext : ∀ j file, next.Includes j → j.file = some file → P file := fun j file hj => hreach j file (.inr hj)
    obtain ⟨hrun, hcalls⟩ := henter.inclusionDirective hS header (i := i)
      (fun file hi => hreach i file (.inl rfl) hi) h.mirrors
    have hleft : ∀ t, S.inclusionDirective enter header i s = some t → Kept (S.promptly files) t := by
      intro t ht
      obtain ⟨⟨t', -, hmirrors⟩, -⟩ := hrun t ht
      exact of_commitMacros (of_mirrors hmirrors)
    refine ⟨fun t ht => ?_, fun a ha => ?_⟩
    · obtain ⟨t₁, ht₁, ht⟩ := Option.bind_eq_some_iff.1 ht
      exact (ih hnext (hleft t₁ ht₁)).1 t ht
    · rcases List.mem_append.1 ha with ha | ha
      · exact hcalls a ha
      · obtain ⟨t₁, ht₁, ha⟩ := mem_getD_map.1 ha
        exact (ih hnext (hleft t₁ ht₁)).2 a ha

end Kept

section Calls
variable {S : Setup} {files : FileId → Prog} {P : FileId → Prop} {guard : ControllingMacro}

theorem scanCalls_ok (hS : S.Delayed) (henabled : S.caching = .enabled) (hfiles : S.Promptly files guard P)
    (depth turns : Nat) (scans : List (Known × Call)) (hcalls : ∀ scan ∈ scans, scan.2.setup = S) {caches : Caches}
    (hreach : ∀ call ∈ Call.preprocessed turns (scans.map (·.2)) caches.naive, ∀ i file, call.source.prog.Includes i →
      i.file = some file → P file)
    (hcache : CacheOk (S.promptly files) False caches.cache) :
    ∀ a ∈ scanCalls guard depth turns scans caches, a.Ok (S.promptly files) := by
  induction scans generalizing caches with
  | nil => simp [scanCalls]
  | cons scan scans ih =>
    obtain ⟨known, call⟩ := scan
    obtain rfl : call.setup = S := hcalls _ List.mem_cons_self
    have hrest : ∀ scan ∈ scans, scan.2.setup = call.setup :=
      fun scan hscan => hcalls scan (List.mem_cons_of_mem _ hscan)
    simp only [List.map_cons, Call.preprocessed] at hreach
    rw [scanCalls]
    split
    · simp
    · next headers naive hrun =>
      rw [hrun] at hreach
      exact ih hrest hreach hcache
    · next naive hrun =>
      rw [hrun] at hreach
      have hstart : Kept (call.setup.promptly files)
          (Tracker.enterFile { cache := caches.cache } call.source.main.file) :=
        ⟨hcache, by simp [Tracker.enterFile, Tracker.ctxMacroUsed]⟩
      obtain ⟨hlex, hown⟩ := hstart.lex hS (shadows_includeHeader hS henabled hfiles known depth) call.source.main
        call.source.prog (hreach _ List.mem_cons_self)
      intro a ha
      rcases List.mem_append.1 ha with ha | ha
      · exact hown a ha
      · obtain ⟨t, ht, ha⟩ := mem_getD_map.1 ha
        -- Later calls find in the cache what this one has left there.
        exact ih hrest (fun call hcall => hreach call (List.mem_cons_of_mem _ hcall)) (hlex t ht).cache a ha

end Calls

/-! ## Headers that are tame, and one that is not -/

/-- A scan with the macros defined, of a source that includes `h.h` by way of another. -/
def defining (S : Setup) (text : FileId → List Naive.Token) (macros : List MacroName) : Known × Call where
  fst _ _ := false
  snd := {
    setup := S
    source := {
      main := ⟨⟨"/p", "main.cpp"⟩, true, ⟨0, 0⟩⟩
      prog := macros.foldr (fun name => .define name "1") (computedInclude (nextTo "h.h" ⟨0, 1⟩)) }
    text := fun file => if file = ⟨0, 0⟩ then computedText else text file
    lookupFile := fun name _ _ =>
      if name = "h.h" then some ⟨⟨0, 1⟩, "/p", "h.h"⟩ else if name = "n.h" then some ⟨⟨0, 2⟩, "/p", "n.h"⟩ else none
    name := fun _ => "main.cpp" }

/-- The text of an `#ifdef` block. -/
def blockText (name : MacroName) (text : List Naive.Token) : List Naive.Token :=
  [.hash true, .rawIdentifier "ifdef", .rawIdentifier name] ++ text ++ [.hash true, .rawIdentifier "endif"]

/-- An `#ifdef` block; `text` is what is in it. -/
def ifDefined (name : MacroName) (text : List RawToken) (block : Prog → Prog) (next : Prog) : Prog :=
  .read name fun value =>
    if value.isSome then .conditional (.if_ true) (block (.conditional (.endif text) next))
    else .conditional (.if_ false) (.conditional (.endif text) next)

def defineText (name : MacroName) : List RawToken := [.hash true, .rawIdentifier "define", .rawIdentifier name]

/-- An empty block is passed, whether or not the macro is defined. -/
theorem ifDefined_passes {cs : ConditionStack} {name : MacroName} {text : List RawToken} {next : Prog}
    (hmacros : cs.macros = []) (htext : skippable text) : Passes cs next cs (ifDefined name text id next) := by
  have hend : ∀ taken : Bool, (((cs.addMacro name).directive (.if_ taken)).stack.directive (.endif text)) =
      { stack := cs, dropped := [name] } := by
    intro taken
    obtain ⟨macros, conditions⟩ := cs
    cases hmacros
    simp [ConditionStack.directive, ConditionStack.addMacro, ConditionStack.ifDirective, ConditionStack.endifDirective,
      ConditionStack.takeMacros, ConditionStack.ifLastConditionSkippable, htext]
  have hpass : ∀ taken : Bool, Passes cs next (cs.addMacro name)
      (.conditional (.if_ taken) (.conditional (.endif text) next)) := by
    intro taken
    refine .conditional rfl (.conditional (by rw [hend]) ?_)
    rw [hend]
    exact .here
  refine .read fun value => ?_
  cases value with
  | none => exact hpass false
  | some value => exact hpass true

/-- `#ifdef A`, nothing and `#endif`, then `#ifdef B`, `#define Y` and `#endif`. -/
def tidy : Setup where
  files file :=
    if file = ⟨0, 1⟩ then ifDefined "A" [] id (ifDefined "B" (defineText "Y") (.define "Y" "1") .done)
    else .done
  dirName _ := "/p"
  contentEntry _ := ""

def tidyText (file : FileId) : List Naive.Token :=
  if file = ⟨0, 1⟩ then
    blockText "A" [] ++ blockText "B" [.hash true, .rawIdentifier "define", .rawIdentifier "Y", .other]
  else []

theorem tidy_tame (file : FileId) : (tidy.files file).Tame file (unguarded file) := by
  by_cases hfile : file = ⟨0, 1⟩
  · refine ⟨.read "B" fun value => if value.isSome then .define "Y" "1" .done else .done, ?_, by simp [unguarded]⟩
    simp only [tidy, if_pos hfile]
    refine .pass (ifDefined_passes rfl rfl) (.read fun value => ?_)
    cases value with
    | none => exact .conditional rfl (.conditional rfl .done)
    | some v => exact .conditional rfl (.define (.conditional rfl .done))
  · simp only [tidy, if_neg hfile]
    exact ⟨.done, .done, by simp [unguarded]⟩

def onceMacro (file : FileId) : Macro := (macroForPragmaOnce file, none)

/-- Three scans of the source, with the macros `A`, `B` and both. -/
def tidyScans : List (Known × Call) :=
  [defining tidy tidyText ["A"], defining tidy tidyText ["B"], defining tidy tidyText ["A", "B"]]

/-- `h.h` includes `n.h`, whose one line is `#line M`; then comes `#ifdef X`, `#define Y` and `#endif`. -/
def leaky : Setup where
  files file :=
    if file = ⟨0, 1⟩ then .include (nextTo "n.h" ⟨0, 2⟩) (ifDefined "X" (defineText "Y") (.define "Y" "1") .done)
    else if file = ⟨0, 2⟩ then .read "M" fun _ => .done
    else .done
  dirName _ := "/p"
  contentEntry _ := ""

def leakyText (file : FileId) : List Naive.Token :=
  if file = ⟨0, 1⟩ then
    Naive.IncludeDirective.tokens ⟨"n.h", false⟩ ++
      blockText "X" [.hash true, .rawIdentifier "define", .rawIdentifier "Y", .other]
  else if file = ⟨0, 2⟩ then [.hash true, .rawIdentifier "line", .rawIdentifier "M"]
  else []

/-- Two scans of the source, with the macro `M`, and with `M` and `X`. -/
def leakyScans : List (Known × Call) := [defining leaky leakyText ["M"], defining leaky leakyText ["M", "X"]]

end BuildPal.Scanner
