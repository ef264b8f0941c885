import BuildPal.Scanner.Scans
/-!
# Preprocessing a header

What preprocessing a header does without the cache: the macros noted as used are
asked in an order that only depends on the values of those asked before, and
everything the header does depends only on their values.
-/
open BuildPal.Lib

namespace BuildPal.Scanner

/-! ## What is noted in a header -/

/-- What `HeaderCtx::macroUsed` does to `usedHere`. -/
def noteUsed (changed : List MacroName) (used : List Macro) (m : Macro) : List Macro :=
  if m.1 ∈ changed ∨ m.1 ∈ used.map (·.1) then used else used ++ [m]

def noteAll (changed : List MacroName) (used new : List Macro) : List Macro := new.foldl (noteUsed changed) used

section Notes
variable {changed : List MacroName} {used new : List Macro} {m : Macro}

theorem noteUsed_new (hc : m.1 ∉ changed) (hu : m.1 ∉ used.map (·.1)) : noteUsed changed used m = used ++ [m] := by
  simp only [noteUsed, if_neg (not_or.2 ⟨hc, hu⟩)]

theorem noteUsed_grows (changed : List MacroName) (used : List Macro) (m : Macro) :
    used <+: noteUsed changed used m := by
  unfold noteUsed
  split
  · exact List.prefix_rfl
  · exact List.prefix_append _ _

theorem noteAll_grows (changed : List MacroName) (used new : List Macro) : used <+: noteAll changed used new := by
  induction new generalizing used with
  | nil => exact List.prefix_rfl
  | cons m new ih => exact (noteUsed_grows changed used m).trans (ih _)

theorem mem_noteUsed {m' : Macro} (h : m' ∈ noteUsed changed used m) : m' ∈ used ∨ m' = m ∧ m.1 ∉ changed := by
  unfold noteUsed at h
  split at h
  · exact .inl h
  · next hnew =>
    rcases List.mem_append.1 h with h | h
    · exact .inl h
    · exact .inr ⟨List.mem_singleton.1 h, fun hc => hnew (.inl hc)⟩

theorem mem_noteAll {m' : Macro} (h : m' ∈ noteAll changed used new) : m' ∈ used ∨ m' ∈ new ∧ m'.1 ∉ changed := by
  induction new generalizing used with
  | nil => exact .inl h
  | cons m new ih =>
    rcases ih h with h | ⟨h, hc⟩
    · rcases mem_noteUsed h with h | ⟨rfl, hc⟩
      · exact .inl h
      · exact .inr ⟨List.mem_cons_self, hc⟩
    · exact .inr ⟨List.mem_cons_of_mem _ h, hc⟩

theorem noteUsed_nodup (h : (used.map (·.1)).Nodup) : ((noteUsed changed used m).map (·.1)).Nodup := by
  unfold noteUsed
  split
  · exact h
  · next hnew =>
    rw [List.map_append, List.nodup_append]
    refine ⟨h, by simp, ?_⟩
    intro name hname name' hname' heq
    simp only [List.map_cons, List.map_nil, List.mem_singleton] at hname'
    exact hnew (.inr (hname' ▸ heq ▸ hname))

theorem noteAll_nodup (h : (used.map (·.1)).Nodup) : ((noteAll changed used new).map (·.1)).Nodup := by
  induction new generalizing used with
  | nil => exact h
  | cons m new ih => exact ih (noteUsed_nodup h)

/-- A macro that comes up for the first time is noted after what was noted before. -/
theorem noteAll_split {before rest : List Macro} (hc : m.1 ∉ changed) (hu : m.1 ∉ used.map (·.1))
    (hb : m.1 ∉ before.map (·.1)) :
    ∃ rest', noteAll changed used (before ++ m :: rest) = noteAll changed used before ++ m :: rest' := by
  have hnew : m.1 ∉ (noteAll changed used before).map (·.1) := by
    intro h
    obtain ⟨m', hm', heq⟩ := List.mem_map.1 h
    rcases mem_noteAll hm' with hm' | ⟨hm', -⟩
    · exact hu (List.mem_map.2 ⟨m', hm', heq⟩)
    · exact hb (List.mem_map.2 ⟨m', hm', heq⟩)
  have hsplit : noteAll changed used (before ++ m :: rest) =
      noteAll changed (noteAll changed used before ++ [m]) rest := by
    have hm := noteUsed_new hc hnew
    simp only [noteAll, List.foldl_append, List.foldl_cons] at hm ⊢
    rw [hm]
  obtain ⟨rest', hrest⟩ := noteAll_grows changed (noteAll changed used before ++ [m]) rest
  exact ⟨rest', by rw [hsplit, ← hrest]; simp⟩

end Notes

namespace HeaderCtx
variable (ctx : HeaderCtx)

theorem macroUsed_eq (m : Macro) :
    ctx.macroUsed m = { ctx with usedHere := noteUsed ctx.changedHere ctx.usedHere m } := by
  unfold macroUsed noteUsed
  split <;> rfl

theorem foldl_macroUsed (used : List Macro) :
    used.foldl macroUsed ctx = { ctx with usedHere := noteAll ctx.changedHere ctx.usedHere used } := by
  induction used generalizing ctx with
  | nil => rfl
  | cons m used ih =>
    rw [List.foldl_cons, ih, macroUsed_eq]
    rfl

theorem foldl_macroChanged (names : List MacroName) :
    names.foldl macroChanged ctx = { ctx with changedHere := names.foldl (fun c n => c.insert n) ctx.changedHere } := by
  induction names generalizing ctx with
  | nil => rfl
  | cons name names ih =>
    rw [List.foldl_cons, ih]
    rfl

theorem foldl_addHeader (headers : List Header) :
    headers.foldl addHeader ctx = { ctx with includedHeaders := headers.foldl insertHeader ctx.includedHeaders } := by
  induction headers generalizing ctx with
  | nil => rfl
  | cons header headers ih =>
    rw [List.foldl_cons, ih]
    rfl

/-- What a header hands to its parent. -/
theorem propagate_eq (used : List Macro) (changed : List MacroName) (headers : List Header) :
    ctx.propagate used changed headers =
      { usedHere := noteAll ctx.changedHere ctx.usedHere used
        changedHere := changed.foldl (fun c n => c.insert n) ctx.changedHere
        includedHeaders := headers.foldl insertHeader ctx.includedHeaders } := by
  simp only [propagate, foldl_macroUsed, foldl_macroChanged, foldl_addHeader]

end HeaderCtx

theorem mem_foldl_insert {names : List MacroName} {changed : List MacroName} {name : MacroName} :
    name ∈ names.foldl (fun c n => c.insert n) changed ↔ name ∈ changed ∨ name ∈ names := by
  induction names generalizing changed with
  | nil => simp
  | cons n names ih =>
    rw [List.foldl_cons, ih, List.mem_insert_iff, List.mem_cons]
    tauto

/-! ## Reporting at once -/

/-- Macro reads are reported when they happen. -/
structure Setup.Prompt (S : Setup) : Prop where
  caching : S.caching ≠ .disabled
  immediate : S.immediate = true

section Prompt
variable {S : Setup} {s : Tracker}

theorem Tracker.commitMacros_eq (h : s.conditionStack = {}) : s.commitMacros = s := by
  cases s
  cases h
  simp [commitMacros, handle, ConditionStack.commit, ConditionStack.pending]

namespace Setup.Prompt
variable (hS : S.Prompt)
include hS

theorem macroUsed (name : MacroName) : S.macroUsed s name = s.ctxMacroUsed name := by
  simp [Setup.macroUsed, hS.caching, hS.immediate]

theorem conditional (directive : Directive) : S.conditional s directive = s := by
  simp [Setup.conditional, hS.immediate]

theorem macroDefined (h : s.conditionStack = {}) (name : MacroName) (value : String) :
    S.macroDefined s name value = s.ctxMacroChanged name (some value) := by
  simp [Setup.macroDefined, hS.caching, Tracker.commitMacros_eq h]

theorem macroUndefined (h : s.conditionStack = {}) (name : MacroName) :
    S.macroUndefined s name = s.ctxMacroChanged name none := by
  simp [Setup.macroUndefined, hS.caching, Tracker.commitMacros_eq h]

theorem pragmaOnce (file : FileId) :
    S.pragmaOnce s file = s.ctxMacroChanged (macroForPragmaOnce file) (some " 1") := by
  simp [Setup.pragmaOnce, hS.caching]

theorem headerSkipped (h : IncludedHeaders) :
    S.headerSkipped s h = (s.ctxMacroUsed (macroForPragmaOnce h.file)).addHeader (S.makeHeader h) := by
  simp [Setup.headerSkipped, hS.caching]

end Setup.Prompt

end Prompt

/-! ## In a header -/

/-- The tracker while a header is preprocessed that was entered with the macros `σ`. -/
structure Since (σ : MacroState) (s : Tracker) : Prop where
  stack : s.conditionStack = {}
  unchanged : ∀ name, name ∉ s.ctx.changedHere → s.macroState name = σ name
  values : ∀ m ∈ s.ctx.usedHere, m.2 = σ m.1
  nodup : (s.ctx.usedHere.map (·.1)).Nodup

namespace Since
variable {σ : MacroState} {s t : Tracker}

theorem enterFile (h : s.conditionStack = {}) (file : FileId) : Since s.macroState (s.enterFile file) := by
  refine ⟨h, fun name _ => rfl, ?_, ?_⟩
  · simp [Tracker.enterFile, Tracker.ctxMacroUsed, HeaderCtx.macroUsed_eq, noteUsed]
  · simp [Tracker.enterFile, Tracker.ctxMacroUsed, HeaderCtx.macroUsed_eq, noteUsed]

theorem ctxMacroUsed (h : Since σ s) (name : MacroName) : Since σ (s.ctxMacroUsed name) := by
  have hctx : (s.ctxMacroUsed name).ctx.usedHere =
      noteUsed s.ctx.changedHere s.ctx.usedHere (name, s.macroState name) := by
    simp [Tracker.ctxMacroUsed, HeaderCtx.macroUsed_eq]
  have hchanged : (s.ctxMacroUsed name).ctx.changedHere = s.ctx.changedHere := by
    simp [Tracker.ctxMacroUsed, HeaderCtx.macroUsed_eq]
  refine ⟨h.stack, by rw [hchanged]; exact h.unchanged, ?_, by rw [hctx]; exact noteUsed_nodup h.nodup⟩
  intro m hm
  rw [hctx] at hm
  rcases mem_noteUsed hm with hm | ⟨rfl, hc⟩
  · exact h.values m hm
  · exact h.unchanged name hc

theorem ctxMacroChanged (h : Since σ s) (name : MacroName) (value : MacroValue) :
    Since σ (s.ctxMacroChanged name value) := by
  refine ⟨h.stack, ?_, h.values, h.nodup⟩
  intro n hn
  simp only [Tracker.ctxMacroChanged, HeaderCtx.macroChanged, List.mem_insert_iff, not_or] at hn
  simp only [Tracker.ctxMacroChanged, MacroState.defineMacro, if_neg hn.1]
  exact h.unchanged n hn.2

theorem addHeader (h : Since σ s) (header : Header) : Since σ (s.addHeader header) :=
  ⟨h.stack, h.unchanged, h.values, h.nodup⟩

/-- Back in the parent, when a header is left. -/
theorem propagate (h : Since σ s) (ht : Since s.macroState t) :
    Since σ { t with ctx := s.ctx.propagate t.ctx.usedHere t.ctx.changedHere t.ctx.includedHeaders } := by
  rw [HeaderCtx.propagate_eq]
  refine ⟨ht.stack, ?_, ?_, noteAll_nodup h.nodup⟩
  · intro name hname
    simp only [mem_foldl_insert, not_or] at hname
    calc t.macroState name = s.macroState name := ht.unchanged name hname.2
      _ = σ name := h.unchanged name hname.1
  · intro m hm
    rcases mem_noteAll hm with hm | ⟨hm, hc⟩
    · exact h.values m hm
    · rw [ht.values m hm, h.unchanged m.1 hc]

end Since

/-! ## Without the cache -/

/-- Every header is preprocessed. -/
def Setup.direct (S : Setup) : Setup := { S with caching := .bypassed, immediate := true }

variable {S : Setup}

theorem Setup.direct_prompt : S.direct.Prompt := ⟨by simp [direct], rfl⟩

theorem Setup.direct_leaveHeader (s : Tracker) (h : IncludedHeaders) (t : Tracker) :
    S.direct.leaveHeader s h t =
      Tracker.addHeader { t with
        ctx := s.ctx.propagate t.ctx.usedHere t.ctx.changedHere t.ctx.includedHeaders } (S.makeHeader h) := by
  simp [leaveHeader, direct, makeHeader]

theorem Setup.direct_enterHeader (depth : Nat) (h : IncludedHeaders) (s : Tracker) :
    S.direct.enterHeader (depth + 1) h s =
      (S.direct.lex (S.direct.enterHeader depth) h (S.files h.file) (s.enterFile h.file)).map
        (S.direct.leaveHeader s h) := by
  simp [enterHeader, findEntry, direct]

/-- Nothing that was noted as used is forgotten. -/
def Stays (enter : IncludedHeaders → Tracker → Option Tracker) : Prop :=
  ∀ σ h s t, Since σ s → enter h s = some t → Since σ t ∧ s.ctx.usedHere <+: t.ctx.usedHere

theorem usedHere_ctxMacroUsed (s : Tracker) (name : MacroName) : s.ctx.usedHere <+: (s.ctxMacroUsed name).ctx.usedHere := by
  simp only [Tracker.ctxMacroUsed, HeaderCtx.macroUsed_eq]
  exact noteUsed_grows _ _ _

theorem Stays.inclusionDirective {enter : IncludedHeaders → Tracker → Option Tracker} (henter : Stays enter)
    {σ : MacroState} {h : IncludedHeaders} {i : Inclusion} {s t : Tracker} (hs : Since σ s)
    (ht : S.direct.inclusionDirective enter h i s = some t) : Since σ t ∧ s.ctx.usedHere <+: t.ctx.usedHere := by
  unfold Setup.inclusionDirective at ht
  rw [Tracker.commitMacros_eq hs.stack] at ht
  cases hi : i.file with
  | none =>
    simp only [hi, Option.some.injEq] at ht
    subst ht
    exact ⟨⟨hs.stack, hs.unchanged, hs.values, hs.nodup⟩, List.prefix_rfl⟩
  | some file =>
    simp only [hi] at ht
    split at ht
    · rw [Setup.direct_prompt.headerSkipped, Option.some.injEq] at ht
      subst ht
      exact ⟨(hs.ctxMacroUsed _).addHeader _, usedHere_ctxMacroUsed s _⟩
    · exact henter σ _ s t hs ht

theorem Stays.lex {enter : IncludedHeaders → Tracker → Option Tracker} (henter : Stays enter) {σ : MacroState}
    (h : IncludedHeaders) (prog : Prog) {s t : Tracker} (hs : Since σ s) (ht : S.direct.lex enter h prog s = some t) :
    Since σ t ∧ s.ctx.usedHere <+: t.ctx.usedHere := by
  induction prog generalizing s with
  | done =>
    cases ht
    exact ⟨hs, List.prefix_rfl⟩
  | read name next ih =>
    simp only [Setup.lex, Setup.direct_prompt.macroUsed] at ht
    obtain ⟨ht', hpre⟩ := ih _ (hs.ctxMacroUsed name) ht
    exact ⟨ht', (usedHere_ctxMacroUsed s name).trans hpre⟩
  | conditional directive next ih =>
    simp only [Setup.lex, Setup.direct_prompt.conditional] at ht
    exact ih hs ht
  | define name value next ih =>
    simp only [Setup.lex, Setup.direct_prompt.macroDefined hs.stack] at ht
    have hrest := ih (hs.ctxMacroChanged name (some value)) ht
    exact hrest
  | undef name next ih =>
    simp only [Setup.lex, Setup.direct_prompt.macroUndefined hs.stack] at ht
    have hrest := ih (hs.ctxMacroChanged name none) ht
    exact hrest
  | pragmaOnce next ih =>
    simp only [Setup.lex, Setup.direct_prompt.pragmaOnce] at ht
    have hrest := ih (hs.ctxMacroChanged _ _) ht
    exact hrest
  | «include» i next ih =>
    obtain ⟨t₁, ht₁, ht⟩ := Option.bind_eq_some_iff.1 ht
    obtain ⟨hs₁, hpre⟩ := henter.inclusionDirective hs ht₁
    obtain ⟨ht', hpre'⟩ := ih hs₁ ht
    exact ⟨ht', hpre.trans hpre'⟩

theorem stays_enterHeader (depth : Nat) : Stays (S.direct.enterHeader depth) := by
  induction depth with
  | zero => simp [Stays, Setup.enterHeader]
  | succ depth ih =>
    intro σ h s t hs ht
    rw [Setup.direct_enterHeader] at ht
    obtain ⟨t₁, ht₁, rfl⟩ := Option.map_eq_some_iff.1 ht
    obtain ⟨hs₁, -⟩ := ih.lex h _ (Since.enterFile hs.stack h.file) ht₁
    rw [Setup.direct_leaveHeader]
    refine ⟨(hs.propagate hs₁).addHeader _, ?_⟩
    simp only [Tracker.addHeader, HeaderCtx.addHeader, HeaderCtx.propagate_eq]
    exact noteAll_grows _ _ _

/-! ## Two runs of one header -/

/-- The macro was changed or is noted as used. -/
def HeaderCtx.Known (ctx : HeaderCtx) (name : MacroName) : Prop :=
  name ∈ ctx.changedHere ∨ name ∈ ctx.usedHere.map (·.1)

/-- The same was changed and used, and what is known of the macros is the same. -/
structure Sync (s s' : Tracker) : Prop where
  used : s'.ctx.usedHere = s.ctx.usedHere
  changed : s'.ctx.changedHere = s.ctx.changedHere
  known : ∀ name, s.ctx.Known name → s'.macroState name = s.macroState name

/-- At one point a macro was asked whose value in `σ'` is another. -/
def Parts (used : List Macro) (σ' : MacroState) (run : Option Tracker) : Prop :=
  ∃ before name value rest, used = before ++ (name, value) :: rest ∧ σ' name ≠ value ∧
    ∀ t', run = some t' → ∃ rest', t'.ctx.usedHere = before ++ (name, σ' name) :: rest'

/-- The other run does the same, or asks the same up to a macro whose value is another. The headers are compared only
if `P`. -/
def Matches (P : Prop) (t : Tracker) (σ' : MacroState) (run : Option Tracker) : Prop :=
  (∃ t', run = some t' ∧ Sync t t' ∧ (P → t'.ctx.includedHeaders = t.ctx.includedHeaders)) ∨
    Parts t.ctx.usedHere σ' run

namespace Sync
variable {s s' : Tracker} {σ σ' : MacroState}

/-- What is asked first in one run and has another value in the other. -/
theorem unknown (h : Sync s s') {name : MacroName} (hne : s'.macroState name ≠ s.macroState name) :
    name ∉ s.ctx.changedHere ∧ name ∉ s.ctx.usedHere.map (·.1) :=
  not_or.1 fun hk => hne (h.known name hk)

theorem ctxMacroUsed (h : Sync s s') {name : MacroName} (heq : s'.macroState name = s.macroState name) :
    Sync (s.ctxMacroUsed name) (s'.ctxMacroUsed name) := by
  have hctx : ∀ r : Tracker, (r.ctxMacroUsed name).ctx =
      { r.ctx with usedHere := noteUsed r.ctx.changedHere r.ctx.usedHere (name, r.macroState name) } :=
    fun r => HeaderCtx.macroUsed_eq _ _
  refine ⟨by simp only [hctx, h.used, h.changed, heq], by simp only [hctx, h.changed], ?_⟩
  intro n hn
  by_cases hname : n = name
  · exact hname ▸ heq
  · refine h.known n ?_
    simp only [HeaderCtx.Known, hctx] at hn
    rcases hn with hn | hn
    · exact .inl hn
    · obtain ⟨m, hm, rfl⟩ := List.mem_map.1 hn
      rcases mem_noteUsed hm with hm | ⟨rfl, -⟩
      · exact .inr (List.mem_map.2 ⟨m, hm, rfl⟩)
      · exact absurd rfl hname

theorem ctxMacroChanged (h : Sync s s') (name : MacroName) (value : MacroValue) :
    Sync (s.ctxMacroChanged name value) (s'.ctxMacroChanged name value) := by
  refine ⟨h.used, by simp [Tracker.ctxMacroChanged, HeaderCtx.macroChanged, h.changed], ?_⟩
  intro n hn
  simp only [Tracker.ctxMacroChanged, MacroState.defineMacro]
  split
  · rfl
  · next hne =>
    refine h.known n ?_
    simpa [HeaderCtx.Known, Tracker.ctxMacroChanged, HeaderCtx.macroChanged, hne] using hn

theorem addHeader (h : Sync s s') (header header' : Header) : Sync (s.addHeader header) (s'.addHeader header') :=
  ⟨h.used, h.changed, h.known⟩

/-- A header is entered in both. -/
theorem enterFile {s s' : Tracker} {file : FileId}
    (heq : s'.macroState (macroForPragmaOnce file) = s.macroState (macroForPragmaOnce file)) :
    Sync (s.enterFile file) (s'.enterFile file) := by
  have hempty : Sync { s with ctx := {} } { s' with ctx := {} } := ⟨rfl, rfl, by simp [HeaderCtx.Known]⟩
  exact hempty.ctxMacroUsed heq

/-- A header was preprocessed in both, with the same result. -/
theorem propagate (h : Sync s s') {t t' : Tracker} (hs : Since s.macroState t) (hs' : Since s'.macroState t')
    (ht : Sync t t') :
    Sync { t with ctx := s.ctx.propagate t.ctx.usedHere t.ctx.changedHere t.ctx.includedHeaders }
      { t' with ctx := s'.ctx.propagate t'.ctx.usedHere t'.ctx.changedHere t'.ctx.includedHeaders } := by
  simp only [HeaderCtx.propagate_eq]
  refine ⟨by simp only [h.used, h.changed, ht.used], by simp only [h.changed, ht.changed], ?_⟩
  intro n hn
  by_cases hknown : t.ctx.Known n
  · exact ht.known n hknown
  · -- the header has nothing to do with it, so that its value is still that of the parent
    have hc : n ∉ t.ctx.changedHere := fun hc => hknown (.inl hc)
    have hparent : s.ctx.Known n := by
      rcases hn with hn | hn
      · exact .inl ((mem_foldl_insert.1 hn).resolve_right hc)
      · obtain ⟨m, hm, rfl⟩ := List.mem_map.1 hn
        rcases mem_noteAll hm with hm | ⟨hm, -⟩
        · exact .inr (List.mem_map.2 ⟨m, hm, rfl⟩)
        · exact absurd (.inr (List.mem_map.2 ⟨m, hm, rfl⟩)) hknown
    calc t'.macroState n = s'.macroState n := hs'.unchanged n (ht.changed ▸ hc)
      _ = s.macroState n := h.known n hparent
      _ = t.macroState n := (hs.unchanged n hc).symm

end Sync

theorem Parts.bind {used used' : List Macro} {σ' : MacroState} {run : Option Tracker} {next : Tracker → Option Tracker}
    (h : Parts used σ' run) (hpre : used <+: used')
    (hnext : ∀ t t', run = some t → next t = some t' → t.ctx.usedHere <+: t'.ctx.usedHere) :
    Parts used' σ' (run.bind next) := by
  obtain ⟨before, name, value, rest, rfl, hne, hrun⟩ := h
  obtain ⟨rest₁, rfl⟩ := hpre
  refine ⟨before, name, value, rest ++ rest₁, by simp, hne, ?_⟩
  intro t' ht'
  obtain ⟨t, ht, ht'⟩ := Option.bind_eq_some_iff.1 ht'
  obtain ⟨rest', hused⟩ := hrun t ht
  obtain ⟨rest₂, hrest⟩ := hnext t t' ht ht'
  exact ⟨rest' ++ rest₂, by rw [← hrest, hused]; simp⟩

/-- The two runs part where a macro is asked that has another value. -/
theorem Sync.parts {s s' t : Tracker} {σ' : MacroState} {name : MacroName} {run : Option Tracker} (h : Sync s s')
    (hs' : Since σ' s') (hne : s'.macroState name ≠ s.macroState name)
    (hpre : (s.ctxMacroUsed name).ctx.usedHere <+: t.ctx.usedHere)
    (hrun : ∀ t', run = some t' → (s'.ctxMacroUsed name).ctx.usedHere <+: t'.ctx.usedHere) :
    Parts t.ctx.usedHere σ' run := by
  obtain ⟨hc, hu⟩ := h.unknown hne
  have hσ : s'.macroState name = σ' name := hs'.unchanged name (h.changed ▸ hc)
  have hused : (s.ctxMacroUsed name).ctx.usedHere = s.ctx.usedHere ++ [(name, s.macroState name)] := by
    simp only [Tracker.ctxMacroUsed, HeaderCtx.macroUsed_eq]
    exact noteUsed_new hc hu
  have hused' : (s'.ctxMacroUsed name).ctx.usedHere = s.ctx.usedHere ++ [(name, σ' name)] := by
    simp only [Tracker.ctxMacroUsed, HeaderCtx.macroUsed_eq, h.used, h.changed, hσ]
    exact noteUsed_new hc hu
  obtain ⟨rest, hrest⟩ := hpre
  refine ⟨s.ctx.usedHere, name, s.macroState name, rest, by rw [← hrest, hused]; simp, hσ ▸ hne, ?_⟩
  intro t' ht'
  obtain ⟨rest', hrest'⟩ := hrun t' ht'
  exact ⟨rest', by rw [← hrest', hused']; simp⟩

/-- Two headers that are entered in step match. -/
def MatchesEnter (enter : IncludedHeaders → Tracker → Option Tracker) : Prop :=
  ∀ (P : Prop) σ σ' h h' s s' t, h'.file = h.file → (P → h' = h) →
    (P → s'.ctx.includedHeaders = s.ctx.includedHeaders) → Since σ s → Since σ' s' → Sync s s' →
    s'.macroState (macroForPragmaOnce h.file) = s.macroState (macroForPragmaOnce h.file) → enter h s = some t →
    Matches P t σ' (enter h' s')

/-- The macro for `#pragma once` is asked before a header is entered. -/
def AsksOnce (enter : IncludedHeaders → Tracker → Option Tracker) : Prop :=
  ∀ σ h s t, Since σ s → enter h s = some t →
    (s.ctxMacroUsed (macroForPragmaOnce h.file)).ctx.usedHere <+: t.ctx.usedHere

section Matching
variable {enter : IncludedHeaders → Tracker → Option Tracker} {P : Prop} {σ σ' : MacroState} {h h' : IncludedHeaders}

theorem Setup.included_file (parent : IncludedHeaders) (i : Inclusion) (file : FileId) :
    (S.included parent i file).file = file := rfl

theorem Setup.included_congr {parent parent' : IncludedHeaders} (hfile : parent'.file = parent.file)
    (hplace : parent'.place = parent.place) (i : Inclusion) (file : FileId) :
    S.included parent' i file = S.included parent i file := by
  simp [included, relativeToParent, hfile, hplace]

theorem matches_inclusionDirective (honce : AsksOnce enter) (henter : MatchesEnter enter)
    (hfile : h'.file = h.file) (hplace : P → h'.place = h.place) {i : Inclusion} {s s' t : Tracker}
    (hheaders : P → s'.ctx.includedHeaders = s.ctx.includedHeaders) (hs : Since σ s) (hs' : Since σ' s')
    (hsync : Sync s s') (ht : S.direct.inclusionDirective enter h i s = some t) :
    Matches P t σ' (S.direct.inclusionDirective enter h' i s') := by
  unfold Setup.inclusionDirective at ht ⊢
  rw [Tracker.commitMacros_eq hs.stack] at ht
  rw [Tracker.commitMacros_eq hs'.stack]
  cases hi : i.file with
  | none =>
    simp only [hi, Option.some.injEq] at ht ⊢
    subst ht
    exact .inl ⟨_, rfl, ⟨hsync.used, hsync.changed, hsync.known⟩, hheaders⟩
  | some file =>
    simp only [hi, Setup.direct_prompt.headerSkipped, Setup.included_file] at ht ⊢
    have hsame : P → S.direct.included h' i file = S.direct.included h i file :=
      fun hP => Setup.included_congr hfile (hplace hP) i file
    by_cases heq : s'.macroState (macroForPragmaOnce file) = s.macroState (macroForPragmaOnce file)
    · rw [heq]
      split at ht
      · next hskip =>
        rw [Option.some.injEq] at ht
        subst ht
        simp only [if_pos hskip]
        refine .inl ⟨_, rfl, (hsync.ctxMacroUsed heq).addHeader _ _, fun hP => ?_⟩
        simp only [Tracker.addHeader, HeaderCtx.addHeader, Tracker.ctxMacroUsed, HeaderCtx.macroUsed_eq, hheaders hP,
          hsame hP]
      · next hskip =>
        simp only [if_neg hskip]
        exact henter P σ σ' (S.direct.included h i file) (S.direct.included h' i file) s s' t rfl hsame hheaders hs hs'
          hsync heq ht
    · refine .inr (hsync.parts hs' heq ?_ ?_)
      · split at ht
        · rw [Option.some.injEq] at ht
          subst ht
          exact List.prefix_rfl
        · exact honce σ (S.direct.included h i file) s t hs ht
      · intro t' ht'
        split at ht'
        · rw [Option.some.injEq] at ht'
          subst ht'
          exact List.prefix_rfl
        · exact honce σ' (S.direct.included h' i file) s' t' hs' ht'

theorem matches_lex (hstays : Stays enter) (honce : AsksOnce enter) (henter : MatchesEnter enter)
    (hfile : h'.file = h.file) (hplace : P → h'.place = h.place) (prog : Prog) {s s' t : Tracker}
    (hheaders : P → s'.ctx.includedHeaders = s.ctx.includedHeaders) (hs : Since σ s) (hs' : Since σ' s')
    (hsync : Sync s s') (ht : S.direct.lex enter h prog s = some t) :
    Matches P t σ' (S.direct.lex enter h' prog s') := by
  induction prog generalizing s s' with
  | done =>
    cases ht
    exact .inl ⟨s', rfl, hsync, hheaders⟩
  | read name next ih =>
    simp only [Setup.lex, Setup.direct_prompt.macroUsed] at ht ⊢
    by_cases heq : s'.macroState name = s.macroState name
    · rw [heq]
      have hheaders₁ : P → (s'.ctxMacroUsed name).ctx.includedHeaders = (s.ctxMacroUsed name).ctx.includedHeaders := by
        simpa only [Tracker.ctxMacroUsed, HeaderCtx.macroUsed_eq] using hheaders
      exact ih _ hheaders₁ (hs.ctxMacroUsed name) (hs'.ctxMacroUsed name) (hsync.ctxMacroUsed heq) ht
    · -- Whatever the programs do from here on, this macro stays where it was noted.
      refine .inr (hsync.parts hs' heq ?_ ?_)
      · exact (hstays.lex h _ (hs.ctxMacroUsed name) ht).2
      · intro t' ht'
        exact (hstays.lex h' _ (hs'.ctxMacroUsed name) ht').2
  | conditional directive next ih =>
    simp only [Setup.lex, Setup.direct_prompt.conditional] at ht ⊢
    exact ih hheaders hs hs' hsync ht
  | define name value next ih =>
    simp only [Setup.lex, Setup.direct_prompt.macroDefined hs.stack, Setup.direct_prompt.macroDefined hs'.stack] at ht ⊢
    exact ih (s := s.ctxMacroChanged name (some value)) hheaders (hs.ctxMacroChanged _ _) (hs'.ctxMacroChanged _ _)
      (hsync.ctxMacroChanged _ _) ht
  | undef name next ih =>
    simp only [Setup.lex, Setup.direct_prompt.macroUndefined hs.stack, Setup.direct_prompt.macroUndefined hs'.stack]
      at ht ⊢
    exact ih (s := s.ctxMacroChanged name none) hheaders (hs.ctxMacroChanged _ _) (hs'.ctxMacroChanged _ _)
      (hsync.ctxMacroChanged _ _) ht
  | pragmaOnce next ih =>
    simp only [Setup.lex, Setup.direct_prompt.pragmaOnce, hfile] at ht ⊢
    exact ih (s := s.ctxMacroChanged (macroForPragmaOnce h.file) (some " 1")) hheaders (hs.ctxMacroChanged _ _)
      (hs'.ctxMacroChanged _ _) (hsync.ctxMacroChanged _ _) ht
  | «include» i next ih =>
    obtain ⟨t₁, ht₁, ht⟩ := Option.bind_eq_some_iff.1 ht
    obtain ⟨hs₁, -⟩ := hstays.inclusionDirective hs ht₁
    rcases matches_inclusionDirective honce henter hfile hplace hheaders hs hs' hsync ht₁ with
      ⟨t₁', ht₁', hsync₁, hheaders₁⟩ | hparts
    · obtain ⟨hs₁', -⟩ := hstays.inclusionDirective hs' ht₁'
      simp only [Setup.lex, ht₁', Option.bind_some]
      exact ih hheaders₁ hs₁ hs₁' hsync₁ ht
    · -- they have parted in the header, and go on apart
      right
      refine hparts.bind (hstays.lex h next hs₁ ht).2 ?_
      intro r r' hr hr'
      exact (hstays.lex h' next (hstays.inclusionDirective hs' hr).1 hr').2

end Matching

theorem asksOnce_enterHeader (depth : Nat) : AsksOnce (S.direct.enterHeader depth) := by
  cases depth with
  | zero => simp [AsksOnce, Setup.enterHeader]
  | succ depth =>
    intro σ h s t hs ht
    rw [Setup.direct_enterHeader] at ht
    obtain ⟨t₁, ht₁, rfl⟩ := Option.map_eq_some_iff.1 ht
    obtain ⟨-, rest, hrest⟩ := (stays_enterHeader depth).lex h _ (Since.enterFile hs.stack h.file) ht₁
    have hstart : (s.enterFile h.file).ctx.usedHere =
        [(macroForPragmaOnce h.file, s.macroState (macroForPragmaOnce h.file))] := by
      simp [Tracker.enterFile, Tracker.ctxMacroUsed, HeaderCtx.macroUsed_eq, noteUsed]
    rw [hstart] at hrest
    rw [Setup.direct_leaveHeader, ← hrest]
    simp only [Tracker.addHeader, HeaderCtx.addHeader, HeaderCtx.propagate_eq, Tracker.ctxMacroUsed,
      HeaderCtx.macroUsed_eq]
    exact noteAll_grows _ _ rest

theorem matchesEnter_enterHeader (depth : Nat) : MatchesEnter (S.direct.enterHeader depth) := by
  induction depth with
  | zero => simp [MatchesEnter, Setup.enterHeader]
  | succ depth ih =>
    intro P σ σ' h h' s s' t hfile hP hheaders hs hs' hsync honce ht
    rw [Setup.direct_enterHeader] at ht ⊢
    obtain ⟨t₁, ht₁, rfl⟩ := Option.map_eq_some_iff.1 ht
    have hstays := stays_enterHeader (S := S) depth
    have hstart := Since.enterFile hs.stack h.file
    have hstart' := Since.enterFile hs'.stack h'.file
    have hsync₀ : Sync (s.enterFile h.file) (s'.enterFile h'.file) := by
      rw [hfile]
      exact .enterFile honce
    obtain ⟨hs₁, -⟩ := hstays.lex h _ hstart ht₁
    have hmatch := matches_lex (P := P) hstays (asksOnce_enterHeader depth) ih hfile (fun p => by rw [hP p]) _
      (fun _ => by simp [Tracker.enterFile, Tracker.ctxMacroUsed, HeaderCtx.macroUsed_eq]) hstart hstart' hsync₀ ht₁
    rw [hfile] at hmatch hstart' ⊢
    rcases hmatch with ⟨t₁', ht₁', hsync₁, hheaders₁⟩ | ⟨before, name, value, rest, hused, hne, hrun⟩
    · obtain ⟨hs₁', -⟩ := hstays.lex h' _ hstart' ht₁'
      refine .inl ⟨S.direct.leaveHeader s' h' t₁', by rw [ht₁']; rfl, ?_, fun hp => ?_⟩
      · rw [Setup.direct_leaveHeader, Setup.direct_leaveHeader]
        exact (hsync.propagate hs₁ hs₁' hsync₁).addHeader _ _
      · simp only [Setup.direct_leaveHeader, Tracker.addHeader, HeaderCtx.addHeader, HeaderCtx.propagate_eq, hP hp,
          hheaders hp, hheaders₁ hp]
    · -- The parent notes the macro the two runs part at: it knew nothing of it.
      have hmem : (name, value) ∈ t₁.ctx.usedHere := by simp [hused]
      have hvalue : value = s.macroState name := hs₁.values _ hmem
      obtain ⟨hc, hu⟩ := hsync.unknown (hvalue ▸ hne)
      have hσ : s'.macroState name = σ' name := hs'.unchanged name (hsync.changed ▸ hc)
      have hbefore : name ∉ before.map (·.1) := by
        have hnodup := hs₁.nodup
        rw [hused, List.map_append, List.nodup_append] at hnodup
        intro hin
        exact hnodup.2.2 name hin name (by simp) rfl
      have hnoted : ∀ value rest, ∃ rest',
          noteAll s.ctx.changedHere s.ctx.usedHere (before ++ (name, value) :: rest) =
            noteAll s.ctx.changedHere s.ctx.usedHere before ++ (name, value) :: rest' :=
        fun value rest => noteAll_split hc hu hbefore
      obtain ⟨rest₁, hrest₁⟩ := hnoted value rest
      refine .inr ⟨noteAll s.ctx.changedHere s.ctx.usedHere before, name, value, rest₁, ?_, hσ ▸ hne, ?_⟩
      · simp only [Setup.direct_leaveHeader, Tracker.addHeader, HeaderCtx.addHeader, HeaderCtx.propagate_eq, hused,
          hrest₁]
      · intro t' ht'
        obtain ⟨t₁', ht₁', rfl⟩ := Option.map_eq_some_iff.1 ht'
        obtain ⟨rest', hused'⟩ := hrun t₁' ht₁'
        obtain ⟨rest₂, hrest₂⟩ := hnoted (σ' name) rest'
        rw [hσ] at hused'
        refine ⟨rest₂, ?_⟩
        simp only [Setup.direct_leaveHeader, Tracker.addHeader, HeaderCtx.addHeader, HeaderCtx.propagate_eq, hused',
          hsync.used, hsync.changed, hrest₂]

/-! ## Deeper nesting -/

theorem related_eq (S : Setup) : Related S S (· = ·) where
  dirName := rfl
  macroState h := h ▸ rfl
  macroUsed _ h := h ▸ rfl
  conditional _ h := h ▸ rfl
  macroDefined _ _ h := h ▸ rfl
  macroUndefined _ h := h ▸ rfl
  pragmaOnce _ h := h ▸ rfl
  missing _ h := h ▸ rfl
  headerSkipped _ h := h ▸ rfl
  commitMacros h := h ▸ rfl

theorem lex_mono {enter enter' : IncludedHeaders → Tracker → Option Tracker}
    (h : ∀ h s t, enter h s = some t → enter' h s = some t) {header : IncludedHeaders} {prog : Prog} {s t : Tracker}
    (ht : S.lex enter header prog s = some t) : S.lex enter' header prog s = some t := by
  have henter : RelatedEnter (· = ·) (fun _ => True) enter (fun _ => enter') := by
    rintro header s _ t - rfl ht
    exact ⟨t, .const (h header s t ht), rfl⟩
  obtain ⟨_, ⟨n, hn⟩, rfl⟩ := (related_eq S).lex henter header prog (fun _ _ _ _ => trivial) rfl ht
  exact hn n (Nat.le_refl n)

theorem enterHeader_mono {depth depth' : Nat} (hle : depth ≤ depth') {h : IncludedHeaders} {s t : Tracker}
    (ht : S.direct.enterHeader depth h s = some t) : S.direct.enterHeader depth' h s = some t := by
  induction depth generalizing depth' h s t with
  | zero => simp [Setup.enterHeader] at ht
  | succ depth ih =>
    obtain ⟨k, rfl⟩ : ∃ k, depth' = k + 1 := ⟨depth' - 1, by omega⟩
    rw [Setup.direct_enterHeader] at ht ⊢
    obtain ⟨t₁, ht₁, rfl⟩ := Option.map_eq_some_iff.1 ht
    rw [lex_mono (fun h s t => ih (by omega)) ht₁]
    rfl

/-! ## What a header asks -/

/-- Preprocessing the header with the macros `σ`, with headers nested as deep as it takes, comes to `t`. -/
def Preprocesses (S : Setup) (h : IncludedHeaders) (σ : MacroState) (t : Tracker) : Prop :=
  ∃ depth, S.direct.preprocess depth h σ = some t

/-- After these answers the file asks for the macro. -/
def Asks (S : Setup) (file : FileId) (answers : List Macro) (name : MacroName) : Prop :=
  ∃ h σ t value rest, h.file = file ∧ Preprocesses S h σ t ∧ t.ctx.usedHere = answers ++ (name, value) :: rest

theorem since_start (σ : MacroState) (file : FileId) : Since σ (Tracker.enterFile { macroState := σ } file) := by
  have hstart : Since (Tracker.macroState { macroState := σ }) (Tracker.enterFile { macroState := σ } file) :=
    Since.enterFile rfl file
  exact hstart

theorem Preprocesses.since {h : IncludedHeaders} {σ : MacroState} {t : Tracker} (ht : Preprocesses S h σ t) :
    Since σ t := by
  obtain ⟨depth, ht⟩ := ht
  exact ((stays_enterHeader depth).lex h _ (since_start σ h.file) ht).1

theorem preprocess_mono {depth depth' : Nat} (hle : depth ≤ depth') {h : IncludedHeaders} {σ : MacroState} {t : Tracker}
    (ht : S.direct.preprocess depth h σ = some t) : S.direct.preprocess depth' h σ = some t :=
  lex_mono (fun _ _ _ => enterHeader_mono hle) ht

theorem Preprocesses.unique {h : IncludedHeaders} {σ : MacroState} {t t' : Tracker} (ht : Preprocesses S h σ t)
    (ht' : Preprocesses S h σ t') : t = t' := by
  obtain ⟨depth, ht⟩ := ht
  obtain ⟨depth', ht'⟩ := ht'
  have hmax := preprocess_mono (Nat.le_max_left depth depth') ht
  rw [preprocess_mono (Nat.le_max_right depth depth') ht'] at hmax
  exact (Option.some.inj hmax).symm

/-- Both at one depth. -/
theorem preprocess_matches {h h' : IncludedHeaders} {σ : MacroState} {t : Tracker} {depth : Nat}
    (hfile : h'.file = h.file) (ht : S.direct.preprocess depth h σ = some t) (σ' : MacroState) :
    Matches (h'.place = h.place) t σ' (S.direct.preprocess depth h' σ') := by
  have hstays := stays_enterHeader (S := S) depth
  have hstart := since_start σ h.file
  have hstart' := since_start σ' h'.file
  -- the macro for `#pragma once` is the first one that is asked
  by_cases honce : σ' (macroForPragmaOnce h.file) = σ (macroForPragmaOnce h.file)
  · have hsync : Sync (Tracker.enterFile { macroState := σ } h.file) (Tracker.enterFile { macroState := σ' } h'.file) := by
      rw [hfile]
      exact .enterFile honce
    have hmatch := matches_lex (P := h'.place = h.place) hstays (asksOnce_enterHeader depth)
      (matchesEnter_enterHeader depth) hfile id _
      (fun _ => by simp [Tracker.enterFile, Tracker.ctxMacroUsed, HeaderCtx.macroUsed_eq]) hstart hstart' hsync ht
    simpa only [Setup.preprocess, hfile] using hmatch
  · have hsync : Sync { macroState := σ } { macroState := σ' } := ⟨rfl, rfl, by simp [HeaderCtx.Known]⟩
    refine .inr (hsync.parts ⟨rfl, fun _ _ => rfl, by simp, by simp⟩ honce (hstays.lex h _ hstart ht).2 ?_)
    intro t' ht'
    rw [← hfile]
    exact (hstays.lex h' _ hstart' ht').2

/-- A header asks for the same macros, as long as the answers are the same. -/
theorem Preprocesses.matches {h h' : IncludedHeaders} {σ : MacroState} {t : Tracker} (ht : Preprocesses S h σ t)
    (hfile : h'.file = h.file) (σ' : MacroState) :
    (∃ t', Preprocesses S h' σ' t' ∧ Sync t t' ∧
      (h'.place = h.place → t'.ctx.includedHeaders = t.ctx.includedHeaders)) ∨
    ∃ before name value rest, t.ctx.usedHere = before ++ (name, value) :: rest ∧ σ' name ≠ value ∧
      ∀ t', Preprocesses S h' σ' t' → ∃ rest', t'.ctx.usedHere = before ++ (name, σ' name) :: rest' := by
  obtain ⟨depth, ht⟩ := ht
  by_cases hother : ∃ t', Preprocesses S h' σ' t'
  · obtain ⟨t', depth', ht'⟩ := hother
    have ht₂ := preprocess_mono (Nat.le_max_left depth depth') ht
    have ht₂' := preprocess_mono (Nat.le_max_right depth depth') ht'
    rcases preprocess_matches hfile ht₂ σ' with ⟨t'', hrun, hsync, hheaders⟩ | ⟨before, name, value, rest, hused, hne, hrun⟩
    · exact .inl ⟨t'', ⟨_, hrun⟩, hsync, hheaders⟩
    · refine .inr ⟨before, name, value, rest, hused, hne, ?_⟩
      intro t'' ht''
      obtain rfl := Preprocesses.unique ⟨_, ht₂'⟩ ht''
      exact hrun t' ht₂'
  · rcases preprocess_matches hfile ht σ' with ⟨t', hrun, -⟩ | ⟨before, name, value, rest, hused, hne, -⟩
    · exact absurd ⟨t', _, hrun⟩ hother
    · exact .inr ⟨before, name, value, rest, hused, hne, fun t' ht' => absurd ⟨t', ht'⟩ hother⟩

/-- Preprocessing a header again with the values of the macros it asked for. -/
theorem Preprocesses.replay {h h' : IncludedHeaders} {σ σ' : MacroState} {t : Tracker} (ht : Preprocesses S h σ t)
    (hfile : h'.file = h.file) (hagree : ∀ m ∈ t.ctx.usedHere, σ' m.1 = m.2) :
    ∃ t', Preprocesses S h' σ' t' ∧ Sync t t' ∧ (h'.place = h.place → t'.ctx.includedHeaders = t.ctx.includedHeaders) := by
  rcases ht.matches hfile σ' with hsame | ⟨before, name, value, rest, hused, hne, -⟩
  · exact hsame
  · exact absurd (hagree (name, value) (by simp [hused])) hne

/-- The macro asked for next is determined by the answers so far. -/
theorem asks_unique {file : FileId} {answers : List Macro} {name name' : MacroName} (h : Asks S file answers name)
    (h' : Asks S file answers name') : name = name' := by
  obtain ⟨header, σ, t, value, rest, hfile, ht, hused⟩ := h
  obtain ⟨header', σ', t', value', rest', hfile', ht', hused'⟩ := h'
  rcases ht.matches (hfile'.trans hfile.symm) σ' with ⟨t'', ht'', hsync, -⟩ | ⟨before, n, v, rest₁, hparts, hne, hrun⟩
  · obtain rfl := ht'.unique ht''
    have heq := hsync.used
    rw [hused, hused'] at heq
    have hnames := List.append_cancel_left heq
    simp only [List.cons.injEq, Prod.mk.injEq] at hnames
    exact hnames.1.1.symm
  · obtain ⟨rest₂, hparts'⟩ := hrun t' ht'
    rw [hused] at hparts
    rw [hused'] at hparts'
    rcases List.append_eq_append_iff.1 hparts with ⟨more, rfl, hx⟩ | ⟨more, rfl, hx⟩
    · -- the two part at this macro or later
      rw [List.append_assoc] at hparts'
      have hx' := List.append_cancel_left hparts'
      cases more with
      | nil =>
        simp only [List.nil_append, List.cons.injEq, Prod.mk.injEq] at hx hx'
        rw [hx.1.1, hx'.1.1]
      | cons m more =>
        simp only [List.cons_append, List.cons.injEq] at hx hx'
        exact congrArg Prod.fst (hx.1.trans hx'.1.symm)
    · rw [List.append_assoc] at hparts'
      have hx' := List.append_cancel_left hparts'
      cases more with
      | nil =>
        simp only [List.nil_append, List.cons.injEq, Prod.mk.injEq] at hx hx'
        rw [← hx.1.1, hx'.1.1]
      | cons m more =>
        -- they cannot have parted before, as the answers are the same
        simp only [List.cons_append, List.cons.injEq] at hx hx'
        exact absurd (congrArg Prod.snd (hx'.1.symm.trans hx.1.symm)) hne

/-- A header does the same wherever it is included with these macros. -/
theorem lex_congr {h : IncludedHeaders} {s s' t : Tracker} {depth : Nat} (hstack : s.conditionStack = {})
    (hstack' : s'.conditionStack = {}) (hmacros : s'.macroState = s.macroState)
    (ht : S.direct.lex (S.direct.enterHeader depth) h (S.files h.file) (s.enterFile h.file) = some t) :
    ∃ t', S.direct.lex (S.direct.enterHeader depth) h (S.files h.file) (s'.enterFile h.file) = some t' ∧
      t'.macroState = t.macroState ∧ t'.ctx = t.ctx := by
  have hstays := stays_enterHeader (S := S) depth
  have hstart := Since.enterFile hstack h.file
  have hstart' := Since.enterFile hstack' h.file
  have hsync : Sync (s.enterFile h.file) (s'.enterFile h.file) := .enterFile (by rw [hmacros])
  have hs := (hstays.lex h _ hstart ht).1
  rcases matches_lex (P := True) hstays (asksOnce_enterHeader depth) (matchesEnter_enterHeader depth) rfl (fun _ => rfl) _
      (fun _ => by simp [Tracker.enterFile, Tracker.ctxMacroUsed, HeaderCtx.macroUsed_eq]) hstart hstart' hsync ht with
    ⟨t', ht', hsync', hheaders⟩ | ⟨before, name, value, rest, hused, hne, -⟩
  · have hs' := (hstays.lex h _ hstart' ht').1
    refine ⟨t', ht', ?_, ?_⟩
    · -- a macro has the value it was given, which is the same, or the one it had before
      funext name
      by_cases hc : name ∈ t.ctx.changedHere
      · exact hsync'.known name (.inl hc)
      · rw [hs.unchanged name hc, hs'.unchanged name (hsync'.changed ▸ hc), hmacros]
    · have hheaders := hheaders trivial
      have hused := hsync'.used
      have hchanged := hsync'.changed
      cases hctx : t.ctx
      cases hctx' : t'.ctx
      simp_all
  · have hvalue : value = s.macroState name := hs.values (name, value) (by simp [hused])
    exact absurd (by rw [hvalue, hmacros]) hne

theorem Preprocesses.lex {h : IncludedHeaders} {s r : Tracker} (hr : Preprocesses S h s.macroState r)
    (hstack : s.conditionStack = {}) :
    ∃ t, Settles (fun depth => S.direct.lex (S.direct.enterHeader depth) h (S.files h.file) (s.enterFile h.file)) t ∧
      t.macroState = r.macroState ∧ t.ctx = r.ctx ∧ t.conditionStack = {} := by
  obtain ⟨depth, hr⟩ := hr
  have hfresh : (Tracker.conditionStack { macroState := s.macroState }) = {} := rfl
  obtain ⟨t, ht, hmacros, hctx⟩ := lex_congr hfresh hstack rfl hr
  have hsince := ((stays_enterHeader depth).lex h _ (Since.enterFile hstack h.file) ht).1
  exact ⟨t, ⟨depth, fun m hm => lex_mono (fun _ _ _ => enterHeader_mono hm) ht⟩, hmacros, hctx, hsince.stack⟩

theorem Setup.direct_settles {h : IncludedHeaders} {s t : Tracker}
    (ht : Settles (fun depth => S.direct.lex (S.direct.enterHeader depth) h (S.files h.file) (s.enterFile h.file)) t) :
    Settles (S.direct.enterHeader · h s) (S.direct.leaveHeader s h t) := by
  obtain ⟨n, hn⟩ := ht
  refine ⟨n + 1, fun m hm => ?_⟩
  obtain ⟨k, rfl⟩ : ∃ k, m = k + 1 := ⟨m - 1, by omega⟩
  dsimp only
  rw [direct_enterHeader]
  exact Option.map_eq_some_iff.2 ⟨t, hn k (by omega), rfl⟩

theorem preprocesses_of_lex {h : IncludedHeaders} {s t : Tracker} {depth : Nat} (hstack : s.conditionStack = {})
    (ht : S.direct.lex (S.direct.enterHeader depth) h (S.files h.file) (s.enterFile h.file) = some t) :
    ∃ r, Preprocesses S h s.macroState r ∧ r.macroState = t.macroState ∧ r.ctx = t.ctx := by
  have hfresh : (Tracker.conditionStack { macroState := s.macroState }) = {} := rfl
  obtain ⟨r, hr, hmacros, hctx⟩ := lex_congr hstack hfresh rfl ht
  exact ⟨r, ⟨depth, hr⟩, hmacros, hctx⟩

end BuildPal.Scanner
