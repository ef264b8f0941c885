import BuildPal.Scanner.HeaderTracker
/-!
# Rules for scans

What a file may include, and how to compare two scans of one text: if the
callbacks keep a relation between the two trackers, and headers that are entered
keep it, then going through a text keeps it.
-/
open BuildPal.Lib

namespace BuildPal.Scanner

/-! ## Files in reach -/

/-- The program may come to the directive. -/
def Prog.Includes (i : Inclusion) : Prog → Prop
  | .done => False
  | .read _ next => ∃ value, (next value).Includes i
  | .conditional _ next => next.Includes i
  | .define _ _ next => next.Includes i
  | .undef _ next => next.Includes i
  | .pragmaOnce next => next.Includes i
  | .include i' next => i = i' ∨ next.Includes i

/-- The files that may be entered from a text. -/
inductive Reach (files : FileId → Prog) (prog : Prog) : FileId → Prop where
  | direct {i file} : prog.Includes i → i.file = some file → Reach files prog file
  | nested {i file includer} : Reach files prog includer → (files includer).Includes i → i.file = some file →
    Reach files prog file

/-! ## Related scans -/

/-- What the callbacks of two scans have to keep. -/
structure Related (S S' : Setup) (R : Tracker → Tracker → Prop) : Prop where
  dirName : S.dirName = S'.dirName
  macroState {s s'} : R s s' → s.macroState = s'.macroState
  macroUsed {s s'} name : R s s' → R (S.macroUsed s name) (S'.macroUsed s' name)
  conditional {s s'} directive : R s s' → R (S.conditional s directive) (S'.conditional s' directive)
  macroDefined {s s'} name value : R s s' → R (S.macroDefined s name value) (S'.macroDefined s' name value)
  macroUndefined {s s'} name : R s s' → R (S.macroUndefined s name) (S'.macroUndefined s' name)
  pragmaOnce {s s'} file : R s s' → R (S.pragmaOnce s file) (S'.pragmaOnce s' file)
  missing {s s'} name : R s s' →
    R { s with missingHeaders := s.missingHeaders ++ [name] } { s' with missingHeaders := s'.missingHeaders ++ [name] }
  headerSkipped {s s'} h : R s s' → R (S.headerSkipped s.commitMacros h) (S'.headerSkipped s'.commitMacros h)
  commitMacros {s s'} : R s s' → R s.commitMacros s'.commitMacros

/-- The value of a fuelled function, whatever more fuel it is given. -/
def Settles {α : Type*} (f : Nat → Option α) (a : α) : Prop := ∃ n, ∀ m ≥ n, f m = some a

theorem Settles.const {α : Type*} {o : Option α} {a : α} (h : o = some a) : Settles (fun _ => o) a := ⟨0, fun _ _ => h⟩

theorem Settles.bind {α β : Type*} {f : Nat → Option α} {g : Nat → α → Option β} {a : α} {b : β} (hf : Settles f a)
    (hg : Settles (g · a) b) : Settles (fun n => (f n).bind (g n)) b := by
  obtain ⟨n, hn⟩ := hf
  obtain ⟨m, hm⟩ := hg
  refine ⟨max n m, fun k hk => ?_⟩
  have hfk : f k = some a := hn k (by omega)
  simp only [hfk, Option.bind_some]
  exact hm k (by omega)

/-- The second of two headers that are entered ends if the first does, and they stay related. How deep headers may
be nested in the second one is not said. -/
def RelatedEnter (R : Tracker → Tracker → Prop) (files : FileId → Prop)
    (enter : IncludedHeaders → Tracker → Option Tracker) (enter' : Nat → IncludedHeaders → Tracker → Option Tracker) :
    Prop :=
  ∀ h s s' t, files h.file → R s s' → enter h s = some t → ∃ t', Settles (enter' · h s') t' ∧ R t t'

namespace Related
variable {S S' : Setup} {R : Tracker → Tracker → Prop} {files : FileId → Prop}
  {enter : IncludedHeaders → Tracker → Option Tracker} {enter' : Nat → IncludedHeaders → Tracker → Option Tracker}

theorem inclusionDirective (hR : Related S S' R) (henter : RelatedEnter R files enter enter') {h : IncludedHeaders}
    {i : Inclusion} (hfiles : ∀ file, i.file = some file → files file) {s s' t : Tracker} (hs : R s s')
    (ht : S.inclusionDirective enter h i s = some t) :
    ∃ t', Settles (fun depth => S'.inclusionDirective (enter' depth) h i s') t' ∧ R t t' := by
  have hincluded : S.included = S'.included := by
    funext parent i file
    simp [Setup.included, Setup.relativeToParent, hR.dirName]
  have hmacros := hR.macroState hs
  unfold Setup.inclusionDirective at ht ⊢
  rw [← hincluded]
  cases hi : i.file with
  | none =>
    simp only [hi, Option.some.injEq] at ht ⊢
    exact ⟨_, .const rfl, ht ▸ hR.missing _ hs⟩
  | some file =>
    simp only [hi] at ht ⊢
    by_cases honce : s.macroState (macroForPragmaOnce file) ≠ none
    · rw [if_pos honce, Option.some.injEq] at ht
      simp only [if_pos (hmacros ▸ honce)]
      exact ⟨_, .const rfl, ht ▸ hR.headerSkipped _ hs⟩
    · rw [if_neg honce] at ht
      simp only [if_neg (hmacros ▸ honce)]
      exact henter _ _ _ _ (hfiles file hi) (hR.commitMacros hs) ht

/-- Going through a text keeps the relation. -/
theorem lex (hR : Related S S' R) (henter : RelatedEnter R files enter enter') (h : IncludedHeaders) (prog : Prog)
    (hfiles : ∀ i file, prog.Includes i → i.file = some file → files file) {s s' t : Tracker} (hs : R s s')
    (ht : S.lex enter h prog s = some t) : ∃ t', Settles (fun depth => S'.lex (enter' depth) h prog s') t' ∧ R t t' := by
  induction prog generalizing s s' with
  | done =>
    cases ht
    exact ⟨s', .const rfl, hs⟩
  | read name next ih =>
    simp only [Setup.lex, ← hR.macroState hs] at ht ⊢
    exact ih _ (fun i file hi => hfiles i file ⟨_, hi⟩) (hR.macroUsed name hs) ht
  | conditional directive next ih => exact ih hfiles (hR.conditional directive hs) ht
  | define name value next ih => exact ih hfiles (hR.macroDefined name value hs) ht
  | undef name next ih => exact ih hfiles (hR.macroUndefined name hs) ht
  | pragmaOnce next ih => exact ih hfiles (hR.pragmaOnce h.file hs) ht
  | «include» i next ih =>
    obtain ⟨t₁, ht₁, ht⟩ := Option.bind_eq_some_iff.1 ht
    obtain ⟨t₁', ht₁', hr⟩ := hR.inclusionDirective henter (fun file hf => hfiles i file (.inl rfl) hf) hs ht₁
    obtain ⟨t', ht', hr'⟩ := ih (fun j file hj => hfiles j file (.inr hj)) hr ht
    exact ⟨t', ht₁'.bind ht', hr'⟩

end Related

end BuildPal.Scanner
