import Mathlib.Order.OrderIsoNat
import Mathlib.Tactic.Common
/-!
# Runs of a system

A system is a function `step` from a state and an event to the next state, or
to `none` when the event cannot happen there. A run is a list of events. What
one step keeps, every run keeps; and what every step that meets a condition
keeps, every run all of whose steps meet it keeps.
-/

namespace BuildPal.Lib

variable {σ ε : Type*} (step : σ → ε → Option σ)

/-- The state after the events, if each of them could happen. -/
def run : σ → List ε → Option σ
  | s, [] => some s
  | s, e :: es => (step s e).bind (run · es)

theorem run_append (s : σ) (es es' : List ε) : run step s (es ++ es') = (run step s es).bind (run step · es') := by
  induction es generalizing s with
  | nil => rfl
  | cons e es ih =>
    simp only [List.cons_append, run, Option.bind_assoc]
    exact Option.bind_congr fun s' _ => ih s'

theorem run_concat (s : σ) (es : List ε) (e : ε) : run step s (es ++ [e]) = (run step s es).bind (step · e) := by
  simp [run_append, run]

/-- Every step of the run from `s` meets `cond`. -/
def Meets (cond : σ → ε → Prop) : σ → List ε → Prop
  | _, [] => True
  | s, e :: es => cond s e ∧ ∀ s', step s e = some s' → Meets cond s' es

/-- Whether a run meets a condition can be tested by running it. -/
instance Meets.decidable {cond : σ → ε → Prop} [∀ s e, Decidable (cond s e)] :
    (s : σ) → (es : List ε) → Decidable (Meets step cond s es)
  | _, [] => inferInstanceAs (Decidable True)
  | s, e :: es =>
    have : DecidablePred fun s' => Meets step cond s' es := fun s' => Meets.decidable s' es
    inferInstanceAs (Decidable (cond s e ∧ ∀ s' ∈ step s e, Meets step cond s' es))

/-- An invariant of the steps that meet `cond` holds after every run whose steps all meet it. -/
theorem run_inv_of_meets {cond : σ → ε → Prop} {I : σ → Prop}
    (hstep : ∀ s e s', I s → cond s e → step s e = some s' → I s') :
    ∀ (es : List ε) (s s' : σ), I s → Meets step cond s es → run step s es = some s' → I s' := by
  intro es
  induction es with
  | nil =>
    intro s s' hi _ hr
    cases hr
    exact hi
  | cons e es ih =>
    intro s s' hi hm hr
    obtain ⟨s₁, hs₁, hr'⟩ := Option.bind_eq_some_iff.1 hr
    exact ih s₁ s' (hstep s e s₁ hi hm.1 hs₁) (hm.2 s₁ hs₁) hr'

theorem meets_of_forall {cond : σ → ε → Prop} {s : σ} {es : List ε} (h : ∀ s, ∀ e ∈ es, cond s e) :
    Meets step cond s es := by
  induction es generalizing s with
  | nil => trivial
  | cons e es ih => exact ⟨h s e (by simp), fun s' _ => ih (fun t f hf => h t f (by simp [hf]))⟩

/-- An invariant of every step holds after every run. -/
theorem run_inv {I : σ → Prop} (hstep : ∀ s e s', I s → step s e = some s' → I s') {es : List ε} {s s' : σ}
    (hi : I s) (hr : run step s es = some s') : I s' := by
  have hall : Meets step (fun _ _ => True) s es := meets_of_forall step fun _ _ _ => trivial
  exact run_inv_of_meets step (fun s e s' h _ => hstep s e s' h) es s s' hi hall hr

/-- A run is not longer than what its steps use up. -/
theorem run_length {μ : σ → ℕ} (hstep : ∀ s e s', step s e = some s' → μ s' < μ s) (es : List ε) :
    ∀ {s s' : σ}, run step s es = some s' → es.length + μ s' ≤ μ s := by
  induction es with
  | nil =>
    intro s s' hr
    cases hr
    simp
  | cons e es ih =>
    intro s s' hr
    obtain ⟨s₁, hs₁, hr'⟩ := Option.bind_eq_some_iff.1 hr
    have hlt := hstep s e s₁ hs₁
    have hle := ih hr'
    rw [List.length_cons]
    omega

/-- A run that uses something up comes to a state where it cannot go on. -/
theorem exists_run_stuck {μ : σ → ℕ} (hstep : ∀ s e s', step s e = some s' → μ s' < μ s) (s : σ) :
    ∃ es s', run step s es = some s' ∧ ∀ e, step s' e = none := by
  induction hμ : μ s using Nat.strong_induction_on generalizing s with
  | _ n ih =>
    by_cases hstuck : ∀ e, step s e = none
    · exact ⟨[], s, rfl, hstuck⟩
    · rw [not_forall] at hstuck
      obtain ⟨e, he⟩ := hstuck
      obtain ⟨s₁, hs₁⟩ := Option.ne_none_iff_exists'.1 he
      obtain ⟨es, s', hrun, hend⟩ := ih (μ s₁) (hμ ▸ hstep s e s₁ hs₁) s₁ rfl
      refine ⟨e :: es, s', ?_, hend⟩
      rw [run, hs₁]
      exact hrun

/-- Where every step of a kind lowers a measure, no run takes such steps for ever. -/
theorem no_endless_run {α : Type*} [Preorder α] [WellFoundedLT α] {I : σ → Prop} {acts : σ → ε → Prop} {μ : σ → α}
    (hstep : ∀ s e s', I s → acts s e → step s e = some s' → I s' ∧ μ s' < μ s) {s : ℕ → σ} (hinit : I (s 0)) :
    ¬ ∀ n, ∃ e, acts (s n) e ∧ step (s n) e = some (s (n + 1)) := by
  intro hall
  have hinv : ∀ n, I (s n) := by
    intro n
    induction n with
    | zero => exact hinit
    | succ n ih =>
      obtain ⟨e, hacts, hs⟩ := hall n
      exact (hstep _ e _ ih hacts hs).1
  apply not_strictAnti_of_wellFoundedLT fun n => μ (s n)
  apply strictAnti_nat_of_succ_lt
  intro n
  obtain ⟨e, hacts, hs⟩ := hall n
  exact (hstep _ e _ (hinv n) hacts hs).2

/-- Where a step that meets `cond` leads to `P`, and no other step does, the states of a run are all in `P` if and only
if its steps all meet `cond`. `I` is what else holds as long as they are. -/
theorem states_iff_meets {cond : σ → ε → Prop} {I P : σ → Prop} (hhold : ∀ s, I s → P s)
    (hstep : ∀ s e s', I s → step s e = some s' → (P s' ↔ cond s e) ∧ (P s' → I s'))
    (hstuck : ∀ s e, I s → step s e = none → cond s e) (es : List ε) :
    ∀ s, I s → ((∀ pre post s', es = pre ++ post → run step s pre = some s' → P s') ↔ Meets step cond s es) := by
  induction es with
  | nil =>
    intro s hi
    refine iff_of_true (fun pre post s' hsplit hrun => ?_) trivial
    obtain ⟨rfl, -⟩ := List.append_eq_nil_iff.1 hsplit.symm
    cases hrun
    exact hhold s hi
  | cons e es ih =>
    intro s hi
    constructor
    · intro hall
      cases hs : step s e with
      | none => exact ⟨hstuck s e hi hs, fun s' hs' => by rw [hs] at hs'; cases hs'⟩
      | some s₁ =>
        have h₁ : P s₁ := hall [e] es s₁ rfl (by rw [run, hs]; rfl)
        obtain ⟨hiff, hkeep⟩ := hstep s e s₁ hi hs
        refine ⟨hiff.1 h₁, fun s' hs' => ?_⟩
        obtain rfl : s₁ = s' := Option.some.inj (hs.symm.trans hs')
        exact (ih s₁ (hkeep h₁)).1 fun pre post s' hsplit hrun =>
          hall (e :: pre) post s' (by rw [hsplit]; rfl) (by rw [run, hs]; exact hrun)
    · rintro ⟨hcond, hrest⟩ pre post s' hsplit hrun
      cases pre with
      | nil =>
        cases hrun
        exact hhold s hi
      | cons e' pre =>
        obtain ⟨rfl, htail⟩ := List.cons.inj hsplit
        obtain ⟨s₁, hs, hrun'⟩ := Option.bind_eq_some_iff.1 hrun
        obtain ⟨hiff, hkeep⟩ := hstep s e s₁ hi hs
        exact (ih s₁ (hkeep (hiff.2 hcond))).2 (hrest s₁ hs) pre post s' htail hrun'

end BuildPal.Lib
