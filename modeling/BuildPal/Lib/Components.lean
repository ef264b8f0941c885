import BuildPal.Lib.Runs
/-!
# Systems of components

A system whose state shows components, each under a name, that come into being
and take steps of their own. As long as every step of the system is a run of
each of its components, what the components' steps keep holds of all of them
in every run of the system.
-/

namespace BuildPal.Lib

variable {ω η σ ε ι : Type*}

/-- What a step of the system is for one of its components. -/
inductive Moves (step : σ → ε → Option σ) (new : σ) : Option σ → Option σ → Prop where
  | absent : Moves step new none none
  | made : Moves step new none (some new)
  | ran {s s' : σ} (es : List ε) (h : run step s es = some s') : Moves step new (some s) (some s')

section Components
variable {step : σ → ε → Option σ} {new : σ} {x y : Option σ} {I : σ → Prop}

theorem Moves.refl : Moves step new x x := by
  cases x with
  | none => exact absent
  | some s => exact ran [] rfl

theorem Moves.of_eq (h : y = x) : Moves step new x y := by
  rw [h]
  exact refl

theorem Moves.single {s s' : σ} {e : ε} (h : step s e = some s') : Moves step new (some s) (some s') :=
  ran [e] (by rw [run, h]; rfl)

theorem Moves.inv (hm : Moves step new x y) (hnew : I new) (hstep : ∀ s e s', I s → step s e = some s' → I s')
    (hx : ∀ s, x = some s → I s) : ∀ s, y = some s → I s := by
  intro s hy
  cases hm with
  | absent => cases hy
  | made =>
    cases hy
    exact hnew
  | ran es hrun =>
    cases hy
    exact run_inv step hstep (hx _ rfl) hrun

/-- What the steps of the components keep, and what every step of the system keeps as long as the components do,
holds after every run. -/
theorem components_inv {systemStep : ω → η → Option ω} {cond : ω → η → Prop} {J : ω → Prop} {view : ω → ι → Option σ}
    (hnew : I new) (hstep : ∀ s e s', I s → step s e = some s' → I s')
    (hsystem : ∀ w e w', J w → (∀ i s, view w i = some s → I s) → cond w e → systemStep w e = some w' →
      J w' ∧ ∀ i, Moves step new (view w i) (view w' i))
    {es : List η} {w w' : ω} (hJ : J w) (hI : ∀ i s, view w i = some s → I s) (hmeets : Meets systemStep cond w es)
    (hrun : run systemStep w es = some w') : J w' ∧ ∀ i s, view w' i = some s → I s := by
  apply run_inv_of_meets systemStep _ es w w' ⟨hJ, hI⟩ hmeets hrun
  rintro w e w' ⟨hJ, hI⟩ hcond hs
  obtain ⟨hJ', hmoves⟩ := hsystem w e w' hJ hI hcond hs
  exact ⟨hJ', fun i => (hmoves i).inv hnew hstep (hI i)⟩

end Components

end BuildPal.Lib
