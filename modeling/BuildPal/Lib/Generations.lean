import BuildPal.Lib.Runs
import Mathlib.Data.List.Forall2
import Mathlib.Data.Option.Basic
/-!
# Families

Every member of a family has data of its own. It changes them by calls, and it
makes new members, which start with what it passes on to them. Two families
with the same calls simulate each other when what a member of one has agrees
with what that member of the other has, whatever the calls were and whoever
made whom.
-/

namespace BuildPal.Lib

/-- How data change by a call, and what a new member starts with, if there is one. -/
structure Family (δ χ τ : Type*) where
  apply : δ → χ → δ
  pass : δ → τ → Option δ

namespace Family

variable {δ η χ τ : Type*}

/-- A member is named by when it came. -/
inductive Event (χ τ : Type*) where
  | call (member : Nat) (c : χ)
  | make (member : Nat) (t : τ)

def step (F : Family δ χ τ) (members : List δ) : Event χ τ → Option (List δ)
  | .call member c => members[member]?.map fun d => members.set member (F.apply d c)
  | .make member t => members[member]?.bind fun d => (F.pass d t).map fun d' => members ++ [d']

/-- The member that makes another one meets a condition. -/
def Makes (cond : δ → τ → Prop) (members : List δ) : Event χ τ → Prop
  | .call _ _ => True
  | .make member t => ∀ d, members[member]? = some d → cond d t

/-- Calls keep the agreement, and so does the making of a member under the condition. -/
structure Simulates (F : Family δ χ τ) (G : Family η χ τ) (R : δ → η → Prop) (cond : δ → τ → Prop) : Prop where
  call : ∀ {d h} (c : χ), R d h → R (F.apply d c) (G.apply h c)
  make : ∀ {d h} (t : τ), R d h → cond d t → Option.Rel R (F.pass d t) (G.pass h t)

section
variable {F : Family δ χ τ} {G : Family η χ τ} {R : δ → η → Prop} {cond : δ → τ → Prop}

theorem rel_getElem? {ds : List δ} {hs : List η} (h : List.Forall₂ R ds hs) (n : Nat) :
    Option.Rel R ds[n]? hs[n]? := by
  induction h generalizing n with
  | nil => exact .none
  | cons hr _ ih =>
    cases n with
    | zero => exact .some hr
    | succ n => exact ih n

theorem forall₂_set {ds : List δ} {hs : List η} (h : List.Forall₂ R ds hs) {d : δ} {e : η} (hr : R d e) (n : Nat) :
    List.Forall₂ R (ds.set n d) (hs.set n e) := by
  induction h generalizing n with
  | nil => exact .nil
  | cons hr' hrest ih =>
    cases n with
    | zero => exact .cons hr hrest
    | succ n => exact .cons hr' (ih n)

theorem rel_bind {α β γ κ : Type*} {P : α → β → Prop} {Q : γ → κ → Prop} {x : Option α} {y : Option β}
    {f : α → Option γ} {g : β → Option κ} (h : Option.Rel P x y)
    (hfg : ∀ a b, x = some a → P a b → Option.Rel Q (f a) (g b)) : Option.Rel Q (x.bind f) (y.bind g) := by
  cases h with
  | none => exact .none
  | some hab => exact hfg _ _ rfl hab

theorem rel_map {α β γ κ : Type*} {P : α → β → Prop} {Q : γ → κ → Prop} {x : Option α} {y : Option β}
    {f : α → γ} {g : β → κ} (h : Option.Rel P x y) (hfg : ∀ a b, P a b → Q (f a) (g b)) :
    Option.Rel Q (x.map f) (y.map g) := by
  cases h with
  | none => exact .none
  | some hab => exact .some (hfg _ _ hab)

theorem rel_imp {α β : Type*} {P Q : α → β → Prop} {x : Option α} {y : Option β} (h : Option.Rel P x y)
    (himp : ∀ a b, P a b → Q a b) : Option.Rel Q x y := by
  cases h with
  | none => exact .none
  | some hab => exact .some (himp _ _ hab)

theorem step_simulates (hsim : Simulates F G R cond) {ds : List δ} {hs : List η} (h : List.Forall₂ R ds hs)
    (e : Event χ τ) (hmakes : Makes cond ds e) : Option.Rel (List.Forall₂ R) (F.step ds e) (G.step hs e) := by
  cases e with
  | call member c =>
    apply rel_map (rel_getElem? h member)
    intro d e hr
    exact forall₂_set h (hsim.call c hr) member
  | make member t =>
    apply rel_bind (rel_getElem? h member)
    intro d e hd hr
    apply rel_map (hsim.make t hr (hmakes d hd))
    intro d' e' hr'
    exact List.rel_append h (.cons hr' .nil)

/-- Where every member that makes another one meets the condition, one family can do what the other can, and the members
agree after it. -/
theorem run_simulates (hsim : Simulates F G R cond) (es : List (Event χ τ)) : ∀ {ds : List δ} {hs : List η},
    List.Forall₂ R ds hs → Meets F.step (Makes cond) ds es →
    Option.Rel (List.Forall₂ R) (run F.step ds es) (run G.step hs es) := by
  induction es with
  | nil =>
    intro ds hs h _
    exact .some h
  | cons e es ih =>
    intro ds hs h hmeets
    apply rel_bind (step_simulates hsim h e hmeets.1)
    intro ds' hs' hd h'
    exact ih h' (hmeets.2 ds' hd)

end

end Family

end BuildPal.Lib
