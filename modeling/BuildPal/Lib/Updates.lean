import Mathlib.Tactic.Common
/-!
# Maps that are updated

A name is given a value or removed. In one reading the last value counts; in the
other a value stays until its name is removed, and what is given to it meanwhile
is dropped. At each name both are read off the values that it was given since it
was last removed: the one is the last of them, the other is the first.
-/

namespace BuildPal.Lib

inductive Update (κ α : Type) where
  | add (key : κ) (val : α)
  | remove (key : κ)
deriving DecidableEq, Repr

namespace Update

variable {κ α : Type} [DecidableEq κ]

/-- The update of a map in which the last value counts. -/
def overwrite (m : κ → Option α) : Update κ α → κ → Option α
  | add key val => fun k => if key = k then some val else m k
  | remove key => fun k => if key = k then none else m k

/-- The update of a map in which a value stays. -/
def keep (m : κ → Option α) : Update κ α → κ → Option α
  | add key val => fun k => if key = k then (m k).or (some val) else m k
  | remove key => fun k => if key = k then none else m k

/-- What has been given to `k` since it was last removed. -/
def give (k : κ) (vals : List α) : Update κ α → List α
  | add key val => if key = k then vals ++ [val] else vals
  | remove key => if key = k then [] else vals

def given (m : κ → Option α) (us : List (Update κ α)) (k : κ) : List α := us.foldl (give k) (m k).toList

theorem overwrite_give {m : κ → Option α} {k : κ} {vals : List α} (h : m k = vals.getLast?) (u : Update κ α) :
    overwrite m u k = (give k vals u).getLast? := by
  cases u with
  | add key val =>
    simp only [overwrite, give]
    split
    · rw [List.getLast?_concat]
    · exact h
  | remove key =>
    simp only [overwrite, give]
    split
    · rfl
    · exact h

theorem keep_give {m : κ → Option α} {k : κ} {vals : List α} (h : m k = vals.head?) (u : Update κ α) :
    keep m u k = (give k vals u).head? := by
  cases u with
  | add key val =>
    simp only [keep, give]
    split
    · rw [List.head?_append, h]
      rfl
    · exact h
  | remove key =>
    simp only [keep, give]
    split
    · rfl
    · exact h

/-- A run of updates whose every step follows `give`. -/
theorem foldl_give {step : (κ → Option α) → Update κ α → κ → Option α} {k : κ} (read : List α → Option α)
    (hstep : ∀ m vals u, m k = read vals → step m u k = read (give k vals u)) (us : List (Update κ α)) :
    ∀ m vals, m k = read vals → us.foldl step m k = read (us.foldl (give k) vals) := by
  induction us with
  | nil =>
    intro m vals h
    exact h
  | cons u us ih =>
    intro m vals h
    exact ih _ _ (hstep m vals u h)

theorem foldl_overwrite (m : κ → Option α) (us : List (Update κ α)) (k : κ) :
    us.foldl overwrite m k = (given m us k).getLast? := by
  refine foldl_give List.getLast? (fun m vals u h => overwrite_give h u) us m _ ?_
  cases m k <;> rfl

theorem foldl_keep (m : κ → Option α) (us : List (Update κ α)) (k : κ) : us.foldl keep m k = (given m us k).head? := by
  refine foldl_give List.head? (fun m vals u h => keep_give h u) us m _ ?_
  cases m k <;> rfl

end Update

end BuildPal.Lib
