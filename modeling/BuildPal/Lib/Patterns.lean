import Mathlib.Data.List.Basic
import Mathlib.Data.List.TakeWhile
/-!
# Greedy patterns

A pattern is text that has to be there and groups that take what they can, one
after another. Of all the ways in which the start of a text follows a pattern,
the one is found whose groups are longest, an earlier group counting before a
later one.
-/

namespace BuildPal.Lib.Patterns

variable {α : Type*} [DecidableEq α]

inductive Piece (α : Type*) where
  | text (t : List α)
  /-- Elements of a kind, as many as possible. -/
  | group (p : α → Bool)

/-- The groups, if the text starts with the pattern. What is tried first for a group is the longest. -/
def matchAt : List (Piece α) → List α → Option (List (List α))
  | [], _ => some []
  | .text t :: ps, s => if t <+: s then matchAt ps (s.drop t.length) else none
  | .group p :: ps, s =>
    (List.range ((s.takeWhile p).length + 1)).reverse.findSome? fun n =>
      (matchAt ps (s.drop n)).map (s.take n :: ·)

/-- The groups at the first place where the pattern is. -/
def search (ps : List (Piece α)) : List α → Option (List (List α))
  | [] => matchAt ps []
  | c :: s => (matchAt ps (c :: s)).or (search ps s)

/-! ## What follows a pattern -/

/-- The text starts with the pattern when its groups are filled so. -/
inductive Follows : List (Piece α) → List (List α) → List α → Prop where
  | nil (s : List α) : Follows [] [] s
  | text {ps gs s} (t : List α) : Follows ps gs s → Follows (.text t :: ps) gs (t ++ s)
  | group {p ps g gs s} : (∀ c ∈ g, p c) → Follows ps gs s → Follows (.group p :: ps) (g :: gs) (g ++ s)

section
omit [DecidableEq α]
variable {ps : List (Piece α)} {p : α → Bool} {gs : List (List α)} {s t : List α}

theorem follows_text_iff : Follows (.text t :: ps) gs s ↔ t <+: s ∧ Follows ps gs (s.drop t.length) := by
  constructor
  · intro h
    cases h with
    | text _ h => simpa using h
  · rintro ⟨⟨r, rfl⟩, h⟩
    exact .text t (by simpa using h)

theorem follows_group_iff : Follows (.group p :: ps) gs s ↔
    ∃ n ≤ (s.takeWhile p).length, ∃ gs', gs = s.take n :: gs' ∧ Follows ps gs' (s.drop n) := by
  constructor
  · intro h
    cases h with
    | @group _ _ g gs' r hg h =>
      refine ⟨g.length, ?_, gs', by simp, by simpa using h⟩
      rw [List.takeWhile_append_of_pos hg]
      simp
  · rintro ⟨n, hn, gs', rfl, h⟩
    have hg : ∀ c ∈ s.take n, p c := by
      intro c hc
      have hpre : s.take n <+: s.takeWhile p := by
        rw [List.prefix_iff_eq_take.1 (List.takeWhile_prefix (l := s) p)]
        exact List.take_prefix_take_left hn
      exact List.mem_takeWhile_imp (hpre.subset hc)
    simpa using Follows.group hg h

end

omit [DecidableEq α] in
/-- Where the groups differ in length, the first that does is the shorter one. -/
def NoLonger : List (List α) → List (List α) → Prop
  | [], _ => True
  | _ :: _, [] => False
  | g :: gs, g' :: gs' => g.length < g'.length ∨ g.length = g'.length ∧ NoLonger gs gs'

omit [DecidableEq α] in
theorem noLonger_cons {g g' : List α} {gs gs' : List (List α)} :
    NoLonger (g :: gs) (g' :: gs') ↔ g.length < g'.length ∨ g.length = g'.length ∧ NoLonger gs gs' := Iff.rfl

omit [DecidableEq α] in
theorem NoLonger.refl : ∀ gs : List (List α), NoLonger gs gs
  | [] => trivial
  | _ :: gs => .inr ⟨rfl, NoLonger.refl gs⟩

omit [DecidableEq α] in
/-- The text before the first separator is determined. -/
theorem eq_of_append_cons {c : α} {a b x y : List α} (ha : c ∉ a) (hb : c ∉ b) (h : a ++ c :: x = b ++ c :: y) :
    a = b ∧ x = y := by
  induction a generalizing b with
  | nil =>
    cases b with
    | nil => exact ⟨rfl, by simpa using h⟩
    | cons d b =>
      rw [List.nil_append, List.cons_append, List.cons.injEq] at h
      exact absurd h.1 fun hcd => hb (by simp [hcd])
  | cons d a ih =>
    cases b with
    | nil =>
      rw [List.nil_append, List.cons_append, List.cons.injEq] at h
      exact absurd h.1.symm fun hcd => ha (by simp [hcd])
    | cons e b =>
      simp only [List.cons_append, List.cons.injEq] at h
      obtain ⟨rfl, h⟩ := h
      obtain ⟨rfl, rfl⟩ := ih (fun hc => ha (List.mem_cons_of_mem _ hc)) (fun hc => hb (List.mem_cons_of_mem _ hc)) h
      exact ⟨rfl, rfl⟩

/-! ## What is found -/

theorem findSome?_reverse_range {β : Type*} (f : ℕ → Option β) (m : ℕ) (b : β) :
    (List.range (m + 1)).reverse.findSome? f = some b ↔
      ∃ n ≤ m, f n = some b ∧ ∀ k, n < k → k ≤ m → f k = none := by
  induction m with
  | zero =>
    simp only [Nat.zero_add, List.range_one, List.reverse_singleton, List.findSome?_singleton, Nat.le_zero]
    constructor
    · intro h
      exact ⟨0, rfl, h, fun k hk hk' => by omega⟩
    · rintro ⟨n, rfl, h, -⟩
      exact h
  | succ m ih =>
    rw [List.range_succ, List.reverse_append, List.reverse_singleton, List.singleton_append, List.findSome?_cons]
    cases hf : f (m + 1) with
    | some c =>
      constructor
      · rintro h
        exact ⟨m + 1, Nat.le_refl _, hf.trans h, fun k hk hk' => by omega⟩
      · rintro ⟨n, hn, hb, hnone⟩
        rcases Nat.lt_or_ge n (m + 1) with hlt | hge
        · rw [hnone (m + 1) hlt (Nat.le_refl _)] at hf
          cases hf
        · rw [show n = m + 1 by omega] at hb
          exact hf.symm.trans hb
    | none =>
      rw [ih]
      constructor
      · rintro ⟨n, hn, hb, hnone⟩
        refine ⟨n, by omega, hb, fun k hk hk' => ?_⟩
        rcases Nat.lt_or_ge k (m + 1) with hlt | hge
        · exact hnone k hk (by omega)
        · rw [show k = m + 1 by omega]
          exact hf
      · rintro ⟨n, hn, hb, hnone⟩
        have hne : n ≠ m + 1 := by
          rintro rfl
          rw [hf] at hb
          cases hb
        exact ⟨n, by omega, hb, fun k hk hk' => hnone k hk (by omega)⟩

/-- No match is missed. -/
theorem matchAt_eq_none {ps : List (Piece α)} : ∀ {s : List α}, matchAt ps s = none ↔ ∀ gs, ¬ Follows ps gs s := by
  induction ps with
  | nil =>
    intro s
    simp only [matchAt, reduceCtorEq, false_iff, not_forall, not_not]
    exact ⟨[], .nil s⟩
  | cons piece ps ih =>
    intro s
    cases piece with
    | text t =>
      simp only [matchAt, follows_text_iff, not_and]
      split
      · next h => simp [ih, h]
      · next h => simp [h]
    | group p =>
      simp only [matchAt, List.findSome?_eq_none_iff, List.mem_reverse, List.mem_range, Option.map_eq_none_iff, ih,
        follows_group_iff, not_exists, not_and]
      constructor
      · rintro h gs n hn gs' -
        exact h n (by omega) gs'
      · intro h n hn gs'
        exact h _ n (by omega) gs' rfl

/-- A match is found, and no other has longer groups. -/
theorem matchAt_eq_some {ps : List (Piece α)} : ∀ {s : List α} {gs : List (List α)}, matchAt ps s = some gs ↔
    Follows ps gs s ∧ ∀ gs', Follows ps gs' s → NoLonger gs' gs := by
  induction ps with
  | nil =>
    intro s gs
    simp only [matchAt, Option.some.injEq]
    constructor
    · rintro rfl
      refine ⟨.nil s, fun gs' h => ?_⟩
      cases h
      exact NoLonger.refl _
    · rintro ⟨h, -⟩
      cases h
      rfl
  | cons piece ps ih =>
    intro s gs
    cases piece with
    | text t =>
      simp only [matchAt, follows_text_iff]
      split
      · next h => simp [ih, h]
      · next h => simp [h]
    | group p =>
      -- The runs are tried from the longest on, so that a match found leaves no longer one.
      rw [matchAt, findSome?_reverse_range]
      constructor
      · rintro ⟨n, hn, hsome, hnone⟩
        obtain ⟨gs', hgs', rfl⟩ := Option.map_eq_some_iff.1 hsome
        obtain ⟨hf, hmax⟩ := ih.1 hgs'
        refine ⟨follows_group_iff.2 ⟨n, hn, gs', rfl, hf⟩, fun gs₂ h => ?_⟩
        obtain ⟨k, hk, gs₂, rfl, hf₂⟩ := follows_group_iff.1 h
        have hlen := (List.takeWhile_prefix (l := s) p).length_le
        simp only [noLonger_cons, List.length_take]
        rcases Nat.lt_trichotomy k n with hlt | rfl | hgt
        · exact .inl (by omega)
        · exact .inr ⟨rfl, hmax gs₂ hf₂⟩
        · exact absurd hf₂ (matchAt_eq_none.1 (Option.map_eq_none_iff.1 (hnone k hgt hk)) gs₂)
      · rintro ⟨h, hmax⟩
        obtain ⟨n, hn, gs, rfl, hf⟩ := follows_group_iff.1 h
        have hlen := (List.takeWhile_prefix (l := s) p).length_le
        refine ⟨n, hn, ?_, fun k hk hk' => ?_⟩
        · rw [ih.2 ⟨hf, fun gs' hf' => ?_⟩]
          · rfl
          · have hle := hmax _ (follows_group_iff.2 ⟨n, hn, gs', rfl, hf'⟩)
            simpa only [noLonger_cons, Nat.lt_irrefl, false_or, true_and] using hle
        · rw [Option.map_eq_none_iff, matchAt_eq_none]
          intro gs' hf'
          have hle := hmax _ (follows_group_iff.2 ⟨k, hk', gs', rfl, hf'⟩)
          simp only [noLonger_cons, List.length_take] at hle
          omega

/-- Where there is one match only, it is found. -/
theorem matchAt_unique {ps : List (Piece α)} {gs : List (List α)} {s : List α} (h : Follows ps gs s)
    (hunique : ∀ gs', Follows ps gs' s → gs' = gs) : matchAt ps s = some gs :=
  matchAt_eq_some.2 ⟨h, fun gs' h' => by
    rw [hunique gs' h']
    exact NoLonger.refl _⟩

/-- What comes before the first place of the pattern does not matter. -/
theorem search_append {ps : List (Piece α)} {s : List α} {gs : List (List α)} (h : matchAt ps s = some gs) :
    ∀ pre, (∀ a b, pre = a ++ b → b ≠ [] → matchAt ps (b ++ s) = none) → search ps (pre ++ s) = some gs
  | [], _ => by
    cases s with
    | nil => simpa [search] using h
    | cons c s => simp [search, h]
  | c :: pre, hpre => by
    rw [List.cons_append, search, show matchAt ps (c :: (pre ++ s)) = none from hpre [] (c :: pre) rfl (by simp),
      Option.none_or]
    exact search_append h pre fun a b hab => hpre (c :: a) b (by simp [hab])

end BuildPal.Lib.Patterns
