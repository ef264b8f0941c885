import BuildPal.Lib.Runs
import BuildPal.Lib.TrieMap
import BuildPal.Scanner.MacroPaths
/-!
# The key tree of the header cache

`CacheTree` of `headerCache_.hpp`: the entries for one header and search path,
by the values of the macros that the header uses. A node is known by the values
that lead to it from the root, in place of its address. Lists of used macros
that are consistent with each other make the tree a map from macro states to
entries.
-/
open BuildPal.Lib

namespace BuildPal.Scanner

/-- The number in the entry's file name. -/
abbrev EntryId := Nat

namespace CacheTree

/-- A `CacheEntry`, with its `tree_`. `usedMacros` is not in the code: what `addEntry` was called with. -/
structure Live where
  tree : List MacroValue
  usedMacros : List Macro
  deriving DecidableEq, Repr

/-- A root, and the entries that are not destroyed. -/
structure State where
  root : Trie MacroName MacroValue EntryId := .empty
  entries : EntryId → Option Live := fun _ => none
  counter : Nat := 0

namespace State
variable (s : State)

/-- `getChild` for one macro after the other; the node's entry is returned if it has one, and becomes the new one
otherwise. -/
def addEntry (usedMacros : List Macro) : EntryId × State :=
  let r := s.root.insert s.counter usedMacros
  if r.2.2 = s.counter then
    (s.counter,
      { root := r.1
        entries := Function.update s.entries s.counter (some ⟨usedMacros.map (·.2), usedMacros⟩)
        counter := s.counter + 1 })
  else (r.2.2, { s with root := r.1 })

/-- `CacheTree::find`. -/
def find (σ : MacroState) : Option EntryId := (s.root.find σ).map (·.2)

/-- `~CacheEntry`, with `detach`. -/
def destroy (e : EntryId) (x : Live) : State :=
  { s with root := s.root.detach x.tree, entries := Function.update s.entries e none }

/-- `getPath`. -/
def getPath (x : Live) : Option (List Macro) := s.root.pathTo x.tree

/-- The entry is not destroyed, and the macros have the values it was recorded with. -/
def Matches (σ : MacroState) (e : EntryId) : Prop := ∃ x, s.entries e = some x ∧ ∀ m ∈ x.usedMacros, σ m.1 = m.2

end State

inductive Event where
  | addEntry (usedMacros : List Macro)
  | destroy (e : EntryId)
  deriving DecidableEq, Repr

def step (s : State) : Event → Option State
  | .addEntry usedMacros => some (s.addEntry usedMacros).2
  | .destroy e => (s.entries e).map (s.destroy e)

/-! ## Lists that fit together -/

/-- One of the lists reads the macro after what was read so far. -/
def Asks (L : List Macro → Prop) (read : List Macro) (name : MacroName) : Prop :=
  ∃ value rest, L (read ++ (name, value) :: rest)

/-- The lists are not empty, and any two are equal or differ first in a value. -/
structure Fits (L : List Macro → Prop) : Prop where
  nonempty : ∀ used, L used → used ≠ []
  consistent : ∀ used used', L used → L used' → Consistent used used'

theorem Consistent.names {before : List Macro} {m m' : Macro} {rest rest' : List Macro}
    (h : Consistent (before ++ m :: rest) (before ++ m' :: rest')) : m.1 = m'.1 := by
  induction before with
  | nil => exact h.1
  | cons _ before ih => exact ih (h.2 rfl)

theorem Fits.asks_unique {L : List Macro → Prop} (h : Fits L) {read : List Macro} {n n' : MacroName}
    (hn : Asks L read n) (hn' : Asks L read n') : n = n' := by
  obtain ⟨v, rest, hl⟩ := hn
  obtain ⟨v', rest', hl'⟩ := hn'
  exact Consistent.names (h.consistent _ _ hl hl')

theorem Fits.not_ends {L : List Macro → Prop} (h : Fits L) {read : List Macro} {n : MacroName} (hn : Asks L read n) :
    ¬ L read := by
  intro hl
  obtain ⟨v, rest, hl'⟩ := hn
  exact Consistent.not_longer (h.consistent _ _ hl' hl)

theorem follows_of_mem {L : List Macro → Prop} : ∀ (rest read : List Macro), L (read ++ rest) →
    Trie.Follows (Asks L) read rest
  | [], _, _ => trivial
  | (n, v) :: rest, read, h => ⟨⟨v, rest, h⟩, follows_of_mem rest _ (by simpa using h)⟩

/-! ## The tree is a map -/

/-- What is in the tree are the live entries, each under its list; entries are at the leaves, and only there. -/
structure Mapped (L : List Macro → Prop) (s : State) : Prop where
  proper : s.root.Proper
  tidy : s.root.TidyRoot
  asking : s.root.Asking (Asks L) []
  holds : ∀ used e, s.root.Holds used e ↔ ∃ x, s.entries e = some x ∧ x.usedMacros = used
  tree : ∀ e x, s.entries e = some x → x.tree = x.usedMacros.map (·.2)
  added : ∀ e x, s.entries e = some x → L x.usedMacros
  fresh : ∀ e x, s.entries e = some x → e < s.counter

section Map
variable {L : List Macro → Prop} {s : State}

theorem mapped_init : Mapped L {} where
  proper := Trie.empty_proper
  tidy := ⟨rfl, trivial⟩
  asking := Trie.empty_asking _
  holds used e := ⟨fun h => (Trie.not_empty_holds used e h).elim, by rintro ⟨x, ⟨⟩, -⟩⟩
  tree := by rintro e x ⟨⟩
  added := by rintro e x ⟨⟩
  fresh := by rintro e x ⟨⟩

namespace Mapped

theorem held (h : Mapped L s) {e : EntryId} {x : Live} (hx : s.entries e = some x) : s.root.Holds x.usedMacros e :=
  (h.holds _ _).2 ⟨x, hx, rfl⟩

theorem addEntry (h : Mapped L s) (hL : Fits L) {used : List Macro} (hused : L used) :
    Mapped L (s.addEntry used).2 := by
  have hfollows : Trie.Follows (Asks L) [] used := follows_of_mem used [] hused
  have hunique : ∀ read n n', Asks L read n → Asks L read n' → n = n' := fun _ _ _ => hL.asks_unique
  have hspec := Trie.insert_spec hunique s.counter used [] s.root h.asking hfollows
  have hopen : s.root.Open used :=
    Trie.open_of_asking hunique (fun _ _ => hL.not_ends) s.root used [] h.asking
      (fun q e hq => by
        obtain ⟨x, hx, rfl⟩ := (h.holds q e).1 hq
        exact h.added e x hx)
      hfollows hused
  have hproper := Trie.insert_proper (e := s.counter) used s.root h.proper
  have hholds := fun q e' => Trie.insert_holds (e := s.counter) used s.root q e' h.proper
  have htidy : (s.root.insert s.counter used).1.TidyRoot := by
    cases used with
    | nil => exact absurd rfl (hL.nonempty _ hused)
    | cons a used => exact Trie.insert_tidyRoot h.tidy hopen
  unfold State.addEntry
  dsimp only
  by_cases hnew : (s.root.insert s.counter used).2.2 = s.counter
  · rw [if_pos hnew]
    have hne : ∀ e x, s.entries e = some x → e ≠ s.counter := fun e x hx => Nat.ne_of_lt (h.fresh e x hx)
    have hcases : ∀ e x, Function.update s.entries s.counter (some ⟨used.map (·.2), used⟩) e = some x →
        e = s.counter ∧ x = ⟨used.map (·.2), used⟩ ∨ s.entries e = some x := by
      intro e x hx
      by_cases he : e = s.counter
      · subst he
        rw [Function.update_self] at hx
        exact .inl ⟨rfl, (Option.some.inj hx).symm⟩
      · rw [Function.update_of_ne he] at hx
        exact .inr hx
    refine ⟨hproper, htidy, hspec.asking, fun q e => ?_, fun e x hx => ?_, fun e x hx => ?_, fun e x hx => ?_⟩
    · rw [hholds, hspec.way, hnew, h.holds]
      by_cases he : e = s.counter
      · subst he
        simp only [and_true, Function.update_self, Option.some.injEq, exists_eq_left']
        constructor
        · rintro (⟨x, hx, -⟩ | hq)
          · exact absurd rfl (hne _ x hx)
          · exact hq.symm
        · intro hq
          exact .inr hq.symm
      · simp [he]
    · rcases hcases e x hx with ⟨-, rfl⟩ | hx
      · rfl
      · exact h.tree e x hx
    · rcases hcases e x hx with ⟨-, rfl⟩ | hx
      · exact hused
      · exact h.added e x hx
    · rcases hcases e x hx with ⟨rfl, -⟩ | hx
      · exact Nat.lt_succ_self _
      · exact Nat.lt_succ_of_lt (h.fresh e x hx)
  · rw [if_neg hnew]
    -- there is an entry for the list already
    have hold : s.root.Holds used (s.root.insert s.counter used).2.2 := by
      rcases hspec.entry with hold | heq
      · exact hold
      · exact absurd heq hnew
    have hsame := Trie.insert_of_holds (e := s.counter) used s.root h.proper hold
    rw [hsame]
    exact ⟨h.proper, h.tidy, h.asking, h.holds, h.tree, h.added, h.fresh⟩

theorem destroy (h : Mapped L s) {e : EntryId} {x : Live} (hx : s.entries e = some x) : Mapped L (s.destroy e x) := by
  have hheld := h.held hx
  have hholds : ∀ q e', (s.root.detach x.tree).Holds q e' ↔ s.root.Holds q e' ∧ q ≠ x.usedMacros := by
    intro q e'
    rw [h.tree e x hx]
    exact Trie.detach_holds_iff h.proper h.tidy hheld
  have hleft : ∀ e' y, Function.update s.entries e none e' = some y → s.entries e' = some y := by
    intro e' y hy
    by_cases he : e' = e
    · subst he
      rw [Function.update_self] at hy
      cases hy
    · rwa [Function.update_of_ne he] at hy
  refine ⟨Trie.detach_proper _ h.proper, Trie.detach_tidyRoot h.tidy, Trie.detach_asking h.asking, fun q e' => ?_,
    fun e' y hy => h.tree e' y (hleft e' y hy), fun e' y hy => h.added e' y (hleft e' y hy),
    fun e' y hy => h.fresh e' y (hleft e' y hy)⟩
  rw [State.destroy, hholds, h.holds]
  by_cases he : e' = e
  · subst he
    simp only [Function.update_self, hx, Option.some.injEq, exists_eq_left']
    simp [eq_comm]
  · -- another entry has another list
    have hother : ∀ y, s.entries e' = some y → y.usedMacros ≠ x.usedMacros := by
      intro y hy heq
      have hboth := h.held hy
      rw [heq] at hboth
      exact he (Trie.holds_unique _ s.root h.proper hboth hheld)
    simp only [Function.update_of_ne he]
    constructor
    · exact fun hq => hq.1
    · rintro ⟨y, hy, rfl⟩
      exact ⟨⟨y, hy, rfl⟩, hother y hy⟩

theorem step (h : Mapped L s) (hL : Fits L) {event : Event} (hevent : ∀ used, event = .addEntry used → L used)
    {s' : State} (hs : step s event = some s') : Mapped L s' := by
  cases event with
  | addEntry used =>
    cases hs
    exact h.addEntry hL (hevent used rfl)
  | destroy e =>
    obtain ⟨x, hx, rfl⟩ := Option.map_eq_some_iff.1 hs
    exact h.destroy hx

/-- The tree finds what matches, and nothing else. -/
theorem find_iff (h : Mapped L s) (σ : MacroState) (e : EntryId) : s.find σ = some e ↔ s.Matches σ e := by
  constructor
  · intro hfind
    obtain ⟨⟨used, e'⟩, hfound, rfl⟩ := Option.map_eq_some_iff.1 hfind
    obtain ⟨hheld, hagree⟩ := Trie.find_sound s.root used e' hfound
    obtain ⟨x, hx, rfl⟩ := (h.holds _ _).1 hheld
    exact ⟨x, hx, hagree⟩
  · rintro ⟨x, hx, hagree⟩
    unfold State.find
    rw [Trie.find_complete x.usedMacros s.root e h.proper (.inl h.tidy) (h.held hx) hagree]
    rfl

end Mapped

/-- **The key tree is a map**: it finds the one live entry whose macros have their recorded values; a list that is live
already gives its entry, and a live entry's path is its list; each node but the root has either an entry or
children. -/
theorem tree_is_map (events : List Event) (s : State) (hrun : run step {} events = some s)
    (hfits : Fits fun used => .addEntry used ∈ events) :
    (∀ σ, s.find σ = none ∧ (∀ e, ¬ s.Matches σ e) ∨
      ∃ e, s.find σ = some e ∧ s.Matches σ e ∧ ∀ e', s.Matches σ e' → e' = e) ∧
    (∀ e x, s.entries e = some x → s.addEntry x.usedMacros = (e, s) ∧ s.getPath x = some x.usedMacros) ∧
    s.root.TidyRoot := by
  have hmeets : Meets step (fun _ event => ∀ used, event = .addEntry used → .addEntry used ∈ events) {} events :=
    meets_of_forall step fun _ event hmem used heq => heq ▸ hmem
  have h : Mapped (fun used => .addEntry used ∈ events) s :=
    run_inv_of_meets step (fun _ _ _ h hevent hs => h.step hfits hevent hs) events {} s mapped_init hmeets hrun
  refine ⟨fun σ => ?_, fun e x hx => ⟨?_, ?_⟩, h.tidy⟩
  · cases hfind : s.find σ with
    | none =>
      refine .inl ⟨rfl, fun e hm => ?_⟩
      rw [(h.find_iff σ e).2 hm] at hfind
      cases hfind
    | some e =>
      refine .inr ⟨e, rfl, (h.find_iff σ e).1 hfind, fun e' hm => ?_⟩
      rw [(h.find_iff σ e').2 hm] at hfind
      exact Option.some.inj hfind
  · have hsame := Trie.insert_of_holds (e := s.counter) x.usedMacros s.root h.proper (h.held hx)
    have hne : e ≠ s.counter := Nat.ne_of_lt (h.fresh e x hx)
    simp only [State.addEntry, hsame, if_neg hne]
  · rw [State.getPath, h.tree e x hx]
    exact Trie.pathTo_holds x.usedMacros s.root e h.proper (h.held hx)

/-- Two entries that first differ in the value of `B`; the first one is destroyed, and another one added. -/
def treeEvents : List Event :=
  [.addEntry [("A", some "1"), ("B", none)], .addEntry [("A", some "1"), ("B", some "2"), ("C", none)], .destroy 0,
    .addEntry [("A", none)]]

theorem tree_is_map_three : ∃ s, run step {} treeEvents = some s ∧ (s.entries 0).isNone ∧ (s.entries 2).isSome ∧
    ∀ e x, s.entries e = some x → s.addEntry x.usedMacros = (e, s) ∧ s.getPath x = some x.usedMacros := by
  have hfits : Fits fun used => .addEntry used ∈ treeEvents := by
    have hmem : ∀ used, .addEntry used ∈ treeEvents ↔ used ∈
        [[("A", some "1"), ("B", none)], [("A", some "1"), ("B", some "2"), ("C", none)], [("A", none)]] := by
      intro used
      simp [treeEvents]
    constructor
    · simp only [hmem]
      decide
    · simp only [hmem, List.mem_cons, List.not_mem_nil, or_false]
      rintro used used' (rfl | rfl | rfl) (rfl | rfl | rfl) <;> simp [Consistent]
  have hsome : (run step {} treeEvents).map (fun s => ((s.entries 0).isNone, (s.entries 2).isSome)) =
    some (true, true) := by
    decide
  obtain ⟨s, hrun, heq⟩ := Option.map_eq_some_iff.1 hsome
  simp only [Prod.mk.injEq] at heq
  obtain ⟨-, hentries, -⟩ := tree_is_map treeEvents s hrun hfits
  exact ⟨s, hrun, heq.1, heq.2, hentries⟩

end Map
end CacheTree

end BuildPal.Scanner
