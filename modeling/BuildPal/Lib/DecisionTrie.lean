import Mathlib.Tactic.Common
/-!
# Decision tries

A trie that stores entries under sequences of answered questions. A node asks
a question `N`; its children are labelled with the answers `V`. Looking an
entry up means answering the questions the trie asks until a node with an
entry is reached.

An entry is stored under the questions its node's ancestors ask, not under
those it was inserted with. The two are the same if the question after a
sequence of answers is always the same one: `asks c n` says that `n` is asked
after `c`.
-/

namespace BuildPal.Lib

mutual

inductive Trie (N V E : Type) where
  | node (question : Option N) (entry : Option E) (children : TrieChildren N V E)

inductive TrieChildren (N V E : Type) where
  | nil
  | cons (answer : V) (child : Trie N V E) (rest : TrieChildren N V E)

end

namespace Trie
variable {N V E : Type} [DecidableEq V]

def empty : Trie N V E := .node none none .nil

/-! ## Operations -/

mutual

/-- Follows the answers `σ` to an entry, and the way there. -/
def find (σ : N → V) : Trie N V E → Option (List (N × V) × E)
  | .node _ (some e) _ => some ([], e)
  | .node none none _ => none
  | .node (some n) none children => (findChild σ (σ n) children).map fun (path, e) => ((n, σ n) :: path, e)

def findChild (σ : N → V) (v : V) : TrieChildren N V E → Option (List (N × V) × E)
  | .nil => none
  | .cons w child rest => if w = v then find σ child else findChild σ v rest

end

/-- Applies `f` to the child with the given answer; a child that is not there is created first. -/
def updateChild {α : Type} (v : V) (f : Trie N V E → Trie N V E × α) : TrieChildren N V E → TrieChildren N V E × α
  | .nil => (.cons v (f empty).1 .nil, (f empty).2)
  | .cons w child rest =>
    if w = v then (.cons w (f child).1 rest, (f child).2)
    else (.cons w child (updateChild v f rest).1, (updateChild v f rest).2)

/-- Inserts an entry, unless there is one already; returns the way to the node and the entry there. A node keeps
the question it was given first. -/
def insert (e : E) : List (N × V) → Trie N V E → Trie N V E × List (N × V) × E
  | [], .node question (some e') children => (.node question (some e') children, [], e')
  | [], .node question none children => (.node question (some e) children, [], e)
  | (n, v) :: path, .node question entry children =>
    let r := updateChild v (insert e path) children
    (.node (some (question.getD n)) entry r.1, (question.getD n, v) :: r.2.1, r.2.2)

mutual

/-- Removes entries. A node whose entry is removed goes with it, and so does one that has no children left. -/
def prune (keep : E → Bool) : Trie N V E → Option (Trie N V E)
  | .node question (some e) children =>
    if keep e then some (.node question (some e) (pruneChildren keep children)) else none
  | .node question none children =>
    match pruneChildren keep children with
    | .nil => none
    | children => some (.node question none children)

def pruneChildren (keep : E → Bool) : TrieChildren N V E → TrieChildren N V E
  | .nil => .nil
  | .cons v child rest =>
    match prune keep child with
    | none => pruneChildren keep rest
    | some child => .cons v child (pruneChildren keep rest)

end

/-- The root stays. -/
def pruneRoot (keep : E → Bool) : Trie N V E → Trie N V E
  | .node question entry children => .node question (entry.filter keep) (pruneChildren keep children)

/-! ## What a trie holds -/

mutual

/-- The entry is stored under the path. -/
def Holds : Trie N V E → List (N × V) → E → Prop
  | .node _ entry _, [], e => entry = some e
  | .node question _ children, (n, v) :: path, e => question = some n ∧ HoldsChild children v path e

def HoldsChild : TrieChildren N V E → V → List (N × V) → E → Prop
  | .nil, _, _, _ => False
  | .cons w child rest, v, path, e => w = v ∧ Holds child path e ∨ HoldsChild rest v path e

end

mutual

/-- Every node asks what is to be asked there. -/
def Asking (asks : List (N × V) → N → Prop) (c : List (N × V)) : Trie N V E → Prop
  | .node none _ children => children = .nil
  | .node (some n) _ children => asks c n ∧ AskingChildren asks c n children

def AskingChildren (asks : List (N × V) → N → Prop) (c : List (N × V)) (n : N) : TrieChildren N V E → Prop
  | .nil => True
  | .cons v child rest => Asking asks (c ++ [(n, v)]) child ∧ AskingChildren asks c n rest

end

/-- The path asks what is to be asked. -/
def Follows (asks : List (N × V) → N → Prop) : List (N × V) → List (N × V) → Prop
  | _, [] => True
  | c, (n, v) :: path => asks c n ∧ Follows asks (c ++ [(n, v)]) path

section Facts
variable {σ : N → V} {asks : List (N × V) → N → Prop}

mutual

theorem find_sound : ∀ (t : Trie N V E) (path : List (N × V)) (e : E), t.find σ = some (path, e) →
    t.Holds path e ∧ ∀ a ∈ path, σ a.1 = a.2
  | .node _ (some e') _, path, e, h => by
    simp only [find, Option.some.injEq, Prod.mk.injEq] at h
    obtain ⟨rfl, rfl⟩ := h
    exact ⟨rfl, by simp⟩
  | .node none none _, path, e, h => by simp [find] at h
  | .node (some n) none children, path, e, h => by
    simp only [find, Option.map_eq_some_iff] at h
    obtain ⟨⟨path', e'⟩, hfind, heq⟩ := h
    simp only [Prod.mk.injEq] at heq
    obtain ⟨rfl, rfl⟩ := heq
    obtain ⟨hholds, hagree⟩ := findChild_sound (σ n) children path' e' hfind
    refine ⟨⟨rfl, hholds⟩, fun a ha => ?_⟩
    rcases List.mem_cons.1 ha with rfl | ha
    · rfl
    · exact hagree a ha

theorem findChild_sound : ∀ (v : V) (children : TrieChildren N V E) (path : List (N × V)) (e : E),
    findChild σ v children = some (path, e) → HoldsChild children v path e ∧ ∀ a ∈ path, σ a.1 = a.2
  | v, .nil, path, e, h => by simp [findChild] at h
  | v, .cons w child rest, path, e, h => by
    simp only [findChild] at h
    split at h
    · rename_i hw
      obtain ⟨hholds, hagree⟩ := find_sound child path e h
      exact ⟨.inl ⟨hw, hholds⟩, hagree⟩
    · obtain ⟨hholds, hagree⟩ := findChild_sound v rest path e h
      exact ⟨.inr hholds, hagree⟩

end

omit [DecidableEq V] in
mutual

theorem prune_spec (asks : List (N × V) → N → Prop) (keep : E → Bool) : ∀ (t t' : Trie N V E), t.prune keep = some t' →
    (∀ path e, t'.Holds path e → t.Holds path e) ∧ ∀ c, t.Asking asks c → t'.Asking asks c
  | .node question (some e) children, t', h => by
    simp only [prune] at h
    split at h
    · cases h
      obtain ⟨hholds, hasking⟩ := pruneChildren_spec asks keep children
      refine ⟨fun path e' he' => ?_, fun c hc => ?_⟩
      · cases path with
        | nil => exact he'
        | cons a path => exact ⟨he'.1, hholds _ _ _ he'.2⟩
      · cases question with
        | none =>
          simp only [Asking] at hc ⊢
          subst hc
          rfl
        | some n => exact ⟨hc.1, hasking c n hc.2⟩
    · cases h
  | .node question none children, t', h => by
    obtain ⟨hholds, hasking⟩ := pruneChildren_spec asks keep children
    simp only [prune] at h
    split at h
    · cases h
    · cases h
      refine ⟨fun path e' he' => ?_, fun c hc => ?_⟩
      · cases path with
        | nil => exact he'
        | cons a path => exact ⟨he'.1, hholds _ _ _ he'.2⟩
      · cases question with
        | none =>
          simp only [Asking] at hc ⊢
          subst hc
          rfl
        | some n => exact ⟨hc.1, hasking c n hc.2⟩

theorem pruneChildren_spec (asks : List (N × V) → N → Prop) (keep : E → Bool) : ∀ (children : TrieChildren N V E),
    (∀ v path e, HoldsChild (pruneChildren keep children) v path e → HoldsChild children v path e) ∧
      ∀ c n, AskingChildren asks c n children → AskingChildren asks c n (pruneChildren keep children)
  | .nil => ⟨fun _ _ _ h => h, fun _ _ h => h⟩
  | .cons w child rest => by
    obtain ⟨hholds, hasking⟩ := pruneChildren_spec asks keep rest
    simp only [pruneChildren]
    split
    · exact ⟨fun v path e h => .inr (hholds v path e h), fun c n h => hasking c n h.2⟩
    · rename_i child' hchild
      obtain ⟨hsame, hask⟩ := prune_spec asks keep child child' hchild
      refine ⟨fun v path e h => ?_, fun c n h => ⟨hask _ h.1, hasking c n h.2⟩⟩
      rcases h with ⟨hw, h⟩ | h
      · exact .inl ⟨hw, hsame path e h⟩
      · exact .inr (hholds v path e h)

end

omit [DecidableEq V] in
theorem pruneRoot_spec {keep : E → Bool} (t : Trie N V E) :
    (∀ path e, (t.pruneRoot keep).Holds path e → t.Holds path e) ∧
      ∀ c, t.Asking asks c → (t.pruneRoot keep).Asking asks c := by
  cases t with
  | node question entry children =>
    obtain ⟨hholds, hasking⟩ := pruneChildren_spec asks keep children
    refine ⟨fun path e he => ?_, fun c hc => ?_⟩
    · cases path with
      | nil => exact (Option.filter_eq_some_iff.1 he).1
      | cons a path => exact ⟨he.1, hholds _ _ _ he.2⟩
    · cases question with
      | none =>
        simp only [pruneRoot, Asking] at hc ⊢
        subst hc
        rfl
      | some n => exact ⟨hc.1, hasking c n hc.2⟩

/-- What `insert` does in a trie that asks the right questions, with a path that does. -/
structure InsertSpec (asks : List (N × V) → N → Prop) (e : E) (c path : List (N × V)) (t : Trie N V E)
    (r : Trie N V E × List (N × V) × E) : Prop where
  asking : r.1.Asking asks c
  way : r.2.1 = path
  holds : r.1.Holds path r.2.2
  entry : t.Holds path r.2.2 ∨ r.2.2 = e
  old : ∀ q e', r.1.Holds q e' → t.Holds q e' ∨ q = path ∧ e' = e

omit [DecidableEq V] in
theorem empty_asking (c : List (N × V)) : (empty : Trie N V E).Asking asks c := rfl

theorem updateChild_spec {e : E} {c path : List (N × V)} {n : N} {v : V}
    {f : Trie N V E → Trie N V E × List (N × V) × E}
    (hf : ∀ t, t.Asking asks (c ++ [(n, v)]) → InsertSpec asks e (c ++ [(n, v)]) path t (f t)) :
    ∀ children, AskingChildren asks c n children →
      AskingChildren asks c n (updateChild v f children).1 ∧ (updateChild v f children).2.1 = path ∧
        HoldsChild (updateChild v f children).1 v path (updateChild v f children).2.2 ∧
        (HoldsChild children v path (updateChild v f children).2.2 ∨ (updateChild v f children).2.2 = e) ∧
        ∀ w q e', HoldsChild (updateChild v f children).1 w q e' →
          HoldsChild children w q e' ∨ w = v ∧ q = path ∧ e' = e
  | .nil, _ => by
    -- A value that has not come before gets a child of its own.
    have hspec := hf empty (empty_asking _)
    have hnothing : ∀ q e', ¬ (empty : Trie N V E).Holds q e' := by
      intro q e' h
      cases q with
      | nil => cases h
      | cons a q => cases h.1
    refine ⟨⟨hspec.asking, trivial⟩, hspec.way, .inl ⟨rfl, hspec.holds⟩, ?_, fun w q e' h => ?_⟩
    · rcases hspec.entry with h | h
      · exact absurd h (hnothing _ _)
      · exact .inr h
    · rcases h with ⟨rfl, h⟩ | h
      · rcases hspec.old q e' h with h | h
        · exact absurd h (hnothing _ _)
        · exact .inr ⟨rfl, h⟩
      · exact h.elim
  | .cons w child rest, hask => by
    simp only [updateChild]
    split
    · rename_i hw
      subst hw
      have hspec := hf child hask.1
      refine ⟨⟨hspec.asking, hask.2⟩, hspec.way, .inl ⟨rfl, hspec.holds⟩, ?_, fun u q e' h => ?_⟩
      · rcases hspec.entry with h | h
        · exact .inl (.inl ⟨rfl, h⟩)
        · exact .inr h
      · rcases h with ⟨rfl, h⟩ | h
        · rcases hspec.old q e' h with h | h
          · exact .inl (.inl ⟨rfl, h⟩)
          · exact .inr ⟨rfl, h⟩
        · exact .inl (.inr h)
    · obtain ⟨hasking, hpath, hholds, hentry, hold⟩ := updateChild_spec hf rest hask.2
      refine ⟨⟨hask.1, hasking⟩, hpath, .inr hholds, ?_, fun u q e' h => ?_⟩
      · rcases hentry with h | h
        · exact .inl (.inr h)
        · exact .inr h
      · rcases h with h | h
        · exact .inl (.inl h)
        · rcases hold u q e' h with h | h
          · exact .inl (.inr h)
          · exact .inr h

theorem insert_spec (hfun : ∀ c n n', asks c n → asks c n' → n = n') (e : E) :
    ∀ (path c : List (N × V)) (t : Trie N V E), t.Asking asks c → Follows asks c path →
      InsertSpec asks e c path t (t.insert e path)
  | [], c, .node question (some e') children, hask, _ => by
    refine ⟨?_, rfl, rfl, .inl rfl, fun q e'' h => .inl ?_⟩
    · cases question <;> exact hask
    · cases q <;> exact h
  | [], c, .node question none children, hask, _ => by
    refine ⟨?_, rfl, rfl, .inr rfl, fun q e'' h => ?_⟩
    · cases question <;> exact hask
    · cases q with
      | nil => exact .inr ⟨rfl, (Option.some.inj h).symm⟩
      | cons a q => exact .inl h
  | (n, v) :: path, c, .node question entry children, hask, hfollows => by
    -- the node asks the same question, or none yet
    have hquestion : question.getD n = n ∧ AskingChildren asks c n children ∧
        ∀ w q e', HoldsChild children w q e' → question = some n := by
      cases question with
      | none =>
        simp only [Asking] at hask
        subst hask
        exact ⟨rfl, trivial, fun _ _ _ h => h.elim⟩
      | some n' =>
        obtain rfl := hfun c n' n hask.1 hfollows.1
        exact ⟨rfl, hask.2, fun _ _ _ _ => rfl⟩
    obtain ⟨hname, hchildren, hsame⟩ := hquestion
    obtain ⟨hasking, hway, hholds, hentry, hold⟩ :=
      updateChild_spec (fun t ht => insert_spec hfun e path _ t ht hfollows.2) children hchildren
    simp only [insert, hname]
    refine ⟨⟨hfollows.1, hasking⟩, by rw [hway], ⟨rfl, hholds⟩, ?_, fun q e' h => ?_⟩
    · rcases hentry with h | h
      · exact .inl ⟨hsame _ _ _ h, h⟩
      · exact .inr h
    · cases q with
      | nil => exact .inl h
      | cons a q =>
        obtain ⟨m, w⟩ := a
        obtain ⟨hm, h⟩ := h
        obtain rfl : n = m := Option.some.inj hm
        rcases hold w q e' h with h | ⟨rfl, rfl, rfl⟩
        · exact .inl ⟨hsame _ _ _ h, h⟩
        · exact .inr ⟨rfl, rfl⟩

end Facts

/-! ## What all entries have in common -/

mutual

/-- `p` holds for every entry, also for one that no question leads to. -/
def All (p : E → Prop) : Trie N V E → Prop
  | .node _ entry children => (∀ e, entry = some e → p e) ∧ AllChildren p children

def AllChildren (p : E → Prop) : TrieChildren N V E → Prop
  | .nil => True
  | .cons _ child rest => All p child ∧ AllChildren p rest

end

section All
variable {σ : N → V} {p q : E → Prop}

omit [DecidableEq V] in
theorem empty_all : (empty : Trie N V E).All p := ⟨by simp, trivial⟩

omit [DecidableEq V] in
mutual

theorem All.imp (hpq : ∀ e, p e → q e) : ∀ t : Trie N V E, t.All p → t.All q
  | .node _ _ children, h => ⟨fun e he => hpq e (h.1 e he), AllChildren.imp hpq children h.2⟩

theorem AllChildren.imp (hpq : ∀ e, p e → q e) : ∀ children : TrieChildren N V E,
    AllChildren p children → AllChildren q children
  | .nil, _ => trivial
  | .cons _ child rest, h => ⟨All.imp hpq child h.1, AllChildren.imp hpq rest h.2⟩

end

mutual

theorem find_all : ∀ (t : Trie N V E) (path : List (N × V)) (e : E), t.All p → t.find σ = some (path, e) → p e
  | .node _ (some e') _, path, e, hall, h => by
    simp only [find, Option.some.injEq, Prod.mk.injEq] at h
    exact hall.1 e (by rw [h.2])
  | .node none none _, path, e, hall, h => by simp [find] at h
  | .node (some n) none children, path, e, hall, h => by
    simp only [find, Option.map_eq_some_iff] at h
    obtain ⟨⟨path', e'⟩, hfind, heq⟩ := h
    cases heq
    exact findChild_all (σ n) children path' e' hall.2 hfind

theorem findChild_all : ∀ (v : V) (children : TrieChildren N V E) (path : List (N × V)) (e : E),
    AllChildren p children → findChild σ v children = some (path, e) → p e
  | v, .nil, path, e, hall, h => by simp [findChild] at h
  | v, .cons w child rest, path, e, hall, h => by
    simp only [findChild] at h
    split at h
    · exact find_all child path e hall.1 h
    · exact findChild_all v rest path e hall.2 h

end

omit [DecidableEq V] in
mutual

theorem prune_all (keep : E → Bool) : ∀ t t' : Trie N V E, t.All p → t.prune keep = some t' → t'.All p
  | .node question (some e) children, t', hall, h => by
    simp only [prune] at h
    split at h
    · cases h
      exact ⟨hall.1, pruneChildren_all keep children hall.2⟩
    · cases h
  | .node question none children, t', hall, h => by
    have hchildren := pruneChildren_all keep children hall.2
    simp only [prune] at h
    split at h
    · cases h
    · cases h
      exact ⟨by simp, hchildren⟩

theorem pruneChildren_all (keep : E → Bool) : ∀ children : TrieChildren N V E,
    AllChildren p children → AllChildren p (pruneChildren keep children)
  | .nil, _ => trivial
  | .cons w child rest, hall => by
    simp only [pruneChildren]
    split
    · exact pruneChildren_all keep rest hall.2
    · rename_i child' hchild
      exact ⟨prune_all keep child child' hall.1 hchild, pruneChildren_all keep rest hall.2⟩

end

omit [DecidableEq V] in
theorem pruneRoot_all (keep : E → Bool) (t : Trie N V E) (hall : t.All p) : (t.pruneRoot keep).All p := by
  cases t with
  | node question entry children =>
    refine ⟨fun e he => hall.1 e ?_, pruneChildren_all keep children hall.2⟩
    exact (Option.filter_eq_some_iff.1 he).1

theorem updateChild_all {α : Type} (v : V) {f : Trie N V E → Trie N V E × α} {P : α → Prop}
    (hf : ∀ t, t.All p → (f t).1.All p ∧ P (f t).2) : ∀ children : TrieChildren N V E, AllChildren p children →
      AllChildren p (updateChild v f children).1 ∧ P (updateChild v f children).2
  | .nil, _ => ⟨⟨(hf empty empty_all).1, trivial⟩, (hf empty empty_all).2⟩
  | .cons w child rest, hall => by
    simp only [updateChild]
    split
    · exact ⟨⟨(hf child hall.1).1, hall.2⟩, (hf child hall.1).2⟩
    · obtain ⟨hrest, hP⟩ := updateChild_all v hf rest hall.2
      exact ⟨⟨hall.1, hrest⟩, hP⟩

theorem insert_all {e : E} (he : p e) : ∀ (path : List (N × V)) (t : Trie N V E), t.All p →
    (t.insert e path).1.All p ∧ p (t.insert e path).2.2
  | [], .node question (some e') children, hall => ⟨hall, hall.1 e' rfl⟩
  | [], .node question none children, hall => ⟨⟨by rintro _ ⟨⟩; exact he, hall.2⟩, he⟩
  | (n, v) :: path, .node question entry children, hall => by
    have hrest : ∀ t : Trie N V E, t.All p → (t.insert e path).1.All p ∧ p (t.insert e path).2.2 :=
      fun t ht => insert_all he path t ht
    obtain ⟨hchildren, hentry⟩ := updateChild_all (P := fun r : List (N × V) × E => p r.2) v hrest children hall.2
    exact ⟨⟨hall.1, hchildren⟩, hentry⟩

end All

/-! ## Ways that are open -/

mutual

/-- No node on the path asks anything else or has an entry, and the last one has no children. -/
def Open : Trie N V E → List (N × V) → Prop
  | .node _ _ children, [] => children = .nil
  | .node question entry children, (n, v) :: path =>
    (∀ m, question = some m → m = n) ∧ entry = none ∧ OpenChild children v path

def OpenChild : TrieChildren N V E → V → List (N × V) → Prop
  | .nil, _, _ => True
  | .cons w child rest, v, path => (w = v → Open child path) ∧ OpenChild rest v path

end

section Open
variable {asks : List (N × V) → N → Prop} {ends : List (N × V) → Prop}

omit [DecidableEq V] in
mutual

/-- If a way never ends where something is asked, and entries are only where a way ends, then every way is open. -/
theorem open_of_asking (hfun : ∀ c n n', asks c n → asks c n' → n = n') (hends : ∀ c n, asks c n → ¬ ends c) :
    ∀ (t : Trie N V E) (path c : List (N × V)), t.Asking asks c → (∀ q e, t.Holds q e → ends (c ++ q)) →
      Follows asks c path → ends (c ++ path) → t.Open path
  | .node none _ children, [], c, hask, _, _, _ => hask
  | .node (some n) _ children, [], c, hask, _, _, hend => by
    rw [List.append_nil] at hend
    exact absurd hend (hends c n hask.1)
  | .node question entry children, (n, v) :: path, c, hask, hholds, hfollows, hend => by
    have hentry : entry = none := by
      cases hentry : entry with
      | none => rfl
      | some e =>
        have hhere := hholds [] e hentry
        rw [List.append_nil] at hhere
        exact absurd hhere (hends c n hfollows.1)
    cases question with
    | none =>
      simp only [Asking] at hask
      subst hask
      exact ⟨by simp, hentry, trivial⟩
    | some m =>
      obtain rfl := hfun c m n hask.1 hfollows.1
      refine ⟨fun m' hm => (Option.some.inj hm).symm, hentry, ?_⟩
      refine openChild_of_asking hfun hends children c m v path hask.2 (fun w q e he => ?_) hfollows.2 ?_
      · have hhere := hholds ((m, w) :: q) e ⟨rfl, he⟩
        simpa using hhere
      · simpa using hend

theorem openChild_of_asking (hfun : ∀ c n n', asks c n → asks c n' → n = n') (hends : ∀ c n, asks c n → ¬ ends c) :
    ∀ (children : TrieChildren N V E) (c : List (N × V)) (n : N) (v : V) (path : List (N × V)),
      AskingChildren asks c n children →
      (∀ w q e, HoldsChild children w q e → ends (c ++ [(n, w)] ++ q)) → Follows asks (c ++ [(n, v)]) path →
      ends (c ++ [(n, v)] ++ path) → OpenChild children v path
  | .nil, _, _, _, _, _, _, _, _ => trivial
  | .cons w child rest, c, n, v, path, hask, hholds, hfollows, hend => by
    refine ⟨?_, ?_⟩
    · rintro rfl
      exact open_of_asking hfun hends child path _ hask.1 (fun q e he => hholds w q e (.inl ⟨rfl, he⟩)) hfollows hend
    · exact openChild_of_asking hfun hends rest c n v path hask.2 (fun u q e he => hholds u q e (.inr he)) hfollows hend

end

end Open

end Trie

end BuildPal.Lib
