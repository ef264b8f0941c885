import BuildPal.Lib.DecisionTrie
/-!
# Decision tries as maps

Entries come into a trie with `insert` and leave it with `detach`, which takes
the node of an entry away, and with it the nodes above that have nothing left
below them. A trie whose entries are only at its leaves, and which has no other
leaves than these, finds every entry whose questions are answered as it says.
-/

namespace BuildPal.Lib

namespace Trie
variable {N V E : Type} [DecidableEq V]

/-! ## Removal -/

/-- The child with the given answer. -/
def childAt (v : V) : TrieChildren N V E → Option (Trie N V E)
  | .nil => none
  | .cons w child rest => if w = v then some child else childAt v rest

/-- Changes the child with the given answer, or takes it away. -/
def alterChild (v : V) (f : Trie N V E → Option (Trie N V E)) : TrieChildren N V E → TrieChildren N V E
  | .nil => .nil
  | .cons w child rest =>
    if w = v then
      match f child with
      | none => rest
      | some child => .cons w child rest
    else .cons w child (alterChild v f rest)

/-- What is left of a node when the one that the answers lead to goes: nothing, if it has no children then. -/
def detachAt : List V → Trie N V E → Option (Trie N V E)
  | [], _ => none
  | v :: answers, .node question entry children =>
    match alterChild v (detachAt answers) children with
    | .nil => none
    | .cons w child rest => some (.node question entry (.cons w child rest))

/-- The root stays. -/
def detach : List V → Trie N V E → Trie N V E
  | [], t => t
  | v :: answers, .node question entry children => .node question entry (alterChild v (detachAt answers) children)

/-- The questions on the way to a node, with the answers that lead there. -/
def pathTo : List V → Trie N V E → Option (List (N × V))
  | [], _ => some []
  | v :: answers, .node question _ children =>
    question.bind fun n => (childAt v children).bind fun child => (pathTo answers child).map ((n, v) :: ·)

/-! ## Well-formed tries -/

def Lacks (v : V) : TrieChildren N V E → Prop
  | .nil => True
  | .cons w _ rest => w ≠ v ∧ Lacks v rest

mutual

/-- A node with children asks something, and no two children have the same answer. -/
def Proper : Trie N V E → Prop
  | .node question _ children => (question = none → children = .nil) ∧ ProperChildren children

def ProperChildren : TrieChildren N V E → Prop
  | .nil => True
  | .cons v child rest => Lacks v rest ∧ Proper child ∧ ProperChildren rest

end

mutual

/-- A node has either an entry or children. -/
def Tidy : Trie N V E → Prop
  | .node _ entry children => (entry = none ↔ children ≠ .nil) ∧ TidyChildren children

def TidyChildren : TrieChildren N V E → Prop
  | .nil => True
  | .cons _ child rest => Tidy child ∧ TidyChildren rest

end

/-- The root has no entry, but it may be without children. -/
def TidyRoot : Trie N V E → Prop
  | .node _ entry children => entry = none ∧ TidyChildren children

/-! ## Children as a map -/

section Children
variable {v w : V} {child : Trie N V E}

theorem childAt_of_lacks : ∀ children : TrieChildren N V E, Lacks v children → childAt v children = none
  | .nil, _ => rfl
  | .cons _ _ rest, ⟨hne, h⟩ => by
    rw [childAt, if_neg hne]
    exact childAt_of_lacks rest h

theorem proper_childAt : ∀ children : TrieChildren N V E, ProperChildren children →
    childAt v children = some child → child.Proper
  | .cons _ _ rest, ⟨_, hchild, hrest⟩, hc => by
    rw [childAt] at hc
    split at hc
    · cases hc
      exact hchild
    · exact proper_childAt rest hrest hc

theorem tidy_childAt : ∀ children : TrieChildren N V E, TidyChildren children →
    childAt v children = some child → child.Tidy
  | .cons _ _ rest, ⟨hchild, hrest⟩, hc => by
    rw [childAt] at hc
    split at hc
    · cases hc
      exact hchild
    · exact tidy_childAt rest hrest hc

omit [DecidableEq V] in
theorem not_holdsChild_of_lacks (q : List (N × V)) (e : E) : ∀ children : TrieChildren N V E, Lacks v children →
    ¬ HoldsChild children v q e
  | .nil, _ => id
  | .cons _ _ rest, ⟨hne, h⟩ => by
    rintro (⟨heq, -⟩ | hq)
    · exact hne heq
    · exact not_holdsChild_of_lacks q e rest h hq

/-- An entry below an answer is one of the child with this answer. -/
theorem holdsChild_iff (q : List (N × V)) (e : E) : ∀ children : TrieChildren N V E, ProperChildren children →
    (HoldsChild children v q e ↔ ∃ child, childAt v children = some child ∧ child.Holds q e)
  | .nil, _ => by simp [HoldsChild, childAt]
  | .cons w child rest, ⟨hlacks, _, hrest⟩ => by
    rw [HoldsChild, childAt]
    by_cases hw : w = v
    · subst hw
      simp [not_holdsChild_of_lacks q e rest hlacks]
    · simp [hw, holdsChild_iff q e rest hrest]

theorem lacks_alterChild {f : Trie N V E → Option (Trie N V E)} : ∀ children : TrieChildren N V E,
    Lacks w children → Lacks w (alterChild v f children)
  | .nil, _ => trivial
  | .cons _ _ rest, ⟨hne, h⟩ => by
    rw [alterChild]
    split
    · split
      · exact h
      · exact ⟨hne, h⟩
    · exact ⟨hne, lacks_alterChild rest h⟩

theorem childAt_alterChild (f : Trie N V E → Option (Trie N V E)) : ∀ children : TrieChildren N V E,
    ProperChildren children →
    childAt w (alterChild v f children) = if v = w then (childAt v children).bind f else childAt w children
  | .nil, _ => by simp [alterChild, childAt]
  | .cons u child rest, ⟨hlacks, _, hrest⟩ => by
    have ih := childAt_alterChild f rest hrest
    rw [alterChild]
    by_cases hu : u = v
    · subst hu
      cases hf : f child with
      | none =>
        by_cases hw : u = w
        · subst hw
          simp [hf, childAt, childAt_of_lacks rest hlacks]
        · simp [childAt, hw]
      | some child' =>
        by_cases hw : u = w
        · simp [hf, childAt, hw]
        · simp [childAt, hw]
    · rw [if_neg hu, childAt, ih]
      by_cases hw : v = w
      · subst hw
        simp [childAt, hu]
      · simp [childAt, hw]

theorem proper_alterChild {f : Trie N V E → Option (Trie N V E)}
    (hf : ∀ child child', child.Proper → f child = some child' → child'.Proper) :
    ∀ children : TrieChildren N V E, ProperChildren children → ProperChildren (alterChild v f children)
  | .nil, _ => trivial
  | .cons _ child rest, ⟨hlacks, hchild, hrest⟩ => by
    rw [alterChild]
    split
    · split
      · exact hrest
      · rename_i child' hf'
        exact ⟨hlacks, hf child child' hchild hf', hrest⟩
    · exact ⟨lacks_alterChild rest hlacks, hchild, proper_alterChild hf rest hrest⟩

theorem tidy_alterChild {f : Trie N V E → Option (Trie N V E)}
    (hf : ∀ child child', child.Tidy → f child = some child' → child'.Tidy) :
    ∀ children : TrieChildren N V E, TidyChildren children → TidyChildren (alterChild v f children)
  | .nil, _ => trivial
  | .cons _ child rest, ⟨hchild, hrest⟩ => by
    rw [alterChild]
    split
    · split
      · exact hrest
      · rename_i child' hf'
        exact ⟨hf child child' hchild hf', hrest⟩
    · exact ⟨hchild, tidy_alterChild hf rest hrest⟩

theorem lacks_updateChild {α : Type} {f : Trie N V E → Trie N V E × α} (hne : v ≠ w) :
    ∀ children : TrieChildren N V E, Lacks w children → Lacks w (updateChild v f children).1
  | .nil, _ => ⟨hne, trivial⟩
  | .cons _ _ rest, ⟨hne', h⟩ => by
    rw [updateChild]
    split
    · exact ⟨hne', h⟩
    · exact ⟨hne', lacks_updateChild hne rest h⟩

theorem childAt_updateChild {α : Type} (f : Trie N V E → Trie N V E × α) (children : TrieChildren N V E) :
    childAt w (updateChild v f children).1 =
      if v = w then some (f ((childAt v children).getD empty)).1 else childAt w children := by
  induction children using childAt.induct v with
  | case1 =>
    by_cases hw : v = w
    · simp [updateChild, childAt, hw]
    · simp [updateChild, childAt, hw]
  | case2 child rest =>
    rw [updateChild, if_pos rfl]
    by_cases hw : v = w
    · simp [childAt, hw]
    · simp [childAt, hw]
  | case3 u child rest hu ih =>
    rw [updateChild, if_neg hu, childAt, ih]
    by_cases hw : v = w
    · subst hw
      simp [childAt, hu]
    · simp [childAt, hw]

theorem proper_updateChild {α : Type} {f : Trie N V E → Trie N V E × α}
    (hf : ∀ child, child.Proper → (f child).1.Proper) : ∀ children : TrieChildren N V E,
    ProperChildren children → ProperChildren (updateChild v f children).1
  | .nil, _ => ⟨trivial, hf empty ⟨fun _ => rfl, trivial⟩, trivial⟩
  | .cons w child rest, ⟨hlacks, hchild, hrest⟩ => by
    rw [updateChild]
    split
    · exact ⟨hlacks, hf child hchild, hrest⟩
    · rename_i hw
      exact ⟨lacks_updateChild (Ne.symm hw) rest hlacks, hchild, proper_updateChild hf rest hrest⟩

/-- Where no child is, the way is open. -/
theorem open_childAt {path : List (N × V)} : ∀ children : TrieChildren N V E, OpenChild children v path →
    ((childAt v children).getD empty).Open path
  | .nil, _ => by
    cases path with
    | nil => rfl
    | cons a path => exact ⟨by simp, rfl, trivial⟩
  | .cons w child rest, ⟨hchild, hrest⟩ => by
    rw [childAt]
    split
    · rename_i hw
      exact hchild hw
    · exact open_childAt rest hrest

theorem updateChild_ne_nil {α : Type} {f : Trie N V E → Trie N V E × α} (children : TrieChildren N V E) :
    (updateChild v f children).1 ≠ .nil := by
  cases children with
  | nil => simp [updateChild]
  | cons _ _ _ =>
    rw [updateChild]
    split <;> simp

/-- What the function returned for the child. -/
theorem updateChild_snd {α : Type} (f : Trie N V E → Trie N V E × α) (children : TrieChildren N V E) :
    (updateChild v f children).2 = (f ((childAt v children).getD empty)).2 := by
  induction children using childAt.induct v with
  | case1 => rfl
  | case2 child rest =>
    rw [updateChild, childAt, if_pos rfl, if_pos rfl]
    rfl
  | case3 u child rest hu ih =>
    rw [updateChild, childAt, if_neg hu, if_neg hu]
    exact ih

theorem updateChild_same {α : Type} {f : Trie N V E → Trie N V E × α} {r : α} : ∀ children : TrieChildren N V E,
    childAt v children = some child → f child = (child, r) → updateChild v f children = (children, r)
  | .cons u child' rest, hc, hf => by
    rw [childAt] at hc
    rw [updateChild]
    split
    · rename_i hu
      rw [if_pos hu] at hc
      cases hc
      rw [hf]
    · rename_i hu
      rw [if_neg hu] at hc
      rw [updateChild_same rest hc hf]

theorem tidy_updateChild {α : Type} {f : Trie N V E → Trie N V E × α} : ∀ children : TrieChildren N V E,
    (f ((childAt v children).getD empty)).1.Tidy → TidyChildren children → TidyChildren (updateChild v f children).1
  | .nil, hf, _ => ⟨hf, trivial⟩
  | .cons w child rest, hf, ⟨hchild, hrest⟩ => by
    rw [childAt] at hf
    rw [updateChild]
    split
    · rename_i hw
      rw [if_pos hw] at hf
      exact ⟨hf, hrest⟩
    · rename_i hw
      rw [if_neg hw] at hf
      exact ⟨hchild, tidy_updateChild rest hf hrest⟩

end Children

section Insert
variable {e : E}

theorem insert_proper : ∀ (path : List (N × V)) (t : Trie N V E), t.Proper → (t.insert e path).1.Proper
  | [], .node _ (some _) _, h => h
  | [], .node _ none _, h => h
  | (n, v) :: path, .node question entry children, h => by
    refine ⟨by simp, ?_⟩
    exact proper_updateChild (fun child hchild => insert_proper path child hchild) children h.2

/-- The way goes along the answers, whatever is asked. -/
theorem insert_answers : ∀ (path : List (N × V)) (t : Trie N V E),
    (t.insert e path).2.1.map (·.2) = path.map (·.2)
  | [], .node _ (some _) _ => rfl
  | [], .node _ none _ => rfl
  | (n, v) :: path, .node question entry children => by
    simp only [insert, updateChild_snd, List.map_cons, insert_answers path]

omit [DecidableEq V] in
theorem not_empty_holds (q : List (N × V)) (e : E) : ¬ (empty : Trie N V E).Holds q e := by
  intro h
  cases q with
  | nil => cases h
  | cons a q => cases h.1

omit [DecidableEq V] in
theorem empty_proper : (empty : Trie N V E).Proper := ⟨fun _ => rfl, trivial⟩

/-- What a node without a question gets is all that it holds. -/
theorem getD_childAt_holds {question : Option N} {m n : N} {v : V} {children : TrieChildren N V E}
    (h : question = none → children = .nil) (q : List (N × V)) :
    question.getD n = m ∧ ((childAt v children).getD empty).Holds q e ↔
      question = some m ∧ ∃ child, childAt v children = some child ∧ child.Holds q e := by
  cases question with
  | none =>
    obtain rfl := h rfl
    simp [childAt, not_empty_holds]
  | some n' =>
    cases hc : childAt v children with
    | none => simp [not_empty_holds]
    | some child => simp

/-- What is held after an insertion. -/
theorem insert_holds : ∀ (path : List (N × V)) (t : Trie N V E) (q : List (N × V)) (e' : E), t.Proper →
    ((t.insert e path).1.Holds q e' ↔ t.Holds q e' ∨ q = (t.insert e path).2.1 ∧ e' = (t.insert e path).2.2)
  | [], .node question (some e₁) children, q, e', _ => by
    refine ⟨.inl, ?_⟩
    rintro (h | ⟨rfl, rfl⟩)
    · exact h
    · rfl
  | [], .node question none children, q, e', _ => by
    cases q with
    | nil => simp [insert, Holds, eq_comm]
    | cons a q => simp [insert, Holds]
  | (n, v) :: path, .node question entry children, [], e', _ => by simp [insert, Holds]
  | (n, v) :: path, .node question entry children, (m, w) :: q, e', h => by
    have hproper : ProperChildren (updateChild v (insert e path) children).1 :=
      proper_updateChild (fun child hchild => insert_proper path child hchild) children h.2
    have hchild : ((childAt v children).getD empty).Proper := by
      cases hc : childAt v children with
      | none => exact empty_proper
      | some child => exact proper_childAt children h.2 hc
    have ih := insert_holds path _ q e' hchild
    simp only [insert, Holds, holdsChild_iff q e' _ hproper, holdsChild_iff q e' _ h.2, childAt_updateChild,
      updateChild_snd, Option.some.injEq, List.cons.injEq, Prod.mk.injEq]
    by_cases hw : v = w
    · subst hw
      simp only [if_true, Option.some.injEq, exists_eq_left', ih, and_or_left, getD_childAt_holds h.1]
      constructor
      · rintro (hold | ⟨hm, hq, he⟩)
        · exact .inl hold
        · exact .inr ⟨⟨⟨hm.symm, trivial⟩, hq⟩, he⟩
      · rintro (hold | ⟨⟨⟨hm, -⟩, hq⟩, he⟩)
        · exact .inl hold
        · exact .inr ⟨hm.symm, hq, he⟩
    · -- nothing changes below another answer
      simp only [if_neg hw, Ne.symm hw, and_false, false_and, or_false]
      constructor
      · rintro ⟨hm, child, hc, hq⟩
        refine ⟨?_, child, hc, hq⟩
        cases question with
        | none =>
          rw [h.1 rfl] at hc
          cases hc
        | some n' => exact congrArg some hm
      · rintro ⟨rfl, child, hc, hq⟩
        exact ⟨rfl, child, hc, hq⟩

/-- What `insert` returns is new, or was held before. -/
theorem insert_entry : ∀ (path : List (N × V)) (t : Trie N V E), t.Proper →
    (t.insert e path).2.2 = e ∨ t.Holds (t.insert e path).2.1 (t.insert e path).2.2
  | [], .node _ (some _) _, _ => .inr rfl
  | [], .node _ none _, _ => .inl rfl
  | (n, v) :: path, .node question entry children, h => by
    have hchild : ((childAt v children).getD empty).Proper := by
      cases hc : childAt v children with
      | none => exact empty_proper
      | some child => exact proper_childAt children h.2 hc
    simp only [insert, updateChild_snd]
    rcases insert_entry path _ hchild with hnew | hold
    · exact .inl hnew
    · right
      obtain ⟨hquestion, child, hc, hq⟩ := (getD_childAt_holds h.1 _).1 ⟨rfl, hold⟩
      exact ⟨hquestion, (holdsChild_iff _ _ children h.2).2 ⟨child, hc, hq⟩⟩

/-- An entry that is held already is what `insert` returns, and nothing changes. -/
theorem insert_of_holds {e' : E} : ∀ (path : List (N × V)) (t : Trie N V E), t.Proper → t.Holds path e' →
    t.insert e path = (t, path, e')
  | [], .node _ _ _, _, h => by
    rw [Holds] at h
    rw [h]
    rfl
  | (n, v) :: path, .node question entry children, hproper, h => by
    obtain ⟨rfl, h⟩ := h
    obtain ⟨child, hc, h⟩ := (holdsChild_iff path e' children hproper.2).1 h
    have hchild : child.insert e path = (child, path, e') :=
      insert_of_holds path child (proper_childAt children hproper.2 hc) h
    simp [insert, updateChild_same children hc hchild]

/-- A way that is open ends at a leaf. -/
theorem insert_tidy : ∀ (path : List (N × V)) (t : Trie N V E), t.Tidy ∨ t = empty → t.Open path →
    (t.insert e path).1.Tidy
  | [], .node _ (some _) _, h, _ => by
    rcases h with h | h
    · exact h
    · cases h
  | [], .node _ none children, _, hopen => by
    obtain rfl : children = .nil := hopen
    exact ⟨by simp, trivial⟩
  | (n, v) :: path, .node question entry children, h, hopen => by
    obtain ⟨-, rfl, hopen⟩ := hopen
    have hchildren : TidyChildren children := by
      rcases h with h | h
      · exact h.2
      · cases h
        trivial
    refine ⟨by simp [updateChild_ne_nil], tidy_updateChild children (insert_tidy path _ ?_ ?_) hchildren⟩
    · cases hc : childAt v children with
      | none => exact .inr rfl
      | some child => exact .inl (tidy_childAt children hchildren hc)
    · exact open_childAt children hopen

/-- The same for the root. -/
theorem insert_tidyRoot {a : N × V} {path : List (N × V)} {t : Trie N V E} (h : t.TidyRoot)
    (hopen : t.Open (a :: path)) :
    (t.insert e (a :: path)).1.TidyRoot := by
  obtain ⟨question, entry, children⟩ := t
  obtain ⟨-, -, hopen⟩ := hopen
  refine ⟨h.1, tidy_updateChild children (insert_tidy path _ ?_ (open_childAt children hopen)) h.2⟩
  cases hc : childAt a.2 children with
  | none => exact .inr rfl
  | some child => exact .inl (tidy_childAt children h.2 hc)

end Insert

/-! ## What `detach` leaves -/

section Detach
variable {answers : List V} {q : List (N × V)} {e : E}

theorem detachAt_proper : ∀ (answers : List V) (t t' : Trie N V E), t.Proper → t.detachAt answers = some t' → t'.Proper
  | v :: answers, .node question entry children, t', h, ht => by
    have hchildren : ProperChildren (alterChild v (detachAt answers) children) :=
      proper_alterChild (fun child child' hchild => detachAt_proper answers child child' hchild) children h.2
    rw [detachAt] at ht
    split at ht
    · cases ht
    · rename_i w child rest hleft
      cases ht
      rw [hleft] at hchildren
      refine ⟨fun hnone => ?_, hchildren⟩
      rw [h.1 hnone] at hleft
      cases hleft

theorem detach_proper (t : Trie N V E) (h : t.Proper) : (t.detach answers).Proper := by
  obtain ⟨question, entry, children⟩ := t
  cases answers with
  | nil => exact h
  | cons v answers =>
    refine ⟨fun hnone => ?_, proper_alterChild (detachAt_proper answers) children h.2⟩
    rw [h.1 hnone]
    rfl

theorem asking_alterChild {asks : List (N × V) → N → Prop} {c : List (N × V)} {n : N} {v : V}
    {f : Trie N V E → Option (Trie N V E)}
    (hf : ∀ c child child', child.Asking asks c → f child = some child' → child'.Asking asks c) :
    ∀ children : TrieChildren N V E, AskingChildren asks c n children →
      AskingChildren asks c n (alterChild v f children)
  | .nil, _ => trivial
  | .cons w child rest, ⟨hchild, hrest⟩ => by
    rw [alterChild]
    split
    · split
      · exact hrest
      · rename_i child' hf'
        exact ⟨hf _ child child' hchild hf', hrest⟩
    · exact ⟨hchild, asking_alterChild hf rest hrest⟩

theorem detachAt_asking {asks : List (N × V) → N → Prop} : ∀ (answers : List V) (c : List (N × V)) (t t' : Trie N V E),
    t.Asking asks c → t.detachAt answers = some t' → t'.Asking asks c
  | v :: answers, c, .node none entry children, t', h, ht => by
    obtain rfl : children = .nil := h
    cases ht
  | v :: answers, c, .node (some n) entry children, t', h, ht => by
    have hchildren := asking_alterChild (v := v) (detachAt_asking answers) children h.2
    rw [detachAt] at ht
    split at ht
    · cases ht
    · rename_i w child rest hleft
      cases ht
      rw [hleft] at hchildren
      exact ⟨h.1, hchildren⟩

theorem detach_asking {asks : List (N × V) → N → Prop} {c : List (N × V)} {t : Trie N V E} (h : t.Asking asks c) :
    (t.detach answers).Asking asks c := by
  obtain ⟨question, entry, children⟩ := t
  cases answers with
  | nil => exact h
  | cons v answers =>
    cases question with
    | none =>
      obtain rfl : children = .nil := h
      rfl
    | some n => exact ⟨h.1, asking_alterChild (detachAt_asking answers) children h.2⟩

/-- Nothing new is held, and nothing where the node was. -/
theorem detachAt_holds : ∀ (answers : List V) (t t' : Trie N V E) (q : List (N × V)) (e : E), t.Proper →
    t.detachAt answers = some t' → t'.Holds q e → t.Holds q e ∧ q.map (·.2) ≠ answers
  | v :: answers, .node question entry children, t', [], e, h, ht, hq => by
    rw [detachAt] at ht
    split at ht
    · cases ht
    · cases ht
      exact ⟨hq, by simp⟩
  | v :: answers, .node question entry children, t', (n, w) :: q, e, h, ht, hq => by
    rw [detachAt] at ht
    split at ht
    · cases ht
    · rename_i u child rest hleft
      cases ht
      have hproper : ProperChildren (alterChild v (detachAt answers) children) :=
        proper_alterChild (detachAt_proper answers) children h.2
      obtain ⟨hn, hq⟩ := hq
      rw [← hleft, holdsChild_iff q e _ hproper, childAt_alterChild _ children h.2] at hq
      obtain ⟨child', hc, hq⟩ := hq
      by_cases hw : v = w
      · subst hw
        rw [if_pos rfl] at hc
        obtain ⟨child, hc, hd⟩ := Option.bind_eq_some_iff.1 hc
        obtain ⟨hq, hne⟩ := detachAt_holds answers child child' q e (proper_childAt children h.2 hc) hd hq
        refine ⟨⟨hn, (holdsChild_iff q e children h.2).2 ⟨child, hc, hq⟩⟩, ?_⟩
        simpa using hne
      · rw [if_neg hw] at hc
        refine ⟨⟨hn, (holdsChild_iff q e children h.2).2 ⟨child', hc, hq⟩⟩, ?_⟩
        simp [Ne.symm hw]

theorem detach_holds {v : V} {t : Trie N V E} (h : t.Proper) (hq : (t.detach (v :: answers)).Holds q e) :
    t.Holds q e ∧ q.map (·.2) ≠ v :: answers := by
  obtain ⟨question, entry, children⟩ := t
  cases q with
  | nil => exact ⟨hq, by simp⟩
  | cons a q =>
    -- with a child the root is a node like any other
    have hleft : (Trie.node question entry children).detachAt (v :: answers) =
        some ((Trie.node question entry children).detach (v :: answers)) := by
      obtain ⟨-, hchild⟩ := hq
      rw [detachAt, detach]
      split
      · rename_i hnil
        rw [hnil] at hchild
        exact hchild.elim
      · rename_i w child rest hcons
        rw [hcons]
    exact detachAt_holds (v :: answers) _ _ _ e h hleft hq

theorem detachAt_tidy : ∀ (answers : List V) (t t' : Trie N V E), t.Tidy → t.detachAt answers = some t' → t'.Tidy
  | v :: answers, .node question entry children, t', h, ht => by
    have hchildren : TidyChildren (alterChild v (detachAt answers) children) :=
      tidy_alterChild (fun child child' hchild => detachAt_tidy answers child child' hchild) children h.2
    rw [detachAt] at ht
    split at ht
    · cases ht
    · rename_i w child rest hleft
      cases ht
      rw [hleft] at hchildren
      have hentry : entry = none := by
        refine h.1.2 fun hnil => ?_
        rw [hnil] at hleft
        cases hleft
      exact ⟨by simp [hentry], hchildren⟩

theorem detach_tidyRoot {t : Trie N V E} (h : t.TidyRoot) : (t.detach answers).TidyRoot := by
  obtain ⟨question, entry, children⟩ := t
  cases answers with
  | nil => exact h
  | cons v answers => exact ⟨h.1, tidy_alterChild (detachAt_tidy answers) children h.2⟩

/-- Where no node below is left, no child was held there but by the node that goes. -/
theorem detachAt_keeps : ∀ (answers : List V) (t : Trie N V E) (p q : List (N × V)) (e₀ e : E), t.Proper → t.Tidy →
    t.Holds p e₀ → p.map (·.2) = answers → t.Holds q e → q ≠ p → ∃ t', t.detachAt answers = some t' ∧ t'.Holds q e
  | [], .node _ entry children, [], q, e₀, e, _, htidy, hp, _, hq, hne => by
    have hnil : children = .nil := by
      by_contra hc
      rw [Holds, htidy.1.2 hc] at hp
      cases hp
    cases q with
    | nil => exact absurd rfl hne
    | cons a q =>
      rw [hnil] at hq
      exact hq.2.elim
  | v :: answers, .node question entry children, (n, u) :: p, [], e₀, e, hproper, htidy, hp, _, hq, _ => by
    -- a node with a child has no entry
    have hentry : entry = none := htidy.1.2 fun hnil => by
      rw [hnil] at hp
      exact hp.2.elim
    rw [Holds, hentry] at hq
    cases hq
  | v :: answers, .node question entry children, (n, u) :: p, (m, w) :: q, e₀, e, hproper, htidy, hp, hanswers, hq, hne => by
    obtain ⟨hn, hp⟩ := hp
    obtain ⟨hm, hq⟩ := hq
    obtain rfl : n = m := Option.some.inj (hn.symm.trans hm)
    simp only [List.map_cons, List.cons.injEq] at hanswers
    obtain ⟨rfl, hanswers⟩ := hanswers
    obtain ⟨child, hc, hp⟩ := (holdsChild_iff p e₀ children hproper.2).1 hp
    obtain ⟨child', hc', hq⟩ := (holdsChild_iff q e children hproper.2).1 hq
    have hchildren : ProperChildren (alterChild u (detachAt answers) children) :=
      proper_alterChild (detachAt_proper answers) children hproper.2
    obtain ⟨left, hleft, hheld⟩ : ∃ left, childAt w (alterChild u (detachAt answers) children) = some left ∧
        left.Holds q e := by
      rw [childAt_alterChild _ children hproper.2]
      by_cases hw : u = w
      · subst hw
        obtain rfl : child = child' := Option.some.inj (hc.symm.trans hc')
        obtain ⟨left, hd, hheld⟩ := detachAt_keeps answers child p q e₀ e (proper_childAt children hproper.2 hc)
          (tidy_childAt children htidy.2 hc) hp hanswers hq (by rintro rfl; exact hne rfl)
        exact ⟨left, by simp [hc, hd], hheld⟩
      · exact ⟨child', by rw [if_neg hw, hc'], hq⟩
    refine ⟨.node question entry (alterChild u (detachAt answers) children), ?_, hm,
      (holdsChild_iff q e _ hchildren).2 ⟨left, hleft, hheld⟩⟩
    rw [detachAt]
    split
    · rename_i hnil
      rw [hnil] at hleft
      cases hleft
    · rename_i hcons
      rw [hcons]

/-- In a tidy trie only the entry of the node goes. -/
theorem detach_holds_iff {t : Trie N V E} {p : List (N × V)} {e₀ : E} (hproper : t.Proper) (htidy : t.TidyRoot)
    (hp : t.Holds p e₀) : (t.detach (p.map (·.2))).Holds q e ↔ t.Holds q e ∧ q ≠ p := by
  obtain ⟨question, entry, children⟩ := t
  cases p with
  | nil =>
    rw [Holds, htidy.1] at hp
    cases hp
  | cons a p =>
    constructor
    · intro hq
      obtain ⟨hq, hne⟩ := detach_holds hproper hq
      exact ⟨hq, fun heq => hne (congrArg _ heq)⟩
    · rintro ⟨hq, hne⟩
      have hchildren : children ≠ .nil := by
        rintro rfl
        exact hp.2.elim
      obtain ⟨t', ht', hq⟩ := detachAt_keeps _ _ (a :: p) q e₀ e hproper ⟨by simp [htidy.1, hchildren], htidy.2⟩ hp rfl
        hq hne
      rw [List.map_cons, detachAt] at ht'
      split at ht'
      · cases ht'
      · rename_i hcons
        cases ht'
        rw [List.map_cons, detach, hcons]
        exact hq

end Detach

/-! ## Looking up -/

section Find
variable {σ : N → V}

theorem findChild_eq {v : V} (children : TrieChildren N V E) :
    findChild σ v children = (childAt v children).bind (find σ) := by
  induction children using childAt.induct v with
  | case1 => rfl
  | case2 child rest =>
    rw [findChild, childAt, if_pos rfl, if_pos rfl]
    rfl
  | case3 w child rest hw ih =>
    rw [findChild, childAt, if_neg hw, if_neg hw]
    exact ih

/-- A tidy trie finds every entry that is to be found. -/
theorem find_complete : ∀ (q : List (N × V)) (t : Trie N V E) (e : E), t.Proper → t.TidyRoot ∨ t.Tidy → t.Holds q e →
    (∀ a ∈ q, σ a.1 = a.2) → t.find σ = some (q, e)
  | [], .node question entry children, e, _, _, hq, _ => by
    obtain rfl : entry = some e := hq
    simp [find]
  | (n, v) :: q, .node question entry children, e, hproper, htidy, hq, hagree => by
    obtain ⟨rfl, hq⟩ := hq
    obtain ⟨child, hc, hq⟩ := (holdsChild_iff q e children hproper.2).1 hq
    have hentry : entry = none := by
      rcases htidy with h | h
      · exact h.1
      · refine h.1.2 ?_
        rintro rfl
        cases hc
    have hchildren : TidyChildren children := by
      rcases htidy with h | h
      · exact h.2
      · exact h.2
    subst hentry
    have hv : σ n = v := hagree (n, v) (by simp)
    have hfind : child.find σ = some (q, e) :=
      find_complete q child e (proper_childAt children hproper.2 hc) (.inr (tidy_childAt children hchildren hc)) hq
        fun a ha => hagree a (by simp [ha])
    simp [find, hv, findChild_eq children, hc, hfind]

theorem pathTo_holds : ∀ (q : List (N × V)) (t : Trie N V E) (e : E), t.Proper → t.Holds q e →
    t.pathTo (q.map (·.2)) = some q
  | [], .node _ _ _, _, _, _ => rfl
  | (n, v) :: q, .node question entry children, e, hproper, hq => by
    obtain ⟨rfl, hq⟩ := hq
    obtain ⟨child, hc, hq⟩ := (holdsChild_iff q e children hproper.2).1 hq
    simp [pathTo, hc, pathTo_holds q child e (proper_childAt children hproper.2 hc) hq]

theorem holds_unique {e e' : E} : ∀ (q : List (N × V)) (t : Trie N V E), t.Proper → t.Holds q e → t.Holds q e' → e = e'
  | [], .node _ _ _, _, h, h' => Option.some.inj (h.symm.trans h')
  | (n, v) :: q, .node question entry children, hproper, h, h' => by
    obtain ⟨child, hc, hq⟩ := (holdsChild_iff q e children hproper.2).1 h.2
    obtain ⟨child', hc', hq'⟩ := (holdsChild_iff q e' children hproper.2).1 h'.2
    obtain rfl := Option.some.inj (hc.symm.trans hc')
    exact holds_unique q child (proper_childAt children hproper.2 hc) hq hq'

end Find




end Trie

end BuildPal.Lib
