import BuildPal.Lib.Runs
import Mathlib.Algebra.Ring.Nat
import Mathlib.Data.List.Basic
import Mathlib.Logic.Function.Basic
/-!
# Flyweights

`utility_.hpp` keeps each string once, in a storage, and hands out handles that
count themselves on the value they point to. The storage is modelled in the
atomic steps it consists of, and a handle in its special member functions, as
one thread uses them.
-/
open BuildPal.Lib

namespace BuildPal.Scanner.Flyweight

/-! ## The storage -/

abbrev Addr := Nat

structure RefCount where
  refCount : Nat := 0
  deleters : Nat := 0
  deriving DecidableEq, Repr

structure Value where
  value : String
  refCount : RefCount := {}
  deriving DecidableEq, Repr

/-- The `unordered_set`: at which address a string is found, and what is at the addresses. -/
structure FlyweightStorage where
  index : String → Option Addr := fun _ => none
  nodes : Addr → Option Value := fun _ => none

namespace FlyweightStorage
variable (st : FlyweightStorage) (p : Addr)

/-- Through a pointer to a value that has been erased nothing is changed that is still there. -/
def modify (f : RefCount → RefCount) : FlyweightStorage :=
  { st with nodes := Function.update st.nodes p ((st.nodes p).map fun v => { v with refCount := f v.refCount }) }

def refCount : Nat := ((st.nodes p).map (·.refCount.refCount)).getD 0

/-- `refCount.fetch_add( 1 )`. -/
def fetchAdd : FlyweightStorage := st.modify p fun r => { r with refCount := r.refCount + 1 }

/-- `++deleters`. -/
def addDeleter : FlyweightStorage := st.modify p fun r => { r with deleters := r.deleters + 1 }

def addRef : FlyweightStorage :=
  if st.refCount p = 0 then (st.fetchAdd p).addDeleter p else st.fetchAdd p

/-- `refCount.fetch_sub( 1 )`. -/
def fetchSub : FlyweightStorage := st.modify p fun r => { r with refCount := r.refCount - 1 }

/-- `Base::erase`, by the string. -/
def erase (s : String) : FlyweightStorage :=
  match st.index s with
  | none => st
  | some q => { index := Function.update st.index s none, nodes := Function.update st.nodes q none }

/-- The second half of `remove`: `decDel`, and `erase` for the last deleter. -/
def decDel : FlyweightStorage :=
  match st.nodes p with
  | none => st
  | some v =>
    let st' := st.modify p fun r => { r with deleters := r.deleters - 1 }
    if v.refCount.deleters = 1 then st'.erase v.value else st'

def remove : FlyweightStorage :=
  if st.refCount p = 1 then (st.fetchSub p).decDel p else st.fetchSub p

/-- `Base::insert`. A node that is needed is made at `q`. -/
def insertNode (s : String) (q : Addr) : FlyweightStorage × Addr :=
  match st.index s with
  | some p => (st, p)
  | none => ({ index := Function.update st.index s (some q), nodes := Function.update st.nodes q (some ⟨s, {}⟩) }, q)

def insert (s : String) (q : Addr) : FlyweightStorage × Addr :=
  match st.index s with
  | some p => (st.addRef p, p)
  | none =>
    let (st, p) := st.insertNode s q
    (st.addRef p, p)

end FlyweightStorage

/-- The set finds the values that it holds, each by its string. -/
def Indexed (st : FlyweightStorage) : Prop := ∀ s p, st.index s = some p ↔ ∃ v, st.nodes p = some v ∧ v.value = s

section Storage
variable {st : FlyweightStorage} {p q : Addr} {s : String} {v : Value}

@[simp] theorem modify_index (f : RefCount → RefCount) : (st.modify p f).index = st.index := rfl

@[simp] theorem modify_self (f : RefCount → RefCount) :
    (st.modify p f).nodes p = (st.nodes p).map fun v => { v with refCount := f v.refCount } := by
  simp [FlyweightStorage.modify]

theorem modify_of_ne (f : RefCount → RefCount) (h : q ≠ p) : (st.modify p f).nodes q = st.nodes q := by
  simp [FlyweightStorage.modify, h]

theorem Indexed.modify (h : Indexed st) (f : RefCount → RefCount) : Indexed (st.modify p f) := by
  intro s q
  rw [modify_index, h s q]
  by_cases hq : q = p
  · subst hq
    cases hv : st.nodes q <;> simp [hv]
  · rw [modify_of_ne f hq]

/-- Erasing the string of a value erases the value. -/
theorem Indexed.erase_eq (h : Indexed st) (hv : st.nodes p = some v) :
    st.erase v.value =
      { index := Function.update st.index v.value none, nodes := Function.update st.nodes p none } := by
  rw [FlyweightStorage.erase, (h v.value p).2 ⟨v, hv, rfl⟩]

theorem Indexed.erase (h : Indexed st) (hv : st.nodes p = some v) : Indexed (st.erase v.value) := by
  have hp := (h v.value p).2 ⟨v, hv, rfl⟩
  intro s q
  rw [h.erase_eq hv]
  by_cases hs : s = v.value
  · subst hs
    refine iff_of_false (by simp) ?_
    rintro ⟨w, hw, hval⟩
    by_cases hq : q = p
    · simp [hq] at hw
    · have hq' := (h v.value q).2 ⟨w, by simpa [hq] using hw, hval⟩
      rw [hp] at hq'
      exact hq (Option.some.inj hq').symm
  · show Function.update st.index v.value none s = some q ↔ _
    rw [Function.update_of_ne hs, h s q]
    by_cases hq : q = p
    · subst hq
      refine iff_of_false ?_ (by simp)
      rintro ⟨w, hw, rfl⟩
      rw [hv] at hw
      cases hw
      exact hs rfl
    · simp [hq]

theorem Indexed.insertNode (h : Indexed st) (hs : st.index s = none) (hq : st.nodes q = none) :
    Indexed (st.insertNode s q).1 := by
  intro t r
  rw [FlyweightStorage.insertNode, hs]
  show Function.update st.index s (some q) t = some r ↔ ∃ v, Function.update st.nodes q (some ⟨s, {}⟩) r = some v ∧ _
  by_cases hr : r = q
  · subst hr
    have hfree : st.index t ≠ some r := by
      intro ht
      obtain ⟨v, hv, -⟩ := (h t r).1 ht
      rw [hq] at hv
      cases hv
    by_cases ht : t = s
    · simp [ht]
    · simp [ht, hfree, Ne.symm ht]
  · rw [Function.update_of_ne hr, ← h t r]
    by_cases ht : t = s
    · subst ht
      simp [hs, Ne.symm hr]
    · rw [Function.update_of_ne ht]

end Storage

/-! ## Handles -/

abbrev HandleId := Nat

/-- The handles that have been constructed and not destroyed, with their `value_`. -/
structure Program where
  storage : FlyweightStorage := {}
  live : List HandleId := []
  value : HandleId → Option Addr := fun _ => none

/-- The special member functions. `p` is where the allocator puts a value, if one has to be made. -/
inductive Op where
  | construct (h : HandleId)
  | fromString (h : HandleId) (s : String) (p : Addr)
  | moveConstruct (h other : HandleId)
  | copyConstruct (h other : HandleId)
  | destroy (h : HandleId)
  | moveAssign (h other : HandleId)
  | copyAssign (h other : HandleId)
  deriving DecidableEq, Repr

namespace FlyweightStorage
variable (st : FlyweightStorage)

/-- `if ( value_ ) value_->refCount.addRef()`. -/
def acquire : Option Addr → FlyweightStorage
  | none => st
  | some p => st.addRef p

/-- `if ( value_ ) Storage::get().remove( *value_ )`. -/
def release : Option Addr → FlyweightStorage
  | none => st
  | some p => st.remove p

end FlyweightStorage

namespace Program
variable (s : Program) (h other : HandleId)

def setValue (x : Option Addr) : Program := { s with value := Function.update s.value h x }

def construct : Program := { s with live := h :: s.live }.setValue h none

def fromString (str : String) (p : Addr) : Program :=
  let (storage, p) := s.storage.insert str p
  { s with storage, live := h :: s.live }.setValue h (some p)

def moveConstruct : Program :=
  ({ s with live := h :: s.live }.setValue h (s.value other)).setValue other none

def copyConstruct : Program :=
  { s with storage := s.storage.acquire (s.value other), live := h :: s.live }.setValue h (s.value other)

def destroy : Program := { s with storage := s.storage.release (s.value h), live := s.live.erase h }

def moveAssign : Program := (s.setValue h (s.value other)).setValue other none

def copyAssign : Program :=
  { s with storage := (s.storage.release (s.value h)).acquire (s.value other) }.setValue h (s.value other)

/-- How many handles point to `p`. -/
def pointing (p : Addr) : Nat := s.live.countP fun h => s.value h = some p

/-- The string of a handle, if it has one. -/
def string : Option String := ((s.value h).bind s.storage.nodes).map (·.value)

end Program

/-- `none` for an operation on a handle that is not there, and for an address that is not free. -/
def step (s : Program) : Op → Option Program
  | .construct h => if h ∉ s.live then some (s.construct h) else none
  | .fromString h str p =>
    if h ∉ s.live ∧ s.storage.nodes p = none then some (s.fromString h str p) else none
  | .moveConstruct h other => if h ∉ s.live ∧ other ∈ s.live then some (s.moveConstruct h other) else none
  | .copyConstruct h other => if h ∉ s.live ∧ other ∈ s.live then some (s.copyConstruct h other) else none
  | .destroy h => if h ∈ s.live then some (s.destroy h) else none
  | .moveAssign h other => if h ∈ s.live ∧ other ∈ s.live then some (s.moveAssign h other) else none
  | .copyAssign h other => if h ∈ s.live ∧ other ∈ s.live then some (s.copyAssign h other) else none

/-- What the counts, the storage and the handles are to be. -/
structure Counted (s : Program) : Prop where
  count : ∀ p v, s.storage.nodes p = some v → v.refCount.refCount = s.pointing p
  stored : ∀ str, (∃ p v, s.storage.nodes p = some v ∧ v.value = str) ↔ ∃ h ∈ s.live, s.string h = some str
  equal : ∀ h ∈ s.live, ∀ h' ∈ s.live, s.value h = s.value h' ↔ s.string h = s.string h'
  valid : ∀ h ∈ s.live, ∀ p, s.value h = some p → s.storage.nodes p ≠ none

/-- No handle that points to a value is the target of a move assignment, and none that is alone with its value is
assigned to itself. -/
def Releases (s : Program) : Op → Prop
  | .moveAssign h other => h ∈ s.live → other ∈ s.live → s.value h = none
  | .copyAssign h other => h ∈ s.live → h = other → ∀ p, s.value h = some p → 2 ≤ s.pointing p
  | .construct _ | .fromString .. | .moveConstruct .. | .copyConstruct .. | .destroy _ => True

/-! ## What the storage does to the counts -/

/-- Each value that is held counts its holders and has one deleter, and no other value is there. -/
structure Balanced (st : FlyweightStorage) (holders : Addr → Nat) : Prop where
  indexed : Indexed st
  held : ∀ p v, st.nodes p = some v → v.refCount = ⟨holders p, 1⟩ ∧ 0 < holders p
  missing : ∀ p, st.nodes p = none → holders p = 0

section Balanced
variable {st st' : FlyweightStorage} {n n' : Addr → Nat} {p : Addr} {v : Value}

theorem Balanced.congr (h : Balanced st n) (hn : ∀ p, n' p = n p) : Balanced st n' := by
  obtain rfl : n' = n := funext hn
  exact h

theorem Balanced.exists_node (h : Balanced st n) (hp : 0 < n p) : ∃ v, st.nodes p = some v := by
  cases hv : st.nodes p with
  | none =>
    have := h.missing p hv
    omega
  | some v => exact ⟨v, rfl⟩

theorem Balanced.refCount (h : Balanced st n) : st.refCount p = n p := by
  rw [FlyweightStorage.refCount]
  cases hv : st.nodes p with
  | none => exact (h.missing p hv).symm
  | some v => simp [(h.held p v hv).1]

/-- Where only one value has changed, only that one has to be looked at. -/
theorem Balanced.of_node (h : Balanced st n) (hi : Indexed st') (hother : ∀ q, q ≠ p → st'.nodes q = st.nodes q)
    (hsame : ∀ q, q ≠ p → n' q = n q)
    (hp : (∃ v, st'.nodes p = some v ∧ v.refCount = ⟨n' p, 1⟩ ∧ 0 < n' p) ∨ (st'.nodes p = none ∧ n' p = 0)) :
    Balanced st' n' := by
  refine ⟨hi, fun q w hw => ?_, fun q hq => ?_⟩
  · by_cases hqp : q = p
    · subst hqp
      rcases hp with ⟨v, hv, hcount⟩ | ⟨hv, -⟩
      · rw [hv] at hw
        cases hw
        exact hcount
      · rw [hv] at hw
        cases hw
    · rw [hsame q hqp]
      exact h.held q w (hother q hqp ▸ hw)
  · by_cases hqp : q = p
    · subst hqp
      rcases hp with ⟨v, hv, -⟩ | ⟨-, hzero⟩
      · rw [hv] at hq
        cases hq
      · exact hzero
    · rw [hsame q hqp]
      exact h.missing q (hother q hqp ▸ hq)

theorem Balanced.addRef (h : Balanced st n) (hp : 0 < n p) (hself : n' p = n p + 1) (hsame : ∀ q, q ≠ p → n' q = n q) :
    Balanced (st.addRef p) n' := by
  obtain ⟨v, hv⟩ := h.exists_node hp
  have hadd : st.addRef p = st.fetchAdd p := if_neg (by rw [h.refCount]; omega)
  have hnode : (st.fetchAdd p).nodes p = some { v with refCount := ⟨n' p, 1⟩ } := by
    simp only [FlyweightStorage.fetchAdd, modify_self, hv, Option.map_some, (h.held p v hv).1, hself]
  rw [hadd]
  exact h.of_node (h.indexed.modify _) (fun q hq => modify_of_ne _ hq) hsame (.inl ⟨_, hnode, rfl, by omega⟩)

theorem Balanced.remove (h : Balanced st n) (hself : n' p + 1 = n p) (hsame : ∀ q, q ≠ p → n' q = n q) :
    Balanced (st.remove p) n' := by
  obtain ⟨v, hv⟩ := h.exists_node (p := p) (by omega)
  have hcount := (h.held p v hv).1
  have hsub : (st.fetchSub p).nodes p = some { v with refCount := ⟨n' p, 1⟩ } := by
    simp only [FlyweightStorage.fetchSub, modify_self, hv, Option.map_some, hcount, ← hself, Nat.add_sub_cancel]
  rw [FlyweightStorage.remove, h.refCount]
  split
  · next hone =>
    -- the last holder is the only deleter
    have hdel : (st.fetchSub p).decDel p = ((st.fetchSub p).modify p fun r => { r with deleters :=
      r.deleters - 1 }).erase
        v.value := by
      rw [FlyweightStorage.decDel, hsub]
      exact if_pos rfl
    have hi : Indexed ((st.fetchSub p).modify p fun r => { r with deleters := r.deleters - 1 }) :=
      (h.indexed.modify _).modify _
    have hnode : ((st.fetchSub p).modify p fun r => { r with deleters := r.deleters - 1 }).nodes p =
        some { v with refCount := ⟨n' p, 0⟩ } := by
      rw [modify_self, hsub]
      rfl
    have herase := hi.erase_eq hnode
    have hie := hi.erase hnode
    rw [hdel]
    refine h.of_node hie (fun q hq => ?_) hsame (.inr ⟨?_, by omega⟩)
    · rw [herase]
      exact (Function.update_of_ne hq ..).trans ((modify_of_ne _ hq).trans (modify_of_ne _ hq))
    · rw [herase]
      exact Function.update_self ..
  · next hmany =>
    exact h.of_node (h.indexed.modify _) (fun q hq => modify_of_ne _ hq) hsame
      (.inl ⟨_, hsub, rfl, by omega⟩)

/-- The value that is handed out has the string asked for. -/
theorem Balanced.insert (h : Balanced st n) (s : String) {q : Addr} (hq : st.nodes q = none)
    (hself : n' (st.insert s q).2 = n (st.insert s q).2 + 1) (hsame : ∀ r, r ≠ (st.insert s q).2 → n' r = n r) :
    Balanced (st.insert s q).1 n' := by
  cases hs : st.index s with
  | some p =>
    obtain ⟨v, hv, -⟩ := (h.indexed s p).1 hs
    have hinsert : st.insert s q = (st.addRef p, p) := by rw [FlyweightStorage.insert, hs]
    rw [hinsert] at hself hsame ⊢
    exact h.addRef (h.held p v hv).2 hself hsame
  | none =>
    have hnode : st.insertNode s q =
        ({ index := Function.update st.index s (some q), nodes := Function.update st.nodes q (some ⟨s, {}⟩) }, q) := by
      rw [FlyweightStorage.insertNode, hs]
    have hinsert : st.insert s q = ((st.insertNode s q).1.addRef q, q) := by
      rw [FlyweightStorage.insert, hs, hnode]
    have hi := h.indexed.insertNode hs hq
    have hzero : (st.insertNode s q).1.refCount q = 0 := by simp [FlyweightStorage.refCount, hnode]
    rw [hinsert] at hself hsame ⊢
    change n' q = n q + 1 at hself
    change Balanced ((st.insertNode s q).1.addRef q) n'
    have hfree : n q = 0 := h.missing q hq
    have hadd : (st.insertNode s q).1.addRef q = ((st.insertNode s q).1.fetchAdd q).addDeleter q := if_pos hzero
    refine h.of_node (p := q) ?_ (fun r hr => ?_) hsame (.inl ⟨⟨s, ⟨1, 1⟩⟩, ?_, ?_, by omega⟩)
    · rw [hadd]
      exact (hi.modify _).modify _
    · rw [hadd]
      simp only [FlyweightStorage.addDeleter, FlyweightStorage.fetchAdd, modify_of_ne _ hr, hnode]
      exact Function.update_of_ne hr ..
    · rw [hadd]
      simp [FlyweightStorage.addDeleter, FlyweightStorage.fetchAdd, hnode]
    · rw [hself, hfree]

theorem Balanced.acquire (h : Balanced st n) {x : Option Addr} (hx : ∀ p, x = some p → 0 < n p)
    (hn : ∀ p, n' p = n p + if x = some p then 1 else 0) : Balanced (st.acquire x) n' := by
  cases x with
  | none => exact h.congr fun p => by simpa using hn p
  | some q =>
    refine h.addRef (hx q rfl) (by simpa using hn q) fun r hr => ?_
    simpa [Ne.symm hr] using hn r

theorem Balanced.release (h : Balanced st n) {x : Option Addr}
    (hn : ∀ p, n' p + (if x = some p then 1 else 0) = n p) : Balanced (st.release x) n' := by
  cases x with
  | none => exact h.congr fun p => by simpa using hn p
  | some q =>
    refine h.remove (by simpa using hn q) fun r hr => ?_
    simpa [Ne.symm hr] using hn r

end Balanced

/-! ## What the handles do to the counts -/

/-- The handles count themselves. -/
structure Inv (s : Program) : Prop where
  nodup : s.live.Nodup
  balanced : Balanced s.storage s.pointing

section Program
variable {s s' : Program} {h other : HandleId} {x : Option Addr}

theorem pointing_pos {p : Addr} (hh : h ∈ s.live) (hp : s.value h = some p) : 0 < s.pointing p :=
  List.countP_pos_iff.2 ⟨h, hh, by simpa using hp⟩

/-- One handle counts where it points to, the others as before. -/
theorem pointing_setValue (hn : s.live.Nodup) (hh : h ∈ s.live) (x : Option Addr) (p : Addr) :
    (s.setValue h x).pointing p + (if s.value h = some p then 1 else 0) =
      s.pointing p + if x = some p then 1 else 0 := by
  have hperm : s.live.Perm (h :: s.live.erase h) := List.perm_cons_erase hh
  have hrest : (s.live.erase h).countP (fun h' => Function.update s.value h x h' = some p) =
      (s.live.erase h).countP fun h' => s.value h' = some p := by
    refine List.countP_congr fun h' hmem => ?_
    have hne : h' ≠ h := fun heq => hn.not_mem_erase (heq ▸ hmem)
    rw [Function.update_of_ne hne]
  have hnew : (s.setValue h x).pointing p =
      (s.live.erase h).countP (fun h' => s.value h' = some p) + if x = some p then 1 else 0 := by
    rw [Program.pointing]
    show s.live.countP (fun h' => Function.update s.value h x h' = some p) = _
    rw [hperm.countP_eq, List.countP_cons, hrest, Function.update_self]
    simp
  have hold : s.pointing p =
      (s.live.erase h).countP (fun h' => s.value h' = some p) + if s.value h = some p then 1 else 0 := by
    rw [Program.pointing, hperm.countP_eq, List.countP_cons]
    simp
  omega

/-- A handle that is new counts where it points to. -/
theorem pointing_cons (hh : h ∉ s.live) (x : Option Addr) (p : Addr) :
    ({ s with live := h :: s.live }.setValue h x).pointing p = s.pointing p + if x = some p then 1 else 0 := by
  have hrest : s.live.countP (fun h' => Function.update s.value h x h' = some p) = s.pointing p := by
    refine List.countP_congr fun h' hmem => ?_
    have hne : h' ≠ h := fun heq => hh (heq ▸ hmem)
    rw [Function.update_of_ne hne]
  rw [Program.pointing]
  show (h :: s.live).countP (fun h' => Function.update s.value h x h' = some p) = _
  rw [List.countP_cons, hrest, Function.update_self]
  simp

theorem pointing_erase (hh : h ∈ s.live) (p : Addr) :
    ({ s with live := s.live.erase h } : Program).pointing p + (if s.value h = some p then 1 else 0) =
      s.pointing p := by
  rw [Program.pointing, Program.pointing, (List.perm_cons_erase hh).countP_eq, List.countP_cons]
  simp

/-! ### Each operation -/

theorem construct_inv (hi : Inv s) (hh : h ∉ s.live) : Inv (s.construct h) :=
  ⟨List.nodup_cons.2 ⟨hh, hi.nodup⟩, hi.balanced.congr fun p => (pointing_cons hh none p).trans (by simp)⟩

theorem fromString_inv (hi : Inv s) (hh : h ∉ s.live) (str : String) {p : Addr} (hp : s.storage.nodes p = none) :
    Inv (s.fromString h str p) := by
  have hcount := pointing_cons hh (some (s.storage.insert str p).2)
  refine ⟨List.nodup_cons.2 ⟨hh, hi.nodup⟩, hi.balanced.insert str hp ?_ fun r hr => ?_⟩
  · exact (hcount _).trans (by simp)
  · exact (hcount r).trans (by simp [Ne.symm hr])

/-- `other` gives up its value for the handle that takes it over. -/
theorem moved_value (x : Option Addr) (hne : s.value other = x) (h : HandleId) : (s.setValue h x).value other = x := by
  by_cases heq : other = h
  · simp [Program.setValue, heq]
  · simp [Program.setValue, heq, hne]

theorem moveConstruct_inv (hi : Inv s) (hh : h ∉ s.live) (ho : other ∈ s.live) : Inv (s.moveConstruct h other) := by
  have hn : (h :: s.live).Nodup := List.nodup_cons.2 ⟨hh, hi.nodup⟩
  refine ⟨hn, hi.balanced.congr fun p => ?_⟩
  have htaken := pointing_cons hh (s.value other) p
  have hgiven := pointing_setValue (s := { s with live := h :: s.live }.setValue h (s.value other)) hn
    (List.mem_cons_of_mem h ho) none p
  rw [moved_value (s := { s with live := h :: s.live }) _ rfl h, htaken] at hgiven
  exact Nat.add_right_cancel (hgiven.trans (Nat.add_right_comm ..))

theorem copyConstruct_inv (hi : Inv s) (hh : h ∉ s.live) (ho : other ∈ s.live) : Inv (s.copyConstruct h other) :=
  ⟨List.nodup_cons.2 ⟨hh, hi.nodup⟩, hi.balanced.acquire (fun _ hp => pointing_pos ho hp) (pointing_cons hh _)⟩

theorem destroy_inv (hi : Inv s) (hh : h ∈ s.live) : Inv (s.destroy h) :=
  ⟨hi.nodup.erase h, hi.balanced.release (pointing_erase hh)⟩

/-- The handle that is assigned to lets go of its value without releasing it. -/
theorem moveAssign_pointing (hi : Inv s) (hh : h ∈ s.live) (ho : other ∈ s.live) (p : Addr) :
    (s.moveAssign h other).pointing p + (if s.value h = some p then 1 else 0) = s.pointing p := by
  have htaken := pointing_setValue hi.nodup hh (s.value other) p
  have hgiven := pointing_setValue (s := s.setValue h (s.value other)) hi.nodup ho none p
  rw [moved_value _ rfl h] at hgiven
  simp only [reduceCtorEq, if_false] at hgiven
  show ((s.setValue h (s.value other)).setValue other none).pointing p + _ = _
  omega

theorem moveAssign_inv (hi : Inv s) (hh : h ∈ s.live) (ho : other ∈ s.live) (hempty : s.value h = none) :
    Inv (s.moveAssign h other) :=
  ⟨hi.nodup, hi.balanced.congr fun p => by simpa [hempty] using moveAssign_pointing hi hh ho p⟩

theorem holds_le (hh : h ∈ s.live) (p : Addr) : (if s.value h = some p then 1 else 0) ≤ s.pointing p := by
  split
  · next hp => exact pointing_pos hh hp
  · exact Nat.zero_le _

/-- Between the two halves of a copy assignment the handle does not count. -/
theorem Inv.released (hi : Inv s) (hh : h ∈ s.live) :
    Balanced (s.storage.release (s.value h)) fun p => s.pointing p - if s.value h = some p then 1 else 0 :=
  hi.balanced.release fun p => Nat.sub_add_cancel (holds_le hh p)

/-- Before the handle takes over the value of `other`, that value has a holder still. -/
theorem copyAssign_inv (hi : Inv s) (hh : h ∈ s.live) (ho : other ∈ s.live)
    (hrel : h = other → ∀ p, s.value h = some p → 2 ≤ s.pointing p) : Inv (s.copyAssign h other) := by
  refine ⟨hi.nodup, (hi.released hh).acquire (fun p hp => ?_) fun p => ?_⟩
  · have hpos := pointing_pos ho hp
    by_cases heq : h = other
    · have htwo := hrel heq p (heq ▸ hp)
      split <;> omega
    · split
      · next hv =>
        -- both point to it
        have hset := pointing_setValue hi.nodup hh none p
        have hother : 0 < (s.setValue h none).pointing p :=
          pointing_pos ho (by simpa [Program.setValue, Function.update_of_ne (Ne.symm heq)] using hp)
        simp only [hv, reduceCtorEq, if_true, if_false] at hset
        omega
      · omega
  · have hset := pointing_setValue hi.nodup hh (s.value other) p
    have hle := holds_le hh p
    show (s.setValue h (s.value other)).pointing p = _
    omega

/-! ## What follows for the program -/

theorem Inv.valid (hi : Inv s) (hh : h ∈ s.live) {p : Addr} (hp : s.value h = some p) :
    ∃ v, s.storage.nodes p = some v ∧ s.string h = some v.value := by
  obtain ⟨v, hv⟩ := hi.balanced.exists_node (pointing_pos hh hp)
  exact ⟨v, hv, by simp [Program.string, hp, hv]⟩

theorem Inv.counted (hi : Inv s) : Counted s where
  count p v hv := by rw [(hi.balanced.held p v hv).1]
  stored str := by
    constructor
    · rintro ⟨p, v, hv, rfl⟩
      obtain ⟨h, hh, hp⟩ := List.countP_pos_iff.1 (hi.balanced.held p v hv).2
      exact ⟨h, hh, by simp [Program.string, of_decide_eq_true hp, hv]⟩
    · rintro ⟨h, hh, hstr⟩
      cases hp : s.value h with
      | none => simp [Program.string, hp] at hstr
      | some p =>
        obtain ⟨v, hv, hval⟩ := hi.valid hh hp
        exact ⟨p, v, hv, Option.some.inj (hval.symm.trans hstr)⟩
  equal h hh h' hh' := by
    refine ⟨fun heq => by rw [Program.string, Program.string, heq], fun hstr => ?_⟩
    cases hp : s.value h with
    | none =>
      cases hp' : s.value h' with
      | none => rfl
      | some q =>
        obtain ⟨w, -, hw⟩ := hi.valid hh' hp'
        rw [← hstr] at hw
        simp [Program.string, hp] at hw
    | some p =>
      obtain ⟨v, hv, hval⟩ := hi.valid hh hp
      cases hp' : s.value h' with
      | none =>
        rw [hstr] at hval
        simp [Program.string, hp'] at hval
      | some q =>
        obtain ⟨w, hw, hwal⟩ := hi.valid hh' hp'
        -- the set finds one address for a string
        have hsame : v.value = w.value := Option.some.inj (hval.symm.trans (hstr.trans hwal))
        have hfound := (hi.balanced.indexed v.value p).2 ⟨v, hv, rfl⟩
        rw [(hi.balanced.indexed v.value q).2 ⟨w, hw, hsame.symm⟩] at hfound
        exact hfound.symm
  valid h hh p hp := by
    obtain ⟨v, hv, -⟩ := hi.valid hh hp
    rw [hv]
    simp

/-- A value that a handle has let go of without releasing it counts one holder too many. -/
theorem moveAssign_counted (hi : Inv s) (hh : h ∈ s.live) (ho : other ∈ s.live) (hc : Counted (s.moveAssign h other)) :
    s.value h = none := by
  cases hp : s.value h with
  | none => rfl
  | some p =>
    obtain ⟨v, hv, -⟩ := hi.valid hh hp
    have hbefore := hi.counted.count p v hv
    have hafter := hc.count p v hv
    have hlost := moveAssign_pointing hi hh ho p
    rw [hp, if_pos rfl] at hlost
    omega

/-- A handle that is alone with its value and is assigned to itself points to a value that has been erased. -/
theorem copyAssign_counted (hi : Inv s) (hh : h ∈ s.live) (hc : Counted (s.copyAssign h h)) {p : Addr}
    (hp : s.value h = some p) : 2 ≤ s.pointing p := by
  by_contra hless
  have hpos := pointing_pos hh hp
  have hone : s.pointing p = 1 := by omega
  have hgone : (s.storage.release (s.value h)).nodes p = none := by
    cases hv : (s.storage.release (s.value h)).nodes p with
    | none => rfl
    | some v =>
      have hleft := ((hi.released hh).held p v hv).2
      simp [hp, hone] at hleft
  have hstill : (s.copyAssign h h).storage.nodes p = none := by
    show ((s.storage.release (s.value h)).acquire (s.value h)).nodes p = none
    generalize s.storage.release (s.value h) = st at hgone
    rw [hp]
    show (st.addRef p).nodes p = none
    rw [FlyweightStorage.addRef]
    split <;> simp [FlyweightStorage.addDeleter, FlyweightStorage.fetchAdd, hgone]
  exact hc.valid h hh p (by simp [Program.copyAssign, Program.setValue, hp]) hstill

theorem step_counted {e : Op} (hi : Inv s) (hs : step s e = some s') :
    (Counted s' ↔ Releases s e) ∧ (Counted s' → Inv s') := by
  have hgood : (Releases s e → Inv s') → (Counted s' → Releases s e) →
      (Counted s' ↔ Releases s e) ∧ (Counted s' → Inv s') := fun hinv hrel =>
    ⟨⟨hrel, fun hr => (hinv hr).counted⟩, fun hc => hinv (hrel hc)⟩
  cases e with
  | construct h =>
    obtain ⟨hh, rfl⟩ : h ∉ s.live ∧ s.construct h = s' := by simpa [step] using hs
    exact hgood (fun _ => construct_inv hi hh) fun _ => trivial
  | fromString h str p =>
    obtain ⟨⟨hh, hp⟩, rfl⟩ : (h ∉ s.live ∧ s.storage.nodes p = none) ∧ s.fromString h str p = s' := by
      simpa [step] using hs
    exact hgood (fun _ => fromString_inv hi hh str hp) fun _ => trivial
  | moveConstruct h other =>
    obtain ⟨⟨hh, ho⟩, rfl⟩ : (h ∉ s.live ∧ other ∈ s.live) ∧ s.moveConstruct h other = s' := by simpa [step] using hs
    exact hgood (fun _ => moveConstruct_inv hi hh ho) fun _ => trivial
  | copyConstruct h other =>
    obtain ⟨⟨hh, ho⟩, rfl⟩ : (h ∉ s.live ∧ other ∈ s.live) ∧ s.copyConstruct h other = s' := by simpa [step] using hs
    exact hgood (fun _ => copyConstruct_inv hi hh ho) fun _ => trivial
  | destroy h =>
    obtain ⟨hh, rfl⟩ : h ∈ s.live ∧ s.destroy h = s' := by simpa [step] using hs
    exact hgood (fun _ => destroy_inv hi hh) fun _ => trivial
  | moveAssign h other =>
    obtain ⟨⟨hh, ho⟩, rfl⟩ : (h ∈ s.live ∧ other ∈ s.live) ∧ s.moveAssign h other = s' := by simpa [step] using hs
    exact hgood (fun hempty => moveAssign_inv hi hh ho (hempty hh ho)) fun hc _ _ => moveAssign_counted hi hh ho hc
  | copyAssign h other =>
    obtain ⟨⟨hh, ho⟩, rfl⟩ : (h ∈ s.live ∧ other ∈ s.live) ∧ s.copyAssign h other = s' := by simpa [step] using hs
    refine hgood (fun hrel => copyAssign_inv hi hh ho (hrel hh)) fun hc _ heq p hp => ?_
    subst heq
    exact copyAssign_counted hi hh hc hp

end Program

theorem releases_of_stuck {s : Program} {e : Op} (hs : step s e = none) : Releases s e := by
  cases e with
  | moveAssign h other =>
    intro hh ho
    rw [step, if_pos ⟨hh, ho⟩] at hs
    cases hs
  | copyAssign h other =>
    intro hh heq
    rw [step, if_pos ⟨hh, heq ▸ hh⟩] at hs
    cases hs
  | construct | fromString | moveConstruct | copyConstruct | destroy => trivial

/-! ## Main theorem -/

theorem inv_init : Inv {} :=
  ⟨List.nodup_nil, fun s p => by simp, fun p v hv => (by cases hv), fun _ _ => rfl⟩

/-- **Handles are counted exactly**, after every operation of a program, if and only if its assignments all release what
they assign over, and nothing that is still needed. -/
theorem handles_counted (ops : List Op) :
    (∀ pre post s, ops = pre ++ post → run step {} pre = some s → Counted s) ↔ Meets step Releases {} ops :=
  states_iff_meets step (fun _ hi => Inv.counted hi) (fun _ _ _ hi hs => step_counted hi hs)
    (fun _ _ _ hs => releases_of_stuck hs) ops {} inv_init

/-- A handle to one string is assigned over by moving: nothing points to its value, which stays. -/
theorem assigned_over_leaks :
    ∃ s, run step {} [.fromString 0 "a" 0, .fromString 1 "b" 1, .moveAssign 0 1] = some s ∧ ¬ Counted s := by
  refine ⟨_, rfl, fun h => ?_⟩
  have hcount := h.count 0 ⟨"a", ⟨1, 1⟩⟩ rfl
  revert hcount
  decide

end BuildPal.Scanner.Flyweight
