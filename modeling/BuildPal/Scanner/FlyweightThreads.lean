import BuildPal.Scanner.Flyweight
/-!
# Flyweights with several threads

Threads intern strings, copy handles and drop them at the same time. The count
of a value is changed without a lock; who erases it is decided by the deleters,
which are only changed under one. Between the two halves of `addRef` a value
has been revived from zero, and its deleter is still to be added.
-/
open BuildPal.Lib

namespace BuildPal.Scanner.Flyweight

/-- The lock under which a thread is in `addRef`. A handle is copied under none. -/
inductive Lock where
  | none
  | shared
  | exclusive
  deriving DecidableEq, Repr

/-- Where a thread is, between two atomic steps. -/
inductive Progress where
  | idle
  /-- `insert` has found the value and holds the shared lock. -/
  | found (p : Addr)
  /-- `insert` has not found the string and holds no lock. -/
  | missing (str : String)
  /-- The first half of `addRef` has found the count at zero. -/
  | reviving (lock : Lock) (p : Addr)
  /-- `decRef` has brought the count to zero, and `decDel` is due. -/
  | removing (p : Addr)
  deriving DecidableEq, Repr

namespace Progress

def finds (p : Addr) : Progress → Bool
  | .found q => q = p
  | _ => false

def revives (p : Addr) : Progress → Bool
  | .reviving _ q => q = p
  | _ => false

def removes (p : Addr) : Progress → Bool
  | .removing q => q = p
  | _ => false

def lock : Progress → Lock
  | .found _ => .shared
  | .reviving lock _ => lock
  | .idle | .missing _ | .removing _ => .none

end Progress

/-- `handles` counts the handles that point to a value; any thread may use them. -/
structure Threads where
  storage : FlyweightStorage := {}
  handles : Addr → Nat := fun _ => 0
  progress : List Progress

def start (threads : Nat) : Threads := { progress := List.replicate threads .idle }

/-- The atomic steps of thread `i`. -/
inductive Action where
  | find (i : Nat) (str : String)
  | addRef (i : Nat)
  | insertNode (i : Nat) (q : Addr)
  | copy (i : Nat) (p : Addr)
  | addDeleter (i : Nat)
  | decRef (i : Nat) (p : Addr)
  | decDel (i : Nat)
  deriving DecidableEq, Repr

namespace Threads
variable (s : Threads) (i : Nat)

def setProgress (b : Progress) : Threads := { s with progress := s.progress.set i b }

/-- No thread holds a lock of the storage. -/
def isUnlocked : Bool := s.progress.all (·.lock = .none)

def noneExclusive : Bool := s.progress.all (·.lock ≠ .exclusive)

/-- The end of `insert`, or of a copy. -/
def giveHandle (p : Addr) : Threads :=
  { s with handles := Function.update s.handles p (s.handles p + 1) }.setProgress i .idle

def find (str : String) : Threads :=
  s.setProgress i (match s.storage.index str with | some p => .found p | none => .missing str)

/-- The first half of `addRef`, and the rest of it where no deleter is to be added. -/
def fetchAdd (lock : Lock) (p : Addr) : Threads :=
  let s' := { s with storage := s.storage.fetchAdd p }
  if s.storage.refCount p = 0 then s'.setProgress i (.reviving lock p) else s'.giveHandle i p

/-- What `insert` does under the exclusive lock, as far as the first half of `addRef`. -/
def insertNode (str : String) (q : Addr) : Threads :=
  let (storage, p) := s.storage.insertNode str q
  { s with storage }.fetchAdd i .exclusive p

def addDeleter (p : Addr) : Threads := { s with storage := s.storage.addDeleter p }.giveHandle i p

def decRef (p : Addr) : Threads :=
  { s with
    storage := s.storage.fetchSub p
    handles := Function.update s.handles p (s.handles p - 1) }.setProgress i
    (if s.storage.refCount p = 1 then .removing p else .idle)

def decDel (p : Addr) : Threads := { s with storage := s.storage.decDel p }.setProgress i .idle

/-- How many threads have found `p`, are reviving it, are removing it. -/
def finding (p : Addr) : Nat := s.progress.countP (·.finds p)

def reviving (p : Addr) : Nat := s.progress.countP (·.revives p)

def removing (p : Addr) : Nat := s.progress.countP (·.removes p)

end Threads

/-- `none` where the thread is not there, or a lock or a handle cannot be had. -/
def threadStep (s : Threads) : Action → Option Threads
  | .find i str => if s.progress[i]? = some .idle ∧ s.noneExclusive then some (s.find i str) else none
  | .addRef i =>
    match s.progress[i]? with
    | some (.found p) => some (s.fetchAdd i .shared p)
    | _ => none
  | .insertNode i q =>
    match s.progress[i]? with
    | some (.missing str) => if s.isUnlocked ∧ s.storage.nodes q = none then some (s.insertNode i str q) else none
    | _ => none
  | .copy i p => if s.progress[i]? = some .idle ∧ 0 < s.handles p then some (s.fetchAdd i .none p) else none
  | .addDeleter i =>
    match s.progress[i]? with
    | some (.reviving _ p) => some (s.addDeleter i p)
    | _ => none
  | .decRef i p => if s.progress[i]? = some .idle ∧ 0 < s.handles p then some (s.decRef i p) else none
  | .decDel i =>
    match s.progress[i]? with
    | some (.removing p) => if s.isUnlocked then some (s.decDel i p) else none
    | _ => none

/-- A value without a holder has a remover, its deleters are the removers and one for all the holders, and what a handle
points to is there. -/
structure Safe (s : Threads) : Prop where
  needed : ∀ p v, s.storage.nodes p = some v → v.refCount.refCount = 0 → 0 < s.removing p
  deleters : ∀ p v, s.storage.nodes p = some v → s.reviving p = 0 →
    v.refCount.deleters = s.removing p + if v.refCount.refCount = 0 then 0 else 1
  held : ∀ p, 0 < s.handles p → s.storage.nodes p ≠ none

/-- What is erased between the two states has neither a holder nor a remover left. -/
def ErasesUnused (s s' : Threads) : Prop :=
  ∀ p v, s.storage.nodes p = some v → s'.storage.nodes p = none → v.refCount.refCount = 0 ∧ s'.removing p = 0

/-! ## The invariant -/

/-- What the threads say of a value that is there, and of one that is not. -/
def NodeOk (s : Threads) (p : Addr) : Prop :=
  match s.storage.nodes p with
  | some v =>
    v.refCount.refCount = s.handles p + s.reviving p ∧
      v.refCount.deleters + s.reviving p = s.removing p + (if v.refCount.refCount = 0 then 0 else 1) ∧
      (v.refCount.refCount = 0 → 0 < s.removing p) ∧ s.reviving p ≤ 1
  | none => s.handles p = 0 ∧ s.finding p = 0 ∧ s.reviving p = 0 ∧ s.removing p = 0

/-- A value is not revived by copying a handle. -/
structure Threads.Inv (s : Threads) : Prop where
  indexed : Indexed s.storage
  node : ∀ p, NodeOk s p
  locked : ∀ lock p, .reviving lock p ∈ s.progress → lock ≠ .none

/-- The value that a thread has to do with. -/
def Progress.about : Progress → Option Addr
  | .found p | .reviving _ p | .removing p => some p
  | .idle | .missing _ => none

section Progress
variable {a : Progress} {p : Addr}

theorem Progress.of_about (h : a.about ≠ some p) : a.finds p = false ∧ a.revives p = false ∧ a.removes p = false := by
  cases a <;> simp_all [Progress.about, Progress.finds, Progress.revives, Progress.removes]

theorem Progress.revives_iff : a.revives p = true ↔ ∃ lock, a = .reviving lock p := by
  cases a <;> simp [Progress.revives, and_comm, eq_comm]

end Progress

section Counting
variable {s s' : Threads} {i : Nat} {a b : Progress} {p : Addr} {v : Value}

/-- One thread goes on, the others count as before. -/
theorem countP_set {progress : List Progress} (hi : progress[i]? = some a) (b : Progress) (f : Progress → Bool) :
    (progress.set i b).countP f + (if f a then 1 else 0) = progress.countP f + if f b then 1 else 0 := by
  obtain ⟨hlt, rfl⟩ := List.getElem?_eq_some_iff.1 hi
  have hle : (if f progress[i] then 1 else 0) ≤ progress.countP f := by
    split
    · next hf => exact List.countP_pos_iff.2 ⟨_, List.getElem_mem hlt, hf⟩
    · exact Nat.zero_le _
  rw [List.countP_set hlt]
  omega

/-- Who finds, revives and removes `p` when thread `i` goes from `a` to `b`. -/
theorem counts (hi : s.progress[i]? = some a) (hs' : s'.progress = s.progress.set i b) (p : Addr) :
    s'.finding p + (if a.finds p then 1 else 0) = s.finding p + (if b.finds p then 1 else 0) ∧
      s'.reviving p + (if a.revives p then 1 else 0) = s.reviving p + (if b.revives p then 1 else 0) ∧
      s'.removing p + (if a.removes p then 1 else 0) = s.removing p + (if b.removes p then 1 else 0) := by
  rw [Threads.finding, Threads.reviving, Threads.removing, hs']
  exact ⟨countP_set hi b _, countP_set hi b _, countP_set hi b _⟩

theorem counts_eq (hi : s.progress[i]? = some a) (hs' : s'.progress = s.progress.set i b) (ha : a.about ≠ some p)
    (hb : b.about ≠ some p) :
    s'.finding p = s.finding p ∧ s'.reviving p = s.reviving p ∧ s'.removing p = s.removing p := by
  obtain ⟨hf, hr, hm⟩ := Progress.of_about ha
  obtain ⟨hf', hr', hm'⟩ := Progress.of_about hb
  simpa [hf, hr, hm, hf', hr', hm'] using counts hi hs' p

theorem NodeOk.congr (h : NodeOk s p) (hnode : s'.storage.nodes p = s.storage.nodes p)
    (hhandles : s'.handles p = s.handles p)
    (hcounts : s'.finding p = s.finding p ∧ s'.reviving p = s.reviving p ∧ s'.removing p = s.removing p) :
    NodeOk s' p := by
  obtain ⟨hf, hr, hm⟩ := hcounts
  rw [NodeOk, hnode, hhandles, hf, hr, hm]
  exact h

/-- A step of a thread that has to do with one value is judged at that value. -/
theorem Threads.Inv.of_step (h : s.Inv) (hi : s.progress[i]? = some a) (hs' : s'.progress = s.progress.set i b)
    (ha : ∀ q, q ≠ p → a.about ≠ some q) (hb : ∀ q, q ≠ p → b.about ≠ some q)
    (hlock : ∀ lock q, b = .reviving lock q → lock ≠ .none) (hindexed : Indexed s'.storage)
    (hnodes : ∀ q, q ≠ p → s'.storage.nodes q = s.storage.nodes q) (hhandles : ∀ q, q ≠ p → s'.handles q = s.handles q)
    (hp : NodeOk s' p) : s'.Inv where
  indexed := hindexed
  node q := by
    by_cases hq : q = p
    · exact hq ▸ hp
    · exact (h.node q).congr (hnodes q hq) (hhandles q hq) (counts_eq hi hs' (ha q hq) (hb q hq))
  locked lock q hmem := by
    rw [hs'] at hmem
    rcases List.mem_or_eq_of_mem_set hmem with hold | hnew
    · exact h.locked lock q hold
    · exact hlock lock q hnew.symm

theorem Threads.Inv.exists_node (h : s.Inv) (hp : 0 < s.handles p + s.finding p + s.reviving p + s.removing p) :
    ∃ v, s.storage.nodes p = some v := by
  have hnode := h.node p
  rw [NodeOk] at hnode
  cases hv : s.storage.nodes p with
  | some v => exact ⟨v, rfl⟩
  | none =>
    simp only [hv] at hnode
    omega

/-- What is known of a value that is there. -/
theorem Threads.Inv.node_some (h : s.Inv) (hv : s.storage.nodes p = some v) :
    v.refCount.refCount = s.handles p + s.reviving p ∧
      v.refCount.deleters + s.reviving p = s.removing p + (if v.refCount.refCount = 0 then 0 else 1) ∧
      (v.refCount.refCount = 0 → 0 < s.removing p) ∧ s.reviving p ≤ 1 := by
  have hnode := h.node p
  rwa [NodeOk, hv] at hnode

theorem nodeOk_of_counts {str : String} {c d : Nat} (hv : s.storage.nodes p = some ⟨str, ⟨c, d⟩⟩)
    (h : c = s.handles p + s.reviving p ∧ d + s.reviving p = s.removing p + (if c = 0 then 0 else 1) ∧
      (c = 0 → 0 < s.removing p) ∧ s.reviving p ≤ 1) : NodeOk s p := by
  rw [NodeOk, hv]
  exact h

theorem refCount_some {st : FlyweightStorage} (hv : st.nodes p = some v) : st.refCount p = v.refCount.refCount := by
  simp [FlyweightStorage.refCount, hv]

/-! ## The steps -/

theorem find_inv (h : s.Inv) (hi : s.progress[i]? = some .idle) (str : String) : (s.find i str).Inv := by
  cases hstr : s.storage.index str with
  | none =>
    have hs' : (s.find i str).progress = s.progress.set i (.missing str) := by
      simp [Threads.find, Threads.setProgress, hstr]
    exact h.of_step (p := 0) hi hs' (by simp [Progress.about]) (by simp [Progress.about]) (by simp) h.indexed
      (fun _ _ => rfl) (fun _ _ => rfl)
      ((h.node 0).congr rfl rfl (counts_eq hi hs' (by simp [Progress.about]) (by simp [Progress.about])))
  | some p =>
    have hs' : (s.find i str).progress = s.progress.set i (.found p) := by
      simp [Threads.find, Threads.setProgress, hstr]
    obtain ⟨v, hv, -⟩ := (h.indexed str p).1 hstr
    obtain ⟨hf, hr, hm⟩ := counts hi hs' p
    refine h.of_step (p := p) hi hs' (by simp [Progress.about]) (fun q hq => by simp [Progress.about, Ne.symm hq])
      (by simp) h.indexed (fun _ _ => rfl) (fun _ _ => rfl) (nodeOk_of_counts (s := s.find i str) hv ?_)
    have hnode := h.node_some hv
    simp only [Progress.revives, Progress.removes, Bool.false_eq_true, if_false, Nat.add_zero] at hr hm
    rw [hr, hm]
    exact hnode

/-- The first half of `addRef` leads from a value whose counts are right to one that somebody needs. -/
theorem fetchAdd_nodeOk {lock : Lock} (hi : s.progress[i]? = some a) (ha : a.revives p = false ∧ a.removes p = false)
    (hv : s.storage.nodes p = some v) (hcount : v.refCount.refCount = s.handles p + s.reviving p)
    (hdeleters : v.refCount.deleters + s.reviving p = s.removing p + if v.refCount.refCount = 0 then 0 else 1)
    (hone : s.reviving p ≤ 1) : NodeOk (s.fetchAdd i lock p) p := by
  have hnode : (s.fetchAdd i lock p).storage.nodes p =
      some ⟨v.value, ⟨v.refCount.refCount + 1, v.refCount.deleters⟩⟩ := by
    rw [Threads.fetchAdd]
    split <;> simp [Threads.setProgress, Threads.giveHandle, FlyweightStorage.fetchAdd, hv]
  refine nodeOk_of_counts hnode ?_
  by_cases hzero : v.refCount.refCount = 0
  · have hs' : s.fetchAdd i lock p = { s with storage := s.storage.fetchAdd p }.setProgress i (.reviving lock p) := by
      rw [Threads.fetchAdd, refCount_some hv, if_pos hzero]
    have hprogress : (s.fetchAdd i lock p).progress = s.progress.set i (.reviving lock p) := by rw [hs']; rfl
    obtain ⟨-, hr, hm⟩ := counts hi hprogress p
    have hh : (s.fetchAdd i lock p).handles p = s.handles p := by rw [hs']; rfl
    simp only [ha, Bool.false_eq_true, if_false, Nat.add_zero] at hr hm
    simp only [Progress.revives, Progress.removes, decide_true, if_true, Bool.false_eq_true, if_false] at hr hm
    simp only [hzero, if_true] at hdeleters
    simp only [hh, hr, hm]
    simp
    omega
  · have hs' : s.fetchAdd i lock p = { s with storage := s.storage.fetchAdd p }.giveHandle i p := by
      rw [Threads.fetchAdd, refCount_some hv, if_neg hzero]
    have hprogress : (s.fetchAdd i lock p).progress = s.progress.set i .idle := by rw [hs']; rfl
    obtain ⟨-, hr, hm⟩ := counts hi hprogress p
    have hh : (s.fetchAdd i lock p).handles p = s.handles p + 1 := by
      rw [hs']
      exact Function.update_self ..
    simp only [ha, Bool.false_eq_true, if_false, Nat.add_zero] at hr hm
    simp only [Progress.revives, Progress.removes, Bool.false_eq_true, if_false] at hr hm
    simp only [hzero, if_false] at hdeleters
    simp only [hh, hr, hm]
    simp
    omega

/-- `fetchAdd` leaves the thread with nothing to do but to revive `p`, and changes no other value. -/
theorem fetchAdd_frame (s : Threads) (i : Nat) (lock : Lock) (p : Addr) :
    ∃ b, (s.fetchAdd i lock p).progress = s.progress.set i b ∧
      (b = .idle ∨ b = .reviving lock p ∧ s.storage.refCount p = 0) ∧
      (s.fetchAdd i lock p).storage = s.storage.fetchAdd p ∧
      ∀ q, q ≠ p → (s.fetchAdd i lock p).handles q = s.handles q := by
  rw [Threads.fetchAdd]
  split
  · next hzero => exact ⟨_, rfl, .inr ⟨rfl, hzero⟩, rfl, fun _ _ => rfl⟩
  · exact ⟨_, rfl, .inl rfl, rfl, fun q hq => Function.update_of_ne hq ..⟩

theorem Threads.Inv.fetchAdd {t : Threads} {lock : Lock} (h : s.Inv) (hi : s.progress[i]? = some a)
    (ha : ∀ q, q ≠ p → a.about ≠ some q) (ht : t.progress = s.progress ∧ t.handles = s.handles)
    (hindexed : Indexed t.storage) (hnodes : ∀ q, q ≠ p → t.storage.nodes q = s.storage.nodes q)
    (hlock : lock = .none → t.storage.refCount p ≠ 0) (hp : NodeOk (t.fetchAdd i lock p) p) :
    (t.fetchAdd i lock p).Inv := by
  obtain ⟨b, hprogress, hb, hstorage, hhandles⟩ := fetchAdd_frame t i lock p
  refine h.of_step (p := p) (b := b) hi (by rw [hprogress, ht.1]) ha (fun q hq => ?_) (fun lock' q hrev => ?_) ?_
    (fun q hq => ?_) (fun q hq => by rw [hhandles q hq, ht.2]) hp
  · rcases hb with rfl | ⟨rfl, -⟩
    · simp [Progress.about]
    · simp [Progress.about, Ne.symm hq]
  · rcases hb with rfl | ⟨rfl, hzero⟩
    · cases hrev
    · cases hrev
      exact fun hnone => hlock hnone hzero
  · rw [hstorage]
    exact hindexed.modify _
  · rw [hstorage, FlyweightStorage.fetchAdd, modify_of_ne _ hq, hnodes q hq]

/-- Both in `insert`, for a value that was found, and where a handle is copied. -/
theorem addRef_inv {lock : Lock} (h : s.Inv) (hi : s.progress[i]? = some a)
    (ha : (a = .found p ∧ lock ≠ .none) ∨ (a = .idle ∧ 0 < s.handles p)) : (s.fetchAdd i lock p).Inv := by
  have habout : ∀ q, q ≠ p → a.about ≠ some q := by
    rcases ha with ⟨rfl, -⟩ | ⟨rfl, -⟩ <;> simp +contextual [Progress.about, eq_comm]
  have hcounted : a.revives p = false ∧ a.removes p = false := by
    rcases ha with ⟨rfl, -⟩ | ⟨rfl, -⟩ <;> exact ⟨rfl, rfl⟩
  have hused : 0 < s.handles p + s.finding p + s.reviving p + s.removing p := by
    rcases ha with ⟨rfl, -⟩ | ⟨-, hpos⟩
    · have hfinding : 0 < s.finding p :=
        List.countP_pos_iff.2 ⟨.found p, List.mem_of_getElem? hi, by simp [Progress.finds]⟩
      omega
    · omega
  obtain ⟨v, hv⟩ := h.exists_node hused
  obtain ⟨hcount, hdeleters, -, hone⟩ := h.node_some hv
  refine h.fetchAdd hi habout ⟨rfl, rfl⟩ h.indexed (fun _ _ => rfl) (fun hnone hzero => ?_)
    (fetchAdd_nodeOk hi hcounted hv hcount hdeleters hone)
  -- a handle is copied of a value that has one
  rcases ha with ⟨-, hlock⟩ | ⟨-, hpos⟩
  · exact hlock hnone
  · rw [refCount_some hv] at hzero
    omega

theorem insertNode_inv {str : String} {q : Addr} (h : s.Inv) (hi : s.progress[i]? = some (.missing str))
    (hq : s.storage.nodes q = none) : (s.insertNode i str q).Inv := by
  cases hstr : s.storage.index str with
  | some p =>
    have hs' : s.insertNode i str q = s.fetchAdd i .exclusive p := by
      rw [Threads.insertNode, FlyweightStorage.insertNode, hstr]
    obtain ⟨v, hv, -⟩ := (h.indexed str p).1 hstr
    obtain ⟨hcount, hdeleters, -, hone⟩ := h.node_some hv
    rw [hs']
    exact h.fetchAdd hi (by simp [Progress.about]) ⟨rfl, rfl⟩ h.indexed (fun _ _ => rfl) (by simp)
      (fetchAdd_nodeOk hi ⟨rfl, rfl⟩ hv hcount hdeleters hone)
  | none =>
    have hnode : s.storage.insertNode str q =
        ({ index := Function.update s.storage.index str (some q)
           nodes := Function.update s.storage.nodes q (some ⟨str, {}⟩) }, q) := by
      rw [FlyweightStorage.insertNode, hstr]
    have hindexed := h.indexed.insertNode hstr hq
    rw [hnode] at hindexed
    let t : Threads :=
      { s with
        storage.index := Function.update s.storage.index str (some q)
        storage.nodes := Function.update s.storage.nodes q (some ⟨str, {}⟩) }
    have hs' : s.insertNode i str q = t.fetchAdd i .exclusive q := by
      rw [Threads.insertNode, hnode]
    have hv : t.storage.nodes q = some ⟨str, {}⟩ := Function.update_self ..
    have hfree := h.node q
    rw [NodeOk, hq] at hfree
    obtain ⟨hhandles, -, hreviving, hremoving⟩ := hfree
    have hnone : t.handles q = 0 ∧ t.reviving q = 0 ∧ t.removing q = 0 := ⟨hhandles, hreviving, hremoving⟩
    rw [hs']
    refine h.fetchAdd hi (by simp [Progress.about]) ⟨rfl, rfl⟩ hindexed (fun r hr => Function.update_of_ne hr ..)
      (by simp) (fetchAdd_nodeOk hi ⟨rfl, rfl⟩ hv ?_ ?_ (by omega))
    · rw [hnone.1, hnone.2.1]
    · rw [hnone.2.1, hnone.2.2]
      rfl

theorem addDeleter_inv {lock : Lock} (h : s.Inv) (hi : s.progress[i]? = some (.reviving lock p)) :
    (s.addDeleter i p).Inv := by
  have hs' : (s.addDeleter i p).progress = s.progress.set i .idle := rfl
  obtain ⟨-, hr, hm⟩ := counts hi hs' p
  simp only [Progress.revives, Progress.removes, decide_true, if_true, Bool.false_eq_true, if_false, Nat.add_zero]
    at hr hm
  obtain ⟨v, hv⟩ := h.exists_node (p := p) (by omega)
  obtain ⟨hcount, hdeleters, hneeded, hone⟩ := h.node_some hv
  have hstorage : (s.addDeleter i p).storage = s.storage.addDeleter p := rfl
  have hnode : (s.addDeleter i p).storage.nodes p =
      some ⟨v.value, ⟨v.refCount.refCount, v.refCount.deleters + 1⟩⟩ := by
    simp [hstorage, FlyweightStorage.addDeleter, hv]
  have hhandles : (s.addDeleter i p).handles p = s.handles p + 1 := Function.update_self ..
  refine h.of_step (p := p) hi hs' (fun q hq => by simp [Progress.about, Ne.symm hq]) (by simp [Progress.about])
    (by simp)
    (hstorage ▸ h.indexed.modify _) (fun q hq => hstorage ▸ modify_of_ne _ hq) (fun q hq => Function.update_of_ne hq ..)
    (nodeOk_of_counts hnode ?_)
  simp only [hhandles, hm]
  omega

theorem decRef_inv (h : s.Inv) (hi : s.progress[i]? = some .idle) (hp : 0 < s.handles p) : (s.decRef i p).Inv := by
  obtain ⟨v, hv⟩ := h.exists_node (p := p) (by omega)
  obtain ⟨hcount, hdeleters, hneeded, hone⟩ := h.node_some hv
  have hs' : (s.decRef i p).progress = s.progress.set i (if v.refCount.refCount = 1 then .removing p else .idle) := by
    rw [← refCount_some hv]
    rfl
  have hstorage : (s.decRef i p).storage = s.storage.fetchSub p := rfl
  have hnode : (s.decRef i p).storage.nodes p =
      some ⟨v.value, ⟨v.refCount.refCount - 1, v.refCount.deleters⟩⟩ := by
    simp [hstorage, FlyweightStorage.fetchSub, hv]
  have hhandles : (s.decRef i p).handles p = s.handles p - 1 := Function.update_self ..
  refine h.of_step (p := p) hi hs' (by simp [Progress.about]) (fun q hq => ?_) (fun lock q hrev => ?_)
    (hstorage ▸ h.indexed.modify _) (fun q hq => hstorage ▸ modify_of_ne _ hq)
    (fun q hq => Function.update_of_ne hq ..) (nodeOk_of_counts hnode ?_)
  · split <;> simp [Progress.about, Ne.symm hq]
  · split at hrev <;> cases hrev
  · rw [if_neg (by omega)] at hdeleters
    simp only [hhandles]
    by_cases hlast : v.refCount.refCount = 1
    · rw [if_pos hlast] at hs'
      obtain ⟨-, hr, hm⟩ := counts hi hs' p
      simp only [Progress.revives, Progress.removes, decide_true, if_true, Bool.false_eq_true, if_false] at hr hm
      rw [if_pos (by omega)]
      omega
    · rw [if_neg hlast] at hs'
      obtain ⟨-, hr, hm⟩ := counts hi hs' p
      simp only [Progress.revives, Progress.removes, Bool.false_eq_true, if_false] at hr hm
      rw [if_neg (by omega)]
      omega

/-- While no thread holds a lock, none has found a value or is reviving it. -/
theorem Threads.Inv.unlocked (h : s.Inv) (hfree : s.isUnlocked = true) (p : Addr) :
    s.finding p = 0 ∧ s.reviving p = 0 := by
  have hlock : ∀ a ∈ s.progress, a.lock = .none := by simpa [Threads.isUnlocked] using hfree
  constructor
  · refine List.countP_eq_zero.2 fun a ha hfinds => ?_
    have hnone := hlock a ha
    cases a <;> simp_all [Progress.finds, Progress.lock]
  · refine List.countP_eq_zero.2 fun a ha hrevives => ?_
    obtain ⟨lock, rfl⟩ := Progress.revives_iff.1 hrevives
    exact h.locked lock p ha (hlock _ ha)

/-- What the last step of a removal leaves: the value without a deleter, or nothing where it was the last one. -/
theorem decDel_nodes (h : Indexed s.storage) (hv : s.storage.nodes p = some v) (i : Nat) :
    Indexed (s.decDel i p).storage ∧ (∀ q, q ≠ p → (s.decDel i p).storage.nodes q = s.storage.nodes q) ∧
      (s.decDel i p).storage.nodes p = if v.refCount.deleters = 1 then none
        else some ⟨v.value, ⟨v.refCount.refCount, v.refCount.deleters - 1⟩⟩ := by
  have hmod := h.modify (p := p) fun r => { r with deleters := r.deleters - 1 }
  have hnode : (s.storage.modify p fun r => { r with deleters := r.deleters - 1 }).nodes p =
      some ⟨v.value, ⟨v.refCount.refCount, v.refCount.deleters - 1⟩⟩ := by
    rw [modify_self, hv]
    rfl
  have hs' : (s.decDel i p).storage = s.storage.decDel p := rfl
  rw [hs', FlyweightStorage.decDel, hv]
  simp only
  split
  · have herase := hmod.erase_eq hnode
    have hindexed := hmod.erase hnode
    refine ⟨hindexed, fun q hq => ?_, ?_⟩
    · rw [herase]
      exact (Function.update_of_ne hq ..).trans (modify_of_ne _ hq)
    · rw [herase]
      exact Function.update_self ..
  · exact ⟨hmod, fun q hq => modify_of_ne _ hq, hnode⟩

theorem decDel_inv (h : s.Inv) (hi : s.progress[i]? = some (.removing p)) (hfree : s.isUnlocked = true) :
    (s.decDel i p).Inv ∧ ErasesUnused s (s.decDel i p) := by
  have hs' : (s.decDel i p).progress = s.progress.set i .idle := rfl
  obtain ⟨hf, hr, hm⟩ := counts hi hs' p
  obtain ⟨hfinding, hreviving⟩ := h.unlocked hfree p
  simp only [Progress.finds, Progress.revives, Progress.removes, decide_true, if_true, Bool.false_eq_true, if_false,
    Nat.add_zero] at hf hr hm
  obtain ⟨v, hv⟩ := h.exists_node (p := p) (by omega)
  obtain ⟨hcount, hdeleters, hneeded, hone⟩ := h.node_some hv
  obtain ⟨hindexed, hnodes, hnode⟩ := decDel_nodes h.indexed hv i
  have hhandles : (s.decDel i p).handles = s.handles := rfl
  by_cases hlast : v.refCount.deleters = 1
  · rw [if_pos hlast] at hnode
    have hzero : v.refCount.refCount = 0 := by
      by_contra hheld
      rw [if_neg hheld] at hdeleters
      omega
    refine ⟨h.of_step (p := p) hi hs' (fun q hq => by simp [Progress.about, Ne.symm hq]) (by simp [Progress.about])
      (by simp) hindexed hnodes (fun _ _ => rfl) ?_, fun q w hw hgone => ?_⟩
    · rw [NodeOk, hnode, hhandles]
      rw [if_pos hzero] at hdeleters
      exact ⟨by omega, by omega, by omega, by omega⟩
    · by_cases hq : q = p
      · subst hq
        rw [hv] at hw
        cases hw
        rw [if_pos hzero] at hdeleters
        exact ⟨hzero, by omega⟩
      · rw [hnodes q hq, hw] at hgone
        cases hgone
  · rw [if_neg hlast] at hnode
    refine ⟨h.of_step (p := p) hi hs' (fun q hq => by simp [Progress.about, Ne.symm hq]) (by simp [Progress.about])
      (by simp) hindexed hnodes (fun _ _ => rfl) (nodeOk_of_counts hnode ?_), fun q w hw hgone => ?_⟩
    · rw [hhandles]
      refine ⟨by omega, by omega, fun hzero => ?_, by omega⟩
      rw [if_pos hzero] at hdeleters
      omega
    · by_cases hq : q = p
      · subst hq
        rw [hnode] at hgone
        cases hgone
      · rw [hnodes q hq, hw] at hgone
        cases hgone

/-! ## Main theorem -/

theorem ErasesUnused.of_kept (h : ∀ q, s'.storage.nodes q = none → s.storage.nodes q = none) : ErasesUnused s s' := by
  intro q w hw hgone
  rw [h q hgone] at hw
  cases hw

theorem modify_eq_none {st : FlyweightStorage} (f : RefCount → RefCount) {q : Addr}
    (h : (st.modify p f).nodes q = none) :
    st.nodes q = none := by
  by_cases hq : q = p
  · subst hq
    simpa using h
  · rwa [modify_of_ne f hq] at h

theorem fetchAdd_kept (s : Threads) (i : Nat) (lock : Lock) (p q : Addr)
    (h : (s.fetchAdd i lock p).storage.nodes q = none) : s.storage.nodes q = none := by
  obtain ⟨-, -, -, hstorage, -⟩ := fetchAdd_frame s i lock p
  rw [hstorage] at h
  exact modify_eq_none _ h

theorem insertNode_eq_none {st : FlyweightStorage} {str : String} {q r : Addr}
    (h : (st.insertNode str q).1.nodes r = none) : st.nodes r = none := by
  rw [FlyweightStorage.insertNode] at h
  split at h
  · exact h
  · by_cases hr : r = q
    · subst hr
      simp at h
    · simpa [hr] using h

theorem threadStep_inv (h : s.Inv) {e : Action} (hs : threadStep s e = some s') : s'.Inv ∧ ErasesUnused s s' := by
  cases e with
  | find i str =>
    simp only [threadStep] at hs
    split at hs
    · next hi =>
      cases hs
      exact ⟨find_inv h hi.1 str, .of_kept fun _ hq => hq⟩
    · cases hs
  | addRef i =>
    simp only [threadStep] at hs
    split at hs
    · next p hi =>
      cases hs
      exact ⟨addRef_inv h hi (.inl ⟨rfl, by simp⟩), .of_kept (fetchAdd_kept s i .shared p)⟩
    · cases hs
  | insertNode i q =>
    simp only [threadStep] at hs
    split at hs
    · next str hi =>
      split at hs
      · next hq =>
        cases hs
        exact ⟨insertNode_inv h hi hq.2, .of_kept fun r hr =>
          insertNode_eq_none (fetchAdd_kept _ i .exclusive _ r hr)⟩
      · cases hs
    · cases hs
  | copy i p =>
    simp only [threadStep] at hs
    split at hs
    · next hi =>
      cases hs
      exact ⟨addRef_inv h hi.1 (.inr ⟨rfl, hi.2⟩), .of_kept (fetchAdd_kept s i .none p)⟩
    · cases hs
  | addDeleter i =>
    simp only [threadStep] at hs
    split at hs
    · next lock p hi =>
      cases hs
      refine ⟨addDeleter_inv h hi, .of_kept fun q hq => ?_⟩
      have hq' : (s.storage.addDeleter p).nodes q = none := hq
      exact modify_eq_none _ hq'
    · cases hs
  | decRef i p =>
    simp only [threadStep] at hs
    split at hs
    · next hi =>
      cases hs
      refine ⟨decRef_inv h hi.1 hi.2, .of_kept fun q hq => ?_⟩
      have hq' : (s.storage.fetchSub p).nodes q = none := hq
      exact modify_eq_none _ hq'
    · cases hs
  | decDel i =>
    simp only [threadStep] at hs
    split at hs
    · next p hi =>
      split at hs
      · next hfree =>
        cases hs
        exact decDel_inv h hi hfree
      · cases hs
    · cases hs

theorem Threads.Inv.safe (h : s.Inv) : Safe s where
  needed p v hv := (h.node_some hv).2.2.1
  deleters p v hv hnone := by simpa [hnone] using (h.node_some hv).2.1
  held p hp := by
    obtain ⟨v, hv⟩ := h.exists_node (p := p) (by omega)
    simp [hv]

/-- No two threads add a deleter to one value at the same time: the increment of `deleters` needs no more than the
shared lock. -/
theorem revived_by_one (h : s.Inv) (p : Addr) : s.reviving p ≤ 1 := by
  cases hv : s.storage.nodes p with
  | some v => exact (h.node_some hv).2.2.2
  | none =>
    by_contra hmany
    obtain ⟨v, hv'⟩ := h.exists_node (p := p) (by omega)
    rw [hv] at hv'
    cases hv'

end Counting

theorem start_inv (threads : Nat) : (start threads).Inv where
  indexed s p := by simp [start]
  node p := by
    have hidle : ∀ f : Progress → Bool, f .idle = false → (start threads).progress.countP f = 0 := by
      intro f hf
      refine List.countP_eq_zero.2 fun a ha => ?_
      rw [List.eq_of_mem_replicate ha, hf]
      simp
    exact ⟨rfl, hidle _ rfl, hidle _ rfl, hidle _ rfl⟩
  locked lock p hmem := by cases List.eq_of_mem_replicate hmem

/-- **Interning is safe** for any number of threads, in every order of their steps. -/
theorem interning_safe (threads : Nat) (actions : List Action) (s : Threads)
    (h : run threadStep (start threads) actions = some s) :
    Safe s ∧ ∀ e s', threadStep s e = some s' → ErasesUnused s s' := by
  have hinv : s.Inv :=
    run_inv threadStep (fun _ _ _ hi hs => (threadStep_inv hi hs).1) (start_inv threads) h
  exact ⟨hinv.safe, fun e s' hs => (threadStep_inv hinv hs).2⟩

/-- A thread drops the last handle; before it comes to erase the value, another one has revived it, dropped it again, and
both are due to remove it. -/
theorem interning_safe_revived :
    ∃ s, run threadStep (start 2) [.find 0 "a", .insertNode 0 0, .addDeleter 0, .decRef 0 0, .find 1 "a", .addRef 1,
        .addDeleter 1, .decRef 1 0, .decDel 1] = some s ∧
      (Safe s ∧ ∀ e s', threadStep s e = some s' → ErasesUnused s s') ∧
      s.removing 0 = 1 ∧ (s.decDel 0 0).storage.nodes 0 = none := by
  have hrun : run threadStep (start 2) [.find 0 "a", .insertNode 0 0, .addDeleter 0, .decRef 0 0, .find 1 "a",
    .addRef 1,
      .addDeleter 1, .decRef 1 0, .decDel 1] = some _ := rfl
  exact ⟨_, hrun, interning_safe 2 _ _ hrun, rfl, rfl⟩

/-! ## One thread

Where no other thread comes in between, the steps come to the functions of the
storage. -/

section Alone
variable {s : Threads} {i : Nat} {a : Progress}

theorem getElem?_set {progress : List Progress} (hi : progress[i]? = some a) (b : Progress) :
    (progress.set i b)[i]? = some b := by
  obtain ⟨hlt, -⟩ := List.getElem?_eq_some_iff.1 hi
  simp [hlt]

theorem isUnlocked_set {s' : Threads} {b : Progress} (hfree : s.isUnlocked = true)
    (hs' : s'.progress = s.progress.set i b) (hb : b.lock = .none) : s'.isUnlocked = true := by
  simp only [Threads.isUnlocked, List.all_eq_true, decide_eq_true_eq] at hfree ⊢
  rw [hs']
  intro c hc
  rcases List.mem_or_eq_of_mem_set hc with hold | rfl
  · exact hfree c hold
  · exact hb

theorem addRef_alone (hi : s.progress[i]? = some a) (lock : Lock) (p : Addr) :
    ∃ actions s', run threadStep (s.fetchAdd i lock p) actions = some s' ∧ s'.storage = s.storage.addRef p := by
  rw [Threads.fetchAdd, FlyweightStorage.addRef]
  split
  · have hrev : (({ s with storage := s.storage.fetchAdd p } : Threads).setProgress i (.reviving lock p)).progress[i]? =
        some (.reviving lock p) := getElem?_set hi _
    exact ⟨[.addDeleter i], _, by rw [run, threadStep, hrev]; rfl, rfl⟩
  · exact ⟨[], _, rfl, rfl⟩

theorem insert_alone (hi : s.progress[i]? = some .idle) (hfree : s.isUnlocked = true) (str : String) {q : Addr}
    (hq : s.storage.nodes q = none) :
    ∃ actions s', run threadStep s actions = some s' ∧ s'.storage = (s.storage.insert str q).1 := by
  have hlock : ∀ b ∈ s.progress, b.lock = .none := by simpa [Threads.isUnlocked] using hfree
  have hexcl : s.noneExclusive = true := by
    simp only [Threads.noneExclusive, List.all_eq_true, decide_eq_true_eq]
    intro b hb
    rw [hlock b hb]
    decide
  have hfind : threadStep s (.find i str) = some (s.find i str) := if_pos ⟨hi, hexcl⟩
  cases hstr : s.storage.index str with
  | some p =>
    have hfound : (s.find i str).progress[i]? = some (.found p) := by
      simpa [Threads.find, Threads.setProgress, hstr] using getElem?_set hi (.found p)
    have hadd : threadStep (s.find i str) (.addRef i) = some ((s.find i str).fetchAdd i .shared p) := by
      rw [threadStep, hfound]
    obtain ⟨actions, s', hrun, hstorage⟩ := addRef_alone hfound .shared p
    refine ⟨.find i str :: .addRef i :: actions, s', ?_, ?_⟩
    · rw [run, hfind, Option.bind_some, run, hadd, Option.bind_some, hrun]
    · rw [FlyweightStorage.insert, hstr, hstorage]
      rfl
  | none =>
    have hmissing : (s.find i str).progress[i]? = some (.missing str) := by
      simpa [Threads.find, Threads.setProgress, hstr] using getElem?_set hi (.missing str)
    have hstill : (s.find i str).isUnlocked = true :=
      isUnlocked_set (i := i) hfree (b := .missing str) (by simp [Threads.find, Threads.setProgress, hstr]) rfl
    have hins : threadStep (s.find i str) (.insertNode i q) = some ((s.find i str).insertNode i str q) := by
      rw [threadStep, hmissing]
      exact if_pos ⟨hstill, hq⟩
    obtain ⟨actions, s', hrun, hstorage⟩ := addRef_alone
      (s := { s.find i str with storage := (s.storage.insertNode str q).1 }) hmissing .exclusive
      (s.storage.insertNode str q).2
    refine ⟨.find i str :: .insertNode i q :: actions, s', ?_, ?_⟩
    · rw [run, hfind, Option.bind_some, run, hins, Option.bind_some]
      exact hrun
    · rw [FlyweightStorage.insert, hstr, hstorage]

theorem remove_alone (hi : s.progress[i]? = some .idle) (hfree : s.isUnlocked = true) {p : Addr}
    (hp : 0 < s.handles p) :
    ∃ actions s', run threadStep s actions = some s' ∧ s'.storage = s.storage.remove p := by
  have hdec : threadStep s (.decRef i p) = some (s.decRef i p) := if_pos ⟨hi, hp⟩
  rw [FlyweightStorage.remove]
  split
  · next hone =>
    have hrem : (s.decRef i p).progress[i]? = some (.removing p) := by
      simpa [Threads.decRef, Threads.setProgress, hone] using getElem?_set hi (.removing p)
    have hstill : (s.decRef i p).isUnlocked = true :=
      isUnlocked_set (i := i) hfree (b := .removing p) (by simp [Threads.decRef, Threads.setProgress, hone]) rfl
    have hdel : threadStep (s.decRef i p) (.decDel i) = some ((s.decRef i p).decDel i p) := by
      rw [threadStep, hrem]
      exact if_pos hstill
    exact ⟨[.decRef i p, .decDel i], _, by rw [run, hdec, Option.bind_some, run, hdel]; rfl, rfl⟩
  · exact ⟨[.decRef i p], _, by rw [run, hdec]; rfl, rfl⟩

end Alone

end BuildPal.Scanner.Flyweight
