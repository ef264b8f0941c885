import BuildPal.Lib.Runs
import Mathlib.Algebra.Ring.Nat
import Mathlib.Algebra.BigOperators.Group.List.Basic
import Mathlib.Data.List.Induction
import Mathlib.Logic.Function.Basic
/-!
# The content cache

`ContentCache` of `contentCache_.cpp`: the files that were read, in a container
with two indices, a list and a table of names. A file that is asked for moves to
the front of the list; one that is not there yet is read, and files are dropped
from the back until the rest fits. We show that it is what it is meant to be
while one thread uses it, and say when it is so with several.
-/
open BuildPal.Lib

namespace BuildPal.Scanner.Content

/-! ## The container -/

/-- A file's content in memory, of which only the size matters here. A buffer takes less than half of what can be
addressed. -/
structure Buffer where
  size : Nat
  fits : size < 2 ^ 63
  deriving DecidableEq, Repr

/-- `serial` tells the objects apart, and with them the iterators to them. -/
structure ContentEntry where
  serial : Nat
  name : String
  buffer : Buffer
  deriving DecidableEq, Repr

def ContentEntry.size (e : ContentEntry) : Nat := e.buffer.size

/-- The sequence and the hashed index of `content_`; `created` counts the entries made so far. -/
structure ContentCache where
  sequence : List ContentEntry := []
  byName : String → Option ContentEntry := fun _ => none
  contentSize : Nat := 0
  created : Nat := 0

def maxContentCacheSize : Nat := 100 * 1024 * 1024

/-- Addition and subtraction of `std::size_t`. -/
def addSize (a b : Nat) : Nat := (a + b) % 2 ^ 64

def subSize (a b : Nat) : Nat := (a + 2 ^ 64 - b) % 2 ^ 64

namespace ContentCache
variable (c : ContentCache)

/-- `content_.push_front`: nothing is inserted if one of the indices does not allow it. -/
def pushFront (e : ContentEntry) : ContentCache :=
  if (c.byName e.name).isSome then c
  else { c with sequence := e :: c.sequence, byName := Function.update c.byName e.name (some e) }

/-- The body of the eviction loop. `content_.back()` is not defined for an empty container. -/
def popBack : Option ContentCache :=
  c.sequence.getLast?.map fun back =>
    { c with
      sequence := c.sequence.dropLast
      byName := Function.update c.byName back.name none
      contentSize := subSize c.contentSize back.size }

/-- The eviction loop, for a container of so many entries. -/
def evict : Nat → ContentCache → Option ContentCache
  | 0, c => if maxContentCacheSize < c.contentSize then c.popBack else some c
  | entries + 1, c => if maxContentCacheSize < c.contentSize then c.popBack.bind (evict entries) else some c

/-- `content_.splice( content_.begin(), content_, listIter )`. -/
def splice (e : ContentEntry) : ContentCache := { c with sequence := e :: c.sequence.erase e }

/-! ## The critical sections -/

/-- In `getOrCreate`, under the shared lock. -/
def find (path : String) : Option ContentEntry := c.byName path

/-- `ContentEntry::create`, which takes no lock. -/
def create (path : String) (buffer : Buffer) : ContentCache × ContentEntry :=
  ({ c with created := c.created + 1 }, ⟨c.created, path, buffer⟩)

/-- In `addNewEntry`, with a new entry. -/
def insertNew (e : ContentEntry) : Option (ContentCache × ContentEntry) :=
  match c.byName e.name with
  | some found => some (c, found)
  | none =>
    let c := { c.pushFront e with contentSize := addSize c.contentSize e.size }
    (evict c.sequence.length c).map (·, e)

def clear : ContentCache := { c with sequence := [], byName := fun _ => none, contentSize := 0 }

/-- `getOrCreate`, when no other thread comes in between. `file` is what reading the file gives, if it can be read. -/
def getOrCreate (path : String) (file : Option Buffer) : Option (ContentCache × Option ContentEntry) :=
  match c.find path with
  | some e => some (c.splice e, some e)
  | none =>
    match file with
    | none => some (c, none)
    | some buffer =>
      let r := c.create path buffer
      (r.1.insertNew r.2).map fun t => (t.1, some t.2)

end ContentCache

inductive Call where
  | getOrCreate (path : String) (file : Option Buffer)
  | clear

/-- `none` if the call does what is not defined. -/
def step (c : ContentCache) : Call → Option ContentCache
  | .getOrCreate path file => (c.getOrCreate path file).map (·.1)
  | .clear => some c.clear

/-! ## What the cache is to be -/

def totalSize (entries : List ContentEntry) : Nat := (entries.map ContentEntry.size).sum

/-- The paths in the order in which they were last asked for, the last one first. -/
def recency : List Call → List String
  | [] => []
  | .clear :: earlier => recency earlier
  | .getOrCreate path _ :: earlier => path :: (recency earlier).filter (· ≠ path)

/-- Both indices hold the same entries, under names that are different, and the size is theirs. -/
structure Indexed (c : ContentCache) : Prop where
  names : (c.sequence.map ContentEntry.name).Nodup
  byName : ∀ name e, c.byName name = some e ↔ e ∈ c.sequence ∧ e.name = name
  contentSize : c.contentSize = totalSize c.sequence

/-- The cache after some calls, listed from the last one on. -/
structure Lru (calls : List Call) (c : ContentCache) : Prop extends Indexed c where
  bound : c.contentSize ≤ maxContentCacheSize
  order : (c.sequence.map ContentEntry.name).Sublist (recency calls)

/-- `kept` is what is left of `entries` when the shortest suffix is taken away that makes the rest fit. -/
structure Evicts (entries kept : List ContentEntry) : Prop where
  isPrefix : kept <+: entries
  fits : totalSize kept ≤ maxContentCacheSize
  shortest : ∀ longer, longer <+: entries → totalSize longer ≤ maxContentCacheSize → longer.length ≤ kept.length

/-! ## Sizes -/

theorem totalSize_append (as bs : List ContentEntry) : totalSize (as ++ bs) = totalSize as + totalSize bs := by
  simp [totalSize]

theorem totalSize_cons (e : ContentEntry) (es : List ContentEntry) : totalSize (e :: es) = e.size + totalSize es := by
  simp [totalSize]

theorem totalSize_perm {as bs : List ContentEntry} (h : as.Perm bs) : totalSize as = totalSize bs :=
  (h.map ContentEntry.size).sum_eq

theorem addSize_eq {a b : Nat} (h : a + b < 2 ^ 64) : addSize a b = a + b := Nat.mod_eq_of_lt h

theorem subSize_eq {a b : Nat} (ha : a < 2 ^ 64) (h : b ≤ a) : subSize a b = a - b := by
  have hsplit : a + 2 ^ 64 - b = a - b + 2 ^ 64 := by omega
  rw [subSize, hsplit, Nat.add_mod_right, Nat.mod_eq_of_lt (by omega)]

/-! ## Eviction -/

section Evict
variable {c : ContentCache}

theorem popBack_spec {init : List ContentEntry} {back : ContentEntry} (h : Indexed c)
    (hsize : totalSize c.sequence < 2 ^ 64) (hseq : c.sequence = init ++ [back]) :
    ∃ c', c.popBack = some c' ∧ c'.sequence = init ∧ Indexed c' := by
  have hlast : c.sequence.getLast? = some back := by simp [hseq]
  have hinit : c.sequence.dropLast = init := by simp [hseq]
  have htotal : totalSize c.sequence = totalSize init + back.size := by
    rw [hseq, totalSize_append, totalSize_cons]
    rfl
  have hnames := h.names
  rw [hseq, List.map_append, List.nodup_append] at hnames
  have hother : ∀ e ∈ init, e.name ≠ back.name := fun e he =>
    hnames.2.2 e.name (List.mem_map_of_mem he) back.name (by simp)
  refine ⟨_, by rw [ContentCache.popBack, hlast]; rfl, hinit, ?_⟩
  rw [hinit]
  refine ⟨hnames.1, fun name e => ?_, ?_⟩
  · dsimp only
    by_cases hname : name = back.name
    · subst hname
      simp only [Function.update_self, reduceCtorEq, false_iff]
      exact fun ⟨he, heq⟩ => hother e he heq
    · rw [Function.update_of_ne hname, h.byName, hseq, List.mem_append, List.mem_singleton]
      constructor
      · rintro ⟨he | rfl, rfl⟩
        · exact ⟨he, rfl⟩
        · exact absurd rfl hname
      · exact fun ⟨he, heq⟩ => ⟨.inl he, heq⟩
  · dsimp only
    rw [h.contentSize, subSize_eq hsize (by omega)]
    omega

/-- The loop stops before the container is empty, or with it. -/
theorem evict_spec (h : Indexed c) (hsize : totalSize c.sequence < 2 ^ 64) :
    ∃ c', ContentCache.evict c.sequence.length c = some c' ∧ Indexed c' ∧ Evicts c.sequence c'.sequence := by
  generalize hn : c.sequence.length = n
  induction n generalizing c with
  | zero =>
    obtain hnil := List.length_eq_zero_iff.1 hn
    have hzero : c.contentSize = 0 := by rw [h.contentSize, hnil]; rfl
    refine ⟨c, ?_, h, List.prefix_refl _, ?_, fun longer hl _ => hl.length_le⟩
    · rw [ContentCache.evict, hzero, if_neg (by decide)]
    · rw [← h.contentSize, hzero]
      decide
  | succ n ih =>
    rw [ContentCache.evict]
    by_cases hover : maxContentCacheSize < c.contentSize
    · obtain ⟨init, back, hseq⟩ : ∃ init back, c.sequence = init ++ [back] := by
        rcases List.eq_nil_or_concat' c.sequence with hnil | ⟨init, back, hseq⟩
        · rw [hnil] at hn
          cases hn
        · exact ⟨init, back, hseq⟩
      have htotal : totalSize c.sequence = totalSize init + back.size := by
        rw [hseq, totalSize_append, totalSize_cons]
        rfl
      obtain ⟨c₁, hpop, hseq₁, h₁⟩ := popBack_spec h hsize hseq
      have hlen : c₁.sequence.length = n := by
        rw [hseq, List.length_append, List.length_singleton] at hn
        rw [hseq₁]
        omega
      obtain ⟨c', hevict, h', hkept⟩ := ih h₁ (by rw [hseq₁]; omega) hlen
      rw [if_pos hover, hpop]
      refine ⟨c', hevict, h', ?_, hkept.fits, fun longer hl hfits => ?_⟩
      · rw [hseq]
        exact (hseq₁ ▸ hkept.isPrefix).trans (List.prefix_append _ _)
      · -- all of the entries together do not fit
        have hshort : longer <+: init := by
          rw [hseq] at hl
          refine (List.prefix_concat_iff.1 hl).resolve_left fun heq => ?_
          rw [h.contentSize, hseq] at hover
          rw [heq] at hfits
          omega
        exact hkept.shortest longer (by rw [hseq₁]; exact hshort) hfits
    · rw [if_neg hover]
      refine ⟨c, rfl, h, List.prefix_refl _, ?_, fun longer hl _ => hl.length_le⟩
      rw [← h.contentSize]
      omega

end Evict

/-! ## Calls -/

section Calls
variable {c : ContentCache} {calls : List Call}

theorem Indexed.not_mem (h : Indexed c) {path : String} (hfind : c.byName path = none) :
    path ∉ c.sequence.map ContentEntry.name := by
  intro hmem
  obtain ⟨e, he, hname⟩ := List.mem_map.1 hmem
  rw [(h.byName path e).2 ⟨he, hname⟩] at hfind
  cases hfind

theorem pushFront_indexed (h : Indexed c) {e : ContentEntry} (hfind : c.byName e.name = none)
    (hsize : c.contentSize + e.size < 2 ^ 64) :
    Indexed { c.pushFront e with contentSize := addSize c.contentSize e.size } := by
  rw [ContentCache.pushFront, hfind, addSize_eq hsize]
  refine ⟨List.nodup_cons.2 ⟨h.not_mem hfind, h.names⟩, fun name d => ?_, ?_⟩
  · show Function.update c.byName e.name (some e) name = some d ↔ d ∈ e :: c.sequence ∧ d.name = name
    rw [List.mem_cons]
    by_cases hname : name = e.name
    · subst hname
      rw [Function.update_self]
      constructor
      · rintro heq
        cases heq
        exact ⟨.inl rfl, rfl⟩
      · rintro ⟨rfl | hd, heq⟩
        · rfl
        · exact absurd (heq ▸ List.mem_map_of_mem hd) (h.not_mem hfind)
    · rw [Function.update_of_ne hname, h.byName]
      constructor
      · exact fun ⟨hd, heq⟩ => ⟨.inr hd, heq⟩
      · rintro ⟨rfl | hd, heq⟩
        · exact absurd heq.symm hname
        · exact ⟨hd, heq⟩
  · show c.contentSize + e.size = totalSize (e :: c.sequence)
    rw [totalSize_cons, h.contentSize, Nat.add_comm]

theorem insertNew_spec (h : Indexed c) (hbound : c.contentSize ≤ maxContentCacheSize) {e : ContentEntry}
    (hfind : c.byName e.name = none) :
    ∃ c', c.insertNew e = some (c', e) ∧ Indexed c' ∧ Evicts (e :: c.sequence) c'.sequence := by
  have hfits : e.size < 2 ^ 63 := e.buffer.fits
  have hsize : c.contentSize + e.size < 2 ^ 64 := by
    have : maxContentCacheSize < 2 ^ 63 := by decide
    omega
  have hpushed := pushFront_indexed h hfind hsize
  have hseq : (c.pushFront e).sequence = e :: c.sequence := by
    rw [ContentCache.pushFront, hfind]
    rfl
  obtain ⟨c', hevict, h', hkept⟩ := evict_spec hpushed (by rw [← hpushed.contentSize, addSize_eq hsize]; exact hsize)
  refine ⟨c', ?_, h', by rw [← hseq]; exact hkept⟩
  rw [ContentCache.insertNew, hfind]
  dsimp only
  rw [hevict]
  rfl

theorem splice_indexed (h : Indexed c) {e : ContentEntry} (he : e ∈ c.sequence) : Indexed (c.splice e) := by
  have hperm : c.sequence.Perm (e :: c.sequence.erase e) := List.perm_cons_erase he
  refine ⟨(hperm.map ContentEntry.name).nodup_iff.1 h.names, fun name d => ?_, ?_⟩
  · exact (h.byName name d).trans (and_congr_left fun _ => hperm.mem_iff)
  · exact h.contentSize.trans (totalSize_perm hperm)

/-- The other entries stay where they are. -/
theorem splice_sequence {e : ContentEntry} (he : e ∈ c.sequence) :
    ∃ before after, c.sequence = before ++ e :: after ∧ (c.splice e).sequence = e :: (before ++ after) := by
  obtain ⟨before, after, -, hseq, herase⟩ := List.exists_erase_eq he
  exact ⟨before, after, hseq, congrArg (e :: ·) herase⟩

theorem sublist_filter {names rec : List String} {path : String} (h : names.Sublist rec) (hpath : path ∉ names) :
    names.Sublist (rec.filter (· ≠ path)) := by
  have hsame : names.filter (· ≠ path) = names :=
    List.filter_eq_self.2 fun name hname => decide_eq_true fun heq => hpath (heq ▸ hname)
  rw [← hsame]
  exact h.filter _

/-- The other names stay in their order. -/
theorem erase_names (h : Indexed c) {e : ContentEntry} (he : e ∈ c.sequence) :
    e.name ∉ (c.sequence.erase e).map ContentEntry.name := by
  have hperm := (List.perm_cons_erase he).map ContentEntry.name
  exact (List.nodup_cons.1 (hperm.nodup_iff.1 h.names)).1

theorem step_lru (h : Lru calls c) (call : Call) : ∃ c', step c call = some c' ∧ Lru (call :: calls) c' := by
  cases call with
  | clear =>
    refine ⟨_, rfl, ⟨List.nodup_nil, fun name e => ?_, rfl⟩, Nat.zero_le _, List.nil_sublist _⟩
    simp [ContentCache.clear]
  | getOrCreate path file =>
    simp only [step, ContentCache.getOrCreate, ContentCache.find]
    cases hfind : c.byName path with
    | some e =>
      obtain ⟨he, rfl⟩ := (h.byName path e).1 hfind
      have hindexed := splice_indexed h.toIndexed he
      refine ⟨_, rfl, hindexed, h.bound, ?_⟩
      show (e.name :: (c.sequence.erase e).map ContentEntry.name).Sublist _
      exact (sublist_filter ((List.erase_sublist.map _).trans h.order) (erase_names h.toIndexed he)).cons_cons _
    | none =>
      cases file with
      | none => exact ⟨c, rfl, h.toIndexed, h.bound, (sublist_filter h.order (h.not_mem hfind)).cons _⟩
      | some buffer =>
        have hcreated : Indexed (c.create path buffer).1 := ⟨h.names, h.byName, h.contentSize⟩
        obtain ⟨c', hinsert, h', hkept⟩ := insertNew_spec (e := (c.create path buffer).2) hcreated h.bound hfind
        refine ⟨c', by simp only [hinsert]; rfl, h', ?_, ?_⟩
        · rw [h'.contentSize]
          exact hkept.fits
        · refine (hkept.isPrefix.sublist.map _).trans ?_
          exact (sublist_filter h.order (h.not_mem hfind)).cons_cons _

end Calls

/-! ## Main theorem -/

/-- **The cache is a size-bounded LRU** after any sequence of calls, none of which does what is not defined. A file that
is then read in makes it drop no more than has to go, one that is there moves to the front, and `clear` drops all. -/
theorem content_cache_lru (calls : List Call) :
    ∃ c, run step {} calls = some c ∧ Lru calls.reverse c ∧
      (∀ path buffer, c.find path = none → ∃ c' e, c.getOrCreate path (some buffer) = some (c', some e) ∧
        e.name = path ∧ e.buffer = buffer ∧ Evicts (e :: c.sequence) c'.sequence) ∧
      (∀ path file e, c.find path = some e → ∃ c' before after, c.getOrCreate path file = some (c', some e) ∧
        c.sequence = before ++ e :: after ∧ c'.sequence = e :: (before ++ after)) ∧
      ∃ c', step c .clear = some c' ∧ c'.sequence = [] := by
  obtain ⟨c, hrun, h⟩ : ∃ c, run step {} calls = some c ∧ Lru calls.reverse c := by
    induction calls using List.reverseRecOn with
    | nil => exact ⟨{}, rfl, ⟨List.nodup_nil, fun _ _ => by simp, rfl⟩, by decide, List.nil_sublist _⟩
    | append_singleton calls call ih =>
      obtain ⟨c, hrun, h⟩ := ih
      obtain ⟨c', hs, h'⟩ := step_lru h call
      exact ⟨c', by rw [run_concat, hrun]; exact hs, by rw [List.reverse_append]; exact h'⟩
  refine ⟨c, hrun, h, fun path buffer hfind => ?_, fun path file e hfind => ?_, _, rfl, rfl⟩
  · have hcreated : Indexed (c.create path buffer).1 := ⟨h.names, h.byName, h.contentSize⟩
    obtain ⟨c', hinsert, -, hkept⟩ := insertNew_spec (e := (c.create path buffer).2) hcreated h.bound hfind
    exact ⟨c', _, by simp only [ContentCache.getOrCreate, hfind, hinsert]; rfl, rfl, rfl, hkept⟩
  · obtain ⟨before, after, hseq, hsplice⟩ := splice_sequence ((h.byName path e).1 hfind).1
    exact ⟨c.splice e, before, after, by simp only [ContentCache.getOrCreate, hfind], hseq, hsplice⟩

end BuildPal.Scanner.Content
