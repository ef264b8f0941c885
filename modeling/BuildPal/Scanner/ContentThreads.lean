import BuildPal.Scanner.ContentCache
/-!
# The content cache with several threads

`getOrCreate` looks a file up under one lock and moves it to the front under
another. In between the entry may be dropped by another thread, and the iterator
to it is no longer valid. We say exactly in which runs none is dropped.
-/
open BuildPal.Lib

namespace BuildPal.Scanner.Content

abbrev ThreadId := Nat

/-- Where a thread is in `getOrCreate`, between two critical sections. -/
inductive Progress where
  /-- It holds an iterator to the entry, and no lock. -/
  | located (e : ContentEntry)
  /-- The file is not in the cache. -/
  | missing (path : String)
  /-- `ContentEntry::create` has read the file. -/
  | created (e : ContentEntry)
  deriving DecidableEq, Repr

/-- `isDefined`: no thread has done what is not defined. -/
structure Threads where
  cache : ContentCache := {}
  progress : ThreadId → Option Progress := fun _ => none
  isDefined : Bool := true

/-- What a thread does under one lock, or without any. -/
inductive Section where
  | find (t : ThreadId) (path : String)
  | create (t : ThreadId) (file : Option Buffer)
  | insertNew (t : ThreadId)
  | moveToFront (t : ThreadId)
  | clear
  deriving DecidableEq, Repr

namespace Threads
variable (s : Threads) (t : ThreadId)

def setProgress (p : Option Progress) : Threads := { s with progress := Function.update s.progress t p }

def find (path : String) : Threads :=
  s.setProgress t (some (match s.cache.find path with | some e => .located e | none => .missing path))

def create (path : String) : Option Buffer → Threads
  | none => s.setProgress t none
  | some buffer =>
    let r := s.cache.create path buffer
    { s with cache := r.1 }.setProgress t (some (.created r.2))

def insertNew (e : ContentEntry) : Threads :=
  match s.cache.insertNew e with
  | none => { s with isDefined := false }
  | some r => { s with cache := r.1 }.setProgress t none

/-- `content_.project<0>( iter )` and what follows, which is not defined if the entry is gone. -/
def moveToFront (e : ContentEntry) : Threads :=
  if e ∈ s.cache.sequence then { s with cache := s.cache.splice e }.setProgress t none
  else { s with isDefined := false }

end Threads

def threadStep (s : Threads) : Section → Option Threads
  | .find t path => if s.isDefined ∧ s.progress t = none then some (s.find t path) else none
  | .create t file =>
    match s.isDefined, s.progress t with
    | true, some (.missing path) => some (s.create t path file)
    | _, _ => none
  | .insertNew t =>
    match s.isDefined, s.progress t with
    | true, some (.created e) => some (s.insertNew t e)
    | _, _ => none
  | .moveToFront t =>
    match s.isDefined, s.progress t with
    | true, some (.located e) => some (s.moveToFront t e)
    | _, _ => none
  | .clear => if s.isDefined then some { s with cache := s.cache.clear } else none

/-- Every entry that a thread has located is still there. -/
structure Safe (s : Threads) : Prop where
  isDefined : s.isDefined = true
  located : ∀ t e, s.progress t = some (.located e) → e ∈ s.cache.sequence

/-- A file that is inserted leaves room for every entry that a thread has located, and for what was asked for after it;
and the cache is not cleared while there are such entries. -/
def Harmless (s : Threads) : Section → Prop
  | .insertNew t => ∀ e, s.progress t = some (.created e) → s.cache.find e.name = none →
    ∀ t' d, s.progress t' = some (.located d) → ∃ newer older, s.cache.sequence = newer ++ d :: older ∧
      totalSize (e :: (newer ++ [d])) ≤ maxContentCacheSize
  | .clear => ∀ t e, s.progress t ≠ some (.located e)
  | .find .. | .create .. | .moveToFront _ => True

/-! ## Steps -/

/-- The cache is as it has to be, whatever the threads do. -/
structure Kept (c : ContentCache) : Prop extends Indexed c where
  bound : c.contentSize ≤ maxContentCacheSize

/-- What stays of the entries is what fits together with everything newer. -/
theorem Evicts.mem_iff {e d : ContentEntry} {entries kept : List ContentEntry} (h : Evicts (e :: entries) kept)
    (hnew : e ∉ entries) (hd : d ∈ entries) :
    d ∈ kept ↔ ∃ newer older, entries = newer ++ d :: older ∧
      totalSize (e :: (newer ++ [d])) ≤ maxContentCacheSize := by
  obtain ⟨evicted, hsplit⟩ := h.isPrefix
  constructor
  · intro hmem
    obtain ⟨before, after, hkept⟩ := List.append_of_mem hmem
    cases before with
    | nil =>
      rw [hkept] at hsplit
      obtain ⟨rfl, -⟩ := List.cons.inj hsplit
      exact absurd hd hnew
    | cons first newer =>
      rw [hkept] at hsplit
      obtain ⟨rfl, htail⟩ := List.cons.inj hsplit
      refine ⟨newer, after ++ evicted, by rw [← htail]; simp, ?_⟩
      have hfits := h.fits
      rw [hkept] at hfits
      have htotal : totalSize (first :: newer ++ d :: after) = totalSize (first :: (newer ++ [d])) + totalSize after := by
        rw [← totalSize_append]
        simp
      omega
  · rintro ⟨newer, older, rfl, hfits⟩
    have hpre : e :: (newer ++ [d]) <+: e :: (newer ++ d :: older) := ⟨older, by simp⟩
    have hlen := h.shortest _ hpre hfits
    have hin : e :: (newer ++ [d]) <+: kept := List.prefix_of_prefix_length_le hpre h.isPrefix hlen
    exact hin.subset (by simp)

section Step
variable {s s' : Threads} {t : ThreadId}

/-- One thread goes on to something that is no located entry, while the entries stay. -/
theorem Safe.setProgress {c : ContentCache} {p : Option Progress} (h : Safe s)
    (hsame : ∀ e ∈ s.cache.sequence, e ∈ c.sequence) (hp : ∀ e, p = some (.located e) → e ∈ c.sequence) :
    Safe ({ s with cache := c }.setProgress t p) := by
  refine ⟨h.isDefined, fun t' e he => ?_⟩
  by_cases ht : t' = t
  · subst ht
    exact hp e (by simpa [Threads.setProgress] using he)
  · refine hsame e (h.located t' e ?_)
    simpa [Threads.setProgress, Function.update_of_ne ht] using he

/-- Reading a file into the cache keeps those located entries that there is room for. -/
theorem insertNew_safe {e : ContentEntry} (hk : Kept s.cache) (h : Safe s) (ht : s.progress t = some (.created e)) :
    Kept (s.insertNew t e).cache ∧ (Safe (s.insertNew t e) ↔ Harmless s (.insertNew t)) := by
  rw [Threads.insertNew]
  cases hfind : s.cache.byName e.name with
  | some found =>
    have hinsert : s.cache.insertNew e = some (s.cache, found) := by rw [ContentCache.insertNew, hfind]
    rw [hinsert]
    refine ⟨hk, iff_of_true (h.setProgress (fun _ he => he) (fun _ he => by cases he)) fun e' he' hnone => ?_⟩
    obtain rfl : e = e' := by simpa [ht] using he'
    rw [ContentCache.find, hfind] at hnone
    cases hnone
  | none =>
    obtain ⟨c', hinsert, hindexed, hevicts⟩ := insertNew_spec hk.toIndexed hk.bound hfind
    have hnew : e ∉ s.cache.sequence := fun he => hk.not_mem hfind (List.mem_map_of_mem he)
    rw [hinsert]
    refine ⟨⟨hindexed, hindexed.contentSize.le.trans hevicts.fits⟩, ?_⟩
    have hothers : ∀ t' d, Function.update s.progress t none t' = some (.located d) ↔
        s.progress t' = some (.located d) := by
      intro t' d
      by_cases htt : t' = t
      · subst htt
        simp [ht]
      · rw [Function.update_of_ne htt]
    constructor
    · intro hsafe e' he' _ t' d hd
      obtain rfl : e = e' := by simpa [ht] using he'
      exact (hevicts.mem_iff hnew (h.located t' d hd)).1 (hsafe.located t' d ((hothers t' d).2 hd))
    · intro hroom
      refine ⟨h.isDefined, fun t' d hd => ?_⟩
      have hd' := (hothers t' d).1 hd
      exact (hevicts.mem_iff hnew (h.located t' d hd')).2 (hroom e ht hfind t' d hd')

theorem clear_safe (h : Safe s) : Safe { s with cache := s.cache.clear } ↔ Harmless s .clear := by
  constructor
  · intro hsafe t e he
    cases hsafe.located t e he
  · exact fun hnone => ⟨h.isDefined, fun t e he => absurd he (hnone t e)⟩

theorem step_safe {e : Section} (hk : Kept s.cache) (h : Safe s) (hs : threadStep s e = some s') :
    Kept s'.cache ∧ (Safe s' ↔ Harmless s e) := by
  cases e with
  | find t path =>
    simp only [threadStep] at hs
    split at hs
    · cases hs
      refine ⟨hk, iff_of_true (h.setProgress (fun _ he => he) fun e he => ?_) trivial⟩
      cases hfind : s.cache.find path with
      | none =>
        rw [hfind] at he
        cases he
      | some d =>
        rw [hfind] at he
        cases he
        exact ((hk.byName path e).1 hfind).1
    · cases hs
  | create t file =>
    simp only [threadStep] at hs
    split at hs
    · cases hs
      cases file with
      | none => exact ⟨hk, iff_of_true (h.setProgress (fun _ he => he) fun _ he => by cases he) trivial⟩
      | some buffer =>
        exact ⟨⟨⟨hk.names, hk.byName, hk.contentSize⟩, hk.bound⟩,
          iff_of_true (h.setProgress (fun _ he => he) fun _ he => by cases he) trivial⟩
    · cases hs
  | insertNew t =>
    simp only [threadStep] at hs
    split at hs
    · next ht =>
      cases hs
      exact insertNew_safe hk h ht
    · cases hs
  | moveToFront t =>
    simp only [threadStep] at hs
    split at hs
    · next e _ ht =>
      cases hs
      have he := h.located t e ht
      have hperm : s.cache.sequence.Perm (e :: s.cache.sequence.erase e) := List.perm_cons_erase he
      rw [Threads.moveToFront, if_pos he]
      exact ⟨⟨splice_indexed hk.toIndexed he, hk.bound⟩,
        iff_of_true (h.setProgress (fun d hd => hperm.mem_iff.1 hd) fun _ hd => by cases hd) trivial⟩
    · cases hs
  | clear =>
    simp only [threadStep] at hs
    split at hs
    · cases hs
      exact ⟨⟨⟨List.nodup_nil, fun _ _ => by simp [ContentCache.clear], rfl⟩, Nat.zero_le _⟩, clear_safe h⟩
    · cases hs

end Step

/-! ## Main theorem -/

theorem safe_init : Kept ({} : Threads).cache ∧ Safe {} :=
  ⟨⟨⟨List.nodup_nil, fun _ _ => by simp, rfl⟩, by decide⟩, rfl, fun _ _ h => by cases h⟩

theorem harmless_of_stuck {s : Threads} (h : Safe s) {e : Section} (hs : threadStep s e = none) : Harmless s e := by
  cases e with
  | insertNew t =>
    intro d hd
    rw [threadStep, h.isDefined, hd] at hs
    cases hs
  | clear =>
    rw [threadStep, if_pos h.isDefined] at hs
    cases hs
  | find | create | moveToFront => trivial

/-- **A hit survives** in a run, up to the moment at which it is moved to the front, if and only if no section of the run
drops an entry that a thread has located. -/
theorem hit_survives (sections : List Section) :
    (∀ pre post s, sections = pre ++ post → run threadStep {} pre = some s → Safe s) ↔
      Meets threadStep Harmless {} sections :=
  states_iff_meets threadStep (I := fun s => Kept s.cache ∧ Safe s) (fun _ h => h.2)
    (fun _ _ _ h hs => ⟨(step_safe h.1 h.2 hs).2, fun hsafe => ⟨(step_safe h.1 h.2 hs).1, hsafe⟩⟩)
    (fun _ _ h hs => harmless_of_stuck h.2 hs) sections {} safe_init

/-- A thread locates a file; before it has moved it to the front, another one has read in a file that leaves no room. -/
theorem located_entry_evicted :
    ∃ s, run threadStep {} [.find 0 "a.h", .create 0 (some ⟨1, by decide⟩), .insertNew 0, .find 0 "a.h", .find 1 "b.h",
        .create 1 (some ⟨maxContentCacheSize, by decide⟩), .insertNew 1] = some s ∧ ¬ Safe s ∧
      (s.moveToFront 0 ⟨0, "a.h", ⟨1, by decide⟩⟩).isDefined = false := by
  refine ⟨_, rfl, fun h => ?_, rfl⟩
  have hmem := h.located 0 ⟨0, "a.h", ⟨1, by decide⟩⟩ rfl
  revert hmem
  decide

/-! ## One thread -/

/-- The sections that a thread goes through when no other one comes in between. -/
def alone (t : ThreadId) (path : String) (c : ContentCache) (file : Option Buffer) : List Section :=
  match c.find path with
  | some _ => [.find t path, .moveToFront t]
  | none =>
    match file with
    | none => [.find t path, .create t none]
    | some buffer => [.find t path, .create t (some buffer), .insertNew t]

theorem progress_back {s : Threads} {t : ThreadId} (hidle : s.progress t = none) (p : Option Progress) :
    Function.update (Function.update s.progress t p) t none = s.progress := by
  funext t'
  by_cases ht : t' = t
  · rw [ht, Function.update_self, hidle]
  · rw [Function.update_of_ne ht, Function.update_of_ne ht]

/-- They come to `getOrCreate`. -/
theorem alone_eq {s : Threads} {t : ThreadId} (hk : Kept s.cache) (hdef : s.isDefined = true)
    (hidle : s.progress t = none) (path : String) (file : Option Buffer) :
    ∃ c answer, s.cache.getOrCreate path file = some (c, answer) ∧
      run threadStep s (alone t path s.cache file) = some { s with cache := c } := by
  have hfound : threadStep s (.find t path) = some (s.find t path) := if_pos ⟨hdef, hidle⟩
  have hback := progress_back hidle
  cases hfind : s.cache.find path with
  | some e =>
    have he : e ∈ s.cache.sequence := ((hk.byName path e).1 hfind).1
    refine ⟨s.cache.splice e, some e, by simp only [ContentCache.getOrCreate, hfind], ?_⟩
    simp only [alone, hfind, run, hfound, Option.bind_some]
    simp [threadStep, Threads.find, Threads.setProgress, Threads.moveToFront, hfind, hdef, he, hback]
  | none =>
    cases file with
    | none =>
      refine ⟨s.cache, none, by simp only [ContentCache.getOrCreate, hfind], ?_⟩
      simp only [alone, hfind, run, hfound, Option.bind_some]
      simp [threadStep, Threads.find, Threads.setProgress, Threads.create, hfind, hdef, hback]
    | some buffer =>
      have hcreated : Indexed (s.cache.create path buffer).1 := ⟨hk.names, hk.byName, hk.contentSize⟩
      obtain ⟨c', hinsert, -, -⟩ := insertNew_spec (e := (s.cache.create path buffer).2) hcreated hk.bound hfind
      refine ⟨c', some (s.cache.create path buffer).2, ?_, ?_⟩
      · simp only [ContentCache.getOrCreate, hfind, hinsert]
        rfl
      · simp only [alone, hfind, run, hfound, Option.bind_some]
        simp [threadStep, Threads.find, Threads.setProgress, Threads.create, Threads.insertNew, hfind, hdef, hback,
          hinsert]

end BuildPal.Scanner.Content
