import Mathlib.Algebra.Ring.Nat
import BuildPal.Scanner.CacheTree
/-!
# The header cache

`Cache` of `headerCache_.hpp` with its entries, which live as long as something
refers to them: the container `cacheEntries_`, the table of recent hits
`tempLastTimeHit_`, or a tracker. An entry can be found as long as it lives.

The unsigned integers of the code are natural numbers modulo their size.
-/
open BuildPal.Lib

namespace BuildPal.Scanner.HeaderCache

/-- The address of a `MemoryBuffer`. -/
abbrev Buffer := Nat

abbrev Key := FileId × Nat

/-- `tree` is the node `tree_` of the root for `key`. `added` and `returned` are not in the code: when the entry was
made, and when `findEntry` returned it last. -/
structure CacheEntry where
  key : Key
  tree : List MacroValue
  /-- The buffers of `headers_`. -/
  buffers : List Buffer
  lastTimeHit : Nat
  added : Nat
  returned : Option Nat := none
  deriving DecidableEq, Repr

/-- `entries` are the entries that are not deleted, `held` the references of trackers. `invalidated` is not in the
code: the buffers `invalidate` was called for. -/
structure Cache where
  cacheContainer : Key → Trie MacroName MacroValue EntryId := fun _ => .empty
  entries : EntryId → Option CacheEntry := fun _ => none
  cacheEntries : List EntryId := []
  tempLastTimeHit : EntryId → Option Nat := fun _ => none
  held : List EntryId := []
  counter : Nat := 0
  hits : Nat := 0
  misses : Nat := 0
  invalidated : List Buffer := []

def cacheCleanupPeriod : Nat := 1024 * 2

def historyLength : Nat := 8 * cacheCleanupPeriod

def cutoffTime (currentTime : Nat) : Nat :=
  if currentTime > historyLength then currentTime - historyLength else currentTime / 5

namespace Cache
variable (s : Cache)

def time : Nat := s.hits + s.misses

def currentTime : Nat := s.time % 2 ^ 32

def lastTimeHit (e : EntryId) : Nat := ((s.entries e).map (·.lastTimeHit)).getD 0

/-! ## References -/

def Referenced (e : EntryId) : Prop := e ∈ s.cacheEntries ∨ (s.tempLastTimeHit e).isSome ∨ e ∈ s.held

instance (e : EntryId) : Decidable (s.Referenced e) := by
  unfold Referenced
  infer_instance

/-- `~CacheEntry`. -/
def destroy (e : EntryId) (x : CacheEntry) : Cache :=
  { s with
    cacheContainer := Function.update s.cacheContainer x.key ((s.cacheContainer x.key).detach x.tree)
    entries := Function.update s.entries e none }

/-- Deletes the entry if the last reference is gone. -/
def decRef (e : EntryId) : Cache :=
  match s.entries e with
  | some x => if s.Referenced e then s else s.destroy e x
  | none => s

/-- After references have gone. -/
def release : Cache := (List.range s.counter).foldl decRef s

/-! ## Operations -/

/-- There is an entry for the list. -/
def Live (key : Key) (used : List Macro) : Prop := ((s.cacheContainer key).insert s.counter used).2.2 ≠ s.counter

instance (key : Key) (used : List Macro) : Decidable (s.Live key used) := by
  unfold Live
  infer_instance

/-- The entry is stamped with half the time. -/
def newEntry (key : Key) (used : List Macro) (buffers : List Buffer) : CacheEntry :=
  { key, tree := used.map (·.2), buffers, lastTimeHit := s.time % 2 ^ 64 / 2, added := s.time }

/-- The list of used macros has the header's own `#pragma once` macro at least. -/
def addEntry (key : Key) (first : Macro) (rest : List Macro) (buffers : List Buffer) : EntryId × Cache :=
  let r := (s.cacheContainer key).insert s.counter (first :: rest)
  let cacheContainer := Function.update s.cacheContainer key r.1
  if s.Live key (first :: rest) then (r.2.2, { s with cacheContainer, held := r.2.2 :: s.held })
  else
    (s.counter,
      { s with
        cacheContainer
        entries := Function.update s.entries s.counter (some (s.newEntry key (first :: rest) buffers))
        cacheEntries := s.cacheEntries ++ [s.counter]
        held := s.counter :: s.held
        counter := s.counter + 1 })

/-- The stamp of an entry that was hit since the last time. -/
def updateHit (e : EntryId) (x : CacheEntry) : CacheEntry :=
  if e ∈ s.cacheEntries then { x with lastTimeHit := (s.tempLastTimeHit e).getD x.lastTimeHit } else x

def updateHits : Cache :=
  { s with
    entries := fun e => (s.entries e).map (s.updateHit e)
    tempLastTimeHit := fun _ => none }

/-- `index.erase`, of everything before the cutoff. -/
def evict : Cache :=
  { s with cacheEntries := s.cacheEntries.filter fun e => cutoffTime s.currentTime ≤ s.lastTimeHit e }

def maintenance : Cache :=
  if s.currentTime % cacheCleanupPeriod ≠ 0 then s else s.updateHits.evict.release

/-- The entry in the tree for the macros. -/
def found (key : Key) (σ : MacroState) : Option EntryId := ((s.cacheContainer key).find σ).map (·.2)

/-- `findEntry` without the maintenance at its end. -/
def lookup (key : Key) (σ : MacroState) : Option EntryId × Cache :=
  match s.found key σ with
  | some e =>
    (some e,
      { s with
        entries := Function.update s.entries e ((s.entries e).map fun x => { x with returned := some s.time })
        tempLastTimeHit := Function.update s.tempLastTimeHit e (some s.currentTime)
        held := e :: s.held
        hits := s.hits + 1 })
  | none => (none, { s with misses := s.misses + 1 })

def findEntry (key : Key) (σ : MacroState) : Option EntryId × Cache :=
  ((s.lookup key σ).1, (s.lookup key σ).2.maintenance)

/-- `usesBuffer`. -/
def Uses (e : EntryId) (buffer : Buffer) : Prop := ∃ x, s.entries e = some x ∧ buffer ∈ x.buffers

instance (e : EntryId) (buffer : Buffer) : Decidable (s.Uses e buffer) :=
  decidable_of_iff (∃ x ∈ s.entries e, buffer ∈ x.buffers) (by simp [Uses])

def invalidate (buffer : Buffer) : Cache :=
  release { s with
    cacheEntries := s.cacheEntries.filter fun e => ¬ s.Uses e buffer
    invalidated := buffer :: s.invalidated }

end Cache

inductive Event where
  | findEntry (key : Key) (σ : MacroState)
  | addEntry (key : Key) (first : Macro) (rest : List Macro) (buffers : List Buffer)
  | maintenance
  | invalidate (buffer : Buffer)
  /-- A tracker gives a reference up. -/
  | release (e : EntryId)

def step (s : Cache) : Event → Option Cache
  | .findEntry key σ => some (s.findEntry key σ).2
  | .addEntry key first rest buffers => some (s.addEntry key first rest buffers).2
  | .maintenance => some s.maintenance
  | .invalidate buffer => some (s.invalidate buffer)
  | .release e => if e ∈ s.held then some { s with held := s.held.erase e }.release else none

/-! ## Entries and trees -/

/-- Every entry in a tree is alive, and in its place. -/
structure Trees (s : Cache) : Prop where
  proper : ∀ key, (s.cacheContainer key).Proper
  placed : ∀ key path e, (s.cacheContainer key).Holds path e →
    ∃ x, s.entries e = some x ∧ x.key = key ∧ x.tree = path.map (·.2)
  tree : ∀ e x, s.entries e = some x → x.tree ≠ []
  fresh : ∀ e x, s.entries e = some x → e < s.counter

section Trees
variable {s : Cache} {e : EntryId} {x : CacheEntry}

theorem trees_init : Trees {} where
  proper _ := Trie.empty_proper
  placed _ path e h := (Trie.not_empty_holds path e h).elim
  tree := by rintro e x ⟨⟩
  fresh := by rintro e x ⟨⟩

theorem update_none {entries : EntryId → Option CacheEntry} {e' : EntryId} {y : CacheEntry}
    (h : Function.update entries e none e' = some y) : e' ≠ e ∧ entries e' = some y := by
  by_cases he : e' = e
  · subst he
    rw [Function.update_self] at h
    cases h
  · rw [Function.update_of_ne he] at h
    exact ⟨he, h⟩

theorem update_some {entries : EntryId → Option CacheEntry} {e' : EntryId} {x y : CacheEntry}
    (h : Function.update entries e (some x) e' = some y) : e' = e ∧ y = x ∨ e' ≠ e ∧ entries e' = some y := by
  by_cases he : e' = e
  · subst he
    rw [Function.update_self] at h
    exact .inl ⟨rfl, (Option.some.inj h).symm⟩
  · rw [Function.update_of_ne he] at h
    exact .inr ⟨he, h⟩

theorem Trees.destroy (h : Trees s) (hx : s.entries e = some x) : Trees (s.destroy e x) where
  proper key := by
    by_cases hkey : key = x.key
    · subst hkey
      simpa [Cache.destroy] using Trie.detach_proper _ (h.proper x.key)
    · simpa [Cache.destroy, hkey] using h.proper key
  placed key path e' hheld := by
    have hne : ∀ y, s.entries e' = some y → e' ≠ e → (s.destroy e x).entries e' = some y := by
      intro y hy he
      simpa [Cache.destroy, he] using hy
    by_cases hkey : key = x.key
    · subst hkey
      obtain ⟨v, answers, htree⟩ := List.exists_cons_of_ne_nil (h.tree e x hx)
      simp only [Cache.destroy, Function.update_self, htree] at hheld
      obtain ⟨hold, hpath⟩ := Trie.detach_holds (h.proper x.key) hheld
      obtain ⟨y, hy, hykey, hytree⟩ := h.placed _ _ _ hold
      refine ⟨y, hne y hy ?_, hykey, hytree⟩
      rintro rfl
      obtain rfl : y = x := Option.some.inj (hy.symm.trans hx)
      exact hpath (hytree.symm.trans htree)
    · simp only [Cache.destroy, Function.update_of_ne hkey] at hheld
      obtain ⟨y, hy, hykey, hytree⟩ := h.placed _ _ _ hheld
      refine ⟨y, hne y hy ?_, hykey, hytree⟩
      rintro rfl
      obtain rfl : y = x := Option.some.inj (hy.symm.trans hx)
      exact hkey hykey.symm
  tree e' y hy := h.tree e' y (update_none hy).2
  fresh e' y hy := h.fresh e' y (update_none hy).2

/-- What only concerns the references does not change when entries go. -/
theorem decRef_same {α : Type} {f : Cache → α} (hf : ∀ s e x, f (Cache.destroy s e x) = f s) (s : Cache) (e : EntryId) :
    f (s.decRef e) = f s := by
  unfold Cache.decRef
  split
  · split
    · rfl
    · exact hf _ _ _
  · rfl

theorem foldl_decRef_same {α : Type} {f : Cache → α} (hf : ∀ s e x, f (Cache.destroy s e x) = f s) (l : List EntryId) :
    ∀ s : Cache, f (l.foldl Cache.decRef s) = f s := by
  induction l with
  | nil => exact fun _ => rfl
  | cons e l ih => exact fun s => (ih (s.decRef e)).trans (decRef_same hf s e)

theorem release_same {α : Type} {f : Cache → α} (hf : ∀ s e x, f (Cache.destroy s e x) = f s) (s : Cache) :
    f s.release = f s := foldl_decRef_same hf _ s

@[simp] theorem release_cacheEntries : s.release.cacheEntries = s.cacheEntries := release_same (fun _ _ _ => rfl) s
@[simp] theorem release_tempLastTimeHit : s.release.tempLastTimeHit = s.tempLastTimeHit :=
  release_same (fun _ _ _ => rfl) s
@[simp] theorem release_held : s.release.held = s.held := release_same (fun _ _ _ => rfl) s
@[simp] theorem release_counter : s.release.counter = s.counter := release_same (fun _ _ _ => rfl) s
@[simp] theorem release_time : s.release.time = s.time := release_same (fun _ _ _ => rfl) s
@[simp] theorem release_invalidated : s.release.invalidated = s.invalidated := release_same (fun _ _ _ => rfl) s

theorem decRef_entries (e e' : EntryId) :
    (s.decRef e).entries e' = if e' = e ∧ ¬ s.Referenced e' then none else s.entries e' := by
  unfold Cache.decRef
  cases hx : s.entries e with
  | none =>
    by_cases he : e' = e
    · subst he
      simp [hx]
    · simp [he]
  | some x =>
    by_cases hr : s.Referenced e
    · by_cases he : e' = e
      · subst he
        simp [hr]
      · simp [hr, he]
    · by_cases he : e' = e
      · subst he
        simp [hr, Cache.destroy]
      · simp [hr, he, Cache.destroy]

theorem foldl_decRef_entries (l : List EntryId) (e : EntryId) : ∀ s : Cache,
    (l.foldl Cache.decRef s).entries e = if e ∈ l ∧ ¬ s.Referenced e then none else s.entries e := by
  induction l with
  | nil => simp
  | cons a l ih =>
    intro s
    have href : (s.decRef a).Referenced e = s.Referenced e :=
      decRef_same (f := fun s => s.Referenced e) (fun _ _ _ => rfl) s a
    simp only [List.foldl_cons, ih, href, decRef_entries]
    by_cases hr : s.Referenced e
    · simp [hr]
    · by_cases he : e = a
      · subst he
        simp [hr]
      · simp [hr, he]

/-- What is left are the entries something refers to. -/
theorem release_entries (h : Trees s) (e : EntryId) :
    s.release.entries e = if s.Referenced e then s.entries e else none := by
  rw [Cache.release, foldl_decRef_entries]
  by_cases hr : s.Referenced e
  · simp [hr]
  · by_cases he : e ∈ List.range s.counter
    · simp [hr, he]
    · cases hx : s.entries e with
      | none => simp
      | some x => exact absurd (List.mem_range.2 (h.fresh e x hx)) he

theorem release_some (h : Trees s) : s.release.entries e = some x ↔ s.entries e = some x ∧ s.Referenced e := by
  rw [release_entries h]
  by_cases hr : s.Referenced e
  · simp [hr]
  · simp [hr]

theorem Trees.decRef (h : Trees s) (e : EntryId) : Trees (s.decRef e) := by
  unfold Cache.decRef
  split
  · rename_i x hx
    split
    · exact h
    · exact h.destroy hx
  · exact h

theorem Trees.release (h : Trees s) : Trees s.release := by
  have hall : ∀ (l : List EntryId) (s : Cache), Trees s → Trees (l.foldl Cache.decRef s) := by
    intro l
    induction l with
    | nil => exact fun _ h => h
    | cons e l ih => exact fun s h => ih _ (h.decRef e)
  exact hall _ s h

/-- References and stamps do not matter to the trees. -/
theorem Trees.of_entries (h : Trees s) {s' : Cache} (htrees : s'.cacheContainer = s.cacheContainer)
    (hcounter : s'.counter = s.counter)
    (hentries : ∀ e, (s'.entries e).map (fun x => (x.key, x.tree)) = (s.entries e).map fun x => (x.key, x.tree)) :
    Trees s' := by
  have hback : ∀ e y, s'.entries e = some y → ∃ x, s.entries e = some x ∧ x.key = y.key ∧ x.tree = y.tree := by
    intro e y hy
    have heq := hentries e
    rw [hy, Option.map_some] at heq
    obtain ⟨x, hx, hxy⟩ := Option.map_eq_some_iff.1 heq.symm
    exact ⟨x, hx, (Prod.mk.inj hxy).1, (Prod.mk.inj hxy).2⟩
  constructor
  · rw [htrees]
    exact h.proper
  · intro key path e hheld
    rw [htrees] at hheld
    obtain ⟨x, hx, hkey, htree⟩ := h.placed key path e hheld
    have heq := hentries e
    rw [hx, Option.map_some] at heq
    obtain ⟨y, hy, hxy⟩ := Option.map_eq_some_iff.1 heq
    exact ⟨y, hy, (Prod.mk.inj hxy).1.trans hkey, (Prod.mk.inj hxy).2.trans htree⟩
  · intro e y hy
    obtain ⟨x, hx, -, htree⟩ := hback e y hy
    rw [← htree]
    exact h.tree e x hx
  · intro e y hy
    obtain ⟨x, hx, -⟩ := hback e y hy
    rw [hcounter]
    exact h.fresh e x hx

theorem Trees.addEntry (h : Trees s) (key : Key) (first : Macro) (rest : List Macro) (buffers : List Buffer) :
    Trees (s.addEntry key first rest buffers).2 := by
  have hproper := Trie.insert_proper (e := s.counter) (first :: rest) _ (h.proper key)
  have hholds := fun path e => Trie.insert_holds (e := s.counter) (first :: rest) _ path e (h.proper key)
  have hproper' : ∀ key', (Function.update s.cacheContainer key
      ((s.cacheContainer key).insert s.counter (first :: rest)).1 key').Proper := by
    intro key'
    by_cases hkey : key' = key
    · subst hkey
      rwa [Function.update_self]
    · rw [Function.update_of_ne hkey]
      exact h.proper key'
  unfold Cache.addEntry
  dsimp only
  -- A live node keeps the entry it has; any other gets the new one, under the next number.
  by_cases hlive : s.Live key (first :: rest)
  · rw [if_pos hlive]
    refine ⟨hproper', fun key' path e hheld => ?_, h.tree, h.fresh⟩
    by_cases hkey : key' = key
    · subst hkey
      simp only [Function.update_self, hholds] at hheld
      rcases hheld with hheld | ⟨rfl, rfl⟩
      · exact h.placed _ _ _ hheld
      · rcases Trie.insert_entry (first :: rest) _ (h.proper key') with heq | hheld
        · exact absurd heq hlive
        · exact h.placed _ _ _ hheld
    · simp only [Function.update_of_ne hkey] at hheld
      exact h.placed _ _ _ hheld
  · rw [if_neg hlive]
    have hnew : ((s.cacheContainer key).insert s.counter (first :: rest)).2.2 = s.counter := not_not.1 hlive
    have hold : ∀ e x, s.entries e = some x → e ≠ s.counter := fun e x hx => Nat.ne_of_lt (h.fresh e x hx)
    refine ⟨hproper', fun key' path e hheld => ?_, fun e x hx => ?_, fun e x hx => ?_⟩
    · have hbefore : (s.cacheContainer key').Holds path e → ∃ x,
          Function.update s.entries s.counter (some (s.newEntry key (first :: rest) buffers)) e = some x ∧
            x.key = key' ∧ x.tree = path.map (·.2) := by
        intro hheld
        obtain ⟨x, hx, hxkey⟩ := h.placed _ _ _ hheld
        refine ⟨x, ?_, hxkey⟩
        rwa [Function.update_of_ne (hold e x hx)]
      by_cases hkey : key' = key
      · subst hkey
        simp only [Function.update_self, hholds] at hheld
        rcases hheld with hheld | ⟨rfl, rfl⟩
        · exact hbefore hheld
        · rw [hnew]
          exact ⟨_, Function.update_self _ _ _, rfl, (Trie.insert_answers _ _).symm⟩
      · simp only [Function.update_of_ne hkey] at hheld
        exact hbefore hheld
    · rcases update_some hx with ⟨-, rfl⟩ | ⟨-, hx⟩
      · simp [Cache.newEntry]
      · exact h.tree e x hx
    · rcases update_some hx with ⟨rfl, -⟩ | ⟨-, hx⟩
      · exact Nat.lt_succ_self _
      · exact Nat.lt_succ_of_lt (h.fresh e x hx)

theorem Trees.found (h : Trees s) {key : Key} {σ : MacroState} (hfound : s.found key σ = some e) :
    ∃ x, s.entries e = some x := by
  obtain ⟨⟨path, e'⟩, hfind, rfl⟩ := Option.map_eq_some_iff.1 hfound
  obtain ⟨x, hx, -⟩ := h.placed _ _ _ (Trie.find_sound _ path e' hfind).1
  exact ⟨x, hx⟩

end Trees

/-! ## Stamps -/

/-- When the entry was added or returned last. -/
def CacheEntry.lastUse (x : CacheEntry) : Nat := max x.added (x.returned.getD 0)

/-- The stamp of an entry or the table of recent hits says when the entry was returned last. -/
structure Stamped (s : Cache) (e : EntryId) (x : CacheEntry) : Prop where
  stamp : x.lastTimeHit ≤ x.lastUse
  returned : ∀ t, x.returned = some t → t ≤ s.time
  hit : ∀ t, x.returned = some t → s.tempLastTimeHit e = some (t % 2 ^ 32) ∨
    s.tempLastTimeHit e = none ∧ (e ∈ s.cacheEntries → x.lastTimeHit = t % 2 ^ 32)
  temp : ∀ t', s.tempLastTimeHit e = some t' → ∃ t, x.returned = some t ∧ t' = t % 2 ^ 32

/-- What is true of the cache at any time between the operations. -/
structure Kept (s : Cache) : Prop where
  trees : Trees s
  referenced : ∀ e x, s.entries e = some x → s.Referenced e
  stamped : ∀ e x, s.entries e = some x → Stamped s e x
  index : ∀ e ∈ s.cacheEntries, ∃ x, s.entries e = some x
  temp : ∀ e, (s.tempLastTimeHit e).isSome → e < s.counter

section Steps
variable {s s' : Cache} {e : EntryId} {x : CacheEntry} {key : Key} {σ : MacroState}

theorem kept_init : Kept {} where
  trees := trees_init
  referenced := by rintro e x ⟨⟩
  stamped := by rintro e x ⟨⟩
  index := by simp
  temp := by simp

/-- Giving references up, when the rest is as it should be. -/
theorem Kept.of_release (htrees : Trees s) (hstamped : ∀ e x, s.entries e = some x → Stamped s e x)
    (hindex : ∀ e ∈ s.cacheEntries, ∃ x, s.entries e = some x)
    (htemp : ∀ e, (s.tempLastTimeHit e).isSome → e < s.counter) : Kept s.release where
  trees := htrees.release
  referenced e x hx := by
    simpa [Cache.Referenced] using ((release_some htrees).1 hx).2
  stamped e x hx := by
    have h := hstamped e x ((release_some htrees).1 hx).1
    exact ⟨h.stamp, by simpa using h.returned, by simpa using h.hit, by simpa using h.temp⟩
  index e he := by
    rw [release_cacheEntries] at he
    obtain ⟨x, hx⟩ := hindex e he
    exact ⟨x, (release_some htrees).2 ⟨hx, .inl he⟩⟩
  temp e he := by
    rw [release_tempLastTimeHit] at he
    rw [release_counter]
    exact htemp e he

/-- A reference more. -/
theorem Kept.hold (h : Kept s) (e : EntryId) : Kept { s with held := e :: s.held } where
  trees := h.trees.of_entries rfl rfl fun _ => rfl
  referenced e' x hx := by
    rcases h.referenced e' x hx with hr | hr | hr
    · exact .inl hr
    · exact .inr (.inl hr)
    · exact .inr (.inr (List.mem_cons_of_mem _ hr))
  stamped e' x hx := ⟨(h.stamped e' x hx).stamp, (h.stamped e' x hx).returned, (h.stamped e' x hx).hit,
    (h.stamped e' x hx).temp⟩
  index := h.index
  temp := h.temp

theorem Kept.addEntry (h : Kept s) (key : Key) (first : Macro) (rest : List Macro) (buffers : List Buffer) :
    Kept (s.addEntry key first rest buffers).2 := by
  have htrees := h.trees.addEntry key first rest buffers
  unfold Cache.addEntry at htrees ⊢
  dsimp only at htrees ⊢
  by_cases hlive : s.Live key (first :: rest)
  · rw [if_pos hlive] at htrees ⊢
    have hheld := h.hold ((s.cacheContainer key).insert s.counter (first :: rest)).2.2
    exact ⟨htrees, hheld.referenced, fun e x hx => ⟨(h.stamped e x hx).stamp, (h.stamped e x hx).returned,
      (h.stamped e x hx).hit, (h.stamped e x hx).temp⟩, h.index, h.temp⟩
  · rw [if_neg hlive] at htrees ⊢
    have hold : ∀ e x, s.entries e = some x → e ≠ s.counter := fun e x hx => Nat.ne_of_lt (h.trees.fresh e x hx)
    refine ⟨htrees, fun e x hx => ?_, fun e x hx => ?_, fun e he => ?_, fun e he => Nat.lt_succ_of_lt (h.temp e he)⟩
    · rcases update_some hx with ⟨rfl, -⟩ | ⟨-, hx⟩
      · exact .inl (by simp)
      · rcases h.referenced e x hx with hr | hr | hr
        · exact .inl (List.mem_append_left _ hr)
        · exact .inr (.inl hr)
        · exact .inr (.inr (List.mem_cons_of_mem _ hr))
    · rcases update_some hx with ⟨rfl, rfl⟩ | ⟨hne, hx⟩
      · refine ⟨?_, by rintro t ⟨⟩, by rintro t ⟨⟩, fun t' ht' => ?_⟩
        · have hle : s.time % 2 ^ 64 / 2 ≤ s.time := Nat.le_trans (Nat.div_le_self _ _) (Nat.mod_le _ _)
          exact Nat.le_trans hle (Nat.le_max_left _ _)
        · -- nothing was hit under a number that is not given yet
          exact absurd (h.temp s.counter (Option.isSome_iff_exists.2 ⟨t', ht'⟩)) (Nat.lt_irrefl _)
      · obtain ⟨hstamp, hreturned, hhit, htemp⟩ := h.stamped e x hx
        refine ⟨hstamp, hreturned, fun t ht => ?_, htemp⟩
        rcases hhit t ht with hhit | ⟨hnone, hhit⟩
        · exact .inl hhit
        · refine .inr ⟨hnone, fun he => hhit ?_⟩
          simpa [hne] using he
    · rcases List.mem_append.1 he with he | he
      · obtain ⟨x, hx⟩ := h.index e he
        exact ⟨x, (Function.update_of_ne (hold e x hx) _ _).trans hx⟩
      · obtain rfl := List.mem_singleton.1 he
        exact ⟨_, Function.update_self _ _ _⟩

/-- The stamp is brought up to date. -/
theorem Stamped.updateHit (h : Stamped s e x) : (s.updateHit e x).lastTimeHit ≤ x.lastUse ∧
    ∀ t, x.returned = some t → e ∈ s.cacheEntries → (s.updateHit e x).lastTimeHit = t % 2 ^ 32 := by
  unfold Cache.updateHit
  by_cases he : e ∈ s.cacheEntries
  · rw [if_pos he]
    cases htemp : s.tempLastTimeHit e with
    | none =>
      refine ⟨h.stamp, fun t ht _ => ?_⟩
      rcases h.hit t ht with hhit | ⟨-, hhit⟩
      · rw [htemp] at hhit
        cases hhit
      · exact hhit he
    | some t' =>
      obtain ⟨t, ht, rfl⟩ := h.temp t' htemp
      constructor
      · have hle : t % 2 ^ 32 ≤ x.returned.getD 0 := by
          rw [ht]
          exact Nat.mod_le _ _
        exact Nat.le_trans hle (Nat.le_max_right _ _)
      · intro u hu _
        obtain rfl : t = u := Option.some.inj (ht.symm.trans hu)
        rfl
  · rw [if_neg he]
    exact ⟨h.stamp, fun _ _ he' => absurd he' he⟩

@[simp] theorem updateHit_same (e : EntryId) (x : CacheEntry) : (s.updateHit e x).key = x.key ∧
    (s.updateHit e x).tree = x.tree ∧ (s.updateHit e x).buffers = x.buffers ∧ (s.updateHit e x).added = x.added ∧
    (s.updateHit e x).returned = x.returned := by
  unfold Cache.updateHit
  split <;> simp

theorem Kept.maintenance (h : Kept s) : Kept s.maintenance := by
  unfold Cache.maintenance
  split
  · exact h
  · refine .of_release ?_ (fun e x hx => ?_) (fun e he => ?_) (by simp [Cache.evict, Cache.updateHits])
    · refine h.trees.of_entries rfl rfl fun e => ?_
      cases hx : s.entries e with
      | none => simp [Cache.evict, Cache.updateHits, hx]
      | some x => simp [Cache.evict, Cache.updateHits, hx]
    · obtain ⟨y, hy, rfl⟩ := Option.map_eq_some_iff.1 hx
      obtain ⟨-, -, -, hadded, hreturned⟩ := updateHit_same (s := s) e y
      obtain ⟨hstamp, hhit⟩ := (h.stamped e y hy).updateHit
      refine ⟨?_, ?_, fun t ht => .inr ⟨rfl, fun he => ?_⟩, by rintro t' ⟨⟩⟩
      · rwa [CacheEntry.lastUse, hadded, hreturned]
      · rw [hreturned]
        exact (h.stamped e y hy).returned
      · rw [hreturned] at ht
        exact hhit t ht (List.mem_filter.1 he).1
    · obtain ⟨x, hx⟩ := h.index e (List.mem_filter.1 he).1
      exact ⟨s.updateHit e x, by simp [Cache.evict, Cache.updateHits, hx]⟩

theorem Kept.lookup (h : Kept s) (key : Key) (σ : MacroState) : Kept (s.lookup key σ).2 := by
  unfold Cache.lookup
  cases hfound : s.found key σ with
  | none =>
    refine ⟨h.trees.of_entries rfl rfl fun _ => rfl, h.referenced, fun e x hx => ?_, h.index, h.temp⟩
    obtain ⟨hstamp, hreturned, hhit, htemp⟩ := h.stamped e x hx
    exact ⟨hstamp, fun t ht => Nat.le_succ_of_le (hreturned t ht), hhit, htemp⟩
  | some e =>
    obtain ⟨x, hx⟩ := h.trees.found hfound
    -- Only the entry that is returned changes, and only the note of when that was.
    have hupdate : ∀ e' y, Function.update s.entries e ((s.entries e).map fun x => { x with returned := some s.time }) e'
        = some y → e' = e ∧ y = { x with returned := some s.time } ∨ e' ≠ e ∧ s.entries e' = some y := by
      intro e' y hy
      rw [hx, Option.map_some] at hy
      exact update_some hy
    refine ⟨h.trees.of_entries rfl rfl fun e' => ?_, fun e' y hy => ?_, fun e' y hy => ?_, fun e' he' => ?_,
      fun e' he' => ?_⟩
    · by_cases he : e' = e
      · subst he
        simp [hx]
      · simp [he]
    · rcases hupdate e' y hy with ⟨rfl, -⟩ | ⟨hne, hy⟩
      · exact .inr (.inr (by simp))
      · rcases h.referenced e' y hy with hr | hr | hr
        · exact .inl hr
        · exact .inr (.inl (by simpa [hne] using hr))
        · exact .inr (.inr (List.mem_cons_of_mem _ hr))
    · rcases hupdate e' y hy with ⟨rfl, rfl⟩ | ⟨hne, hy⟩
      · obtain ⟨hstamp, hreturned, -, -⟩ := h.stamped e' x hx
        refine ⟨?_, ?_, ?_, ?_⟩
        · refine Nat.le_trans hstamp (Nat.max_le.2 ⟨Nat.le_max_left _ _, ?_⟩)
          refine Nat.le_trans ?_ (Nat.le_max_right _ _)
          cases ht : x.returned with
          | none => exact Nat.zero_le _
          | some t => exact hreturned t ht
        · rintro t ⟨⟩
          simp only [Cache.time]
          omega
        · rintro t ⟨⟩
          exact .inl (Function.update_self _ _ _)
        · intro t' ht'
          simp only [Function.update_self, Option.some.injEq] at ht'
          exact ⟨s.time, rfl, ht'.symm⟩
      · obtain ⟨hstamp, hreturned, hhit, htemp⟩ := h.stamped e' y hy
        refine ⟨hstamp, fun t ht => ?_, ?_, ?_⟩
        · have hle := hreturned t ht
          simp only [Cache.time] at hle ⊢
          omega
        · simpa [hne] using hhit
        · simpa [hne] using htemp
    · obtain ⟨y, hy⟩ := h.index e' he'
      by_cases he : e' = e
      · subst he
        exact ⟨{ x with returned := some s.time }, by simp [hx]⟩
      · exact ⟨y, by simpa [he] using hy⟩
    · by_cases he : e' = e
      · subst he
        exact h.trees.fresh e' x hx
      · exact h.temp e' (by simpa [he] using he')

theorem Kept.invalidate (h : Kept s) (buffer : Buffer) : Kept (s.invalidate buffer) := by
  refine .of_release (h.trees.of_entries rfl rfl fun _ => rfl) (fun e x hx => ?_) (fun e he => ?_) h.temp
  · obtain ⟨hstamp, hreturned, hhit, htemp⟩ := h.stamped e x hx
    refine ⟨hstamp, hreturned, fun t ht => ?_, htemp⟩
    rcases hhit t ht with hhit | ⟨hnone, hhit⟩
    · exact .inl hhit
    · exact .inr ⟨hnone, fun he => hhit (List.mem_filter.1 he).1⟩
  · exact h.index e (List.mem_filter.1 he).1

theorem Kept.step (h : Kept s) {event : Event} (hs : step s event = some s') : Kept s' := by
  cases event with
  | findEntry key σ =>
    cases hs
    exact (h.lookup key σ).maintenance
  | addEntry key first rest buffers =>
    cases hs
    exact h.addEntry key first rest buffers
  | maintenance =>
    cases hs
    exact h.maintenance
  | invalidate buffer =>
    cases hs
    exact h.invalidate buffer
  | release e =>
    simp only [HeaderCache.step] at hs
    split at hs
    · cases hs
      refine .of_release (h.trees.of_entries rfl rfl fun _ => rfl) (fun e x hx => ?_) h.index h.temp
      obtain ⟨hstamp, hreturned, hhit, htemp⟩ := h.stamped e x hx
      exact ⟨hstamp, hreturned, hhit, htemp⟩
    · cases hs

theorem kept_run {events : List Event} (hrun : run step {} events = some s) : Kept s :=
  run_inv step (fun _ _ _ h hs => h.step hs) kept_init hrun

end Steps

/-! ## Invalidation -/

/-- An entry that uses the buffer has not been hit since the last maintenance; one that uses an invalidated buffer
has not been hit either when its last tracker gives it up; no entry is made with an invalidated buffer. -/
def NotStale (s : Cache) : Event → Prop
  | .invalidate buffer => ∀ e < s.counter, s.Uses e buffer → (s.tempLastTimeHit e).isSome → e ∈ s.held
  | .release e => e ∉ s.held.erase e → (∃ buffer ∈ s.invalidated, s.Uses e buffer) → s.tempLastTimeHit e = none
  | .addEntry key first rest buffers => s.Live key (first :: rest) ∨ ∀ buffer ∈ buffers, buffer ∉ s.invalidated
  | _ => True

instance (s : Cache) (event : Event) : Decidable (NotStale s event) := by
  cases event <;> unfold NotStale <;> infer_instance

/-- Only trackers refer to an entry that uses an invalidated buffer. -/
def Dropped (s : Cache) : Prop := ∀ e buffer, buffer ∈ s.invalidated → s.Uses e buffer → e ∉ s.cacheEntries ∧ e ∈ s.held

section Invalidation
variable {s s' : Cache} {e : EntryId} {buffer : Buffer} {key : Key} {σ : MacroState}

theorem uses_release (huses : s.release.Uses e buffer) : s.Uses e buffer := by
  obtain ⟨x, hx, hbuffer⟩ := huses
  rw [Cache.release, foldl_decRef_entries] at hx
  split at hx
  · cases hx
  · exact ⟨x, hx, hbuffer⟩

theorem uses_maintenance (huses : s.maintenance.Uses e buffer) : s.Uses e buffer := by
  unfold Cache.maintenance at huses
  split at huses
  · exact huses
  · obtain ⟨y, hy, hbuffer⟩ := uses_release huses
    obtain ⟨x, hx, rfl⟩ := Option.map_eq_some_iff.1 hy
    obtain ⟨-, -, hbuffers, -⟩ := updateHit_same (s := s) e x
    exact ⟨x, hx, hbuffers ▸ hbuffer⟩

theorem uses_lookup (huses : (s.lookup key σ).2.Uses e buffer) : s.Uses e buffer := by
  unfold Cache.lookup at huses
  split at huses
  · rename_i e' _
    obtain ⟨y, hy, hbuffer⟩ := huses
    by_cases he : e = e'
    · subst he
      simp only [Function.update_self] at hy
      obtain ⟨x, hx, rfl⟩ := Option.map_eq_some_iff.1 hy
      exact ⟨x, hx, hbuffer⟩
    · exact ⟨y, (Function.update_of_ne he _ _).symm.trans hy, hbuffer⟩
  · exact huses

/-- What an entry uses is what it was made with. -/
theorem uses_step {event : Event} (hs : step s event = some s') (huses : s'.Uses e buffer) :
    s.Uses e buffer ∨ ∃ key first rest buffers, event = .addEntry key first rest buffers ∧
      ¬ s.Live key (first :: rest) ∧ buffer ∈ buffers := by
  cases event with
  | findEntry key σ =>
    cases hs
    exact .inl (uses_lookup (uses_maintenance huses))
  | addEntry key first rest buffers =>
    cases hs
    unfold Cache.addEntry at huses
    dsimp only at huses
    split at huses
    · exact .inl huses
    · rename_i hlive
      obtain ⟨x, hx, hbuffer⟩ := huses
      rcases update_some hx with ⟨-, rfl⟩ | ⟨-, hx⟩
      · exact .inr ⟨key, first, rest, buffers, rfl, hlive, hbuffer⟩
      · exact .inl ⟨x, hx, hbuffer⟩
  | maintenance =>
    cases hs
    exact .inl (uses_maintenance huses)
  | invalidate buffer' =>
    cases hs
    have hbefore := uses_release huses
    exact .inl hbefore
  | release e' =>
    simp only [step] at hs
    split at hs
    · cases hs
      have hbefore := uses_release huses
      exact .inl hbefore
    · cases hs

theorem step_invalidated {event : Event} (hs : step s event = some s') :
    s'.invalidated = match event with
      | .invalidate buffer => buffer :: s.invalidated
      | _ => s.invalidated := by
  have hmaintenance : ∀ s : Cache, s.maintenance.invalidated = s.invalidated := by
    intro s
    unfold Cache.maintenance
    split
    · rfl
    · simp [Cache.evict, Cache.updateHits]
  cases event with
  | findEntry key σ =>
    cases hs
    have hlookup : (s.lookup key σ).2.invalidated = s.invalidated := by
      unfold Cache.lookup
      split <;> rfl
    exact (hmaintenance _).trans hlookup
  | addEntry key first rest buffers =>
    cases hs
    unfold Cache.addEntry
    dsimp only
    split <;> rfl
  | maintenance =>
    cases hs
    exact hmaintenance s
  | invalidate buffer =>
    cases hs
    exact release_invalidated
  | release e =>
    simp only [step] at hs
    split at hs
    · cases hs
      exact release_invalidated
    · cases hs

theorem invalidated_run {events : List Event} (hrun : run step s events = some s')
    (h : .invalidate buffer ∈ events ∨ buffer ∈ s.invalidated) : buffer ∈ s'.invalidated := by
  induction events generalizing s with
  | nil =>
    cases hrun
    rcases h with h | h
    · cases h
    · exact h
  | cons event events ih =>
    obtain ⟨s₁, hs, hrun⟩ := Option.bind_eq_some_iff.1 hrun
    refine ih hrun ?_
    rw [step_invalidated hs]
    rcases h with h | h
    · rcases List.mem_cons.1 h with rfl | h
      · exact .inr (List.mem_cons_self ..)
      · exact .inl h
    · right
      split
      · exact List.mem_cons_of_mem _ h
      · exact h

/-- What only trackers refer to stays so, whatever references other entries lose. -/
theorem Dropped.of_uses (h : Dropped s) (hinvalidated : s'.invalidated = s.invalidated)
    (huses : ∀ e buffer, s'.Uses e buffer → s.Uses e buffer) (hindex : ∀ e ∈ s'.cacheEntries, e ∈ s.cacheEntries)
    (hheld : ∀ e ∈ s.held, e ∈ s'.held) : Dropped s' := by
  intro e buffer hbuffer he
  rw [hinvalidated] at hbuffer
  obtain ⟨hnot, he⟩ := h e buffer hbuffer (huses e buffer he)
  exact ⟨fun he' => hnot (hindex e he'), hheld e he⟩

theorem Dropped.maintenance (h : Dropped s) : Dropped s.maintenance := by
  refine h.of_uses ?_ (fun _ _ => uses_maintenance) ?_ ?_
  · exact @step_invalidated s _ .maintenance rfl
  · intro e he
    unfold Cache.maintenance at he
    split at he
    · exact he
    · rw [release_cacheEntries] at he
      exact (List.mem_filter.1 he).1
  · intro e he
    unfold Cache.maintenance
    split
    · exact he
    · rwa [release_held]

theorem Dropped.lookup (h : Dropped s) (key : Key) (σ : MacroState) : Dropped (s.lookup key σ).2 := by
  refine h.of_uses ?_ (fun _ _ => uses_lookup) ?_ ?_
  · unfold Cache.lookup
    split <;> rfl
  · unfold Cache.lookup
    split <;> exact fun _ he => he
  · unfold Cache.lookup
    split
    · exact fun _ he => List.mem_cons_of_mem _ he
    · exact fun _ he => he

theorem Dropped.addEntry (h : Dropped s) {first : Macro} {rest : List Macro} {buffers : List Buffer}
    (hcond : NotStale s (.addEntry key first rest buffers)) : Dropped (s.addEntry key first rest buffers).2 := by
  unfold Cache.addEntry
  dsimp only
  split
  · exact h.of_uses rfl (fun _ _ => id) (fun _ => id) fun _ he => List.mem_cons_of_mem _ he
  · rename_i hlive
    rintro e buffer hbuffer ⟨x, hx, hmem⟩
    rcases update_some hx with ⟨-, rfl⟩ | ⟨hne, hx⟩
    · rcases hcond with hcond | hcond
      · exact absurd hcond hlive
      · exact absurd hbuffer (hcond buffer hmem)
    · obtain ⟨hnot, he⟩ := h e buffer hbuffer ⟨x, hx, hmem⟩
      exact ⟨by simpa [hne] using hnot, List.mem_cons_of_mem _ he⟩

theorem Dropped.invalidate (h : Dropped s) (hkept : Kept s) (hcond : NotStale s (.invalidate buffer)) :
    Dropped (s.invalidate buffer) := by
  have hkept' := hkept.invalidate buffer
  intro e buffer' hbuffer' huses
  have hbefore : s.Uses e buffer' := by
    have h := uses_release huses
    exact h
  obtain ⟨x, hx, -⟩ := huses
  have href := hkept'.referenced e x hx
  simp only [Cache.invalidate, release_invalidated, List.mem_cons] at hbuffer'
  simp only [Cache.invalidate, Cache.Referenced, release_cacheEntries, release_tempLastTimeHit, release_held] at href ⊢
  rcases hbuffer' with rfl | hbuffer'
  · have hnot : e ∉ s.cacheEntries.filter fun e => ¬ s.Uses e buffer' := by
      intro he
      exact of_decide_eq_true (List.mem_filter.1 he).2 hbefore
    refine ⟨hnot, ?_⟩
    rcases href with href | href | href
    · exact absurd href hnot
    · obtain ⟨y, hy, -⟩ := id hbefore
      exact hcond e (hkept.trees.fresh e y hy) hbefore href
    · exact href
  · obtain ⟨hnot, he⟩ := h e buffer' hbuffer' hbefore
    exact ⟨fun he' => hnot (List.mem_filter.1 he').1, he⟩

theorem Dropped.release (h : Dropped s) (hkept : Kept s) (hcond : NotStale s (.release e)) :
    Dropped (Cache.release { s with held := s.held.erase e }) := by
  intro e' buffer hbuffer huses
  have hbefore : s.Uses e' buffer := by
    have h := uses_release huses
    exact h
  rw [release_invalidated] at hbuffer
  obtain ⟨hnot, hheld⟩ := h e' buffer hbuffer hbefore
  rw [release_cacheEntries, release_held]
  refine ⟨hnot, ?_⟩
  by_cases he : e' = e
  · subst he
    by_contra hlast
    -- the last tracker gave it up, and nothing else refers to it
    obtain ⟨x, hx, -⟩ := huses
    have htemp : s.tempLastTimeHit e' = none := hcond hlast ⟨buffer, hbuffer, hbefore⟩
    have htrees : Trees { s with held := s.held.erase e' } := hkept.trees.of_entries rfl rfl fun _ => rfl
    rcases ((release_some htrees).1 hx).2 with href | href | href
    · exact hnot href
    · simp [htemp] at href
    · exact hlast href
  · exact (List.mem_erase_of_ne he).2 hheld

theorem Dropped.step (h : Dropped s) (hkept : Kept s) {event : Event} (hcond : NotStale s event)
    (hs : step s event = some s') : Dropped s' := by
  cases event with
  | findEntry key σ =>
    cases hs
    exact (h.lookup key σ).maintenance
  | addEntry key first rest buffers =>
    cases hs
    exact h.addEntry hcond
  | maintenance =>
    cases hs
    exact h.maintenance
  | invalidate buffer =>
    cases hs
    exact h.invalidate hkept hcond
  | release e =>
    simp only [HeaderCache.step] at hs
    split at hs
    · cases hs
      exact h.release hkept hcond
    · cases hs

/-- **Invalidation takes effect**: when no tracker has an entry that uses an invalidated buffer, none is ever found
again. -/
theorem invalidate_takes_effect {before after : List Event} {s s' : Cache} {buffer : Buffer}
    (hbefore : run step {} before = some s) (hinvalidated : .invalidate buffer ∈ before)
    (hheld : ∀ e ∈ s.held, ¬ s.Uses e buffer) (hafter : run step s after = some s')
    (hcond : Meets step NotStale {} before) (hcond' : Meets step NotStale s after) (key : Key) (σ : MacroState) :
    ∀ e, (s'.findEntry key σ).1 = some e → ¬ s'.Uses e buffer := by
  have hmem : buffer ∈ s.invalidated := invalidated_run hbefore (.inl hinvalidated)
  have hdropped : Kept s ∧ Dropped s :=
    run_inv_of_meets step (I := fun s => Kept s ∧ Dropped s)
      (fun _ _ _ h hcond hs => ⟨h.1.step hs, h.2.step h.1 hcond hs⟩) before {} s
      ⟨kept_init, fun _ _ hnil => absurd hnil (by simp)⟩ hcond hbefore
  have hgone : ∀ e, ¬ s.Uses e buffer := fun e he => hheld e (hdropped.2 e buffer hmem he).2 he
  have hstill : buffer ∈ s'.invalidated ∧ ∀ e, ¬ s'.Uses e buffer := by
    refine run_inv_of_meets step (I := fun s => buffer ∈ s.invalidated ∧ ∀ e, ¬ s.Uses e buffer) ?_ after s s'
      ⟨hmem, hgone⟩ hcond' hafter
    rintro s event s' ⟨hmem, hgone⟩ hcond hs
    refine ⟨?_, fun e huses => ?_⟩
    · rw [step_invalidated hs]
      split
      · exact List.mem_cons_of_mem _ hmem
      · exact hmem
    · rcases uses_step hs huses with huses | ⟨key, first, rest, buffers, rfl, hlive, hbuffer⟩
      · exact hgone e huses
      · rcases hcond with hcond | hcond
        · exact hlive hcond
        · exact hcond buffer hbuffer hmem
  exact fun e _ => hstill.2 e

/-- A tracker adds an entry for a header with the buffer 7 and gives it up; after maintenance, it is invalidated. -/
def staleEvents : List Event :=
  [.addEntry (⟨0, 0⟩, 0) ("A", none) [] [7], .release 0, .maintenance, .invalidate 7]

theorem invalidate_takes_effect_seven : ∃ s, run step {} staleEvents = some s ∧
    ∀ e, (s.findEntry (⟨0, 0⟩, 0) fun _ => none).1 = some e → ¬ s.Uses e 7 := by
  have hsome : (run step {} staleEvents).map (·.held) = some [] := by decide
  obtain ⟨s, hrun, hheld⟩ := Option.map_eq_some_iff.1 hsome
  have hafter : run step s [] = some s := rfl
  exact ⟨s, hrun, invalidate_takes_effect hrun (by simp [staleEvents]) (by simp [hheld]) hafter (by decide)
    trivial (⟨0, 0⟩, 0) _⟩

/-- The entry was found before it was invalidated, and is found again. -/
theorem hit_entry_found_again : ∃ s, run step {} [.addEntry (⟨0, 0⟩, 0) ("A", none) [] [7], .release 0,
      .findEntry (⟨0, 0⟩, 0) fun _ => none, .release 0, .invalidate 7] = some s ∧ s.held = [] ∧
    (s.findEntry (⟨0, 0⟩, 0) fun _ => none).1 = some 0 ∧ s.Uses 0 7 := by
  have hsome : (run step {} [.addEntry (⟨0, 0⟩, 0) ("A", none) [] [7], .release 0,
      .findEntry (⟨0, 0⟩, 0) fun _ => none, .release 0, .invalidate 7]).map (fun s => (s.held,
        (s.findEntry (⟨0, 0⟩, 0) fun _ => none).1, decide (s.Uses 0 7))) = some ([], some 0, true) := by decide
  obtain ⟨s, hrun, heq⟩ := Option.map_eq_some_iff.1 hsome
  simp only [Prod.mk.injEq, decide_eq_true_eq] at heq
  exact ⟨s, hrun, heq.1, heq.2.1, heq.2.2⟩

end Invalidation

/-! ## Maintenance -/

section Maintenance
variable {s s' : Cache} {e : EntryId} {key : Key} {σ : MacroState}

/-- What maintenance keeps. -/
theorem mem_maintenance : e ∈ s.maintenance.cacheEntries ↔ e ∈ s.cacheEntries ∧
    (s.currentTime % cacheCleanupPeriod = 0 → cutoffTime s.currentTime ≤ s.updateHits.lastTimeHit e) := by
  unfold Cache.maintenance
  split
  · rename_i hperiod
    simp [hperiod]
  · rename_i hperiod
    have htime : s.updateHits.currentTime = s.currentTime := rfl
    rw [release_cacheEntries, Cache.evict, List.mem_filter, htime]
    simp only [not_not.1 hperiod, forall_const, decide_eq_true_eq]
    rfl

theorem lastTimeHit_updateHits {x : CacheEntry} (hx : s.entries e = some x) :
    s.updateHits.lastTimeHit e = (s.updateHit e x).lastTimeHit := by
  simp [Cache.lastTimeHit, Cache.updateHits, hx]

/-- Calls that find nothing only count. -/
theorem run_misses (hfound : s.found key σ = none) : ∀ n : Nat, s.time % cacheCleanupPeriod + n < cacheCleanupPeriod →
    run step s (List.replicate n (.findEntry key σ)) = some { s with misses := s.misses + n } := by
  intro n
  induction n generalizing s with
  | zero => exact fun _ => rfl
  | succ n ih =>
    intro hlt
    have htime : (s.time + 1) % 2 ^ 32 % cacheCleanupPeriod = s.time % cacheCleanupPeriod + 1 := by
      simp only [cacheCleanupPeriod] at hlt ⊢
      omega
    have hone : (s.findEntry key σ).2 = { s with misses := s.misses + 1 } := by
      have hnext : Cache.currentTime { s with misses := s.misses + 1 } = (s.time + 1) % 2 ^ 32 := rfl
      simp only [Cache.findEntry, Cache.lookup, hfound, Cache.maintenance, hnext, htime]
      rw [if_pos (Nat.succ_ne_zero _)]
    have hnext : Cache.time { s with misses := s.misses + 1 } = s.time + 1 := rfl
    have hrest := ih (s := { s with misses := s.misses + 1 }) hfound (by
      rw [hnext]
      simp only [cacheCleanupPeriod] at *
      omega)
    rw [List.replicate_succ, run, step, hone, Option.bind_some, hrest]
    simp [Nat.add_comm, Nat.add_left_comm]

/-- An entry is added and hit at the start; then nothing is found any more. -/
def rareEvents : List Event :=
  .addEntry (⟨0, 0⟩, 0) ("A", none) [] [] :: .findEntry (⟨0, 0⟩, 0) (fun _ => none) ::
    List.replicate 2046 (.findEntry (⟨1, 1⟩, 0) fun _ => none)

theorem run_rareEvents : ∃ s, run step {} rareEvents = some s ∧ s.time = 2047 ∧
    (s.lookup (⟨1, 1⟩, 0) fun _ => none).2.cacheEntries = [0] ∧
    ((s.lookup (⟨1, 1⟩, 0) fun _ => none).2.entries 0).map (·.returned) = some (some 0) ∧
    (s.findEntry (⟨1, 1⟩, 0) fun _ => none).2.cacheEntries = [] := by
  let s := ((({} : Cache).addEntry (⟨0, 0⟩, 0) ("A", none) [] []).2.findEntry (⟨0, 0⟩, 0) fun _ => none).2
  have hstart : ∀ events, run step {} (.addEntry (⟨0, 0⟩, 0) ("A", none) [] [] ::
      .findEntry (⟨0, 0⟩, 0) (fun _ => none) :: events) = run step s events := fun _ => rfl
  have hrun : run step s (List.replicate 2046 (.findEntry (⟨1, 1⟩, 0) fun _ => none)) =
      some { s with misses := s.misses + 2046 } := run_misses (by decide) 2046 (by decide +kernel)
  refine ⟨{ s with misses := s.misses + 2046 }, ?_, by decide +kernel, by decide +kernel, by decide +kernel,
    by decide +kernel⟩
  rw [rareEvents, hstart, hrun]

/-- **Maintenance keeps recent entries**: an entry that was returned since the cutoff stays, and an entry that was
ever returned only goes if all that stay have been added or returned later. -/
theorem maintenance_keeps_recent {events : List Event} {s s₁ s₂ : Cache} (hrun : run step {} events = some s)
    {key : Key} {σ : MacroState} (hlookup : s₁ = (s.lookup key σ).2) (hmaintenance : s₂ = (s.findEntry key σ).2)
    (htime : s₁.time < 2 ^ 32) :
    ∀ e ∈ s₁.cacheEntries, ∃ x, s₁.entries e = some x ∧ ∀ t, x.returned = some t →
      (cutoffTime s₁.time ≤ t → e ∈ s₂.cacheEntries) ∧
      (e ∉ s₂.cacheEntries → ∀ e' ∈ s₂.cacheEntries, ∃ x', s₁.entries e' = some x' ∧ t < x'.lastUse) := by
  subst hlookup hmaintenance
  have hkept := (kept_run hrun).lookup key σ
  have hcurrent : (s.lookup key σ).2.currentTime = (s.lookup key σ).2.time := Nat.mod_eq_of_lt htime
  have hafter : (s.findEntry key σ).2 = (s.lookup key σ).2.maintenance := rfl
  rw [hafter]
  generalize (s.lookup key σ).2 = s₁ at hkept htime hcurrent
  have hmod : ∀ e x t, s₁.entries e = some x → x.returned = some t → t % 2 ^ 32 = t := fun e x t hx ht =>
    Nat.mod_eq_of_lt (Nat.lt_of_le_of_lt ((hkept.stamped e x hx).returned t ht) htime)
  intro e he
  obtain ⟨x, hx⟩ := hkept.index e he
  refine ⟨x, hx, fun t ht => ?_⟩
  have hstamp : s₁.updateHits.lastTimeHit e = t := by
    rw [lastTimeHit_updateHits hx, (hkept.stamped e x hx).updateHit.2 t ht he, hmod e x t hx ht]
  refine ⟨fun hcutoff => ?_, fun hgone e' he' => ?_⟩
  · rw [mem_maintenance, hcurrent, hstamp]
    exact ⟨he, fun _ => hcutoff⟩
  · rw [mem_maintenance, hstamp, hcurrent] at hgone
    rw [mem_maintenance, hcurrent] at he'
    obtain ⟨hperiod, hold⟩ : s₁.time % cacheCleanupPeriod = 0 ∧ t < cutoffTime s₁.time := by
      by_contra hnot
      exact hgone ⟨he, fun hperiod => Nat.le_of_not_lt fun hlt => hnot ⟨hperiod, hlt⟩⟩
    obtain ⟨x', hx'⟩ := hkept.index e' he'.1
    refine ⟨x', hx', ?_⟩
    calc t < cutoffTime s₁.time := hold
      _ ≤ s₁.updateHits.lastTimeHit e' := he'.2 hperiod
      _ = (s₁.updateHit e' x').lastTimeHit := lastTimeHit_updateHits hx'
      _ ≤ x'.lastUse := (hkept.stamped e' x' hx').updateHit.1

theorem lookup_time : (s.lookup key σ).2.time = s.time + 1 := by
  unfold Cache.lookup Cache.time
  split
  · exact Nat.add_right_comm s.hits 1 s.misses
  · rfl

/-- The entry is hit again when maintenance is due. -/
theorem maintenance_keeps_recent_rare : ∃ s, run step {} rareEvents = some s ∧ s.time = 2047 ∧
    ∀ e ∈ (s.lookup (⟨0, 0⟩, 0) fun _ => none).2.cacheEntries,
      ∃ x, (s.lookup (⟨0, 0⟩, 0) fun _ => none).2.entries e = some x ∧ ∀ t, x.returned = some t → 409 ≤ t →
        e ∈ (s.findEntry (⟨0, 0⟩, 0) fun _ => none).2.cacheEntries := by
  obtain ⟨s, hrun, htime, -⟩ := run_rareEvents
  have hlookup : (s.lookup (⟨0, 0⟩, 0) fun _ => none).2.time = 2048 := lookup_time.trans (by rw [htime])
  refine ⟨s, hrun, htime, fun e he => ?_⟩
  obtain ⟨x, hx, hkeeps⟩ := maintenance_keeps_recent hrun rfl rfl (by rw [hlookup]; decide) e he
  refine ⟨x, hx, fun t ht hle => (hkeeps t ht).1 ?_⟩
  rw [hlookup]
  exact hle

/-- At the time 2048, an entry goes that was returned at 0. -/
theorem recent_entry_evicted : ∃ s s₁ s₂ e x t, run step {} rareEvents = some s ∧
    s₁ = (s.lookup (⟨1, 1⟩, 0) fun _ => none).2 ∧ s₂ = (s.findEntry (⟨1, 1⟩, 0) fun _ => none).2 ∧
    e ∈ s₁.cacheEntries ∧ s₁.entries e = some x ∧ x.returned = some t ∧ s₁.time < t + historyLength ∧
    e ∉ s₂.cacheEntries := by
  obtain ⟨s, hrun, htime, hbefore, hreturned, hafter⟩ := run_rareEvents
  obtain ⟨x, hx, hreturned⟩ := Option.map_eq_some_iff.1 hreturned
  refine ⟨s, _, _, 0, x, 0, hrun, rfl, rfl, by simp [hbefore], hx, hreturned, ?_, by simp [hafter]⟩
  rw [lookup_time, htime]
  decide

end Maintenance

end BuildPal.Scanner.HeaderCache
