import BuildPal.Scanner.ScanHeaders
/-!
# Search paths and the cache

The key of the cache has a place for the search path, `searchPathId`.
`scanHeaders` computes the hash of the search path, but does not keep it: the id
is always 0. Entries stay with their search path only as long as scans with
different search paths have no headers in common.
-/
open BuildPal.Lib

namespace BuildPal.Scanner

/-! ## Callbacks that do not care for the cache -/

def Tracker.withCache (s : Tracker) (cache : Cache) : Tracker := { s with cache := cache }

/-- Neither looks at the cache nor uses it. -/
def Indifferent (f : Tracker → Tracker) : Prop :=
  ∀ s : Tracker, (∀ cache, f (s.withCache cache) = (f s).withCache cache) ∧ (f s).cache = s.cache ∧ (f s).uses = s.uses

namespace Indifferent

theorem comp {f g : Tracker → Tracker} (hf : Indifferent f) (hg : Indifferent g) : Indifferent fun s => f (g s) := by
  intro s
  obtain ⟨hfc, hfs, hfu⟩ := hf (g s)
  obtain ⟨hgc, hgs, hgu⟩ := hg s
  exact ⟨fun cache => by simp only [hgc, hfc], by simp only [hfs, hgs], by simp only [hfu, hgu]⟩

theorem ctxMacroUsed (name : MacroName) : Indifferent (·.ctxMacroUsed name) := fun _ => ⟨fun _ => rfl, rfl, rfl⟩

theorem foldl_ctxMacroUsed (names : List MacroName) : Indifferent (names.foldl Tracker.ctxMacroUsed ·) := by
  induction names with
  | nil => exact fun s => ⟨fun _ => rfl, rfl, rfl⟩
  | cons name names ih => exact ih.comp (ctxMacroUsed name)

theorem handle (h : ConditionStack → Handled) : Indifferent fun s => s.handle (h s.conditionStack) := by
  have hset : Indifferent fun s => { s with
      conditionStack := (h s.conditionStack).stack
      dropped := s.dropped ++ (h s.conditionStack).dropped } := fun _ => ⟨fun _ => rfl, rfl, rfl⟩
  intro s
  exact (foldl_ctxMacroUsed (h s.conditionStack).reported).comp hset s

theorem commitMacros : Indifferent Tracker.commitMacros := handle ConditionStack.commit

theorem ctxMacroChanged (name : MacroName) (value : MacroValue) : Indifferent (·.ctxMacroChanged name value) :=
  fun _ => ⟨fun _ => rfl, rfl, rfl⟩

theorem addHeader (header : Header) : Indifferent (·.addHeader header) := fun _ => ⟨fun _ => rfl, rfl, rfl⟩

variable (S : Setup)

theorem macroUsed (name : MacroName) : Indifferent (S.macroUsed · name) := by
  unfold Setup.macroUsed
  intro s
  split
  · exact ⟨fun _ => rfl, rfl, rfl⟩
  · split
    · exact ctxMacroUsed name s
    · exact ⟨fun _ => rfl, rfl, rfl⟩

theorem conditional (directive : Directive) : Indifferent (S.conditional · directive) := by
  unfold Setup.conditional
  intro s
  split
  · exact ⟨fun _ => rfl, rfl, rfl⟩
  · exact handle (·.directive directive) s

theorem macroDefined (name : MacroName) (value : String) : Indifferent (S.macroDefined · name value) := by
  unfold Setup.macroDefined
  intro s
  split
  · exact ⟨fun _ => rfl, rfl, rfl⟩
  · exact (ctxMacroChanged name (some value)).comp commitMacros s

theorem macroUndefined (name : MacroName) : Indifferent (S.macroUndefined · name) := by
  unfold Setup.macroUndefined
  intro s
  split
  · exact ⟨fun _ => rfl, rfl, rfl⟩
  · exact (ctxMacroChanged name none).comp commitMacros s

theorem pragmaOnce (file : FileId) : Indifferent (S.pragmaOnce · file) := by
  unfold Setup.pragmaOnce
  intro s
  split
  · exact ⟨fun _ => rfl, rfl, rfl⟩
  · exact ctxMacroChanged _ _ s

theorem headerSkipped (h : IncludedHeaders) : Indifferent (S.headerSkipped · h) := by
  unfold Setup.headerSkipped
  intro s
  split
  · exact addHeader _ s
  · exact (addHeader _).comp (ctxMacroUsed _) s

theorem enterFile (file : FileId) : Indifferent (·.enterFile file) := fun _ => ⟨fun _ => rfl, rfl, rfl⟩

end Indifferent

/-! ## Two caches -/

/-- The trees of these files are the same. -/
def SameTrees (files : FileId → Prop) (searchPathId : Nat) (cache cache' : Cache) : Prop :=
  cache.time = cache'.time ∧
    ∀ file, files file → cache.cacheContainer (file, searchPathId) = cache'.cacheContainer (file, searchPathId)

/-- All entries of a file's tree have something in common. -/
def AllEntries (p : FileId → CacheEntry → Prop) (searchPathId : Nat) (cache : Cache) : Prop :=
  ∀ file, (cache.cacheContainer (file, searchPathId)).All (p file)

section Caches
variable {files : FileId → Prop} {id : Nat} {cache cache' : Cache} {p : FileId → CacheEntry → Prop}
  {expired : Nat → CacheEntry → Bool}

theorem SameTrees.findEntry (h : SameTrees files id cache cache') {file : FileId} (hfile : files file) (σ : MacroState) :
    (cache.findEntry expired file id σ).1 = (cache'.findEntry expired file id σ).1 ∧
      SameTrees files id (cache.findEntry expired file id σ).2 (cache'.findEntry expired file id σ).2 := by
  obtain ⟨htime, htrees⟩ := h
  refine ⟨by simp only [Cache.findEntry, htrees file hfile], ?_⟩
  simp only [Cache.findEntry, Cache.maintenance, htime]
  split
  · exact ⟨rfl, htrees⟩
  · exact ⟨rfl, fun f hf => by simp only [htrees f hf]⟩

theorem SameTrees.addEntry (h : SameTrees files id cache cache') {file : FileId} (hfile : files file)
    (used : List Macro) (e : CacheEntry) :
    (cache.addEntry file id used e).1 = (cache'.addEntry file id used e).1 ∧
      SameTrees files id (cache.addEntry file id used e).2 (cache'.addEntry file id used e).2 := by
  obtain ⟨htime, htrees⟩ := h
  simp only [Cache.addEntry, htrees file hfile, true_and]
  refine ⟨htime, fun f hf => ?_⟩
  dsimp only
  split
  · rfl
  · exact htrees f hf

theorem AllEntries.findEntry (h : AllEntries p id cache) (file : FileId) (σ : MacroState) :
    AllEntries p id (cache.findEntry expired file id σ).2 ∧
      ∀ hit, (cache.findEntry expired file id σ).1 = some hit → p file hit.2 := by
  refine ⟨?_, fun hit hhit => Trie.find_all _ hit.1 hit.2 (h file) hhit⟩
  simp only [Cache.findEntry, Cache.maintenance]
  split
  · exact h
  · exact fun f => Trie.pruneRoot_all _ _ (h f)

theorem AllEntries.addEntry (h : AllEntries p id cache) {file : FileId} (used : List Macro) {e : CacheEntry}
    (he : p file e) :
    AllEntries p id (cache.addEntry file id used e).2 ∧ p file (cache.addEntry file id used e).1.2 := by
  obtain ⟨htree, hentry⟩ := Trie.insert_all he used _ (h file)
  refine ⟨fun f => ?_, hentry⟩
  simp only [Cache.addEntry]
  split
  · next heq =>
    cases heq
    exact htree
  · exact h f

end Caches

/-! ## A scan with two caches -/

/-- The trackers differ only in their caches, and there only in other files. -/
structure Alike (files : FileId → Prop) (p : FileId → CacheEntry → Prop) (id : Nat) (s s' : Tracker) : Prop where
  same : s' = s.withCache s'.cache
  trees : SameTrees files id s.cache s'.cache
  entries : AllEntries p id s.cache
  uses : ∀ u ∈ s.uses, files u.header.file ∧ p u.header.file u.entry

namespace Alike
variable {files : FileId → Prop} {p : FileId → CacheEntry → Prop} {id : Nat} {s s' : Tracker} {S : Setup}

theorem indifferent (h : Alike files p id s s') {f : Tracker → Tracker} (hf : Indifferent f) :
    Alike files p id (f s) (f s') := by
  obtain ⟨hcache, hsame, huses⟩ := hf s
  have heq : f s' = (f s).withCache s'.cache := by rw [h.same, hcache]; rfl
  rw [heq]
  exact ⟨rfl, hsame ▸ h.trees, hsame ▸ h.entries, huses ▸ h.uses⟩

theorem related (S : Setup) : Related S S (Alike files p id) where
  dirName := rfl
  macroState h := by rw [h.same]; rfl
  macroUsed name h := h.indifferent (.macroUsed S name)
  conditional directive h := h.indifferent (.conditional S directive)
  macroDefined name value h := h.indifferent (.macroDefined S name value)
  macroUndefined name h := h.indifferent (.macroUndefined S name)
  pragmaOnce file h := h.indifferent (.pragmaOnce S file)
  missing name h := h.indifferent (f := fun s => { s with missingHeaders := s.missingHeaders ++ [name] })
    fun _ => ⟨fun _ => rfl, rfl, rfl⟩
  headerSkipped header h := h.indifferent ((Indifferent.headerSkipped S header).comp .commitMacros)
  commitMacros h := h.indifferent .commitMacros

/-- Leaving a header with an entry that `p` holds for. -/
theorem leaveWithEntry (h : Alike files p id s s') {header : IncludedHeaders} {cache cache' : Cache}
    {hit : List Macro × CacheEntry} (found : Bool) (htrees : SameTrees files id cache cache')
    (hentries : AllEntries p id cache) (hfile : files header.file) (hhit : p header.file hit.2) :
    Alike files p id (S.leaveWithEntry found s header cache hit) (S.leaveWithEntry found s' header cache' hit) := by
  refine ⟨by rw [h.same]; rfl, htrees, hentries, ?_⟩
  intro u hu
  have huses : (S.leaveWithEntry found s header cache hit).uses =
      s.uses ++ [⟨found, header, s.macroState, hit.1, hit.2⟩] := rfl
  rw [huses, List.mem_append, List.mem_singleton] at hu
  rcases hu with hu | rfl
  · exact h.uses u hu
  · exact ⟨hfile, hhit⟩

theorem leaveHeader (h : Alike files p S.searchPathId s s') {header : IncludedHeaders} {parent parent' : Tracker}
    (hparent : parent.ctx = parent'.ctx) (hfile : files header.file)
    (hnew : ∀ e : CacheEntry, e.recordedUnder = S.searchPath → p header.file e) :
    Alike files p S.searchPathId (S.leaveHeader parent header s) (S.leaveHeader parent' header s') := by
  have hctx : s'.ctx = s.ctx := by rw [h.same]; rfl
  have hentry : S.newEntry header s' = S.newEntry header s := by rw [h.same]; rfl
  simp only [Setup.leaveHeader, hctx, hentry]
  split
  · obtain ⟨hsame, htrees⟩ := h.trees.addEntry hfile s.ctx.usedHere (S.newEntry header s)
    obtain ⟨hentries, hp⟩ := h.entries.addEntry s.ctx.usedHere (hnew (S.newEntry header s) rfl)
    have hs : Alike files p S.searchPathId { s with ctx := parent.ctx } { s' with ctx := parent'.ctx } := by
      rw [← hparent]
      exact h.indifferent (f := fun s => { s with ctx := parent.ctx }) fun _ => ⟨fun _ => rfl, rfl, rfl⟩
    rw [← hsame]
    exact hs.leaveWithEntry false htrees hentries hfile hp
  · rw [← hparent]
    exact h.indifferent (f := fun t => Tracker.addHeader { t with
      ctx := parent.ctx.propagate s.ctx.usedHere s.ctx.changedHere s.ctx.includedHeaders } (S.makeHeader header))
      fun _ => ⟨fun _ => rfl, rfl, rfl⟩

theorem findEntry (h : Alike files p S.searchPathId s s') {file : FileId} (hfile : files file) :
    (S.findEntry s file).1 = (S.findEntry s' file).1 ∧
      SameTrees files S.searchPathId (S.findEntry s file).2 (S.findEntry s' file).2 ∧
      AllEntries p S.searchPathId (S.findEntry s file).2 ∧ ∀ hit, (S.findEntry s file).1 = some hit → p file hit.2 := by
  have hmacros : s'.macroState = s.macroState := by rw [h.same]; rfl
  unfold Setup.findEntry
  split
  · rw [hmacros]
    obtain ⟨hsame, htrees⟩ := h.trees.findEntry hfile s.macroState
    obtain ⟨hentries, hhit⟩ := h.entries.findEntry file s.macroState
    exact ⟨hsame, htrees, hentries, hhit⟩
  · exact ⟨rfl, h.trees, h.entries, by simp⟩

/-- Headers are entered alike. -/
theorem enterHeader (hclosed : ∀ includer i file, files includer → (S.files includer).Includes i → i.file = some file →
      files file)
    (hnew : ∀ file, files file → ∀ e : CacheEntry, e.recordedUnder = S.searchPath → p file e) (depth : Nat) :
    RelatedEnter (Alike files p S.searchPathId) files (S.enterHeader depth) (fun _ => S.enterHeader depth) := by
  induction depth with
  | zero => simp [RelatedEnter, Setup.enterHeader]
  | succ depth ih =>
    intro header s s' t hfile h ht
    obtain ⟨hsame, htrees, hentries, hhit⟩ := h.findEntry hfile
    simp only [Setup.enterHeader] at ht ⊢
    generalize hfound : S.findEntry s header.file = found at ht hsame htrees hentries hhit
    generalize hfound' : S.findEntry s' header.file = found' at hsame htrees ⊢
    obtain ⟨hit, cache⟩ := found
    obtain ⟨hit', cache'⟩ := found'
    obtain rfl : hit = hit' := hsame
    cases hit with
    | some hit =>
      cases ht
      exact ⟨_, .const rfl, h.leaveWithEntry true htrees hentries hfile (hhit hit rfl)⟩
    | none =>
      obtain ⟨t₁, ht₁, rfl⟩ := Option.map_eq_some_iff.1 ht
      have hcaches : Alike files p S.searchPathId { s with cache := cache } { s' with cache := cache' } :=
        ⟨by rw [h.same]; rfl, htrees, hentries, h.uses⟩
      obtain ⟨t₁', ⟨_, ht₁'⟩, h₁⟩ := (related S).lex ih header (S.files header.file)
        (fun i file => hclosed header.file i file hfile) (hcaches.indifferent (.enterFile header.file)) ht₁
      have hctx : s.ctx = s'.ctx := by rw [h.same]; rfl
      refine ⟨S.leaveHeader s' header t₁', .const ?_, h₁.leaveHeader hctx hfile (hnew header.file hfile)⟩
      exact Option.map_eq_some_iff.2 ⟨t₁', ht₁' _ (Nat.le_refl _), rfl⟩

/-- A source with two caches that agree on the files in reach. -/
theorem preprocessSource {depth : Nat} {source : Source} {cache cache' : Cache} {t : Tracker}
    (ht : S.preprocessSource depth source cache = some t)
    (htrees : SameTrees (Reach S.files source.prog) S.searchPathId cache cache')
    (hentries : AllEntries p S.searchPathId cache)
    (hnew : ∀ file, Reach S.files source.prog file → ∀ e : CacheEntry, e.recordedUnder = S.searchPath → p file e) :
    ∃ t', S.preprocessSource depth source cache' = some t' ∧
      Alike (Reach S.files source.prog) p S.searchPathId t t' := by
  have hstart : Alike (Reach S.files source.prog) p S.searchPathId { cache := cache } { cache := cache' } :=
    ⟨rfl, htrees, hentries, by simp⟩
  obtain ⟨t', ⟨_, ht'⟩, halike⟩ := (related S).lex
    (enterHeader (fun includer i file hr hi hf => .nested hr hi hf) hnew depth) source.main source.prog
    (fun i file hi hf => .direct hi hf) (hstart.indifferent (.enterFile source.main.file)) ht
  exact ⟨t', ht' _ (Nat.le_refl _), halike⟩

end Alike

/-! ## Scans with search paths of their own -/

/-- What all scans share: the files do not change, but what is found under a name depends on the search path. -/
structure Disk where
  isDirectory : String → Bool
  text : FileId → List Naive.Token
  files : SearchPath → FileId → Prog
  lookupFile : SearchPath → String → Bool → FileId → Option Naive.Found
  name : FileId → String
  dirName : FileId → String
  contentEntry : FileId → String
  hashCombine : Nat → String → Nat
  expired : Nat → CacheEntry → Bool := fun _ _ => false

/-- What `scanHeaders` is called with. -/
structure Scan where
  userSearchPath : List String
  systemSearchPath : List String
  forcedIncludes : List String := []
  source : Source

namespace Disk
variable (D : Disk)

/-- Directories that do not exist are left out. -/
def searchPath (scan : Scan) : SearchPath :=
  ⟨scan.userSearchPath.filter D.isDirectory, scan.systemSearchPath.filter D.isDirectory⟩

/-- `llvm::hash_combine` returns the new value, which is dropped. -/
def searchPathId (scan : Scan) : Nat :=
  let combine (searchPathId : Nat) (path : String) : Nat :=
    let _ := D.hashCombine searchPathId path
    searchPathId
  (D.searchPath scan).system.foldl combine ((D.searchPath scan).user.foldl combine 0)

def setup (scan : Scan) : Setup where
  files := D.files (D.searchPath scan)
  dirName := D.dirName
  contentEntry := D.contentEntry
  searchPath := D.searchPath scan
  searchPathId := D.searchPathId scan
  expired := D.expired

def call (scan : Scan) : Call where
  setup := D.setup scan
  source := scan.source
  forcedIncludes := scan.forcedIncludes
  text := D.text
  lookupFile := D.lookupFile (D.searchPath scan)
  name := D.name

theorem searchPathId_eq (scan : Scan) : D.searchPathId scan = 0 := by
  have hsame : ∀ (paths : List String) (id : Nat), paths.foldl (fun id _ => id) id = id := by
    intro paths id
    induction paths with
    | nil => rfl
    | cons path paths ih => exact ih
  simp [searchPathId, hsame]

variable {D} {depth turns : Nat} {scans : List Scan} {scan : Scan} {cache cache' : Cache} {ts : List Tracker}

/-- The entries in the cache after some sources were preprocessed come from these. -/
theorem entries_from {all : List Call} (calls : List Call) (hsub : calls ⊆ all)
    (hid : ∀ call ∈ calls, call.setup.searchPathId = 0)
    (hentries : AllEntries (fun file e => ∃ call ∈ all, call.setup.searchPath = e.recordedUnder ∧ call.InReach file) 0
      cache)
    (h : preprocessAll depth (calls.map fun call => (call.setup, call.source)) cache = some (ts, cache')) :
    AllEntries (fun file e => ∃ call ∈ all, call.setup.searchPath = e.recordedUnder ∧ call.InReach file) 0 cache' := by
  induction calls generalizing cache ts with
  | nil =>
    cases h
    exact hentries
  | cons call calls ih =>
    obtain ⟨t, ht, hrest⟩ := Option.bind_eq_some_iff.1 h
    obtain ⟨⟨ts, last⟩, hts, heq⟩ := Option.map_eq_some_iff.1 hrest
    cases heq
    have hown := hid call List.mem_cons_self
    rw [← hown] at hentries
    obtain ⟨t', -, halike⟩ := Alike.preprocessSource ht ⟨rfl, fun _ _ => rfl⟩ hentries
      fun file hfile e he => ⟨call, hsub List.mem_cons_self, he.symm, .inl hfile⟩
    exact ih (fun c hc => hsub (List.mem_cons_of_mem _ hc)) (fun c hc => hid c (List.mem_cons_of_mem _ hc))
      (hown ▸ halike.entries) hts

/-- The file is the source of one of the calls under another search path. -/
def ForeignSource (calls : List Call) (path : SearchPath) (file : FileId) : Prop :=
  ∃ call ∈ calls, call.setup.searchPath ≠ path ∧ call.source.main.file = file

/-- The file is in reach of one of the calls under another search path. -/
def ForeignHeader (calls : List Call) (path : SearchPath) (file : FileId) : Prop :=
  ∃ call ∈ calls, call.setup.searchPath ≠ path ∧ call.InReach file

/-- The caches are the same but for these files. A mark may be missing from a header, and a source may have one more. -/
structure SameElsewhere (text : FileId → List Naive.Token) (sources headers : FileId → Prop) (searchPathId : Nat)
    (caches caches' : Caches) : Prop where
  agrees : Naive.Clang.Agrees text caches'.naive
  time : caches.cache.time = caches'.cache.time
  trees : ∀ file, ¬ headers file →
    caches.cache.cacheContainer (file, searchPathId) = caches'.cache.cacheContainer (file, searchPathId)
  marked : ∀ file, ¬ sources file → caches'.naive file = some .complex → caches.naive file = some .complex
  kept : ∀ file, ¬ sources file → ¬ headers file → caches.naive file = some .complex →
    caches'.naive file = some .complex

/-- `h.h` includes `x.h`, which there is in `/a` and in `/b`. The other headers are empty. There is a source that
includes `h.h` by its name, and one that includes something by way of a macro. -/
def twoDirectories : Disk where
  isDirectory _ := true
  text file :=
    if file = ⟨0, 0⟩ then computedText
    else if file = ⟨0, 1⟩ then Naive.IncludeDirective.tokens ⟨"x.h", true⟩
    else if file = ⟨0, 6⟩ then Naive.IncludeDirective.tokens ⟨"h.h", false⟩
    else []
  files path file :=
    if file = ⟨0, 1⟩ then
      if "/a" ∈ path.user then
        .include ⟨"x.h", true, some ⟨0, 2⟩, "/a", "x.h"⟩ .done
      else
        .include ⟨"x.h", true, some ⟨0, 3⟩, "/b", "x.h"⟩ .done
    else .done
  lookupFile path name _ _ :=
    if name = "x.h" then
      if "/a" ∈ path.user then some ⟨⟨0, 2⟩, "/a", "x.h"⟩ else some ⟨⟨0, 3⟩, "/b", "x.h"⟩
    else if name = "h.h" then some ⟨⟨0, 1⟩, "/p", "h.h"⟩
    else some ⟨⟨0, 4⟩, "/p", "k.h"⟩
  name _ := "main.cpp"
  dirName _ := "/p"
  contentEntry _ := ""
  hashCombine id path := if path = "/a" then 2 * id + 1 else 2 * id + 2

/-- The source in `/p` that includes a header by way of a macro. -/
def computing (dir name : String) (file : FileId) : Scan where
  userSearchPath := [dir]
  systemSearchPath := []
  source := { main := ⟨⟨"/p", "main.cpp"⟩, true, ⟨0, 0⟩⟩, prog := computedInclude (nextTo name file) }

/-- The source that includes `h.h` by its name. -/
def naming (dir : String) : Scan where
  userSearchPath := [dir]
  systemSearchPath := []
  source := { main := ⟨⟨"/p", "other.cpp"⟩, true, ⟨0, 6⟩⟩, prog := .include (nextTo "h.h" ⟨0, 1⟩) .done }

theorem computing_inReach {dir name : String} {file file' : FileId}
    (h : (twoDirectories.call (computing dir name file)).InReach file') :
    file' = file ∨ file = ⟨0, 1⟩ ∧ (file' = ⟨0, 2⟩ ∨ file' = ⟨0, 3⟩) := by
  rw [Call.inReach_computed rfl rfl] at h
  have hincludes : ∀ includer i file', (twoDirectories.files ⟨[dir], []⟩ includer).Includes i → i.file = some file' →
      includer = ⟨0, 1⟩ ∧ (file' = ⟨0, 2⟩ ∨ file' = ⟨0, 3⟩) := by
    intro includer i file' hi hf
    simp only [twoDirectories] at hi
    split at hi
    · next heq =>
      refine ⟨heq, ?_⟩
      split at hi
      · rcases hi with rfl | hi
        · exact .inl (Option.some.inj hf).symm
        · exact hi.elim
      · rcases hi with rfl | hi
        · exact .inr (Option.some.inj hf).symm
        · exact hi.elim
    · exact hi.elim
  induction h with
  | direct hi hf =>
    obtain ⟨-, rfl | hi⟩ := hi
    · exact .inl (Option.some.inj hf).symm
    · exact hi.elim
  | nested _ hi hf ih =>
    obtain ⟨rfl, hfile⟩ := hincludes _ _ _ hi hf
    rcases ih with rfl | ⟨-, h | h⟩
    · exact .inr ⟨rfl, hfile⟩
    · exact absurd h (by decide)
    · exact absurd h (by decide)

end Disk

end BuildPal.Scanner
