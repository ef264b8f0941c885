import BuildPal.Scanner.Preprocessing
import BuildPal.Scanner.ScanHeaders
/-!
# Replaying a header

With macro reads reported when they happen, a header replayed from the cache
does what preprocessing it would do: the macros asked for on the way to the entry
are those the header asks for. The headers of an entry are named after the place
where the header was when the entry was made, so they are the right ones only if
the header is found there again.
-/
open BuildPal.Lib

namespace BuildPal.Scanner

variable {S : Setup}

/-! ## Entries -/

/-- The entry says what preprocessing the file does with the macros of the path. The headers are right if `G`. -/
def EntryOk (S : Setup) (G : Prop) (file : FileId) (path : List Macro) (e : CacheEntry) : Prop :=
  ∃ h σ r, h.file = file ∧ h.place = e.recordedAs ∧ Preprocesses S h σ r ∧ r.ctx.usedHere = path ∧
    e.macroState = r.ctx.changedHere.map (fun name => (name, r.macroState name)) ∧ (G → e.headers = r.ctx.includedHeaders)

theorem EntryOk.imp {G G' : Prop} (hG : G' → G) {file : FileId} {path : List Macro} {e : CacheEntry}
    (h : EntryOk S G file path e) : EntryOk S G' file path e := by
  obtain ⟨header, σ, r, hfile, hplace, hr, hused, hmacros, hheaders⟩ := h
  exact ⟨header, σ, r, hfile, hplace, hr, hused, hmacros, fun hg => hheaders (hG hg)⟩

/-- `r` is what preprocessing the header comes to, and the entry says so. -/
structure Replays (S : Setup) (G : Prop) (h : IncludedHeaders) (σ : MacroState) (path : List Macro) (e : CacheEntry)
    (r : Tracker) : Prop where
  preprocesses : Preprocesses S h σ r
  used : r.ctx.usedHere = path
  macros : e.macroState = r.ctx.changedHere.map (fun name => (name, r.macroState name))
  headers : G → h.place = e.recordedAs → r.ctx.includedHeaders = e.headers

theorem Replays.imp {G G' : Prop} {h : IncludedHeaders} {σ : MacroState} {path : List Macro} {e : CacheEntry}
    {r : Tracker} (hr : Replays S G h σ path e r) (hG : G' → G) : Replays S G' h σ path e r :=
  ⟨hr.preprocesses, hr.used, hr.macros, fun hg => hr.headers (hG hg)⟩

theorem Replays.changed {G : Prop} {h : IncludedHeaders} {σ : MacroState} {path : List Macro} {e : CacheEntry}
    {r : Tracker} (hr : Replays S G h σ path e r) : r.ctx.changedHere = e.macroState.map (·.1) := by
  rw [hr.macros, List.map_map]
  exact (List.map_id _).symm

theorem EntryOk.replays {G : Prop} {h : IncludedHeaders} {σ : MacroState} {path : List Macro} {e : CacheEntry}
    (he : EntryOk S G h.file path e) (hagree : ∀ m ∈ path, σ m.1 = m.2) : ∃ r, Replays S G h σ path e r := by
  obtain ⟨header, σ₀, r₀, hfile, hplace, hr₀, rfl, hmacros, hheaders⟩ := he
  obtain ⟨r, hr, hsync, hsame⟩ := hr₀.replay hfile.symm hagree
  refine ⟨r, hr, hsync.used, ?_, fun hG hp => ?_⟩
  · rw [hmacros, hsync.changed]
    refine List.map_congr_left fun name hname => ?_
    rw [hsync.known name (.inl hname)]
  · rw [hsame (hp.trans hplace.symm), hheaders hG]

/-- `defineMacro` for macros that are each given one value. -/
theorem MacroState.defineMacros_map (σ τ : MacroState) (names : List MacroName) :
    σ.defineMacros (names.map fun name => (name, τ name)) = fun name => if name ∈ names then τ name else σ name := by
  induction names generalizing σ with
  | nil => simp [defineMacros]
  | cons n names ih =>
    have hcons : σ.defineMacros ((n :: names).map fun name => (name, τ name)) =
        (σ.defineMacro n (τ n)).defineMacros (names.map fun name => (name, τ name)) := rfl
    rw [hcons, ih]
    funext name
    by_cases hn : name = n
    · simp [defineMacro, hn]
    · simp [defineMacro, hn]

/-- The macros after the header, with those before it or with those it leaves. -/
theorem Replays.macroState {G : Prop} {h : IncludedHeaders} {σ : MacroState} {path : List Macro} {e : CacheEntry}
    {r : Tracker} (hr : Replays S G h σ path e r) :
    σ.defineMacros e.macroState = r.macroState ∧ r.macroState.defineMacros e.macroState = r.macroState := by
  have hsince := hr.preprocesses.since
  rw [hr.macros, MacroState.defineMacros_map, MacroState.defineMacros_map]
  constructor
  · funext name
    split
    · rfl
    · next hc => exact (hsince.unchanged name hc).symm
  · funext name
    split <;> rfl

/-! ## Caches -/

/-- Every tree asks what its file asks, and every entry is right. -/
def CacheOk (S : Setup) (G : Prop) (cache : Cache) : Prop :=
  ∀ file, (cache.cacheContainer (file, S.searchPathId)).Asking (Asks S file) [] ∧
    ∀ path e, (cache.cacheContainer (file, S.searchPathId)).Holds path e → EntryOk S G file path e

namespace CacheOk
variable {G : Prop} {cache : Cache}

theorem imp {G' : Prop} (h : CacheOk S G cache) (hG : G' → G) : CacheOk S G' cache :=
  fun file => ⟨(h file).1, fun path e he => ((h file).2 path e he).imp hG⟩

theorem empty (S : Setup) (G : Prop) : CacheOk S G {} := by
  intro file
  refine ⟨Trie.empty_asking _, ?_⟩
  intro path e he
  cases path with
  | nil => cases he
  | cons m path => cases he.1

theorem findEntry (h : CacheOk S G cache) (file : FileId) (σ : MacroState) :
    CacheOk S G (cache.findEntry S.expired file S.searchPathId σ).2 ∧
      ∀ hit, (cache.findEntry S.expired file S.searchPathId σ).1 = some hit →
        EntryOk S G file hit.1 hit.2 ∧ ∀ m ∈ hit.1, σ m.1 = m.2 := by
  refine ⟨?_, ?_⟩
  · simp only [Cache.findEntry, Cache.maintenance]
    split
    · exact h
    · intro f
      obtain ⟨hholds, hasking⟩ := @Trie.pruneRoot_spec _ _ _ (Asks S f) _ (cache.cacheContainer (f, S.searchPathId))
      exact ⟨hasking [] (h f).1, fun path e he => (h f).2 path e (hholds path e he)⟩
  · intro hit hhit
    obtain ⟨hholds, hagree⟩ := Trie.find_sound _ hit.1 hit.2 hhit
    exact ⟨(h file).2 _ _ hholds, hagree⟩

/-- What a header asks follows what its tree is to ask. -/
theorem follows_of_preprocesses {h : IncludedHeaders} {σ : MacroState} {r : Tracker} (hr : Preprocesses S h σ r) :
    ∀ answers path, r.ctx.usedHere = answers ++ path → Trie.Follows (Asks S h.file) answers path
  | _, [], _ => trivial
  | answers, (name, value) :: path, heq =>
    ⟨⟨h, σ, r, value, path, rfl, hr, heq⟩, follows_of_preprocesses hr (answers ++ [(name, value)]) path (by simp [heq])⟩

theorem addEntry (hc : CacheOk S G cache) {h : IncludedHeaders} {σ : MacroState} {r : Tracker} {e : CacheEntry}
    (hr : Preprocesses S h σ r) (he : EntryOk S G h.file r.ctx.usedHere e) :
    CacheOk S G (cache.addEntry h.file S.searchPathId r.ctx.usedHere e).2 ∧
      (cache.addEntry h.file S.searchPathId r.ctx.usedHere e).1.1 = r.ctx.usedHere ∧
      EntryOk S G h.file r.ctx.usedHere (cache.addEntry h.file S.searchPathId r.ctx.usedHere e).1.2 := by
  have hunique : ∀ c n n', Asks S h.file c n → Asks S h.file c n' → n = n' := fun _ _ _ => asks_unique
  have hspec := Trie.insert_spec hunique e r.ctx.usedHere [] (cache.cacheContainer (h.file, S.searchPathId))
    (hc h.file).1 (follows_of_preprocesses hr [] _ rfl)
  refine ⟨?_, hspec.way, ?_⟩
  · intro file
    simp only [Cache.addEntry]
    split
    · next heq =>
      cases heq
      refine ⟨hspec.asking, fun path e' he' => ?_⟩
      rcases hspec.old path e' he' with hold | ⟨rfl, rfl⟩
      · exact (hc h.file).2 path e' hold
      · exact he
    · exact hc file
  · rcases hspec.entry with hold | hnew
    · exact (hc h.file).2 _ _ hold
    · have hentry : (cache.addEntry h.file S.searchPathId r.ctx.usedHere e).1.2 = e := hnew
      rw [hentry]
      exact he

end CacheOk

/-! ## A scan beside preprocessing -/

/-- The entries that were used were recorded where the header is now. -/
def InPlace (uses : List Use) : Prop := ∀ u ∈ uses, u.header.place = u.entry.recordedAs

theorem InPlace.of_append {uses uses' : List Use} (h : InPlace (uses ++ uses')) : InPlace uses :=
  fun u hu => h u (List.mem_append_left _ hu)

/-- A scan with the cache, and beside it one without. The headers are the same if `G`, and if every entry used so far
was in its place. `past` are the uses before. -/
structure Mirrors (S : Setup) (G : Prop) (past : List Use) (s s' : Tracker) : Prop where
  macroState : s'.macroState = s.macroState
  stack : s.conditionStack = {}
  stack' : s'.conditionStack = {}
  used : s'.ctx.usedHere = s.ctx.usedHere
  changed : s'.ctx.changedHere = s.ctx.changedHere
  headers : G ∧ InPlace s.uses → s'.ctx.includedHeaders = s.ctx.includedHeaders
  cache : CacheOk S (G ∧ InPlace s.uses) s.cache
  hits : ∀ u ∈ s.uses, u.found = true →
    ∃ r, Replays S (G ∧ InPlace s.uses) u.header u.macroState u.usedMacros u.entry r
  grown : past <+: s.uses

namespace Mirrors
variable {G : Prop} {past : List Use} {s s' : Tracker}

theorem ctxMacroUsed (h : Mirrors S G past s s') (name : MacroName) :
    Mirrors S G past (s.ctxMacroUsed name) (s'.ctxMacroUsed name) := by
  have hctx : ∀ r : Tracker, (r.ctxMacroUsed name).ctx =
      { r.ctx with usedHere := noteUsed r.ctx.changedHere r.ctx.usedHere (name, r.macroState name) } :=
    fun r => HeaderCtx.macroUsed_eq _ _
  refine ⟨h.macroState, h.stack, h.stack', ?_, ?_, ?_, h.cache, h.hits, h.grown⟩
  · simp only [hctx, h.used, h.changed, h.macroState]
  · simp only [hctx, h.changed]
  · intro hg
    simp only [hctx, h.headers hg]

theorem ctxMacroChanged (h : Mirrors S G past s s') (name : MacroName) (value : MacroValue) :
    Mirrors S G past (s.ctxMacroChanged name value) (s'.ctxMacroChanged name value) := by
  refine ⟨?_, h.stack, h.stack', h.used, ?_, h.headers, h.cache, h.hits, h.grown⟩
  · simp only [Tracker.ctxMacroChanged, h.macroState]
  · simp only [Tracker.ctxMacroChanged, HeaderCtx.macroChanged, h.changed]

theorem addHeader (h : Mirrors S G past s s') (header : Header) :
    Mirrors S G past (s.addHeader header) (s'.addHeader header) := by
  refine ⟨h.macroState, h.stack, h.stack', h.used, h.changed, fun hg => ?_, h.cache, h.hits, h.grown⟩
  simp only [Tracker.addHeader, HeaderCtx.addHeader, h.headers hg]

theorem related (hS : S.Prompt) : Related S S.direct (Mirrors S G past) where
  dirName := rfl
  macroState h := h.macroState.symm
  macroUsed name h := by
    rw [hS.macroUsed, Setup.direct_prompt.macroUsed]
    exact h.ctxMacroUsed name
  conditional directive h := by
    rw [hS.conditional, Setup.direct_prompt.conditional]
    exact h
  macroDefined name value h := by
    rw [hS.macroDefined h.stack, Setup.direct_prompt.macroDefined h.stack']
    exact h.ctxMacroChanged name (some value)
  macroUndefined name h := by
    rw [hS.macroUndefined h.stack, Setup.direct_prompt.macroUndefined h.stack']
    exact h.ctxMacroChanged name none
  pragmaOnce file h := by
    rw [hS.pragmaOnce, Setup.direct_prompt.pragmaOnce]
    exact h.ctxMacroChanged _ _
  missing name h := ⟨h.macroState, h.stack, h.stack', h.used, h.changed, h.headers, h.cache, h.hits, h.grown⟩
  headerSkipped header h := by
    rw [Tracker.commitMacros_eq h.stack, Tracker.commitMacros_eq h.stack', hS.headerSkipped,
      Setup.direct_prompt.headerSkipped]
    exact (h.ctxMacroUsed _).addHeader _
  commitMacros h := by
    rw [Tracker.commitMacros_eq h.stack, Tracker.commitMacros_eq h.stack']
    exact h

/-- A header is left with an entry that says what preprocessing it comes to. `t` is the tracker the entry is used in,
with the parent's context. -/
theorem leaveWithEntry (h : Mirrors S G past s s') {header : IncludedHeaders} {t t' r : Tracker} {cache : Cache}
    {hit : List Macro × CacheEntry} {found : Bool} (hctx : t.ctx = s.ctx) (hstack : t.conditionStack = {})
    (huses : s.uses <+: t.uses)
    (hhits : ∀ u ∈ t.uses, u.found = true →
      ∃ r, Replays S (G ∧ InPlace t.uses) u.header u.macroState u.usedMacros u.entry r)
    (hcache : CacheOk S (G ∧ InPlace t.uses) cache)
    (hr : Replays S (G ∧ InPlace t.uses) header s.macroState hit.1 hit.2 r)
    (hmacros : t.macroState.defineMacros hit.2.macroState = r.macroState)
    (hfound : found = true → t.macroState = s.macroState)
    (hmacros' : t'.macroState = r.macroState) (hctx' : t'.ctx = r.ctx) (hstack' : t'.conditionStack = {}) :
    Mirrors S G past (S.leaveWithEntry found t header cache hit) (S.direct.leaveHeader s' header t') := by
  have hplace : InPlace (t.uses ++ [⟨found, header, t.macroState, hit.1, hit.2⟩]) →
      InPlace t.uses ∧ header.place = hit.2.recordedAs :=
    fun hin => ⟨hin.of_append, hin ⟨found, header, t.macroState, hit.1, hit.2⟩ (by simp)⟩
  have hbefore : G ∧ InPlace (t.uses ++ [⟨found, header, t.macroState, hit.1, hit.2⟩]) → G ∧ InPlace t.uses :=
    fun hg => ⟨hg.1, (hplace hg.2).1⟩
  have hleft : Mirrors S G past
      { t with
        macroState := t.macroState.defineMacros hit.2.macroState
        ctx := t.ctx.propagate hit.1 (hit.2.macroState.map (·.1)) hit.2.headers
        cache := cache
        uses := t.uses ++ [⟨found, header, t.macroState, hit.1, hit.2⟩] }
      { t' with ctx := s'.ctx.propagate t'.ctx.usedHere t'.ctx.changedHere t'.ctx.includedHeaders } := by
    refine ⟨?_, hstack, hstack', ?_, ?_, ?_, hcache.imp hbefore, ?_,
      h.grown.trans (huses.trans (List.prefix_append _ _))⟩
    · rw [hmacros]
      exact hmacros'
    · simp only [hctx, hctx', HeaderCtx.propagate_eq, h.used, h.changed, hr.used]
    · simp only [hctx, hctx', HeaderCtx.propagate_eq, h.changed, hr.changed]
    · intro hg
      have hheaders := h.headers ⟨hg.1, fun u hu => (hplace hg.2).1 u (huses.subset hu)⟩
      simp only [hctx, hctx', HeaderCtx.propagate_eq, hheaders, hr.headers (hbefore hg) (hplace hg.2).2]
    · intro u hu hf
      rcases List.mem_append.1 hu with hu | hu
      · obtain ⟨r', hr'⟩ := hhits u hu hf
        exact ⟨r', hr'.imp hbefore⟩
      · obtain rfl := List.mem_singleton.1 hu
        have hpre : Preprocesses S header t.macroState r := hfound hf ▸ hr.preprocesses
        exact ⟨r, hpre, hr.used, hr.macros, fun hg => hr.headers (hbefore hg)⟩
  rw [Setup.direct_leaveHeader]
  exact hleft.addHeader (S.makeHeader header)

/-- A header that was preprocessed is left. -/
theorem leaveHeader (h : Mirrors S G past s s') {header : IncludedHeaders} {t t' : Tracker}
    (ht : Mirrors S G s.uses t t')
    (hrun : Settles (fun depth => S.direct.lex (S.direct.enterHeader depth) header (S.files header.file)
      (s'.enterFile header.file)) t') :
    Mirrors S G past (S.leaveHeader s header t) (S.direct.leaveHeader s' header t') := by
  obtain ⟨depth, hdepth⟩ := hrun
  obtain ⟨r, hr, hmacros, hctx⟩ := preprocesses_of_lex h.stack' (hdepth depth (Nat.le_refl depth))
  rw [h.macroState] at hr
  have hused : r.ctx.usedHere = t.ctx.usedHere := by rw [hctx, ht.used]
  have hchanged : r.ctx.changedHere = t.ctx.changedHere := by rw [hctx, ht.changed]
  have htmacros : r.macroState = t.macroState := by rw [hmacros, ht.macroState]
  by_cases hviable : S.caching = .enabled ∧ t.ctx.isViableForCache
  · -- The entry returned may be an older one, but it says the same.
    have hleave : S.leaveHeader s header t = S.leaveWithEntry false { t with ctx := s.ctx } header
        (t.cache.addEntry header.file S.searchPathId t.ctx.usedHere (S.newEntry header t)).2
        (t.cache.addEntry header.file S.searchPathId t.ctx.usedHere (S.newEntry header t)).1 := by
      simp only [Setup.leaveHeader, if_pos hviable]
    have hentry : EntryOk S (G ∧ InPlace t.uses) header.file r.ctx.usedHere (S.newEntry header t) := by
      refine ⟨header, s.macroState, r, rfl, rfl, hr, rfl, ?_, fun hg => ?_⟩
      · simp only [Setup.newEntry, hchanged, htmacros]
      · rw [hctx, ht.headers hg]
        rfl
    obtain ⟨hcache, hway, hentry'⟩ := ht.cache.addEntry hr hentry
    rw [hused] at hcache hway hentry'
    rw [hleave]
    generalize t.cache.addEntry header.file S.searchPathId t.ctx.usedHere (S.newEntry header t) = added
      at hcache hway hentry' ⊢
    have hagree : ∀ m ∈ t.ctx.usedHere, s.macroState m.1 = m.2 :=
      fun m hm => (hr.since.values m (hused ▸ hm)).symm
    obtain ⟨r', hr'⟩ := hentry'.replays hagree
    obtain rfl := hr.unique hr'.preprocesses
    rw [← hway] at hr'
    exact h.leaveWithEntry rfl ht.stack ht.grown ht.hits hcache hr' (by rw [← htmacros]; exact hr'.macroState.2)
      (by simp) hmacros.symm hctx.symm ht.stack'
  · have hleave : S.leaveHeader s header t = Tracker.addHeader { t with
        ctx := s.ctx.propagate t.ctx.usedHere t.ctx.changedHere t.ctx.includedHeaders } (S.makeHeader header) := by
      simp only [Setup.leaveHeader, if_neg hviable]
    have hleft : Mirrors S G past
        { t with ctx := s.ctx.propagate t.ctx.usedHere t.ctx.changedHere t.ctx.includedHeaders }
        { t' with ctx := s'.ctx.propagate t'.ctx.usedHere t'.ctx.changedHere t'.ctx.includedHeaders } := by
      refine ⟨ht.macroState, ht.stack, ht.stack', ?_, ?_, ?_, ht.cache, ht.hits, h.grown.trans ht.grown⟩
      · simp only [HeaderCtx.propagate_eq, h.used, h.changed, ht.used]
      · simp only [HeaderCtx.propagate_eq, h.changed, ht.changed]
      · intro hg
        have hheaders := h.headers ⟨hg.1, fun u hu => hg.2 u (ht.grown.subset hu)⟩
        simp only [HeaderCtx.propagate_eq, hheaders, ht.headers hg]
    rw [hleave, Setup.direct_leaveHeader]
    exact hleft.addHeader (S.makeHeader header)

/-- The header is preprocessed in both. -/
theorem enterFile (h : Mirrors S G past s s') {cache : Cache} (hcache : CacheOk S (G ∧ InPlace s.uses) cache)
    (file : FileId) :
    Mirrors S G s.uses (Tracker.enterFile { s with cache := cache } file) (s'.enterFile file) := by
  have hempty : Mirrors S G s.uses { s with cache := cache, ctx := {} } { s' with ctx := {} } :=
    ⟨h.macroState, h.stack, h.stack', rfl, rfl, fun _ => rfl, hcache, h.hits, List.prefix_rfl⟩
  exact hempty.ctxMacroUsed _

theorem enterHeader (hS : S.Prompt) (henabled : S.caching = .enabled) (depth : Nat) (past : List Use) :
    RelatedEnter (Mirrors S G past) (fun _ => True) (S.enterHeader depth) S.direct.enterHeader := by
  induction depth generalizing past with
  | zero => simp [RelatedEnter, Setup.enterHeader]
  | succ depth ih =>
    intro header s s' t _ h ht
    obtain ⟨hcache, hhit⟩ := h.cache.findEntry header.file s.macroState
    have hfind : S.findEntry s header.file = s.cache.findEntry S.expired header.file S.searchPathId s.macroState := by
      simp [Setup.findEntry, henabled]
    rw [← hfind] at hcache hhit
    simp only [Setup.enterHeader] at ht
    generalize S.findEntry s header.file = found at ht hcache hhit
    obtain ⟨hit, cache⟩ := found
    cases hit with
    | some hit =>
      cases ht
      obtain ⟨hentry, hagree⟩ := hhit hit rfl
      obtain ⟨r, hr⟩ := hentry.replays hagree
      have hpre : Preprocesses S header s'.macroState r := h.macroState.symm ▸ hr.preprocesses
      obtain ⟨t', ht', hmacros', hctx', hstack'⟩ := hpre.lex h.stack'
      refine ⟨_, Setup.direct_settles ht', ?_⟩
      exact h.leaveWithEntry rfl h.stack List.prefix_rfl h.hits hcache hr hr.macroState.1 (fun _ => rfl) hmacros' hctx'
        hstack'
    | none =>
      obtain ⟨t₁, ht₁, rfl⟩ := Option.map_eq_some_iff.1 ht
      obtain ⟨t₁', ht₁', h₁⟩ := (related hS).lex (ih s.uses) header _ (fun _ _ _ _ => trivial)
        (h.enterFile hcache header.file) ht₁
      refine ⟨_, Setup.direct_settles ht₁', ?_⟩
      exact h.leaveHeader h₁ ht₁'

/-- A whole source. -/
theorem preprocessSource (hS : S.Prompt) (henabled : S.caching = .enabled) {depth : Nat} {source : Source}
    {cache : Cache} {t : Tracker} (hcache : CacheOk S G cache) (ht : S.preprocessSource depth source cache = some t) :
    ∃ t', Settles (fun depth => S.direct.preprocessSource depth source {}) t' ∧ Mirrors S G [] t t' := by
  have hstart : Mirrors S G [] { cache := cache } {} :=
    ⟨rfl, rfl, rfl, rfl, rfl, fun _ => rfl, hcache.imp And.left, by simp, List.prefix_rfl⟩
  exact (related hS).lex (enterHeader hS henabled depth []) source.main source.prog (fun _ _ _ _ => trivial)
    (hstart.enterFile (hcache.imp And.left) source.main.file) ht

end Mirrors

/-! ## Scans that share a cache -/

theorem preprocessAll_mirrors (hS : S.Prompt) (henabled : S.caching = .enabled) {G : Prop} {depth : Nat}
    {sources : List Source} {cache after : Cache} {ts : List Tracker} (hcache : CacheOk S G cache)
    (hG : G → ∀ t ∈ ts, InPlace t.uses)
    (hscans : preprocessAll depth (sources.map fun source => (S, source)) cache = some (ts, after)) :
    ∀ t ∈ ts, ∃ t', Mirrors S G [] t t' := by
  induction sources generalizing cache ts with
  | nil =>
    cases hscans
    simp
  | cons source sources ih =>
    obtain ⟨t, ht, hrest⟩ := Option.bind_eq_some_iff.1 hscans
    obtain ⟨⟨ts, last⟩, hts, heq⟩ := Option.map_eq_some_iff.1 hrest
    cases heq
    obtain ⟨t', -, hmirrors⟩ := Mirrors.preprocessSource hS henabled hcache ht
    have hcache' : CacheOk S G t.cache := hmirrors.cache.imp fun hg => ⟨hg, hG hg t List.mem_cons_self⟩
    intro u hu
    rcases List.mem_cons.1 hu with rfl | hu
    · exact ⟨t', hmirrors⟩
    · exact ih hcache' (fun hg t ht => hG hg t (List.mem_cons_of_mem _ ht)) hts u hu

/-- What is replayed from the cache is what preprocessing the header comes to: the macros always, the headers if every
entry that was used was recorded where its header is. -/
theorem replay_equals_preprocessing (himmediate : S.immediate = true) (henabled : S.caching = .enabled)
    {depth turns : Nat} {calls : List Call} (hcalls : ∀ call ∈ calls, call.setup = S) {naive : Naive.NaiveCache}
    {answers : List Answer} {after : Caches} (hscans : scanAll depth turns calls { naive } = some (answers, after)) :
    ∀ a ∈ answers, ∀ u ∈ a.uses, u.found = true → ∃ r, Preprocesses S u.header u.macroState r ∧
      r.macroState = u.macroState.defineMacros u.entry.macroState ∧
      r.ctx.usedHere = u.usedMacros ∧
      r.ctx.changedHere = u.entry.macroState.map (·.1) ∧
      ((∀ a ∈ answers, InPlace a.uses) → r.ctx.includedHeaders = u.entry.headers) := by
  have hS : S.Prompt := ⟨by simp [henabled], himmediate⟩
  have hsources : ((Call.preprocessed turns calls naive).map fun call => (call.setup, call.source)) =
      ((Call.preprocessed turns calls naive).map (·.source)).map fun source => (S, source) := by
    rw [List.map_map]
    refine List.map_congr_left fun call hcall => ?_
    rw [hcalls call (Call.preprocessed_subset turns calls naive hcall)]
    rfl
  have hcache := scanAll_preprocessed hscans
  rw [hsources] at hcache
  intro a ha u hu hfound
  cases a with
  | naive headers => cases hu
  | preprocessed t =>
    have ht : t ∈ answers.filterMap Answer.tracker := List.mem_filterMap.2 ⟨_, ha, rfl⟩
    have hplaces : (∀ a ∈ answers, InPlace a.uses) → ∀ t ∈ answers.filterMap Answer.tracker, InPlace t.uses := by
      intro hall t ht
      obtain ⟨a, ha, htracker⟩ := List.mem_filterMap.1 ht
      cases a with
      | naive headers => cases htracker
      | preprocessed t' =>
        cases htracker
        exact hall _ ha
    obtain ⟨t', hmirrors⟩ := preprocessAll_mirrors hS henabled (CacheOk.empty S (∀ a ∈ answers, InPlace a.uses)) hplaces
      hcache t ht
    obtain ⟨r, hr⟩ := hmirrors.hits u hu hfound
    exact ⟨r, hr.preprocesses, hr.macroState.1.symm, hr.used, hr.changed,
      fun hg => hr.headers ⟨hg, hg _ ha⟩ (hg _ ha u hu)⟩

/-! ## A header that is next to another -/

/-- `/p/sub/h.h` includes `c.h`, which is next to it. -/
def nested : Setup where
  files file :=
    if file = ⟨0, 1⟩ then
      .include { fileName := "c.h", isAngled := false, file := some ⟨0, 2⟩, searchPath := "/p/sub", relativePath := "c.h" }
        .done
    else .done
  dirName file := if file = ⟨0, 1⟩ ∨ file = ⟨0, 2⟩ then "/p/sub" else "/p"
  contentEntry _ := ""
  searchPath := ⟨["/p", "/p/sub"], []⟩
  immediate := true

/-- The source includes `h.h` by way of a macro, and finds it in the directory. -/
def including (source : String × FileId) (dir name : String) : Call where
  setup := nested
  source := {
    main := ⟨⟨"/p", source.1⟩, true, source.2⟩
    prog := computedInclude
      { fileName := name, isAngled := false, file := some ⟨0, 1⟩, searchPath := dir, relativePath := name } }
  text file :=
    if file = source.2 then computedText
    else if file = ⟨0, 1⟩ then Naive.IncludeDirective.tokens ⟨"c.h", false⟩
    else []
  lookupFile name _ _ :=
    if name = "h.h" then some ⟨⟨0, 1⟩, "/p/sub", "h.h"⟩
    else if name = "sub/h.h" then some ⟨⟨0, 1⟩, "/p", "sub/h.h"⟩
    else some ⟨⟨0, 2⟩, "/p/sub", "c.h"⟩
  name _ := source.1

/-- Two sources that include `h.h`. -/
def nestedCalls (dir name : String) : List Call :=
  [including ("main.cpp", ⟨0, 0⟩) "/p/sub" "h.h", including ("other.cpp", ⟨0, 3⟩) dir name]

theorem nested_replayed :
    ∃ answers after, scanAll 3 1 (nestedCalls "/p/sub" "h.h") {} = some (answers, after) ∧
    ∃ a ∈ answers, ∃ u ∈ a.uses, u.found = true ∧ ∃ r, Preprocesses nested u.header u.macroState r ∧
      r.macroState = u.macroState.defineMacros u.entry.macroState ∧ r.ctx.includedHeaders = u.entry.headers := by
  have hrun : (scanAll 3 1 (nestedCalls "/p/sub" "h.h") {}).map
      (fun r => (r.1.all fun a => a.uses.all fun u => u.header.place = u.entry.recordedAs,
        r.1.any fun a => a.uses.any (·.found))) = some (true, true) := by decide
  obtain ⟨⟨answers, after⟩, hscans, hresult⟩ := Option.map_eq_some_iff.1 hrun
  obtain ⟨hplaces, hhit⟩ := Prod.mk.inj hresult
  have hplaces : ∀ a ∈ answers, InPlace a.uses := by
    intro a ha u hu
    have hall := List.all_eq_true.1 hplaces a ha
    exact of_decide_eq_true (List.all_eq_true.1 hall u hu)
  obtain ⟨a, ha, hhit⟩ := List.any_eq_true.1 hhit
  obtain ⟨u, hu, hfound⟩ := List.any_eq_true.1 hhit
  have hcalls : ∀ call ∈ nestedCalls "/p/sub" "h.h", call.setup = nested := by
    simp [nestedCalls, including]
  obtain ⟨r, hr, hmacros, -, -, hheaders⟩ := replay_equals_preprocessing rfl rfl hcalls hscans a ha u hu hfound
  exact ⟨answers, after, hscans, a, ha, u, hu, hfound, r, hr, hmacros, hheaders hplaces⟩

/-- The second source finds `h.h` by another name, and is given `c.h` where the first one has it. -/
theorem nested_replayed_elsewhere :
    ∃ answers after, scanAll 3 1 (nestedCalls "/p" "sub/h.h") {} = some (answers, after) ∧
    ∃ a ∈ answers, ∃ u ∈ a.uses, u.found = true ∧
      ∀ r, Preprocesses nested u.header u.macroState r → r.ctx.includedHeaders ≠ u.entry.headers := by
  have hrun : (scanAll 3 1 (nestedCalls "/p" "sub/h.h") {}).bind (fun scans =>
      scans.1[1]?.bind fun a => a.uses[0]?.bind fun u => (nested.direct.preprocess 2 u.header u.macroState).map fun r =>
        (u.found, u.entry.headers, r.ctx.includedHeaders)) =
      some (true, [⟨⟨"/p/sub", "c.h"⟩, "", true⟩], [⟨⟨"/p", "sub/c.h"⟩, "", true⟩]) := by decide
  obtain ⟨⟨answers, after⟩, hscans, hrun⟩ := Option.bind_eq_some_iff.1 hrun
  obtain ⟨a, ha, hrun⟩ := Option.bind_eq_some_iff.1 hrun
  obtain ⟨u, hu, hrun⟩ := Option.bind_eq_some_iff.1 hrun
  obtain ⟨r, hr, hresult⟩ := Option.map_eq_some_iff.1 hrun
  obtain ⟨hfound, hresult⟩ := Prod.mk.inj hresult
  obtain ⟨hentry, hheaders⟩ := Prod.mk.inj hresult
  refine ⟨answers, after, hscans, a, List.mem_of_getElem? ha, u, List.mem_of_getElem? hu, hfound, ?_⟩
  intro r' hr'
  rw [← Preprocesses.unique ⟨2, hr⟩ hr', hentry, hheaders]
  decide

end BuildPal.Scanner
