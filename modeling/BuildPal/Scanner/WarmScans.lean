import Mathlib.Algebra.BigOperators.Group.Finset.Basic
import Mathlib.Algebra.Ring.Nat
import BuildPal.Scanner.NaiveScan
/-!
# Naive scans over a warm cache

One scan after the other with one search path. A scan ends, goes to each file
once, and finds what it would have found with an empty cache; but it gives up at
a file that is marked complex. `markComplex` is for the whole stack, and a
forced include is on it with those that come after it, which it does not lead to.
-/

namespace BuildPal.Scanner.Naive

theorem IncludeFinder.nextInclude_complex {finder : IncludeFinder} (h : finder.nextInclude = .headerComplex) :
    finder.remaining = ([], true) := by
  cases finder with
  | fixed includes => cases includes <;> simp [nextInclude] at h
  | lexing text includes =>
    simp only [nextInclude] at h
    cases hl : lexInclude false text with
    | includeFound d rest => simp [hl] at h
    | headerDone => simp [hl] at h
    | headerComplex => simp [remaining, lexIncludes_eq false text, hl]

/-- Finders that have the same left go on alike. -/
theorem IncludeFinder.nextInclude_alike {finder finder' : IncludeFinder} (h : finder.remaining = finder'.remaining) :
    (∃ d next next', finder.nextInclude = .includeFound d next ∧ finder'.nextInclude = .includeFound d next' ∧
      next.remaining = next'.remaining) ∨
    (∃ store store', finder.nextInclude = .headerDone store ∧ finder'.nextInclude = .headerDone store') ∨
    finder.nextInclude = .headerComplex ∧ finder'.nextInclude = .headerComplex := by
  cases hnext : finder.nextInclude with
  | includeFound d next =>
    rw [(nextInclude_found hnext).1] at h
    cases hnext' : finder'.nextInclude with
    | includeFound d' next' =>
      rw [(nextInclude_found hnext').1] at h
      simp only [Prod.mk.injEq, List.cons.injEq] at h
      obtain ⟨⟨rfl, hincludes⟩, hcomplex⟩ := h
      exact .inl ⟨d, next, next', rfl, rfl, Prod.ext hincludes hcomplex⟩
    | headerDone store' => simp [(nextInclude_done hnext').1] at h
    | headerComplex => simp [nextInclude_complex hnext'] at h
  | headerDone store =>
    rw [(nextInclude_done hnext).1] at h
    cases hnext' : finder'.nextInclude with
    | includeFound d' next' => simp [(nextInclude_found hnext').1] at h
    | headerDone store' => exact .inr (.inl ⟨store, store', rfl, rfl⟩)
    | headerComplex => simp [nextInclude_complex hnext'] at h
  | headerComplex =>
    rw [nextInclude_complex hnext] at h
    cases hnext' : finder'.nextInclude with
    | includeFound d' next' => simp [(nextInclude_found hnext').1] at h
    | headerDone store' => simp [(nextInclude_done hnext').1] at h
    | headerComplex => exact .inr (.inr ⟨rfl, rfl⟩)

namespace Clang
variable (C : Clang)

/-! ## A run and the runs before it -/

/-- What `run` has come to when it returns. A file is in `alreadyVisited` once for each time it was visited. -/
def lastState (turns : Nat) (forcedIncludes : List String) (main : FileId) (cache : NaiveCache) :
    Option (Bool × State) :=
  match C.handleForced forcedIncludes (C.pushHeader { cache := cache } (C.mainHeader main) none) with
  | (false, s) => some (false, s)
  | (true, s) => C.loop turns s

theorem run_eq (turns : Nat) (forcedIncludes : List String) (main : FileId) (cache : NaiveCache) :
    C.run turns forcedIncludes main cache = (C.lastState turns forcedIncludes main cache).map
      fun r => (if r.1 then some r.2.allHeaders else none, r.2.cache) := by
  unfold run lastState
  obtain ⟨forced, s⟩ := C.handleForced forcedIncludes (C.pushHeader { cache := cache } (C.mainHeader main) none)
  cases forced with
  | false => rfl
  | true =>
    dsimp only
    cases C.loop turns s with
    | none => rfl
    | some r =>
      obtain ⟨ok, s'⟩ := r
      cases ok <;> rfl

/-- The run returns so, after some number of turns. -/
def Returns (cache : NaiveCache) (forcedIncludes : List String) (main : FileId)
    (r : Option (List IncludedHeaders) × NaiveCache) : Prop := ∃ turns, C.run turns forcedIncludes main cache = some r

/-- `P` holds at each of the runs, with the cache that those before it leave. -/
def EachRun (P : NaiveCache → List String → FileId → Prop) : NaiveCache → List (List String × FileId) → Prop
  | _, [] => True
  | cache, (forcedIncludes, main) :: runs => P cache forcedIncludes main ∧
    ∀ r, C.Returns cache forcedIncludes main r → EachRun P r.2 runs

/-- The run ends, having visited no file twice. -/
def VisitsOnce (cache : NaiveCache) (forcedIncludes : List String) (main : FileId) : Prop :=
  ∃ enough, ∀ turns ≥ enough, ∃ ok s, C.lastState turns forcedIncludes main cache = some (ok, s) ∧ s.alreadyVisited.Nodup

/-- The run returns what it returns with an empty cache. -/
def AsFromEmpty (cache : NaiveCache) (forcedIncludes : List String) (main : FileId) : Prop :=
  ∃ r r', C.Returns cache forcedIncludes main r ∧ C.Returns (fun _ => none) forcedIncludes main r' ∧ r.1 = r'.1

/-- If every text in reach can be gone through, then no file in reach is marked complex. -/
def MarkedRight (cache : NaiveCache) (forcedIncludes : List String) (main : FileId) : Prop :=
  (∀ file, file = main ∨ C.InReach forcedIncludes main file → (lexIncludes false (C.text file)).2 = false) →
    ∀ file, C.InReach forcedIncludes main file → cache file ≠ some .complex

/-! ## Marks -/

/-- Files are visited once, without a mark; and what was visited is on the stack or complete. -/
structure Marks (cache : NaiveCache) (s : State) : Prop where
  old : ∀ file, s.cache file = some .complex → cache file = some .complex
  kept : s.headerStack ≠ [] → ∀ file, cache file = some .complex → s.cache file = some .complex
  unmarked : ∀ file ∈ s.alreadyVisited, cache file ≠ some .complex
  entered : ∀ h ∈ s.headers.dropLast, h.file ∈ s.alreadyVisited
  done : ∀ file ∈ s.alreadyVisited, file ∈ s.headers.dropLast.map (·.file) ∨ C.Complete s.alreadyVisited file
  once : s.alreadyVisited.Nodup

variable {C} {forcedIncludes : List String} {main : FileId} {s s' : State} {cache : NaiveCache}

theorem Marks.init : C.Marks cache (C.pushHeader { cache := cache } (C.mainHeader main) none) where
  old _ h := h
  kept _ _ h := h
  unmarked := by simp [pushHeader]
  entered := by simp [State.headers, pushHeader]
  done := by simp [pushHeader]
  once := by simp [pushHeader]

/-- Finders do not matter. -/
theorem Marks.of_headers (h : C.Marks cache s) (hheaders : s'.headers = s.headers) (hcache : s'.cache = s.cache)
    (hvisited : s'.alreadyVisited = s.alreadyVisited) : C.Marks cache s' := by
  have hempty : s'.headerStack = [] ↔ s.headerStack = [] := by
    have heq : s'.headers = [] ↔ s.headers = [] := by rw [hheaders]
    simpa [State.headers] using heq
  constructor
  · rw [hcache]
    exact h.old
  · rw [hcache, ne_eq, hempty]
    exact h.kept
  · rw [hvisited]
    exact h.unmarked
  · rw [hheaders, hvisited]
    exact h.entered
  · rw [hheaders, hvisited]
    exact h.done
  · rw [hvisited]
    exact h.once

theorem Marks.push {h : IncludedHeaders} {finder : IncludeFinder} (hm : C.Marks cache s) (hs : s.headerStack ≠ [])
    (hnew : h.file ∉ s.alreadyVisited) (hmark : s.cache h.file ≠ some .complex) :
    C.Marks cache { s with
      headerStack := ⟨h, finder⟩ :: s.headerStack
      alreadyVisited := h.file :: s.alreadyVisited } := by
  have hdrop : (h :: s.headers).dropLast = h :: s.headers.dropLast :=
    List.dropLast_cons_of_ne_nil (by simpa [State.headers] using hs)
  have hheaders : State.headers { s with
      headerStack := ⟨h, finder⟩ :: s.headerStack
      alreadyVisited := h.file :: s.alreadyVisited } = h :: s.headers := rfl
  refine ⟨hm.old, fun _ => hm.kept hs, ?_, ?_, ?_, List.nodup_cons.2 ⟨hnew, hm.once⟩⟩
  · intro file hfile
    rcases List.mem_cons.1 hfile with rfl | hfile
    · exact fun hc => hmark (hm.kept hs _ hc)
    · exact hm.unmarked file hfile
  · rw [hheaders, hdrop]
    intro p hp
    rcases List.mem_cons.1 hp with rfl | hp
    · exact List.mem_cons_self
    · exact List.mem_cons_of_mem _ (hm.entered p hp)
  · rw [hheaders, hdrop]
    intro file hfile
    rcases List.mem_cons.1 hfile with rfl | hfile
    · exact .inl (by simp)
    · rcases hm.done file hfile with hon | hdone
      · exact .inl (List.mem_cons_of_mem _ hon)
      · exact .inr (hdone.mono (List.subset_cons_self _ _))

theorem store_complex {store : Option (List IncludeDirective)} {file file' : FileId}
    (h : cache.store file store file' = some .complex) : cache file' = some .complex := by
  cases store with
  | none => exact h
  | some includes =>
    simp only [NaiveCache.store, NaiveCache.set] at h
    split at h
    · cases h
    · exact h

theorem store_other {store : Option (List IncludeDirective)} {file file' : FileId} (hne : file' ≠ file) :
    cache.store file store file' = cache file' := by
  cases store with
  | none => rfl
  | some includes => exact if_neg hne

theorem Marks.pop {top : HeaderCtx} {rest : List HeaderCtx} {store : Option (List IncludeDirective)}
    (hi : C.Inv forcedIncludes main s) (hm : C.Marks cache s) (hs : s.headerStack = top :: rest)
    (hnext : top.includeFinder.nextInclude = .headerDone store) :
    C.Marks cache (popHeader { s with cache := s.cache.store top.header.file store }) := by
  have hcomplete := (hi.partway top (by simp [hs])).complete hnext
  cases rest with
  | nil =>
    have hpop : popHeader { s with cache := s.cache.store top.header.file store } =
        { s with cache := s.cache.store top.header.file store, headerStack := [] } := by
      simp [popHeader, hs]
    rw [hpop]
    refine ⟨fun file h => hm.old file (store_complex h), by simp, hm.unmarked, by simp [State.headers], ?_, hm.once⟩
    intro file hfile
    simpa [State.headers, hs] using hm.done file hfile
  | cons below rest =>
    have hpop : popHeader { s with cache := s.cache.store top.header.file store } =
        { s with
          cache := s.cache.store top.header.file store
          headerStack := below :: rest
          allHeaders := insertHeader s.allHeaders top.header } := by
      simp [popHeader, hs]
    have hdrop : s.headers.dropLast = top.header :: (List.map (·.header) (below :: rest)).dropLast := by
      simp [State.headers, hs]
    have htop : top.header.file ∈ s.alreadyVisited := hm.entered _ (by simp [hdrop])
    rw [hpop]
    refine ⟨fun file h => hm.old file (store_complex h), fun _ file h => ?_, hm.unmarked, ?_, ?_, hm.once⟩
    · have hne : file ≠ top.header.file := by
        rintro rfl
        exact hm.unmarked _ htop h
      exact (store_other hne).trans (hm.kept (by simp [hs]) file h)
    · intro p hp
      exact hm.entered p (by rw [hdrop]; exact List.mem_cons_of_mem _ hp)
    · intro file hfile
      rcases hm.done file hfile with hon | hdone
      · rw [hdrop, List.map_cons] at hon
        rcases List.mem_cons.1 hon with rfl | hon
        · exact .inr hcomplete
        · exact .inl hon
      · exact .inr hdone

theorem handleInclude_unmarked {d : IncludeDirective} {top : HeaderCtx} {rest : List HeaderCtx} {found : Found}
    (h : C.handleInclude d s = (true, s')) (hs : s.headerStack = top :: rest)
    (hl : C.lookup d top.header.file = some found) (hnew : found.file ∉ s.alreadyVisited) :
    s.cache found.file ≠ some .complex := by
  intro hmark
  simp [handleInclude, hs, hl, hnew, hmark] at h

theorem handleInclude_once {d : IncludeDirective} {ok : Bool} (honce : s.alreadyVisited.Nodup)
    (h : C.handleInclude d s = (ok, s')) : s'.alreadyVisited.Nodup := by
  unfold handleInclude at h
  split at h
  · cases h
    exact honce
  · split at h
    · cases h
      exact honce
    · split at h
      · cases h
        exact honce
      · rename_i hnew
        dsimp only at h
        split at h <;> cases h <;> exact List.nodup_cons.2 ⟨hnew, honce⟩

theorem Marks.handled {d : IncludeDirective} {top : HeaderCtx} {rest : List HeaderCtx} (hm : C.Marks cache s)
    (hs : s.headerStack = top :: rest) (hagrees : Agrees C.text s.cache) (h : C.handleInclude d s = (true, s')) :
    C.Marks cache s' := by
  rcases handleInclude_cases h hs hagrees with ⟨rfl, -⟩ | ⟨found, finder, hl, hnew, -, rfl⟩
  · exact hm
  · exact hm.push (by simp [hs]) hnew (handleInclude_unmarked h hs hl hnew)

/-- Where `handleInclude` gives up. -/
theorem handleInclude_false {d : IncludeDirective} {top : HeaderCtx} {rest : List HeaderCtx}
    (h : C.handleInclude d s = (false, s')) (hs : s.headerStack = top :: rest) :
    ∃ found, C.lookup d top.header.file = some found ∧ found.file ∉ s.alreadyVisited ∧
      s.cache found.file = some .complex := by
  simp only [handleInclude, hs] at h
  cases hl : C.lookup d top.header.file with
  | none => simp [hl] at h
  | some found =>
    simp only [hl] at h
    split at h
    · simp at h
    · rename_i hnew
      refine ⟨found, rfl, hnew, ?_⟩
      cases hc : s.cache found.file with
      | none => simp [hc] at h
      | some entry =>
        cases entry with
        | complex => rfl
        | includes includes => simp [hc] at h

/-! ## Where a run gives up -/

/-- The text cannot be gone through. -/
def Complex (C : Clang) (file : FileId) : Prop := (lexIncludes false (C.text file)).2 = true

/-- Something in reach has a complex text or is marked. -/
def Stops (C : Clang) (forcedIncludes : List String) (main : FileId) (cache : NaiveCache) : Prop :=
  ∃ file, (file = main ∨ C.InReach forcedIncludes main file) ∧ C.Complex file ∨
    C.InReach forcedIncludes main file ∧ cache file = some .complex

/-- After a forced include, the next ones are looked up from the top of the stack. -/
theorem Inv.forced_step {name : String} {names : List String} {top : HeaderCtx} {rest : List HeaderCtx}
    (hi : C.Inv forcedIncludes main s) (hs : s.headerStack = top :: rest)
    (hreach : ∀ h ∈ C.forcedHeaders top.header s.alreadyVisited (name :: names), C.Reach forcedIncludes main h)
    (hh : C.handleInclude ⟨name, false⟩ s = (true, s')) :
    C.Inv forcedIncludes main s' ∧ ∃ top' rest', s'.headerStack = top' :: rest' ∧
      ∀ h ∈ C.forcedHeaders top'.header s'.alreadyVisited names, C.Reach forcedIncludes main h := by
  rcases handleInclude_cases hh hs hi.agrees with ⟨rfl, hvisited⟩ | ⟨found, finder, hl, hnew, hstart, rfl⟩
  · rw [forcedHeaders_skip hvisited] at hreach
    exact ⟨hi, top, rest, hs, hreach⟩
  · rw [forcedHeaders_push hl hnew] at hreach
    exact ⟨hi.push (by simp [hs]) (hreach _ List.mem_cons_self) hstart, _, _, rfl,
      fun h hh => hreach h (List.mem_cons_of_mem _ hh)⟩

theorem Marks.forced {forced : List String} {top : HeaderCtx} {rest : List HeaderCtx} {ok : Bool}
    (hm : C.Marks cache s) (hi : C.Inv forcedIncludes main s) (hs : s.headerStack = top :: rest)
    (hreach : ∀ h ∈ C.forcedHeaders top.header s.alreadyVisited forced, C.Reach forcedIncludes main h)
    (h : C.handleForced forced s = (ok, s')) :
    if ok then C.Marks cache s' else C.Stops forcedIncludes main cache ∧ s'.alreadyVisited.Nodup := by
  induction forced generalizing s top rest with
  | nil =>
    cases h
    exact hm
  | cons name names ih =>
    simp only [handleForced] at h
    cases hh : C.handleInclude ⟨name, false⟩ s with
    | mk handled s₁ =>
    cases handled with
    | false =>
      simp only [hh, Prod.mk.injEq] at h
      obtain ⟨rfl, rfl⟩ := h
      obtain ⟨found, hl, hnew, hmark⟩ := handleInclude_false hh hs
      refine ⟨⟨found.file, .inr ⟨⟨C.included top.header ⟨name, false⟩ found, hreach _ ?_, rfl⟩, hm.old _ hmark⟩⟩, ?_⟩
      · simp [forcedHeaders, hl, hnew]
      · exact handleInclude_once hm.once hh
    | true =>
      simp only [hh] at h
      obtain ⟨hi₁, top₁, rest₁, hs₁, hreach₁⟩ := hi.forced_step hs hreach hh
      exact ih (hm.handled hs hi.agrees hh) hi₁ hs₁ hreach₁ h

/-- In a text that is complex, the finder of a header on the stack stops. -/
theorem Partway.complex {visited : List FileId} {ctx : HeaderCtx} (h : C.Partway visited ctx)
    (hnext : ctx.includeFinder.nextInclude = .headerComplex) : C.Complex ctx.header.file := by
  obtain ⟨handled, htext, -, -⟩ := h
  rw [Complex, htext, IncludeFinder.nextInclude_complex hnext]

/-- A file on the stack is the main file or in reach. -/
theorem Inv.on_stack {ctx : HeaderCtx} (hi : C.Inv forcedIncludes main s) (hs : ctx ∈ s.headerStack) :
    ctx.header.file = main ∨ C.InReach forcedIncludes main ctx.header.file := by
  have hmem : ctx.header ∈ s.headers := List.mem_map_of_mem hs
  have hne : s.headers ≠ [] := List.ne_nil_of_mem hmem
  rcases hi.bottom with hb | ⟨hb, -⟩
  · rw [← List.dropLast_append_getLast hne, List.mem_append, List.mem_singleton] at hmem
    rcases hmem with hmem | hmem
    · exact .inr ⟨ctx.header, hi.stacked _ hmem, rfl⟩
    · left
      rw [List.getLast?_eq_some_getLast hne] at hb
      rw [hmem, Option.some.inj hb]
      rfl
  · exact absurd hb hne

theorem Marks.loop {turns : Nat} {ok : Bool} (hi : C.Inv forcedIncludes main s) (hm : C.Marks cache s)
    (h : C.loop turns s = some (ok, s')) :
    if ok then C.Marks cache s' else C.Stops forcedIncludes main cache ∧ s'.alreadyVisited.Nodup := by
  induction turns generalizing s with
  | zero => simp [Clang.loop] at h
  | succ turns ih =>
    rw [Clang.loop] at h
    split at h
    · cases h
      exact hm
    · next top rest hs =>
      split at h
      · next d finder hnext =>
        have hm₁ : C.Marks cache { s with headerStack := { top with includeFinder := finder } :: rest } :=
          hm.of_headers (by simp [State.headers, hs]) rfl rfl
        split at h
        · next s₁ hh =>
          cases h
          obtain ⟨found, hl, hnew, hmark⟩ := handleInclude_false hh rfl
          have hsees := (hi.partway top (by simp [hs])).sees hnext hl
          exact ⟨⟨found.file, .inr ⟨⟨_, hi.reach_of_sees hs hsees, rfl⟩, hm.old _ hmark⟩⟩,
            handleInclude_once hm₁.once hh⟩
        · next s₁ hh => exact ih (hi.found hs hnext hh).1 (hm₁.handled rfl hi.agrees hh) h
      · next store hnext => exact ih (hi.pop hs hnext) (Marks.pop hi hm hs hnext) h
      · next hnext =>
        cases h
        have htop : top ∈ s.headerStack := by simp [hs]
        exact ⟨⟨top.header.file, .inl ⟨hi.on_stack htop, (hi.partway top htop).complex hnext⟩⟩, hm.once⟩

/-- What a run that returned has come to. -/
theorem lastState_spec {turns : Nat} {ok : Bool} (hagrees : Agrees C.text cache)
    (h : C.lastState turns forcedIncludes main cache = some (ok, s)) :
    Agrees C.text s.cache ∧ s.alreadyVisited.Nodup ∧ (ok = true ↔ ¬ C.Stops forcedIncludes main cache) := by
  have hi := inv_init C forcedIncludes main hagrees
  have hm : C.Marks cache (C.pushHeader { cache := cache } (C.mainHeader main) none) := .init
  unfold lastState at h
  split at h
  · next s₁ hf =>
    cases h
    obtain ⟨hstops, honce⟩ := hm.forced hi rfl (fun h hh => .forced hh) hf
    have hcache := handleForced_cache (C := C) forcedIncludes (C.pushHeader { cache := cache } (C.mainHeader main) none)
    rw [hf] at hcache
    refine ⟨by rw [hcache]; exact hagrees, honce, by simp [hstops]⟩
  · next s₁ hf =>
    have hm₁ := hm.forced hi rfl (fun h hh => .forced hh) hf
    obtain ⟨hi₁, -, hforced⟩ := hi.forced rfl (fun h hh => .forced hh) hf
    obtain ⟨hagrees', hdone⟩ := hi₁.loop h
    have hloop := Marks.loop hi₁ hm₁ h
    cases ok with
    | false => exact ⟨hagrees', hloop.2, by simp [hloop.1]⟩
    | true =>
      obtain ⟨hi', hempty, hsub⟩ := hdone rfl
      have hmarks : C.Marks cache s := hloop
      refine ⟨hagrees', hmarks.once, iff_of_true rfl ?_⟩
      have hall : ∀ file ∈ s.alreadyVisited, C.Complete s.alreadyVisited file := by
        intro file hfile
        simpa [State.headers, hempty] using hmarks.done file hfile
      have hmain : C.Complete s.alreadyVisited main := by
        simpa [State.headers, hempty] using hi'.bottom
      have hvisited : ∀ h, C.Reach forcedIncludes main h → h.file ∈ s.alreadyVisited := fun h =>
        reach_visited (fun h hh => hsub (hforced h hh)) hmain hall
      rintro ⟨file, ⟨rfl | ⟨h, hr, rfl⟩, hcomplex⟩ | ⟨⟨h, hr, rfl⟩, hmark⟩⟩
      · rw [Complex, hmain.1] at hcomplex
        cases hcomplex
      · rw [Complex, (hall _ (hvisited h hr)).1] at hcomplex
        cases hcomplex
      · exact hmarks.unmarked _ (hvisited h hr) hmark

/-! ## Two runs in step -/

/-- The stack with what the finders will find, and the files visited and headers found so far. -/
def view (s : State) : List (IncludedHeaders × List IncludeDirective × Bool) × List FileId × List IncludedHeaders :=
  (s.headerStack.map fun ctx => (ctx.header, ctx.includeFinder.remaining), s.alreadyVisited, s.allHeaders)

section View
variable {top top' : HeaderCtx} {rest rest' : List HeaderCtx}

theorem view_nil (h : view s = view s') (hs : s.headerStack = []) : s'.headerStack = [] := by
  simpa [hs] using (Prod.mk.inj h).1.symm

theorem view_top (h : view s = view s') (hs : s.headerStack = top :: rest) :
    ∃ top' rest', s'.headerStack = top' :: rest' ∧ top.header = top'.header ∧
      top.includeFinder.remaining = top'.includeFinder.remaining ∧
      rest.map (fun ctx => (ctx.header, ctx.includeFinder.remaining)) =
        rest'.map fun ctx => (ctx.header, ctx.includeFinder.remaining) := by
  have hstack := (Prod.mk.inj h).1
  obtain ⟨top', rest', hs'⟩ : ∃ top' rest', s'.headerStack = top' :: rest' := by
    refine List.exists_cons_of_ne_nil fun hnil => ?_
    simp [hs, hnil] at hstack
  simp only [hs, hs', List.map_cons, List.cons.injEq, Prod.mk.injEq] at hstack
  exact ⟨top', rest', hs', hstack.1.1, hstack.1.2, hstack.2⟩

/-- The finders on top have found an include. -/
theorem view_found (h : view s = view s') (hs : s.headerStack = top :: rest) (hs' : s'.headerStack = top' :: rest')
    {finder finder' : IncludeFinder} (hfinder : finder.remaining = finder'.remaining) :
    view { s with headerStack := { top with includeFinder := finder } :: rest } =
      view { s' with headerStack := { top' with includeFinder := finder' } :: rest' } := by
  obtain ⟨hstack, hvisited, hheaders⟩ := Prod.mk.inj h |>.imp_right Prod.mk.inj
  simp only [hs, hs', List.map_cons, List.cons.injEq, Prod.mk.injEq] at hstack
  simp [view, hstack, hfinder, hvisited, hheaders]

end View

theorem handleInclude_view {t t' : State} {d : IncludeDirective} (h : view s = view s')
    (hagrees : Agrees C.text s.cache)
    (hagrees' : Agrees C.text s'.cache) (ht : C.handleInclude d s = (true, t))
    (ht' : C.handleInclude d s' = (true, t')) : view t = view t' := by
  obtain ⟨hstack, hvisited, hheaders⟩ := Prod.mk.inj h |>.imp_right Prod.mk.inj
  cases hs : s.headerStack with
  | nil =>
    have hs' := view_nil h hs
    simp only [handleInclude, hs, Prod.mk.injEq, true_and] at ht
    simp only [handleInclude, hs', Prod.mk.injEq, true_and] at ht'
    subst ht ht'
    exact h
  | cons top rest =>
    obtain ⟨top', rest', hs', htop, -⟩ := view_top h hs
    rcases handleInclude_cases ht hs hagrees with ⟨rfl, hold⟩ | ⟨found, finder, hl, hnew, hstart, rfl⟩ <;>
      rcases handleInclude_cases ht' hs' hagrees' with ⟨rfl, hold'⟩ | ⟨found', finder', hl', hnew', hstart', rfl⟩
    · exact h
    · rw [← htop] at hl'
      exact absurd (hvisited ▸ hold _ hl') hnew'
    · rw [htop] at hl
      exact absurd (hvisited ▸ hold' _ hl) hnew
    · rw [← htop] at hl'
      obtain rfl : found = found' := Option.some.inj (hl.symm.trans hl')
      simp [view, hstack, hvisited, hheaders, htop, ← hstart.1, ← hstart'.1]

theorem handleForced_view {forced : List String} {t t' : State} (h : view s = view s') (hagrees : Agrees C.text s.cache)
    (hagrees' : Agrees C.text s'.cache) (ht : C.handleForced forced s = (true, t))
    (ht' : C.handleForced forced s' = (true, t')) : view t = view t' := by
  induction forced generalizing s s' with
  | nil =>
    cases ht
    cases ht'
    exact h
  | cons name names ih =>
    simp only [handleForced] at ht ht'
    split at ht
    · cases ht
    · next s₁ hh =>
      split at ht'
      · cases ht'
      · next s₁' hh' =>
        have hcache := handleInclude_cache (C := C) ⟨name, false⟩ s
        have hcache' := handleInclude_cache (C := C) ⟨name, false⟩ s'
        rw [hh] at hcache
        rw [hh'] at hcache'
        exact ih (handleInclude_view h hagrees hagrees' hh hh') (hcache ▸ hagrees) (hcache' ▸ hagrees') ht ht'

theorem popHeader_view (h : view s = view s') (cache cache' : NaiveCache) :
    view (popHeader { s with cache := cache }) = view (popHeader { s' with cache := cache' }) := by
  obtain ⟨-, hvisited, hheaders⟩ := Prod.mk.inj h |>.imp_right Prod.mk.inj
  cases hs : s.headerStack with
  | nil => simp [popHeader, view, view_nil h hs, hvisited, hheaders]
  | cons top rest =>
    obtain ⟨top', rest', hs', htop, -, hrest⟩ := view_top h hs
    cases rest with
    | nil =>
      obtain rfl : rest' = [] := by simpa using hrest.symm
      simp [popHeader, view, hs', hvisited, hheaders]
    | cons below rest =>
      obtain ⟨below', rest'', rfl⟩ : ∃ below' rest'', rest' = below' :: rest'' := by
        refine List.exists_cons_of_ne_nil fun hnil => ?_
        simp [hnil] at hrest
      simp only [popHeader, view, hs', hvisited, hheaders, htop, hrest]

/-- The runs take the same turns, whatever their caches are. -/
theorem loop_view {turns : Nat} {t t' : State} (hi : C.Inv forcedIncludes main s) (hi' : C.Inv forcedIncludes main s')
    (h : view s = view s') (ht : C.loop turns s = some (true, t)) (ht' : C.loop turns s' = some (true, t')) :
    view t = view t' := by
  induction turns generalizing s s' with
  | zero => simp [Clang.loop] at ht
  | succ turns ih =>
    rw [Clang.loop] at ht ht'
    cases hs : s.headerStack with
    | nil =>
      simp only [hs] at ht
      simp only [view_nil h hs] at ht'
      cases ht
      cases ht'
      exact h
    | cons top rest =>
      obtain ⟨top', rest', hs', -, hfinder, -⟩ := view_top h hs
      rcases IncludeFinder.nextInclude_alike hfinder with
        ⟨d, finder, finder', hnext, hnext', hfinders⟩ | ⟨store, store', hnext, hnext'⟩ | ⟨hnext, -⟩
      · simp only [hs, hnext] at ht
        simp only [hs', hnext'] at ht'
        split at ht
        · cases ht
        · next s₁ hh =>
          split at ht'
          · cases ht'
          · next s₁' hh' =>
            exact ih (hi.found hs hnext hh).1 (hi'.found hs' hnext' hh').1
              (handleInclude_view (view_found h hs hs' hfinders) hi.agrees hi'.agrees hh hh') ht ht'
      · simp only [hs, hnext] at ht
        simp only [hs', hnext'] at ht'
        rw [← hs] at ht
        rw [← hs'] at ht'
        exact ih (hi.pop hs hnext) (hi'.pop hs' hnext') (popHeader_view h _ _) ht ht'
      · simp only [hs, hnext] at ht
        cases ht

/-! ## A run ends -/

/-- At most so many turns are left: one for each include that is not handled and one for each file that is not done. -/
def turnsLeft (C : Clang) (files : Finset FileId) (s : State) : Nat :=
  (s.headerStack.map fun ctx => ctx.includeFinder.remaining.1.length + 1).sum +
    ∑ file ∈ files.filter (· ∉ s.alreadyVisited), ((lexIncludes false (C.text file)).1.length + 1)

theorem handleInclude_turnsLeft {files : Finset FileId} {d : IncludeDirective} {top : HeaderCtx} {rest : List HeaderCtx}
    (hfiles : ∀ d includer found, C.lookup d includer = some found → found.file ∈ files)
    (hs : s.headerStack = top :: rest) (hagrees : Agrees C.text s.cache) (h : C.handleInclude d s = (true, s')) :
    C.turnsLeft files s' = C.turnsLeft files s := by
  rcases handleInclude_cases h hs hagrees with ⟨rfl, -⟩ | ⟨found, finder, hl, hnew, hstart, rfl⟩
  · rfl
  · have hmem : found.file ∈ files.filter (· ∉ s.alreadyVisited) := by
      simp [hfiles _ _ _ hl, hnew]
    have hfilter : (files.filter (· ∉ found.file :: s.alreadyVisited)) =
        (files.filter (· ∉ s.alreadyVisited)).erase found.file := by
      ext file
      simp only [List.mem_cons, not_or, Finset.mem_filter, Finset.mem_erase]
      tauto
    have hsum := Finset.add_sum_erase _ (fun file => (lexIncludes false (C.text file)).1.length + 1) hmem
    simp only [turnsLeft, hfilter, List.map_cons, List.sum_cons, ← hstart.1]
    omega

theorem popHeader_turnsLeft (files : Finset FileId) {top : HeaderCtx} {rest : List HeaderCtx} (cache : NaiveCache)
    (hs : s.headerStack = top :: rest) :
    C.turnsLeft files (popHeader { s with cache := cache }) < C.turnsLeft files s := by
  have hstack : (popHeader { s with cache := cache }).headerStack = rest := by
    cases rest with
    | nil => simp [popHeader, hs]
    | cons below rest => simp [popHeader, hs]
  have hvisited : (popHeader { s with cache := cache }).alreadyVisited = s.alreadyVisited := popHeader_visited _
  rw [turnsLeft, turnsLeft, hstack, hvisited, hs, List.map_cons, List.sum_cons]
  omega

theorem loop_ends {files : Finset FileId} {turns : Nat}
    (hfiles : ∀ d includer found, C.lookup d includer = some found → found.file ∈ files)
    (hi : C.Inv forcedIncludes main s) (hturns : C.turnsLeft files s < turns) : ∃ r, C.loop turns s = some r := by
  induction turns generalizing s with
  | zero => omega
  | succ turns ih =>
    rw [Clang.loop]
    split
    · exact ⟨_, rfl⟩
    · next top rest hs =>
      split
      · next d finder hnext =>
        split
        · exact ⟨_, rfl⟩
        · next s₁ hh =>
          have hsame := handleInclude_turnsLeft hfiles rfl (by exact hi.agrees) hh
          refine ih (hi.found hs hnext hh).1 ?_
          rw [hsame]
          have hremaining := (IncludeFinder.nextInclude_found hnext).1
          simp only [turnsLeft, hs, List.map_cons, List.sum_cons, hremaining, List.length_cons] at hturns ⊢
          omega
      · next store hnext =>
        have hlt := popHeader_turnsLeft (C := C) files (s.cache.store top.header.file store) hs
        exact ih (hi.pop hs hnext) (by omega)
      · exact ⟨_, rfl⟩

/-- More turns change nothing. -/
theorem loop_more {turns more : Nat} {r : Bool × State} (h : C.loop turns s = some r) :
    C.loop (turns + more) s = some r := by
  induction turns generalizing s with
  | zero => simp [Clang.loop] at h
  | succ turns ih =>
    rw [Nat.succ_add]
    rw [Clang.loop] at h ⊢
    split at h
    · exact h
    · split at h
      · split at h
        · exact h
        · exact ih h
      · exact ih h
      · exact h

theorem lastState_ends {files : Finset FileId}
    (hfiles : ∀ d includer found, C.lookup d includer = some found → found.file ∈ files)
    (hagrees : Agrees C.text cache) (forcedIncludes : List String) (main : FileId) :
    ∃ enough, ∀ turns ≥ enough, ∃ r, C.lastState turns forcedIncludes main cache = some r := by
  have hi := inv_init C forcedIncludes main hagrees
  cases hf : C.handleForced forcedIncludes (C.pushHeader { cache := cache } (C.mainHeader main) none) with
  | mk ok s =>
  cases ok with
  | false => exact ⟨0, fun turns _ => ⟨_, by rw [lastState, hf]⟩⟩
  | true =>
    obtain ⟨hi₁, -⟩ := hi.forced rfl (fun h hh => .forced hh) hf
    refine ⟨C.turnsLeft files s + 1, fun turns hturns => ?_⟩
    rw [lastState, hf]
    exact loop_ends hfiles hi₁ hturns

theorem lastState_more {turns : Nat} {r : Bool × State} (more : Nat)
    (h : C.lastState turns forcedIncludes main cache = some r) :
    C.lastState (turns + more) forcedIncludes main cache = some r := by
  unfold lastState at h ⊢
  split at h
  · exact h
  · exact loop_more h

/-! ## Runs from a warm cache -/

/-- The same run returns the same. -/
theorem lastState_unique {turns turns' : Nat} {r r' : Bool × State}
    (h : C.lastState turns forcedIncludes main cache = some r)
    (h' : C.lastState turns' forcedIncludes main cache = some r') : r = r' := by
  have hmore := lastState_more turns' h
  have hmore' := lastState_more turns h'
  rw [Nat.add_comm] at hmore'
  exact Option.some.inj (hmore.symm.trans hmore')

theorem returns_of_lastState {turns : Nat} {r : Bool × State}
    (h : C.lastState turns forcedIncludes main cache = some r) :
    C.Returns cache forcedIncludes main (if r.1 then some r.2.allHeaders else none, r.2.cache) :=
  ⟨turns, by rw [run_eq, h]; rfl⟩

theorem Returns.lastState {r : Option (List IncludedHeaders) × NaiveCache} (h : C.Returns cache forcedIncludes main r) :
    ∃ turns ok s, C.lastState turns forcedIncludes main cache = some (ok, s) ∧
      r = (if ok then some s.allHeaders else none, s.cache) := by
  obtain ⟨turns, hrun⟩ := h
  rw [run_eq] at hrun
  obtain ⟨⟨ok, s⟩, hlast, rfl⟩ := Option.map_eq_some_iff.1 hrun
  exact ⟨turns, ok, s, hlast, rfl⟩

/-- What two runs find that do not give up. -/
theorem lastState_view {cache' : NaiveCache} {turns : Nat} {t t' : State} (hagrees : Agrees C.text cache)
    (hagrees' : Agrees C.text cache') (h : C.lastState turns forcedIncludes main cache = some (true, t))
    (h' : C.lastState turns forcedIncludes main cache' = some (true, t')) : view t = view t' := by
  have hi := inv_init C forcedIncludes main hagrees
  have hi' := inv_init C forcedIncludes main hagrees'
  unfold Clang.lastState at h h'
  split at h
  · cases h
  · next s hf =>
    split at h'
    · cases h'
    · next s' hf' =>
      have hstart : view (C.pushHeader { cache := cache } (C.mainHeader main) none) =
          view (C.pushHeader { cache := cache' } (C.mainHeader main) none) := rfl
      have hview := handleForced_view hstart hagrees hagrees' hf hf'
      exact loop_view (hi.forced rfl (fun h hh => .forced hh) hf).1 (hi'.forced rfl (fun h hh => .forced hh) hf').1
        hview h h'

/-! ## Caches with the same marks -/

/-- The same files in reach are marked. -/
def SameMarks (C : Clang) (forcedIncludes : List String) (main : FileId) (cache cache' : NaiveCache) : Prop :=
  ∀ file, C.InReach forcedIncludes main file → (cache file = some .complex ↔ cache' file = some .complex)

/-- As long as there is a stack, the marks are those there were. -/
theorem Marks.marked_iff (hm : C.Marks cache s) (hs : s.headerStack ≠ []) (file : FileId) :
    s.cache file = some .complex ↔ cache file = some .complex :=
  ⟨hm.old file, hm.kept hs file⟩

section Same
variable {cache' : NaiveCache} {top top' : HeaderCtx} {rest rest' : List HeaderCtx}

/-- An include is given up on where its file is marked. -/
theorem handleInclude_same {d : IncludeDirective} (hm : C.Marks cache s) (hm' : C.Marks cache' s')
    (hmarks : C.SameMarks forcedIncludes main cache cache') (hs : s.headerStack = top :: rest)
    (hs' : s'.headerStack = top' :: rest') (htop : top.header = top'.header)
    (hvisited : s.alreadyVisited = s'.alreadyVisited)
    (hreach : ∀ found, C.lookup d top.header.file = some found → found.file ∉ s.alreadyVisited →
      C.InReach forcedIncludes main found.file) :
    (C.handleInclude d s).1 = (C.handleInclude d s').1 := by
  simp only [handleInclude, hs, hs', ← htop, ← hvisited]
  cases hl : C.lookup d top.header.file with
  | none => rfl
  | some found =>
    dsimp only
    split
    · rfl
    · next hnew =>
      have hsame : s.cache found.file = some .complex ↔ s'.cache found.file = some .complex := by
        rw [hm.marked_iff (by simp [hs]), hm'.marked_iff (by simp [hs'])]
        exact hmarks found.file (hreach found hl hnew)
      by_cases hmark : s.cache found.file = some .complex
      · rw [hmark, hsame.1 hmark]
      · have hmark' := mt hsame.2 hmark
        split <;> split <;> simp_all

theorem handleForced_same {forced : List String} (hi : C.Inv forcedIncludes main s)
    (hi' : C.Inv forcedIncludes main s') (hm : C.Marks cache s) (hm' : C.Marks cache' s')
    (hmarks : C.SameMarks forcedIncludes main cache cache') (h : view s = view s') (hs : s.headerStack = top :: rest)
    (hreach : ∀ h ∈ C.forcedHeaders top.header s.alreadyVisited forced, C.Reach forcedIncludes main h) :
    (C.handleForced forced s).1 = (C.handleForced forced s').1 := by
  induction forced generalizing s s' top rest with
  | nil => rfl
  | cons name names ih =>
    obtain ⟨top', rest', hs', htop, -⟩ := view_top h hs
    have hvisited : s.alreadyVisited = s'.alreadyVisited := (Prod.mk.inj (Prod.mk.inj h).2).1
    have hsame : (C.handleInclude ⟨name, false⟩ s).1 = (C.handleInclude ⟨name, false⟩ s').1 := by
      refine handleInclude_same hm hm' hmarks hs hs' htop hvisited fun found hl hnew => ?_
      refine ⟨C.included top.header ⟨name, false⟩ found, hreach _ ?_, rfl⟩
      rw [forcedHeaders_push hl hnew]
      exact List.mem_cons_self
    simp only [handleForced]
    cases hh : C.handleInclude ⟨name, false⟩ s with
    | mk ok s₁ =>
    cases hh' : C.handleInclude ⟨name, false⟩ s' with
    | mk ok' s₁' =>
    rw [hh, hh'] at hsame
    obtain rfl : ok = ok' := hsame
    cases ok with
    | false => rfl
    | true =>
      obtain ⟨hi₁, top₁, rest₁, hs₁, hreach₁⟩ := hi.forced_step hs hreach hh
      obtain ⟨hi₁', -⟩ := hi'.forced_step hs' (htop ▸ hvisited ▸ hreach) hh'
      exact ih hi₁ hi₁' (hm.handled hs hi.agrees hh) (hm'.handled hs' hi'.agrees hh')
        (handleInclude_view h hi.agrees hi'.agrees hh hh') hs₁ hreach₁

theorem loop_same {turns : Nat} {ok : Bool} {t : State} (hi : C.Inv forcedIncludes main s)
    (hi' : C.Inv forcedIncludes main s') (hm : C.Marks cache s) (hm' : C.Marks cache' s')
    (hmarks : C.SameMarks forcedIncludes main cache cache') (h : view s = view s')
    (ht : C.loop turns s = some (ok, t)) : ∃ t', C.loop turns s' = some (ok, t') := by
  induction turns generalizing s s' with
  | zero => simp [Clang.loop] at ht
  | succ turns ih =>
    rw [Clang.loop] at ht ⊢
    cases hs : s.headerStack with
    | nil =>
      simp only [hs] at ht
      cases ht
      exact ⟨s', by rw [view_nil h hs]⟩
    | cons top rest =>
      obtain ⟨top', rest', hs', hheader, hfinder, -⟩ := view_top h hs
      -- Both runs come to the same include: they differ only in what they have cached.
      rcases IncludeFinder.nextInclude_alike hfinder with
        ⟨d, finder, finder', hnext, hnext', hfinders⟩ | ⟨store, store', hnext, hnext'⟩ | ⟨hnext, hnext'⟩
      · simp only [hs, hnext] at ht
        simp only [hs', hnext']
        have hview := view_found h hs hs' hfinders
        have hm₁ : C.Marks cache { s with headerStack := { top with includeFinder := finder } :: rest } :=
          hm.of_headers (by simp [State.headers, hs]) rfl rfl
        have hm₁' : C.Marks cache' { s' with headerStack := { top' with includeFinder := finder' } :: rest' } :=
          hm'.of_headers (by simp [State.headers, hs']) rfl rfl
        have hsame := handleInclude_same (d := d) hm₁ hm₁' hmarks rfl rfl hheader (Prod.mk.inj (Prod.mk.inj h).2).1
          fun found hl _ => ⟨_, hi.reach_of_sees hs ((hi.partway top (by simp [hs])).sees hnext hl), rfl⟩
        cases hh' : C.handleInclude d { s' with headerStack := { top' with includeFinder := finder' } :: rest' } with
        | mk ok' s₁' =>
        rw [hh'] at hsame
        split at ht
        · next s₁ hh =>
          cases ht
          rw [hh] at hsame
          obtain rfl : false = ok' := hsame
          exact ⟨s₁', rfl⟩
        · next s₁ hh =>
          rw [hh] at hsame
          obtain rfl : true = ok' := hsame
          exact ih (hi.found hs hnext hh).1 (hi'.found hs' hnext' hh').1 (hm₁.handled rfl hi.agrees hh)
            (hm₁'.handled rfl hi'.agrees hh') (handleInclude_view hview hi.agrees hi'.agrees hh hh') ht
      · simp only [hs, hnext] at ht
        simp only [hs', hnext']
        rw [← hs] at ht
        rw [← hs']
        exact ih (hi.pop hs hnext) (hi'.pop hs' hnext') (Marks.pop hi hm hs hnext) (Marks.pop hi' hm' hs' hnext')
          (popHeader_view h _ _) ht
      · simp only [hs, hnext] at ht
        simp only [hs', hnext']
        cases ht
        exact ⟨_, rfl⟩

/-- A run returns the same with another cache that has the same marks. -/
theorem run_same {turns : Nat} {r : Option (List IncludedHeaders) × NaiveCache} (hagrees : Agrees C.text cache)
    (hagrees' : Agrees C.text cache') (hmarks : C.SameMarks forcedIncludes main cache cache')
    (h : C.run turns forcedIncludes main cache = some r) :
    ∃ after, C.run turns forcedIncludes main cache' = some (r.1, after) := by
  rw [run_eq] at h
  obtain ⟨⟨ok, t⟩, hlast, rfl⟩ := Option.map_eq_some_iff.1 h
  have hi := inv_init C forcedIncludes main hagrees
  have hi' := inv_init C forcedIncludes main hagrees'
  have hm : C.Marks cache (C.pushHeader { cache := cache } (C.mainHeader main) none) := .init
  have hm' : C.Marks cache' (C.pushHeader { cache := cache' } (C.mainHeader main) none) := .init
  have hstart : view (C.pushHeader { cache := cache } (C.mainHeader main) none) =
      view (C.pushHeader { cache := cache' } (C.mainHeader main) none) := rfl
  have hsame := handleForced_same hi hi' hm hm' hmarks hstart rfl fun h hh => .forced hh
  obtain ⟨t', hlast'⟩ : ∃ t', C.lastState turns forcedIncludes main cache' = some (ok, t') := by
    unfold Clang.lastState at hlast ⊢
    cases hf' : C.handleForced forcedIncludes (C.pushHeader { cache := cache' } (C.mainHeader main) none) with
    | mk forced s' =>
    rw [hf'] at hsame
    split at hlast
    · next s hf =>
      cases hlast
      rw [hf] at hsame
      obtain rfl : false = forced := hsame
      exact ⟨s', rfl⟩
    · next s hf =>
      rw [hf] at hsame
      obtain rfl : true = forced := hsame
      exact loop_same (hi.forced rfl (fun h hh => .forced hh) hf).1 (hi'.forced rfl (fun h hh => .forced hh) hf').1
        (hm.forced hi rfl (fun h hh => .forced hh) hf) (hm'.forced hi' rfl (fun h hh => .forced hh) hf')
        hmarks (handleForced_view hstart hagrees hagrees' hf hf') hlast
  refine ⟨t'.cache, ?_⟩
  rw [run_eq, hlast']
  cases ok with
  | false => rfl
  | true =>
    have hview := lastState_view hagrees hagrees' hlast hlast'
    rw [Option.map_some, if_pos rfl, if_pos rfl, (Prod.mk.inj (Prod.mk.inj hview).2).2]

/-- A run gives up only if it has to stop. -/
theorem stops_of_run {turns : Nat} {after : NaiveCache} (hagrees : Agrees C.text cache)
    (h : C.run turns forcedIncludes main cache = some (none, after)) : C.Stops forcedIncludes main cache := by
  rw [run_eq] at h
  obtain ⟨⟨ok, t⟩, hlast, heq⟩ := Option.map_eq_some_iff.1 h
  cases ok with
  | true => cases heq
  | false =>
    by_contra hno
    exact Bool.false_ne_true ((lastState_spec hagrees hlast).2.2.2 hno)

end Same

/-- One run: the empty cache has no marks, so the run from it stops at complex texts only. -/
theorem asFromEmpty_iff {files : Finset FileId}
    (hfiles : ∀ d includer found, C.lookup d includer = some found → found.file ∈ files)
    (hagrees : Agrees C.text cache) :
    C.AsFromEmpty cache forcedIncludes main ↔ C.MarkedRight cache forcedIncludes main := by
  have hempty : Agrees C.text fun _ => none := by simp [Agrees]
  obtain ⟨enough, hends⟩ := lastState_ends hfiles hagrees forcedIncludes main
  obtain ⟨enough', hends'⟩ := lastState_ends hfiles hempty forcedIncludes main
  obtain ⟨⟨ok, s⟩, h⟩ := hends (max enough enough') (Nat.le_max_left _ _)
  obtain ⟨⟨ok', s'⟩, h'⟩ := hends' (max enough enough') (Nat.le_max_right _ _)
  have hok := (lastState_spec hagrees h).2.2
  have hok' := (lastState_spec hempty h').2.2
  have hresults : C.AsFromEmpty cache forcedIncludes main ↔ ok = ok' := by
    constructor
    · rintro ⟨r, r', hr, hr', heq⟩
      obtain ⟨_, ok₁, s₁, h₁, rfl⟩ := hr.lastState
      obtain ⟨_, ok₁', s₁', h₁', rfl⟩ := hr'.lastState
      cases lastState_unique h h₁
      cases lastState_unique h' h₁'
      cases ok <;> cases ok' <;> simp at heq ⊢
    · rintro rfl
      refine ⟨_, _, returns_of_lastState h, returns_of_lastState h', ?_⟩
      cases ok with
      | false => rfl
      | true =>
        have hview := lastState_view hagrees hempty h h'
        exact congrArg some (Prod.mk.inj (Prod.mk.inj hview).2).2
  rw [hresults]
  have hmarked : C.MarkedRight cache forcedIncludes main ↔
      (C.Stops forcedIncludes main cache → C.Stops forcedIncludes main fun _ => none) := by
    constructor
    · rintro hright ⟨file, ⟨hin, hcomplex⟩ | ⟨hin, hmark⟩⟩
      · exact ⟨file, .inl ⟨hin, hcomplex⟩⟩
      · by_contra hno
        refine hright (fun file hin => ?_) file hin hmark
        by_contra hcomplex
        exact hno ⟨file, .inl ⟨hin, by simpa [Complex] using hcomplex⟩⟩
    · intro hstops hsimple file hin hmark
      obtain ⟨file', ⟨hin', hcomplex⟩ | ⟨-, hmark'⟩⟩ := hstops ⟨file, .inr ⟨hin, hmark⟩⟩
      · rw [Complex, hsimple file' hin'] at hcomplex
        cases hcomplex
      · cases hmark'
  -- Marks in the cache can only add to what makes the naive preprocessor give up.
  have hmono : C.Stops forcedIncludes main (fun _ => none) → C.Stops forcedIncludes main cache := by
    rintro ⟨file, hcomplex | ⟨-, hmark⟩⟩
    · exact ⟨file, .inl hcomplex⟩
    · cases hmark
  rw [hmarked]
  cases ok <;> cases ok' <;> simp_all

/-! ## Without forced includes -/

/-- A file the text of the other leads to. -/
def FileSees (C : Clang) (file header : FileId) : Prop :=
  ∃ d ∈ (lexIncludes false (C.text file)).1, ∃ found, C.lookup d file = some found ∧ found.file = header

/-- A file that is marked leads to a complex text. -/
def TrueMarks (C : Clang) (cache : NaiveCache) : Prop :=
  ∀ file, cache file = some .complex → ∃ header, Relation.ReflTransGen C.FileSees file header ∧ C.Complex header

/-- Each header on the stack is seen by the one below. -/
def Chained (C : Clang) (s : State) : Prop := s.headers.IsChain fun h below => C.FileSees below.file h.file

theorem foldl_markComplex {stack : List HeaderCtx} {file : FileId}
    (h : stack.foldl (fun cache ctx => cache.markComplex ctx.header.file) cache file = some .complex) :
    cache file = some .complex ∨ file ∈ stack.map (·.header.file) := by
  induction stack generalizing cache with
  | nil => exact .inl h
  | cons ctx stack ih =>
    rcases ih h with hmark | hmem
    · by_cases hfile : file = ctx.header.file
      · exact .inr (by simp [hfile])
      · exact .inl (by simpa [NaiveCache.markComplex, NaiveCache.set, hfile] using hmark)
    · exact .inr (List.mem_cons_of_mem _ hmem)

/-- All of a stack whose top has a complex text leads there. -/
theorem leads_of_isChain {top : IncludedHeaders} {rest : List IncludedHeaders}
    (h : (top :: rest).IsChain fun h below => C.FileSees below.file h.file) :
    ∀ p ∈ top :: rest, Relation.ReflTransGen C.FileSees p.file top.file := by
  induction rest generalizing top with
  | nil =>
    intro p hp
    rw [List.mem_singleton.1 hp]
  | cons below rest ih =>
    rw [List.isChain_cons_cons] at h
    intro p hp
    rcases List.mem_cons.1 hp with rfl | hp
    · exact .refl
    · exact (ih h.2 p hp).tail h.1

theorem TrueMarks.loop {turns : Nat} {ok : Bool} (ht : C.TrueMarks s.cache) (hi : C.Inv forcedIncludes main s)
    (hc : C.Chained s) (h : C.loop turns s = some (ok, s')) : C.TrueMarks s'.cache := by
  induction turns generalizing s with
  | zero => simp [Clang.loop] at h
  | succ turns ih =>
    rw [Clang.loop] at h
    split at h
    · cases h
      exact ht
    · next top rest hs =>
      have hheaders : s.headers = top.header :: rest.map (·.header) := by simp [State.headers, hs]
      split at h
      · next d finder hnext =>
        have hcache := handleInclude_cache (C := C) d { s with headerStack := { top with includeFinder := finder } :: rest }
        split at h
        · next s₁ hh =>
          cases h
          rw [hh] at hcache
          exact hcache ▸ ht
        · next s₁ hh =>
          rw [hh] at hcache
          refine ih (hcache ▸ ht) (hi.found hs hnext hh).1 ?_ h
          rw [Chained, hheaders] at hc
          rcases handleInclude_cases hh rfl hi.agrees with ⟨rfl, -⟩ | ⟨found, newFinder, hl, -, -, rfl⟩
          · exact hc
          · obtain ⟨d, hd, found', hf, heq⟩ := (hi.partway top (by simp [hs])).sees hnext hl
            exact List.isChain_cons_cons.2 ⟨⟨d, hd, found', hf, (congrArg (·.file) heq).symm⟩, hc⟩
      · next store hnext =>
        refine ih (fun file hmark => ht file ?_) (hi.pop hs hnext) ?_ h
        · have hpop : (popHeader { s with cache := s.cache.store top.header.file store }).cache =
              s.cache.store top.header.file store := by
            unfold popHeader
            split <;> rfl
          exact store_complex (hpop ▸ hmark)
        · rw [Chained, hheaders] at hc
          cases rest with
          | nil => simp [Chained, State.headers, popHeader, hs]
          | cons below rest => simpa [Chained, State.headers, popHeader, hs] using hc.tail
      · next hnext =>
        cases h
        intro file hmark
        rcases foldl_markComplex hmark with hmark | hmem
        · exact ht file hmark
        · obtain ⟨ctx, hctx, rfl⟩ := List.mem_map.1 hmem
          rw [Chained, hheaders] at hc
          -- Each header on the stack leads to the one above it, and the last to what is complex.
          have hlead := leads_of_isChain hc ctx.header (hheaders ▸ List.mem_map_of_mem hctx)
          exact ⟨_, hlead, (hi.partway top (by simp [hs])).complex hnext⟩

theorem TrueMarks.lastState {turns : Nat} {ok : Bool} (ht : C.TrueMarks cache) (hagrees : Agrees C.text cache)
    (h : C.lastState turns [] main cache = some (ok, s)) : C.TrueMarks s.cache :=
  TrueMarks.loop (s := C.pushHeader { cache := cache } (C.mainHeader main) none) ht (inv_init C [] main hagrees)
    (by simp [Chained, State.headers, pushHeader]) h

theorem TrueMarks.markedRight (ht : C.TrueMarks cache) : C.MarkedRight cache forcedIncludes main := by
  rintro hsimple file ⟨h, hr, rfl⟩ hmark
  obtain ⟨header, hlead, hcomplex⟩ := ht _ hmark
  have hin : ∃ h', C.Reach forcedIncludes main h' ∧ h'.file = header := by
    clear hcomplex
    induction hlead with
    | refl => exact ⟨h, hr, rfl⟩
    | tail _ hsees ih =>
      obtain ⟨h', hr', rfl⟩ := ih
      obtain ⟨d, hd, found, hf, rfl⟩ := hsees
      exact ⟨C.included h' d found, .nested hr' ⟨d, hd, found, hf, rfl⟩, rfl⟩
  rw [Complex, hsimple header (.inr hin)] at hcomplex
  cases hcomplex

/-- Marks are right when nothing is forced. -/
theorem markedRight_of_no_forced (runs : List (List String × FileId)) (hforced : ∀ run ∈ runs, run.1 = []) :
    C.EachRun C.MarkedRight (fun _ => none) runs := by
  have hempty : Agrees C.text (fun _ => none) ∧ C.TrueMarks fun _ => none := ⟨by simp [Agrees], by simp [TrueMarks]⟩
  generalize (fun _ => none : NaiveCache) = cache at hempty
  induction runs generalizing cache with
  | nil => trivial
  | cons run runs ih =>
    obtain ⟨forcedIncludes, main⟩ := run
    obtain rfl : forcedIncludes = [] := hforced _ List.mem_cons_self
    refine ⟨hempty.2.markedRight, fun r hr => ih (fun run hrun => hforced run (List.mem_cons_of_mem _ hrun)) r.2 ?_⟩
    obtain ⟨turns, ok, s, h, rfl⟩ := hr.lastState
    exact ⟨(lastState_spec hempty.1 h).1, hempty.2.lastState hempty.1 h⟩

/-- **The cache of the naive scanner is transparent** as long as its marks are right; every run ends and visits no file
twice. -/
theorem cache_transparent (files : Finset FileId)
    (hfiles : ∀ d includer found, C.lookup d includer = some found → found.file ∈ files)
    (runs : List (List String × FileId)) :
    C.EachRun C.VisitsOnce (fun _ => none) runs ∧
      (C.EachRun C.AsFromEmpty (fun _ => none) runs ↔ C.EachRun C.MarkedRight (fun _ => none) runs) := by
  have hempty : Agrees C.text fun _ => none := by simp [Agrees]
  generalize (fun _ => none : NaiveCache) = cache at hempty
  induction runs generalizing cache with
  | nil => exact ⟨trivial, Iff.rfl⟩
  | cons run runs ih =>
    obtain ⟨forcedIncludes, main⟩ := run
    have hnext : ∀ r, C.Returns cache forcedIncludes main r → Agrees C.text r.2 := by
      intro r hr
      obtain ⟨turns, ok, s, h, rfl⟩ := hr.lastState
      exact (lastState_spec hempty h).1
    have hrest := fun r hr => ih r.2 (hnext r hr)
    refine ⟨⟨?_, fun r hr => (hrest r hr).1⟩,
      and_congr (asFromEmpty_iff hfiles hempty) (forall₂_congr fun r hr => (hrest r hr).2)⟩
    obtain ⟨enough, hends⟩ := lastState_ends hfiles hempty forcedIncludes main
    refine ⟨enough, fun turns hturns => ?_⟩
    obtain ⟨⟨ok, s⟩, h⟩ := hends turns hturns
    exact ⟨ok, s, h, (lastState_spec hempty h).2.1⟩

/-- `b.h` includes what a macro says; `other.cpp` includes `a.h`, which is empty. -/
def macroInclude : Clang where
  text file :=
    if file = ⟨0, 2⟩ then [.hash true, .rawIdentifier "include", .other]
    else if file = ⟨0, 3⟩ then IncludeDirective.tokens ⟨"a.h", false⟩
    else []
  prog _ := .done
  lookupFile name _ _ :=
    if name = "a.h" then some ⟨⟨0, 1⟩, "/p", "a.h"⟩
    else if name = "b.h" then some ⟨⟨0, 2⟩, "/p", "b.h"⟩
    else none
  dirName _ := "/p"
  name file := if file = ⟨0, 0⟩ then "/p/main.cpp" else if file = ⟨0, 3⟩ then "/p/other.cpp" else ""

theorem cache_transparent_macroInclude :
    macroInclude.EachRun macroInclude.VisitsOnce (fun _ => none) [([], ⟨0, 0⟩), (["a.h"], ⟨0, 3⟩)] ∧
      (macroInclude.EachRun macroInclude.AsFromEmpty (fun _ => none) [([], ⟨0, 0⟩), (["a.h"], ⟨0, 3⟩)] ↔
        macroInclude.EachRun macroInclude.MarkedRight (fun _ => none) [([], ⟨0, 0⟩), (["a.h"], ⟨0, 3⟩)]) := by
  refine cache_transparent {⟨0, 1⟩, ⟨0, 2⟩} ?_ _
  intro d includer found h
  simp only [lookup, macroInclude] at h
  split at h
  · cases h
    simp
  · split at h
    · cases h
      simp
    · cases h

/-- `a.h` is forced and then `b.h`, which is complex; `a.h` is marked with it. -/
theorem forced_include_marked : ¬ macroInclude.EachRun macroInclude.AsFromEmpty (fun _ => none)
    [(["a.h", "b.h"], ⟨0, 0⟩), ([], ⟨0, 3⟩)] := by
  rintro ⟨-, hrest⟩
  have hruns : (macroInclude.run 9 ["a.h", "b.h"] ⟨0, 0⟩ fun _ => none).map (fun r =>
      (macroInclude.lastState 9 [] ⟨0, 3⟩ r.2).map (·.1)) = some (some false) := by decide
  obtain ⟨r, hrun, hwarm⟩ := Option.map_eq_some_iff.1 hruns
  obtain ⟨⟨ok, s⟩, hwarm, rfl⟩ := Option.map_eq_some_iff.1 hwarm
  have hcold : (macroInclude.lastState 9 [] ⟨0, 3⟩ fun _ => none).map (·.1) = some true := by decide
  obtain ⟨⟨ok', s'⟩, hcold, rfl⟩ := Option.map_eq_some_iff.1 hcold
  obtain ⟨⟨r₁, r₂, hr₁, hr₂, heq⟩, -⟩ := hrest r ⟨9, hrun⟩
  obtain ⟨_, ok₁, s₁, h₁, rfl⟩ := hr₁.lastState
  obtain ⟨_, ok₂, s₂, h₂, rfl⟩ := hr₂.lastState
  cases lastState_unique hwarm h₁
  cases lastState_unique hcold h₂
  cases heq

end Clang

end BuildPal.Scanner.Naive
