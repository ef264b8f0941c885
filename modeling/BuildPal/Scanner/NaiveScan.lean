import BuildPal.Scanner.NaivePreprocessor
/-!
# What the naive preprocessor finds

When `run` returns true, the files of its headers are those that lead from the
main file, and from the forced includes, to each other by the `#include`s of
their texts. Clang also goes other ways: a forced include is looked up from the
main file, while `run` looks it up from the forced include before it, and there
are other directives that include a file.
-/

namespace BuildPal.Scanner.Naive

namespace Clang
variable (C : Clang)

/-! ## Headers in reach -/

/-- The header of an `#include` in the text of the parent. -/
def Sees (parent h : IncludedHeaders) : Prop :=
  ∃ d ∈ (lexIncludes false (C.text parent.file)).1, ∃ found, C.lookup d parent.file = some found ∧
    h = C.included parent d found

/-- The headers of forced includes, each looked up from the last one that was new. -/
def forcedHeaders : IncludedHeaders → List FileId → List String → List IncludedHeaders
  | _, _, [] => []
  | top, visited, forced :: rest =>
    match C.lookup ⟨forced, false⟩ top.file with
    | none => forcedHeaders top visited rest
    | some found =>
      if found.file ∈ visited then forcedHeaders top visited rest
      else
        let h := C.included top ⟨forced, false⟩ found
        h :: forcedHeaders h (found.file :: visited) rest

inductive Reach (forcedIncludes : List String) (main : FileId) : IncludedHeaders → Prop where
  | forced {h} : h ∈ C.forcedHeaders (C.mainHeader main) [] forcedIncludes → Reach forcedIncludes main h
  | main {h} : C.Sees (C.mainHeader main) h → Reach forcedIncludes main h
  | nested {p h} : Reach forcedIncludes main p → C.Sees p h → Reach forcedIncludes main h

/-! ## Caches -/

/-- What is cached for a file is what its text has. -/
def Agrees (text : FileId → List Token) (cache : NaiveCache) : Prop :=
  ∀ file includes, cache file = some (.includes includes) → lexIncludes false (text file) = (includes, false)

/-- The caches that scans of these files leave behind, each with a search path of its own. -/
inductive Warm (text : FileId → List Token) : NaiveCache → Prop where
  | empty : Warm text fun _ => none
  | scan {C : Clang} {turns forcedIncludes main cache r} : C.text = text → Warm text cache →
    C.run turns forcedIncludes main cache = some r → Warm text r.2

/-! ## The invariant -/

/-- Everything the directives lead to was visited. -/
def Handled (visited : List FileId) (file : FileId) (ds : List IncludeDirective) : Prop :=
  ∀ d ∈ ds, ∀ found, C.lookup d file = some found → found.file ∈ visited

def Complete (visited : List FileId) (file : FileId) : Prop :=
  (lexIncludes false (C.text file)).2 = false ∧ C.Handled visited file (lexIncludes false (C.text file)).1

end Clang

/-- What the finder will find yet. -/
def IncludeFinder.remaining : IncludeFinder → List IncludeDirective × Bool
  | .lexing text _ => lexIncludes false text
  | .fixed includes => (includes, false)

/-- What `includes_` has to be when these directives were found. -/
def IncludeFinder.Kept (handled : List IncludeDirective) : IncludeFinder → Prop
  | .lexing _ includes => includes = handled
  | .fixed _ => True

theorem IncludeFinder.nextInclude_found {finder next : IncludeFinder} {d : IncludeDirective}
    (h : finder.nextInclude = .includeFound d next) :
    finder.remaining = (d :: next.remaining.1, next.remaining.2) ∧
      ∀ handled, finder.Kept handled → next.Kept (handled ++ [d]) := by
  cases finder with
  | fixed includes =>
    cases includes with
    | nil => simp [nextInclude] at h
    | cons d' includes =>
      simp only [nextInclude, NextInclude.includeFound.injEq] at h
      obtain ⟨rfl, rfl⟩ := h
      exact ⟨rfl, fun _ _ => trivial⟩
  | lexing text includes =>
    simp only [nextInclude] at h
    cases hl : lexInclude false text with
    | headerDone => simp [hl] at h
    | headerComplex => simp [hl] at h
    | includeFound d' rest =>
      simp only [hl, NextInclude.includeFound.injEq] at h
      obtain ⟨rfl, rfl⟩ := h
      refine ⟨by simp [remaining, lexIncludes_eq false text, hl], ?_⟩
      rintro handled rfl
      rfl

theorem IncludeFinder.nextInclude_done {finder : IncludeFinder} {store : Option (List IncludeDirective)}
    (h : finder.nextInclude = .headerDone store) :
    finder.remaining = ([], false) ∧ ∀ handled, finder.Kept handled → store = none ∨ store = some handled := by
  cases finder with
  | fixed includes =>
    cases includes with
    | nil =>
      simp only [nextInclude, NextInclude.headerDone.injEq] at h
      exact ⟨rfl, fun _ _ => .inl h.symm⟩
    | cons d includes => simp [nextInclude] at h
  | lexing text includes =>
    simp only [nextInclude] at h
    cases hl : lexInclude false text with
    | includeFound d rest => simp [hl] at h
    | headerComplex => simp [hl] at h
    | headerDone =>
      simp only [hl, NextInclude.headerDone.injEq] at h
      refine ⟨by simp [remaining, lexIncludes_eq false text, hl], ?_⟩
      rintro handled rfl
      exact .inr h.symm

def State.headers (s : State) : List IncludedHeaders := s.headerStack.map (·.header)

namespace Clang
variable (C : Clang)

/-- A file on the stack: what its finder has found was handled. -/
def Partway (visited : List FileId) (ctx : HeaderCtx) : Prop :=
  ∃ handled, lexIncludes false (C.text ctx.header.file) =
      (handled ++ ctx.includeFinder.remaining.1, ctx.includeFinder.remaining.2) ∧
    C.Handled visited ctx.header.file handled ∧ ctx.includeFinder.Kept handled

/-- No two files in reach get one place. -/
def PlacesApart (forcedIncludes : List String) (main : FileId) : Prop :=
  ∀ h h', C.Reach forcedIncludes main h → C.Reach forcedIncludes main h' → h.place = h'.place → h.file = h'.file

/-- Every file that was visited is on the stack, or complete and one of the headers. -/
structure Inv (forcedIncludes : List String) (main : FileId) (s : State) : Prop where
  agrees : Agrees C.text s.cache
  partway : ∀ ctx ∈ s.headerStack, C.Partway s.alreadyVisited ctx
  bottom : s.headers.getLast? = some (C.mainHeader main) ∨ s.headers = [] ∧ C.Complete s.alreadyVisited main
  stacked : ∀ h ∈ s.headers.dropLast, C.Reach forcedIncludes main h
  placed : ∀ h ∈ s.allHeaders, C.Reach forcedIncludes main h
  held : C.PlacesApart forcedIncludes main → ∀ file ∈ s.alreadyVisited,
    file ∈ s.headers.dropLast.map (·.file) ∨ C.Complete s.alreadyVisited file ∧ file ∈ s.allHeaders.map (·.file)

variable {C} {forcedIncludes : List String} {main : FileId} {s : State}

theorem Handled.mono {visited visited' : List FileId} (hsub : visited ⊆ visited') {file : FileId}
    {ds : List IncludeDirective} (h : C.Handled visited file ds) : C.Handled visited' file ds :=
  fun d hd found hf => hsub (h d hd found hf)

theorem Complete.mono {visited visited' : List FileId} (hsub : visited ⊆ visited') {file : FileId}
    (h : C.Complete visited file) : C.Complete visited' file :=
  ⟨h.1, h.2.mono hsub⟩

theorem Partway.mono {visited visited' : List FileId} (hsub : visited ⊆ visited') {ctx : HeaderCtx}
    (h : C.Partway visited ctx) : C.Partway visited' ctx := by
  obtain ⟨handled, htext, hh, hk⟩ := h
  exact ⟨handled, htext, hh.mono hsub, hk⟩

/-! ### One include further -/

theorem Partway.advance {visited : List FileId} {ctx : HeaderCtx} {d : IncludeDirective} {finder : IncludeFinder}
    (h : C.Partway visited ctx) (hnext : ctx.includeFinder.nextInclude = .includeFound d finder)
    (hd : ∀ found, C.lookup d ctx.header.file = some found → found.file ∈ visited) :
    C.Partway visited { ctx with includeFinder := finder } := by
  obtain ⟨handled, htext, hh, hk⟩ := h
  have hhandled : C.Handled visited ctx.header.file (handled ++ [d]) := by
    intro d' hd' found hf
    rcases List.mem_append.1 hd' with hd' | hd'
    · exact hh d' hd' found hf
    · rw [List.mem_singleton.1 hd'] at hf
      exact hd found hf
  obtain ⟨hremaining, hkept⟩ := IncludeFinder.nextInclude_found hnext
  refine ⟨handled ++ [d], ?_, hhandled, hkept handled hk⟩
  rw [htext, hremaining]
  simp

/-- The header on top sees what its finder finds. -/
theorem Partway.sees {visited : List FileId} {ctx : HeaderCtx} {d : IncludeDirective} {finder : IncludeFinder}
    {found : Found} (h : C.Partway visited ctx) (hnext : ctx.includeFinder.nextInclude = .includeFound d finder)
    (hf : C.lookup d ctx.header.file = some found) : C.Sees ctx.header (C.included ctx.header d found) := by
  obtain ⟨handled, htext, -, -⟩ := h
  refine ⟨d, ?_, found, hf, rfl⟩
  rw [htext, (IncludeFinder.nextInclude_found hnext).1]
  simp

theorem Partway.complete {visited : List FileId} {ctx : HeaderCtx} {store : Option (List IncludeDirective)}
    (h : C.Partway visited ctx) (hnext : ctx.includeFinder.nextInclude = .headerDone store) :
    C.Complete visited ctx.header.file := by
  obtain ⟨handled, htext, hh, -⟩ := h
  rw [(IncludeFinder.nextInclude_done hnext).1, List.append_nil] at htext
  refine ⟨by rw [htext], ?_⟩
  rwa [htext]

theorem Partway.store_agrees {visited : List FileId} {ctx : HeaderCtx} {store : Option (List IncludeDirective)}
    {cache : NaiveCache} (h : C.Partway visited ctx) (hnext : ctx.includeFinder.nextInclude = .headerDone store)
    (hcache : Agrees C.text cache) : Agrees C.text (cache.store ctx.header.file store) := by
  obtain ⟨handled, htext, -, hk⟩ := h
  obtain ⟨hremaining, hstore⟩ := IncludeFinder.nextInclude_done hnext
  rw [hremaining, List.append_nil] at htext
  rcases hstore handled hk with rfl | rfl
  · exact hcache
  · intro file includes hf
    simp only [NaiveCache.store, NaiveCache.set] at hf
    split at hf
    · next heq =>
      cases hf
      rw [heq, htext]
    · exact hcache file includes hf

theorem Agrees.markComplex {text : FileId → List Token} {cache : NaiveCache} (h : Agrees text cache) (file : FileId) :
    Agrees text (cache.markComplex file) := by
  intro f includes hf
  simp only [NaiveCache.markComplex, NaiveCache.set] at hf
  split at hf
  · cases hf
  · exact h f includes hf

/-! ### The stack -/

theorem Inv.reach_of_sees {top : HeaderCtx} {rest : List HeaderCtx} {h : IncludedHeaders}
    (hi : C.Inv forcedIncludes main s) (hs : s.headerStack = top :: rest) (hsees : C.Sees top.header h) :
    C.Reach forcedIncludes main h := by
  cases rest with
  | nil =>
    have htop : top.header = C.mainHeader main := by
      rcases hi.bottom with hb | ⟨hb, -⟩
      · simpa [State.headers, hs] using hb
      · simp [State.headers, hs] at hb
    rw [htop] at hsees
    exact .main hsees
  | cons below rest =>
    have htop : C.Reach forcedIncludes main top.header := hi.stacked _ (by simp [State.headers, hs])
    exact .nested htop hsees

/-- The finder of a file on the stack goes on. -/
theorem Inv.advance (above : List HeaderCtx) {rest : List HeaderCtx} {ctx : HeaderCtx} {d : IncludeDirective}
    {finder : IncludeFinder}
    (hi : C.Inv forcedIncludes main s) (hs : s.headerStack = above ++ ctx :: rest)
    (hnext : ctx.includeFinder.nextInclude = .includeFound d finder)
    (hd : ∀ found, C.lookup d ctx.header.file = some found → found.file ∈ s.alreadyVisited) :
    C.Inv forcedIncludes main { s with headerStack := above ++ { ctx with includeFinder := finder } :: rest } := by
  have hheaders : State.headers { s with headerStack := above ++ { ctx with includeFinder := finder } :: rest } =
      s.headers := by
    simp [State.headers, hs]
  refine ⟨hi.agrees, ?_, hheaders ▸ hi.bottom, hheaders ▸ hi.stacked, hi.placed, hheaders ▸ hi.held⟩
  have hctx : C.Partway s.alreadyVisited ctx := hi.partway ctx (by simp [hs])
  intro c hc
  rcases List.mem_append.1 hc with hc | hc
  · exact hi.partway c (by simp [hs, hc])
  rcases List.mem_cons.1 hc with rfl | hc
  · exact hctx.advance hnext hd
  · exact hi.partway c (by simp [hs, hc])

/-- A header in reach is pushed. -/
theorem Inv.push {h : IncludedHeaders} {finder : IncludeFinder} (hi : C.Inv forcedIncludes main s)
    (hs : s.headerStack ≠ []) (hreach : C.Reach forcedIncludes main h)
    (hfinder : lexIncludes false (C.text h.file) = finder.remaining ∧ finder.Kept []) :
    C.Inv forcedIncludes main { s with
      headerStack := ⟨h, finder⟩ :: s.headerStack
      alreadyVisited := h.file :: s.alreadyVisited } := by
  have hne : s.headers ≠ [] := by simpa [State.headers] using hs
  have hsub : s.alreadyVisited ⊆ h.file :: s.alreadyVisited := List.subset_cons_self _ _
  have hheaders : State.headers { s with
      headerStack := ⟨h, finder⟩ :: s.headerStack
      alreadyVisited := h.file :: s.alreadyVisited } = h :: s.headers := rfl
  have hdrop : (h :: s.headers).dropLast = h :: s.headers.dropLast := List.dropLast_cons_of_ne_nil hne
  refine ⟨hi.agrees, ?_, ?_, ?_, hi.placed, ?_⟩
  · intro ctx hctx
    rcases List.mem_cons.1 hctx with rfl | hctx
    · exact ⟨[], by simpa using hfinder.1, by simp [Handled], hfinder.2⟩
    · exact (hi.partway ctx hctx).mono hsub
  · rcases hi.bottom with hb | ⟨hb, -⟩
    · left
      rw [hheaders, List.getLast?_cons, hb]
      rfl
    · exact absurd hb hne
  · intro p hp
    rw [hheaders, hdrop] at hp
    rcases List.mem_cons.1 hp with rfl | hp
    · exact hreach
    · exact hi.stacked p hp
  · intro hplaces file hfile
    rw [hheaders, hdrop]
    rcases List.mem_cons.1 hfile with rfl | hfile
    · simp
    rcases hi.held hplaces file hfile with hon | ⟨hdone, hin⟩
    · exact .inl (List.mem_cons_of_mem _ hon)
    · exact .inr ⟨hdone.mono hsub, hin⟩

theorem mem_insertHeader_self {headers : List IncludedHeaders} {h : IncludedHeaders}
    (happart : ∀ h' ∈ headers, h'.place = h.place → h'.file = h.file) :
    h.file ∈ (insertHeader headers h).map (·.file) := by
  unfold insertHeader
  split
  · next hin =>
    obtain ⟨h', hh', hplace⟩ := List.mem_map.1 hin
    exact List.mem_map.2 ⟨h', hh', happart h' hh' hplace⟩
  · simp

theorem subset_insertHeader (headers : List IncludedHeaders) (h : IncludedHeaders) :
    headers ⊆ insertHeader headers h := by
  unfold insertHeader
  split
  · exact List.Subset.refl _
  · exact List.subset_append_left _ _

theorem mem_of_mem_insertHeader {headers : List IncludedHeaders} {h h' : IncludedHeaders}
    (hin : h' ∈ insertHeader headers h) : h' ∈ headers ∨ h' = h := by
  unfold insertHeader at hin
  split at hin
  · exact .inl hin
  · simpa using hin

/-- A header whose text was gone through is popped. -/
theorem Inv.pop {top : HeaderCtx} {rest : List HeaderCtx} {store : Option (List IncludeDirective)}
    (hi : C.Inv forcedIncludes main s) (hs : s.headerStack = top :: rest)
    (hnext : top.includeFinder.nextInclude = .headerDone store) :
    C.Inv forcedIncludes main (popHeader { s with cache := s.cache.store top.header.file store }) := by
  have htop : C.Partway s.alreadyVisited top := hi.partway top (by simp [hs])
  have hagrees := htop.store_agrees hnext hi.agrees
  have hcomplete := htop.complete hnext
  cases rest with
  -- The last on the stack is the main file, which is no header of its own.
  | nil =>
    have hmain : top.header = C.mainHeader main := by
      rcases hi.bottom with hb | ⟨hb, -⟩
      · simpa [State.headers, hs] using hb
      · simp [State.headers, hs] at hb
    have hpop : popHeader { s with cache := s.cache.store top.header.file store } =
        { s with cache := s.cache.store top.header.file store, headerStack := [] } := by
      simp [popHeader, hs]
    rw [hpop]
    refine ⟨hagrees, by simp, .inr ⟨rfl, ?_⟩, by simp [State.headers], hi.placed, ?_⟩
    · rw [hmain] at hcomplete
      exact hcomplete
    · intro hplaces file hfile
      have := hi.held hplaces file hfile
      simpa [State.headers, hs] using this
  | cons below rest =>
    have hpop : popHeader { s with cache := s.cache.store top.header.file store } =
        { s with
          cache := s.cache.store top.header.file store
          headerStack := below :: rest
          allHeaders := insertHeader s.allHeaders top.header } := by
      simp [popHeader, hs]
    have hreach : C.Reach forcedIncludes main top.header := hi.stacked _ (by simp [State.headers, hs])
    have hdrop : s.headers.dropLast = top.header :: (List.map (·.header) (below :: rest)).dropLast := by
      simp [State.headers, hs]
    rw [hpop]
    refine ⟨hagrees, fun ctx hctx => hi.partway ctx (by rw [hs]; exact List.mem_cons_of_mem _ hctx), ?_, ?_, ?_, ?_⟩
    · left
      rcases hi.bottom with hb | ⟨hb, -⟩
      · simpa [State.headers, hs, List.getLast?_cons] using hb
      · simp [State.headers, hs] at hb
    · intro h hh
      exact hi.stacked h (by rw [hdrop]; exact List.mem_cons_of_mem _ hh)
    · intro h hh
      rcases mem_of_mem_insertHeader hh with hh | rfl
      · exact hi.placed h hh
      · exact hreach
    · intro hplaces file hfile
      -- A file that leaves the stack has been gone through to its end, and its header is in the set.
      rcases hi.held hplaces file hfile with hon | ⟨hdone, hin⟩
      · rw [hdrop, List.map_cons] at hon
        rcases List.mem_cons.1 hon with rfl | hon
        · exact .inr ⟨hcomplete, mem_insertHeader_self fun h' hh' => hplaces h' top.header (hi.placed h' hh') hreach⟩
        · exact .inl hon
      · exact .inr ⟨hdone, List.map_subset _ (subset_insertHeader _ _) hin⟩

/-! ### `handleInclude` -/

/-- `handleInclude` does nothing, because there is no file or it was visited, or it pushes a new header. -/
theorem handleInclude_cases {d : IncludeDirective} {s' : State} {top : HeaderCtx} {rest : List HeaderCtx}
    (h : C.handleInclude d s = (true, s')) (hs : s.headerStack = top :: rest) (hagrees : Agrees C.text s.cache) :
    s' = s ∧ (∀ found, C.lookup d top.header.file = some found → found.file ∈ s.alreadyVisited) ∨
    ∃ found finder, C.lookup d top.header.file = some found ∧ found.file ∉ s.alreadyVisited ∧
      (lexIncludes false (C.text found.file) = finder.remaining ∧ finder.Kept []) ∧
      s' = { s with
        headerStack := ⟨C.included top.header d found, finder⟩ :: s.headerStack
        alreadyVisited := found.file :: s.alreadyVisited } := by
  simp only [handleInclude, hs] at h
  cases hl : C.lookup d top.header.file with
  | none =>
    simp only [hl, Prod.mk.injEq, true_and] at h
    exact .inl ⟨h.symm, by simp⟩
  | some found =>
    simp only [hl] at h
    split at h
    · next hin =>
      simp only [Prod.mk.injEq, true_and] at h
      refine .inl ⟨h.symm, ?_⟩
      rintro _ ⟨⟩
      exact hin
    · next hnew =>
      right
      cases hc : s.cache found.file with
      | none =>
        simp only [hc, Prod.mk.injEq, true_and] at h
        exact ⟨found, .lexing (C.text found.file) [], rfl, hnew, ⟨rfl, rfl⟩, by rw [← h, hs]; rfl⟩
      | some entry =>
        cases entry with
        | complex => simp [hc] at h
        | includes includes =>
          simp only [hc, Prod.mk.injEq, true_and] at h
          exact ⟨found, .fixed includes, rfl, hnew, ⟨hagrees _ _ hc, trivial⟩, by rw [← h, hs]; rfl⟩

theorem handleInclude_cache (d : IncludeDirective) (s : State) : (C.handleInclude d s).2.cache = s.cache := by
  unfold handleInclude
  split
  · rfl
  · split
    · rfl
    · split
      · rfl
      · dsimp only
        split <;> rfl

/-- An include that was found is handled. -/
theorem Inv.found {top : HeaderCtx} {rest : List HeaderCtx} {d : IncludeDirective} {finder : IncludeFinder} {s' : State}
    (hi : C.Inv forcedIncludes main s) (hs : s.headerStack = top :: rest)
    (hnext : top.includeFinder.nextInclude = .includeFound d finder)
    (h : C.handleInclude d { s with headerStack := { top with includeFinder := finder } :: rest } = (true, s')) :
    C.Inv forcedIncludes main s' ∧ s.alreadyVisited ⊆ s'.alreadyVisited := by
  rcases handleInclude_cases h rfl hi.agrees with ⟨rfl, hvisited⟩ | ⟨found, newFinder, hl, -, hstart, rfl⟩
  · exact ⟨hi.advance [] hs hnext hvisited, List.Subset.refl _⟩
  · have htop : C.Partway s.alreadyVisited top := hi.partway top (by simp [hs])
    have hreach := hi.reach_of_sees hs (htop.sees hnext hl)
    have hpushed := hi.push (by simp [hs]) hreach hstart
    refine ⟨?_, List.subset_cons_self _ _⟩
    -- The include counts as handled once its file is visited, so the finder goes on under the new header.
    refine hpushed.advance [⟨C.included top.header d found, newFinder⟩] (by simp [hs]) hnext ?_
    intro found' hf'
    have : found' = found := Option.some.inj (hf'.symm.trans hl)
    simp [this, included]

/-! ### `run` -/

theorem handleForced_cache (forced : List String) (s : State) : (C.handleForced forced s).2.cache = s.cache := by
  induction forced generalizing s with
  | nil => rfl
  | cons name rest ih =>
    have hcache := handleInclude_cache (C := C) ⟨name, false⟩ s
    simp only [handleForced]
    split
    · next heq => rwa [heq] at hcache
    · next heq =>
      rw [ih]
      rwa [heq] at hcache

/-- Nothing is pushed: the next one is looked up from the same file. -/
theorem forcedHeaders_skip {top : IncludedHeaders} {visited : List FileId} {name : String} {names : List String}
    (hvisited : ∀ found, C.lookup ⟨name, false⟩ top.file = some found → found.file ∈ visited) :
    C.forcedHeaders top visited (name :: names) = C.forcedHeaders top visited names := by
  simp only [forcedHeaders]
  split
  · rfl
  · next found hl => rw [if_pos (hvisited found hl)]

theorem forcedHeaders_push {top : IncludedHeaders} {visited : List FileId} {name : String} {names : List String}
    {found : Found} (hl : C.lookup ⟨name, false⟩ top.file = some found) (hnew : found.file ∉ visited) :
    C.forcedHeaders top visited (name :: names) = C.included top ⟨name, false⟩ found ::
      C.forcedHeaders (C.included top ⟨name, false⟩ found) (found.file :: visited) names := by
  simp [forcedHeaders, hl, hnew]

/-- The forced includes are handled: the headers pushed are `forcedHeaders`. -/
theorem Inv.forced {forced : List String} {top : HeaderCtx} {rest : List HeaderCtx} {s' : State}
    (hi : C.Inv forcedIncludes main s) (hs : s.headerStack = top :: rest)
    (hreach : ∀ h ∈ C.forcedHeaders top.header s.alreadyVisited forced, C.Reach forcedIncludes main h)
    (h : C.handleForced forced s = (true, s')) :
    C.Inv forcedIncludes main s' ∧ s.alreadyVisited ⊆ s'.alreadyVisited ∧
      ∀ h ∈ C.forcedHeaders top.header s.alreadyVisited forced, h.file ∈ s'.alreadyVisited := by
  induction forced generalizing s top rest with
  | nil =>
    cases h
    exact ⟨hi, List.Subset.refl _, by simp [forcedHeaders]⟩
  | cons name names ih =>
    simp only [handleForced] at h
    cases hh : C.handleInclude ⟨name, false⟩ s with
    | mk ok s₁ =>
    cases ok with
    | false => simp [hh] at h
    | true =>
      simp only [hh] at h
      rcases handleInclude_cases hh hs hi.agrees with ⟨rfl, hvisited⟩ | ⟨found, finder, hl, hnew, hstart, rfl⟩
      · rw [forcedHeaders_skip hvisited] at hreach ⊢
        exact ih hi hs hreach h
      · rw [forcedHeaders_push hl hnew] at hreach ⊢
        have hi₁ := hi.push (by simp [hs]) (hreach _ List.mem_cons_self) hstart
        obtain ⟨hi', hsub, hin⟩ := ih hi₁ rfl (fun h hh => hreach h (List.mem_cons_of_mem _ hh)) h
        refine ⟨hi', fun f hf => hsub (List.mem_cons_of_mem _ hf), ?_⟩
        intro h' hh'
        rcases List.mem_cons.1 hh' with rfl | hh'
        · exact hsub (by simp [included])
        · exact hin h' hh'

theorem Agrees.markStack {cache : NaiveCache} (h : Agrees C.text cache) (stack : List HeaderCtx) :
    Agrees C.text (stack.foldl (fun cache ctx => cache.markComplex ctx.header.file) cache) := by
  induction stack generalizing cache with
  | nil => exact h
  | cons ctx stack ih => exact ih (h.markComplex _)

theorem popHeader_visited (s : State) : (popHeader s).alreadyVisited = s.alreadyVisited := by
  unfold popHeader
  split <;> rfl

/-- What the loop comes to. -/
theorem Inv.loop {turns : Nat} {ok : Bool} {s' : State} (hi : C.Inv forcedIncludes main s)
    (h : C.loop turns s = some (ok, s')) :
    Agrees C.text s'.cache ∧ (ok = true →
      C.Inv forcedIncludes main s' ∧ s'.headerStack = [] ∧ s.alreadyVisited ⊆ s'.alreadyVisited) := by
  induction turns generalizing s with
  | zero => simp [Clang.loop] at h
  | succ turns ih =>
    rw [Clang.loop] at h
    split at h
    · next hs =>
      cases h
      exact ⟨hi.agrees, fun _ => ⟨hi, hs, List.Subset.refl _⟩⟩
    · next top rest hs =>
      split at h
      · next d finder hnext =>
        split at h
        · next s₁ hh =>
          cases h
          refine ⟨?_, by simp⟩
          have hcache := handleInclude_cache (C := C) d
            { s with headerStack := { top with includeFinder := finder } :: rest }
          rw [hh] at hcache
          exact hcache ▸ hi.agrees
        · next s₁ hh =>
          obtain ⟨hi₁, hsub⟩ := hi.found hs hnext hh
          obtain ⟨hagrees, hdone⟩ := ih hi₁ h
          refine ⟨hagrees, fun hok => ?_⟩
          obtain ⟨hi', hempty, hsub'⟩ := hdone hok
          exact ⟨hi', hempty, List.Subset.trans hsub hsub'⟩
      · next store hnext =>
        obtain ⟨hagrees, hdone⟩ := ih (hi.pop hs hnext) h
        rw [popHeader_visited] at hdone
        exact ⟨hagrees, hdone⟩
      · cases h
        exact ⟨hi.agrees.markStack _, by simp⟩

theorem inv_init (C : Clang) (forcedIncludes : List String) (main : FileId) {cache : NaiveCache}
    (hcache : Agrees C.text cache) :
    C.Inv forcedIncludes main (C.pushHeader { cache := cache } (C.mainHeader main) none) where
  agrees := hcache
  partway := by
    intro ctx hctx
    rw [List.mem_singleton.1 hctx]
    exact ⟨[], rfl, by simp [Handled], rfl⟩
  bottom := .inl rfl
  stacked := by simp [State.headers, pushHeader]
  placed := by simp [pushHeader]
  held := by simp [pushHeader]

/-- `run` keeps the cache right, and visits all files in reach when it returns true. -/
theorem run_spec {turns : Nat} {cache : NaiveCache} {r : Option (List IncludedHeaders) × NaiveCache}
    (hcache : Agrees C.text cache) (h : C.run turns forcedIncludes main cache = some r) :
    Agrees C.text r.2 ∧ ∀ headers, r.1 = some headers → ∃ s, C.Inv forcedIncludes main s ∧ s.headerStack = [] ∧
      s.allHeaders = headers ∧
      ∀ h ∈ C.forcedHeaders (C.mainHeader main) [] forcedIncludes, h.file ∈ s.alreadyVisited := by
  have hi := inv_init C forcedIncludes main hcache
  unfold run at h
  split at h
  · next s hf =>
    cases h
    have hsame := handleForced_cache (C := C) forcedIncludes (C.pushHeader { cache := cache } (C.mainHeader main) none)
    rw [hf] at hsame
    exact ⟨by rw [hsame]; exact hcache, by simp⟩
  · next s hf =>
    obtain ⟨hi₁, -, hforced⟩ := hi.forced rfl (fun h hh => .forced hh) hf
    split at h
    · cases h
    · next s' hl =>
      cases h
      exact ⟨(hi₁.loop hl).1, by simp⟩
    · next s' hl =>
      cases h
      obtain ⟨hagrees, hdone⟩ := hi₁.loop hl
      obtain ⟨hi', hempty, hsub⟩ := hdone rfl
      refine ⟨hagrees, ?_⟩
      rintro headers ⟨⟩
      exact ⟨s', hi', hempty, rfl, fun h hh => hsub (hforced h hh)⟩

theorem Warm.agrees {text : FileId → List Token} {cache : NaiveCache} (h : Warm text cache) : Agrees text cache := by
  induction h with
  | empty => simp [Agrees]
  | scan htext _ hrun ih =>
    subst htext
    exact (run_spec ih hrun).1

/-! ## What Clang includes as well -/

/-- The directive stands in the text as the naive way reads it, and Clang finds what `LookupFile` does. -/
def Plain (C : Clang) (includer : FileId) (i : Inclusion) : Prop :=
  IncludeDirective.tokens ⟨i.fileName, i.isAngled⟩ <:+: C.text includer ∧
    i.file = (C.lookupFile i.fileName i.isAngled includer).map (·.file)

def InReach (C : Clang) (forcedIncludes : List String) (main file : FileId) : Prop :=
  ∃ h, C.Reach forcedIncludes main h ∧ h.file = file

/-- When everything that was visited is complete, everything in reach was visited. -/
theorem reach_visited {visited : List FileId} {h : IncludedHeaders}
    (hforced : ∀ h ∈ C.forcedHeaders (C.mainHeader main) [] forcedIncludes, h.file ∈ visited)
    (hmain : C.Complete visited main) (hall : ∀ file ∈ visited, C.Complete visited file)
    (hr : C.Reach forcedIncludes main h) : h.file ∈ visited := by
  induction hr with
  | forced hh => exact hforced _ hh
  | main hsees =>
    obtain ⟨d, hd, found, hf, rfl⟩ := hsees
    exact hmain.2 d hd found hf
  | nested _ hsees ih =>
    obtain ⟨d, hd, found, hf, rfl⟩ := hsees
    exact (hall _ ih).2 d hd found hf

/-- The files of the headers are those in reach, and the text of each was gone through. -/
theorem run_reach {turns : Nat} {cache cache' : NaiveCache} {headers : List IncludedHeaders}
    (hcache : Agrees C.text cache) (hrun : C.run turns forcedIncludes main cache = some (some headers, cache'))
    (hplaces : C.PlacesApart forcedIncludes main) :
    (∀ file, file ∈ headers.map (·.file) ↔ C.InReach forcedIncludes main file) ∧
      ∀ file, file = main ∨ C.InReach forcedIncludes main file → (lexIncludes false (C.text file)).2 = false := by
  obtain ⟨-, hspec⟩ := run_spec hcache hrun
  obtain ⟨s, hi, hempty, rfl, hforced⟩ := hspec headers rfl
  have hheld : ∀ file ∈ s.alreadyVisited, C.Complete s.alreadyVisited file ∧ file ∈ s.allHeaders.map (·.file) := by
    intro file hfile
    simpa [State.headers, hempty] using hi.held hplaces file hfile
  have hmain : C.Complete s.alreadyVisited main := by
    simpa [State.headers, hempty] using hi.bottom
  have hvisited : ∀ h, C.Reach forcedIncludes main h → h.file ∈ s.alreadyVisited := fun h =>
    reach_visited hforced hmain fun file hfile => (hheld file hfile).1
  refine ⟨fun file => ⟨?_, ?_⟩, ?_⟩
  · intro hin
    obtain ⟨h, hh, rfl⟩ := List.mem_map.1 hin
    exact ⟨h, hi.placed h hh, rfl⟩
  · rintro ⟨h, hr, rfl⟩
    exact (hheld _ (hvisited h hr)).2
  · rintro file (rfl | ⟨h, hr, rfl⟩)
    · exact hmain.1
    · exact (hheld _ (hvisited h hr)).1.1

/-- From a file in reach, a plain directive leads to a file in reach. -/
theorem inReach_of_plain {includer file : FileId} {i : Inclusion}
    (hin : includer = main ∨ C.InReach forcedIncludes main includer)
    (hend : (lexIncludes false (C.text includer)).2 = false) (hplain : C.Plain includer i) (hfile : i.file = some file) :
    C.InReach forcedIncludes main file := by
  obtain ⟨htext, hlookup⟩ := hplain
  rw [hfile] at hlookup
  obtain ⟨found, hf, rfl⟩ := Option.map_eq_some_iff.1 hlookup.symm
  have hsees : ∀ h : IncludedHeaders, h.file = includer →
      C.Sees h (C.included h ⟨i.fileName, i.isAngled⟩ found) := by
    rintro h rfl
    exact ⟨_, mem_lexIncludes hend htext, found, hf, rfl⟩
  rcases hin with rfl | ⟨h, hr, hh⟩
  · exact ⟨_, .main (hsees _ rfl), rfl⟩
  · exact ⟨_, .nested hr (hsees h hh), rfl⟩

/-- `P` goes from a file to the files its directives lead to, if it does so for those reported. -/
theorem lex_reports {P : FileId → Prop} {Q : FileId × Inclusion → Prop}
    {enter : FileId → MacroState → MacroState × Reports}
    (hQ : ∀ e, Q e → P e.1 → ∀ file, e.2.file = some file → P file)
    (henter : ∀ h σ, P h → (∀ e ∈ (enter h σ).2, Q e) → ∀ e ∈ (enter h σ).2, P e.1)
    {file : FileId} (hfile : P file) (prog : Prog) (σ : MacroState)
    (hall : ∀ e ∈ (lex enter file prog σ).2, Q e) : ∀ e ∈ (lex enter file prog σ).2, P e.1 := by
  induction prog generalizing σ with
  | done => simp [lex]
  | read name next ih => exact ih _ _ hall
  | conditional _ next ih => exact ih _ hall
  | define name value next ih => exact ih _ hall
  | undef name next ih => exact ih _ hall
  | pragmaOnce next ih => exact ih _ hall
  | «include» i next ih =>
    cases hheader : i.file with
    | none =>
      simp only [lex, hheader, List.mem_cons, forall_eq_or_imp] at hall ⊢
      exact ⟨hfile, ih _ hall.2⟩
    | some header =>
      by_cases honce : σ (macroForPragmaOnce header) ≠ none
      · simp only [lex, hheader, if_pos honce, List.mem_cons, forall_eq_or_imp] at hall ⊢
        exact ⟨hfile, ih _ hall.2⟩
      · simp only [lex, hheader, if_neg honce, List.mem_cons, List.mem_append, forall_eq_or_imp] at hall ⊢
        have hP : P header := hQ (file, i) hall.1 hfile header hheader
        refine ⟨hfile, ?_⟩
        rintro e (he | he)
        · exact henter header σ hP (fun e he => hall.2 e (.inl he)) e he
        · exact ih _ (fun e he => hall.2 e (.inr he)) e he

theorem enter_reports {P : FileId → Prop} {Q : FileId × Inclusion → Prop}
    (hQ : ∀ e, Q e → P e.1 → ∀ file, e.2.file = some file → P file) (depth : Nat) {file : FileId} (hfile : P file)
    (σ : MacroState) (hall : ∀ e ∈ (C.enter depth file σ).2, Q e) : ∀ e ∈ (C.enter depth file σ).2, P e.1 := by
  induction depth generalizing file σ with
  | zero => simp [enter]
  | succ depth ih => exact lex_reports hQ (fun h σ hP hall => ih hP σ hall) hfile _ σ hall

/-- Every file Clang includes is one of the headers, exactly if every file it includes other than by a plain
directive can be reached by plain ones. -/
theorem naive_over_approximates {turns : Nat} {cache cache' : NaiveCache} {headers : List IncludedHeaders}
    (hwarm : Warm C.text cache) (hrun : C.run turns forcedIncludes main cache = some (some headers, cache'))
    (hplaces : C.PlacesApart forcedIncludes main) :
    (∀ depth σ, ∀ e ∈ C.preprocess depth forcedIncludes main σ, ∀ file, e.2.file = some file →
      file ∈ headers.map (·.file)) ↔
    ∀ depth σ, ∀ e ∈ C.preprocess depth forcedIncludes main σ, ∀ file, e.2.file = some file →
      ¬ C.Plain e.1 e.2 → C.InReach forcedIncludes main file := by
  obtain ⟨hfiles, hend⟩ := run_reach hwarm.agrees hrun hplaces
  constructor
  · intro hall depth σ e he file hfile _
    exact (hfiles file).1 (hall depth σ e he file hfile)
  · intro hall depth σ e he file hfile
    rw [hfiles]
    -- Every file that is entered is in reach, so its text was gone through and its plain directives were found.
    let P : FileId → Prop := fun f => f = main ∨ C.InReach forcedIncludes main f
    have hstep : ∀ e, e ∈ C.preprocess depth forcedIncludes main σ → P e.1 → ∀ file, e.2.file = some file →
        C.InReach forcedIncludes main file := by
      intro e he hP file hfile
      by_cases hplain : C.Plain e.1 e.2
      · exact inReach_of_plain hP (hend _ hP) hplain hfile
      · exact hall depth σ e he file hfile hplain
    have hP : ∀ e ∈ C.preprocess depth forcedIncludes main σ, P e.1 := by
      have hQ : ∀ e, e ∈ C.preprocess depth forcedIncludes main σ → P e.1 → ∀ file, e.2.file = some file → P file :=
        fun e he hP file hfile => .inr (hstep e he hP file hfile)
      exact lex_reports hQ (fun h σ hP hall => enter_reports hQ depth hP σ hall) (.inl rfl) _ σ fun e he => he
    exact hstep e he (hP e he) file hfile

/-- `/p/main.cpp` includes `b.h`; next to it are `c.h` and `sub/a.h`. -/
def project : Clang where
  text file := if file = ⟨0, 0⟩ then IncludeDirective.tokens ⟨"b.h", false⟩ else []
  prog file :=
    if file = ⟨0, 0⟩ then
      .include { fileName := "b.h", isAngled := false, file := some ⟨0, 2⟩, searchPath := "/p", relativePath := "b.h" }
        .done
    else .done
  lookupFile name _ includer :=
    if includer = ⟨0, 1⟩ then none
    else if name = "sub/a.h" then some ⟨⟨0, 1⟩, "/p", "sub/a.h"⟩
    else if name = "b.h" then some ⟨⟨0, 2⟩, "/p", "b.h"⟩
    else if name = "c.h" then some ⟨⟨0, 3⟩, "/p", "c.h"⟩
    else none
  dirName file := if file = ⟨0, 1⟩ then "/p/sub" else "/p"
  name file := if file = ⟨0, 0⟩ then "/p/main.cpp" else ""

theorem project_reach {h : IncludedHeaders} (hr : project.Reach ["sub/a.h"] ⟨0, 0⟩ h) :
    h = ⟨⟨"/p", "/p/sub/a.h"⟩, true, ⟨0, 1⟩⟩ ∨ h = ⟨⟨"/p", "/p/b.h"⟩, true, ⟨0, 2⟩⟩ := by
  induction hr with
  | forced hh =>
    rw [show project.forcedHeaders (project.mainHeader ⟨0, 0⟩) [] ["sub/a.h"] =
      [⟨⟨"/p", "/p/sub/a.h"⟩, true, ⟨0, 1⟩⟩] by decide] at hh
    exact .inl (List.mem_singleton.1 hh)
  | main hsees =>
    obtain ⟨d, hd, found, hf, rfl⟩ := hsees
    rw [show (lexIncludes false (project.text (project.mainHeader ⟨0, 0⟩).file)).1 = [⟨"b.h", false⟩] by decide] at hd
    cases List.mem_singleton.1 hd
    rw [show project.lookup ⟨"b.h", false⟩ (project.mainHeader ⟨0, 0⟩).file = some ⟨⟨0, 2⟩, "/p", "b.h"⟩ by decide] at hf
    cases hf
    exact .inr (by decide)
  | nested _ hsees ih =>
    obtain ⟨d, hd, -⟩ := hsees
    rcases ih with rfl | rfl
    · exact absurd hd (by simp [project, lexIncludes])
    · exact absurd hd (by simp [project, lexIncludes])

theorem project_placesApart : project.PlacesApart ["sub/a.h"] ⟨0, 0⟩ := by
  intro h h' hr hr' hplace
  rcases project_reach hr with rfl | rfl <;> rcases project_reach hr' with rfl | rfl
  · rfl
  · exact absurd hplace (by decide)
  · exact absurd hplace (by decide)
  · rfl

theorem project_inReach : project.InReach ["sub/a.h"] ⟨0, 0⟩ ⟨0, 1⟩ ∧ project.InReach ["sub/a.h"] ⟨0, 0⟩ ⟨0, 2⟩ := by
  refine ⟨⟨⟨⟨"/p", "/p/sub/a.h"⟩, true, ⟨0, 1⟩⟩, .forced (by decide), rfl⟩,
    ⟨project.included (project.mainHeader ⟨0, 0⟩) ⟨"b.h", false⟩ ⟨⟨0, 2⟩, "/p", "b.h"⟩, .main ?_, rfl⟩⟩
  exact ⟨⟨"b.h", false⟩, by decide, ⟨⟨0, 2⟩, "/p", "b.h"⟩, by decide, rfl⟩

theorem project_enter (depth : Nat) {file : FileId} (h : file ≠ ⟨0, 0⟩) (σ : MacroState) :
    project.enter depth file σ = (σ, []) := by
  cases depth with
  | zero => rfl
  | succ depth => simp [enter, project, h, lex]

theorem project_preprocess (depth : Nat) (σ : MacroState) :
    project.preprocess depth ["sub/a.h"] ⟨0, 0⟩ σ =
      [(⟨0, 0⟩, ⟨"sub/a.h", false, some ⟨0, 1⟩, "/p", "sub/a.h"⟩),
        (⟨0, 0⟩, ⟨"b.h", false, some ⟨0, 2⟩, "/p", "b.h"⟩)] := by
  have hprog : project.predefines ⟨0, 0⟩ (project.prog ⟨0, 0⟩) ["sub/a.h"] =
      .include ⟨"sub/a.h", false, some ⟨0, 1⟩, "/p", "sub/a.h"⟩
        (.include ⟨"b.h", false, some ⟨0, 2⟩, "/p", "b.h"⟩ .done) := rfl
  have hentered (σ : MacroState) {file : FileId} (h : file ≠ ⟨0, 0⟩) : project.enter depth file σ = (σ, []) :=
    project_enter depth h σ
  simp [preprocess, hprog, lex, hentered]

theorem project_over_approximated :
    ∃ headers cache', project.run 9 ["sub/a.h"] ⟨0, 0⟩ (fun _ => none) = some (some headers, cache') ∧
      ∀ depth σ, ∀ e ∈ project.preprocess depth ["sub/a.h"] ⟨0, 0⟩ σ, ∀ file, e.2.file = some file →
        file ∈ headers.map (·.file) := by
  have hrun : (project.run 9 ["sub/a.h"] ⟨0, 0⟩ fun _ => none).map (·.1) = some (some
      [⟨⟨"/p", "/p/sub/a.h"⟩, true, ⟨0, 1⟩⟩, ⟨⟨"/p", "/p/b.h"⟩, true, ⟨0, 2⟩⟩]) := by decide
  obtain ⟨⟨_, cache'⟩, hrun, rfl⟩ := Option.map_eq_some_iff.1 hrun
  refine ⟨_, cache', hrun, (naive_over_approximates .empty hrun project_placesApart).2 ?_⟩
  intro depth σ e he file hfile _
  simp only [project_preprocess, List.mem_cons, List.not_mem_nil, or_false] at he
  rcases he with rfl | rfl
  · cases hfile
    exact project_inReach.1
  · cases hfile
    exact project_inReach.2

/-- `c.h` is next to the main file, but it is looked up from `sub/a.h`, the forced include before it. -/
theorem second_forced_include_missed :
    Warm project.text (fun _ => none) ∧
    ∃ headers cache', project.run 9 ["sub/a.h", "c.h"] ⟨0, 0⟩ (fun _ => none) = some (some headers, cache') ∧
      ∃ e ∈ project.preprocess 1 ["sub/a.h", "c.h"] ⟨0, 0⟩ (fun _ => none), ∃ file, e.2.file = some file ∧
        file ∉ headers.map (·.file) := by
  have hrun : (project.run 9 ["sub/a.h", "c.h"] ⟨0, 0⟩ fun _ => none).map (·.1) = some (some
      [⟨⟨"/p", "/p/sub/a.h"⟩, true, ⟨0, 1⟩⟩, ⟨⟨"/p", "/p/b.h"⟩, true, ⟨0, 2⟩⟩]) := by decide
  obtain ⟨⟨_, cache'⟩, hrun, rfl⟩ := Option.map_eq_some_iff.1 hrun
  exact ⟨.empty, _, cache', hrun, (⟨0, 0⟩, ⟨"c.h", false, some ⟨0, 3⟩, "/p", "c.h"⟩), by decide, ⟨0, 3⟩, rfl, by decide⟩

end Clang

end BuildPal.Scanner.Naive
