import BuildPal.Scanner.Scans
import BuildPal.Scanner.WarmScans
/-!
# Scanning a source

`Preprocessor::scanHeaders`: the naive preprocessor goes first, and the source is
preprocessed only if it gives up. A source that includes its headers by their
names, as they do theirs, never gets to the cache of header entries.
-/
open BuildPal.Lib

namespace BuildPal.Scanner

/-! ## `scanHeaders` -/

/-- A call of `scanHeaders`: the source, the texts as the raw lexer goes through them, and `LookupFile` with the search
path of the call. The forced includes are part of the source's program as well. -/
structure Call where
  setup : Setup
  source : Source
  forcedIncludes : List String := []
  text : FileId → List Naive.Token
  lookupFile : String → Bool → FileId → Option Naive.Found
  name : FileId → String

/-- The naive cache is a global, the other belongs to the `Preprocessor`. -/
structure Caches where
  naive : Naive.NaiveCache := fun _ => none
  cache : Cache := {}

/-- What a call returns. The naive preprocessor says nothing of headers it does not find. -/
inductive Answer where
  | naive (headers : List Header)
  | preprocessed (t : Tracker)

namespace Answer

def headers : Answer → List Header
  | .naive headers => headers
  | .preprocessed t => t.ctx.includedHeaders

def missingHeaders : Answer → List String
  | .naive _ => []
  | .preprocessed t => t.missingHeaders

def tracker : Answer → Option Tracker
  | .naive _ => none
  | .preprocessed t => some t

/-- What the cache was used for. -/
def uses : Answer → List Use
  | .naive _ => []
  | .preprocessed t => t.uses

end Answer

namespace Call

def clang (call : Call) : Naive.Clang where
  text := call.text
  prog := call.setup.files
  lookupFile := call.lookupFile
  dirName := call.setup.dirName
  name := call.name

/-- `NaivePreprocessor::run`. -/
def runNaive (turns : Nat) (call : Call) (cache : Naive.NaiveCache) :
    Option (Option (List IncludedHeaders) × Naive.NaiveCache) :=
  call.clang.run turns call.forcedIncludes call.source.main.file cache

def scanHeaders (depth turns : Nat) (call : Call) (caches : Caches) : Option (Answer × Caches) :=
  match call.runNaive turns caches.naive with
  | none => none
  | some (some headers, naive) => some (.naive (headers.map call.setup.makeHeader), { caches with naive })
  | some (none, naive) =>
    (call.setup.preprocessSource depth call.source caches.cache).map fun t =>
      (.preprocessed t, { naive, cache := t.cache })

/-- The files the call may go to: in preprocessing, or before that as the naive preprocessor. -/
def InReach (call : Call) (file : FileId) : Prop :=
  Reach call.setup.files call.source.prog file ∨ call.clang.InReach call.forcedIncludes call.source.main.file file

/-- The calls the naive preprocessor gives up on. -/
def preprocessed (turns : Nat) : List Call → Naive.NaiveCache → List Call
  | [], _ => []
  | call :: calls, cache =>
    match call.runNaive turns cache with
    | none => []
    | some (some _, cache) => preprocessed turns calls cache
    | some (none, cache) => call :: preprocessed turns calls cache

end Call

/-- Calls that share the caches. -/
def scanAll (depth turns : Nat) : List Call → Caches → Option (List Answer × Caches)
  | [], caches => some ([], caches)
  | call :: calls, caches =>
    (call.scanHeaders depth turns caches).bind fun a =>
      (scanAll depth turns calls a.2).map fun r => (a.1 :: r.1, r.2)

/-! ## What gets to the cache -/

section Calls
variable {depth turns : Nat} {call : Call} {calls : List Call} {caches after : Caches} {answer : Answer}
  {answers : List Answer}

theorem Call.preprocessed_subset (turns : Nat) (calls : List Call) (cache : Naive.NaiveCache) :
    Call.preprocessed turns calls cache ⊆ calls := by
  induction calls generalizing cache with
  | nil => exact List.Subset.refl _
  | cons call calls ih =>
    rw [preprocessed]
    split
    · exact List.nil_subset _
    · exact List.subset_cons_of_subset _ (ih _)
    · exact List.cons_subset_cons _ (ih _)

/-- Either the naive preprocessor answers and leaves the cache alone, or the source is preprocessed. -/
theorem Call.scanHeaders_cases (h : call.scanHeaders depth turns caches = some (answer, after)) :
    ∃ headers naive, call.runNaive turns caches.naive = some (headers, naive) ∧ after.naive = naive ∧
      ((∃ found, headers = some found ∧ answer = .naive (found.map call.setup.makeHeader) ∧
          after.cache = caches.cache) ∨
        headers = none ∧ ∃ t, call.setup.preprocessSource depth call.source caches.cache = some t ∧
          answer = .preprocessed t ∧ after.cache = t.cache) := by
  unfold scanHeaders at h
  split at h
  · cases h
  · next headers naive hrun =>
    cases h
    exact ⟨_, _, hrun, rfl, .inl ⟨headers, rfl, rfl, rfl⟩⟩
  · next naive hrun =>
    obtain ⟨t, ht, heq⟩ := Option.map_eq_some_iff.1 h
    cases heq
    exact ⟨_, _, hrun, rfl, .inr ⟨rfl, t, ht, rfl, rfl⟩⟩

theorem Call.scanHeaders_naive {headers : List IncludedHeaders} {naive : Naive.NaiveCache}
    (h : call.runNaive turns caches.naive = some (some headers, naive)) :
    call.scanHeaders depth turns caches = some (.naive (headers.map call.setup.makeHeader), { caches with naive }) := by
  simp [scanHeaders, h]

theorem Call.scanHeaders_preprocessed {naive : Naive.NaiveCache} {t : Tracker}
    (h : call.runNaive turns caches.naive = some (none, naive))
    (ht : call.setup.preprocessSource depth call.source caches.cache = some t) :
    call.scanHeaders depth turns caches = some (.preprocessed t, { naive, cache := t.cache }) := by
  simp [scanHeaders, h, ht]

/-- The sources that are preprocessed have the cache for themselves. -/
theorem scanAll_preprocessed (h : scanAll depth turns calls caches = some (answers, after)) :
    preprocessAll depth ((Call.preprocessed turns calls caches.naive).map fun call => (call.setup, call.source))
      caches.cache = some (answers.filterMap Answer.tracker, after.cache) := by
  induction calls generalizing caches answers with
  | nil =>
    cases h
    rfl
  | cons call calls ih =>
    obtain ⟨⟨answer, next⟩, hanswer, hrest⟩ := Option.bind_eq_some_iff.1 h
    obtain ⟨⟨rest, last⟩, hcalls, heq⟩ := Option.map_eq_some_iff.1 hrest
    cases heq
    have hsame := ih hcalls
    obtain ⟨headers, naive, hrun, hnaive, ⟨found, rfl, rfl, hcache⟩ | ⟨rfl, t, ht, rfl, hcache⟩⟩ :=
      Call.scanHeaders_cases hanswer
    · rw [hcache, hnaive] at hsame
      simp only [Call.preprocessed, hrun]
      exact hsame
    · rw [hcache, hnaive] at hsame
      simp only [Call.preprocessed, hrun, List.map_cons, preprocessAll, ht, Option.bind_some, hsame]
      rfl

/-- The naive cache holds what the texts have. -/
theorem scanAll_agrees {text : FileId → List Naive.Token} (htext : ∀ call ∈ calls, call.text = text)
    (hagrees : Naive.Clang.Agrees text caches.naive) (h : scanAll depth turns calls caches = some (answers, after)) :
    Naive.Clang.Agrees text after.naive := by
  induction calls generalizing caches answers with
  | nil =>
    cases h
    exact hagrees
  | cons call calls ih =>
    obtain ⟨⟨answer, next⟩, hanswer, hrest⟩ := Option.bind_eq_some_iff.1 h
    obtain ⟨⟨rest, last⟩, hcalls, heq⟩ := Option.map_eq_some_iff.1 hrest
    cases heq
    obtain ⟨headers, naive, hrun, hnaive, -⟩ := Call.scanHeaders_cases hanswer
    have hown : call.clang.text = text := htext call List.mem_cons_self
    refine ih (fun call hcall => htext call (List.mem_cons_of_mem _ hcall)) ?_ hcalls
    rw [hnaive]
    exact hown ▸ (Naive.Clang.run_spec (hown.symm ▸ hagrees) hrun).1

end Calls

/-! ## A computed include -/

/-- The text of `#define H "h.h"` and `#include H`. -/
def computedText : List Naive.Token :=
  [.hash true, .rawIdentifier "define", .rawIdentifier "H", .other, .hash true, .rawIdentifier "include",
    .rawIdentifier "H"]

/-- The `#include` of a header that is next to the source, in `/p`. -/
def nextTo (name : String) (file : FileId) : Inclusion where
  fileName := name
  isAngled := false
  file := some file
  searchPath := "/p"
  relativePath := name

/-- What Clang does in such a text, with the file found under the name. -/
def computedInclude (i : Inclusion) : Prog :=
  .define "H" ("\"" ++ i.fileName ++ "\"") (.read "H" fun _ => .include i .done)

/-- The naive preprocessor gives up at once. -/
theorem Call.runNaive_computed {call : Call} (hforced : call.forcedIncludes = [])
    (htext : call.text call.source.main.file = computedText) (turns : Nat) (cache : Naive.NaiveCache) :
    call.runNaive (turns + 1) cache = some (none, cache.markComplex call.source.main.file) := by
  have hcomplex : Naive.lexInclude false computedText = .headerComplex := rfl
  simp [runNaive, Naive.Clang.run, Naive.Clang.handleForced, Naive.Clang.loop, Naive.Clang.pushHeader, clang, hforced,
    htext, Naive.IncludeFinder.nextInclude, hcomplex, Naive.Clang.mainHeader]

/-- So there is nothing in its reach. -/
theorem Call.inReach_computed {call : Call} (hforced : call.forcedIncludes = [])
    (htext : call.text call.source.main.file = computedText) {file : FileId} :
    call.InReach file ↔ Reach call.setup.files call.source.prog file := by
  refine or_iff_left ?_
  rintro ⟨h, hreach, -⟩
  have hnone : (Naive.lexIncludes false (call.clang.text call.source.main.file)).1 = [] := by
    rw [show call.clang.text = call.text from rfl, htext]
    rfl
  induction hreach with
  | forced hh => simp [hforced, Naive.Clang.forcedHeaders] at hh
  | main hsees =>
    obtain ⟨d, hd, -⟩ := hsees
    rw [show (call.clang.mainHeader call.source.main.file).file = call.source.main.file from rfl, hnone] at hd
    cases hd
  | nested _ _ ih => exact ih

end BuildPal.Scanner
