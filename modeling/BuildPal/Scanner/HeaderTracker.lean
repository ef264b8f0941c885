import BuildPal.Lib.DecisionTrie
/-!
# The header tracker

`Extensions/HeaderScanner`: `headerTracker_`, `headerCache_` and the callbacks
of `headerScanner_`. While Clang preprocesses a source, the tracker collects
the headers it includes; what a header does is cached under the values of the
macros it looked at, and replayed when it is included again with these values.

Clang is a parameter: a file is the program of the things Clang reports while
it goes through the file, where what comes next depends on the values of the
macros read. The tracker's `macroState_` follows Clang's macros, so there is
one macro state here.
-/
open BuildPal.Lib

namespace BuildPal.Scanner

/-! ## Macros -/

abbrev MacroName := String

/-- `none` is `undefinedMacroValue`. -/
abbrev MacroValue := Option String

abbrev Macro := MacroName × MacroValue

abbrev MacroState := MacroName → MacroValue

namespace MacroState

def defineMacro (σ : MacroState) (name : MacroName) (value : MacroValue) : MacroState :=
  fun n => if n = name then value else σ n

def undefineMacro (σ : MacroState) (name : MacroName) : MacroState := σ.defineMacro name none

/-- `defineMacro` for each of the macros. -/
def defineMacros (σ : MacroState) (macros : List Macro) : MacroState :=
  macros.foldl (fun σ m => σ.defineMacro m.1 m.2) σ

end MacroState

/-- `llvm::sys::fs::UniqueID`. -/
structure FileId where
  device : Nat
  file : Nat
  deriving DecidableEq, Repr

def macroForPragmaOnce (entry : FileId) : MacroName :=
  "____pragma_once__" ++ toString entry.device ++ "_" ++ toString entry.file

/-! ## What Clang reports -/

/-- What `InclusionDirective` is called with. A header that was not found has no file. -/
structure Inclusion where
  fileName : String
  isAngled : Bool
  file : Option FileId
  searchPath : String
  relativePath : String
  deriving DecidableEq, Repr

/-- A token of `LexFromRawLexer`, as far as `skippable` looks at it. -/
inductive RawToken where
  | hash (atStartOfLine : Bool)
  | rawIdentifier (name : String)
  | other
  deriving DecidableEq, Repr

/-- A conditional directive. A directive that ends a branch comes with the text of that branch, which is what
is between `lastLocation` and its own location. -/
inductive Directive where
  | if_ (taken : Bool)
  | elif (text : List RawToken) (taken : Bool)
  | else_ (text : List RawToken)
  | endif (text : List RawToken)
  deriving DecidableEq, Repr

/-- What Clang does in a file. -/
inductive Prog where
  | done
  | read (name : MacroName) (next : MacroValue → Prog)
  | conditional (directive : Directive) (next : Prog)
  | define (name : MacroName) (value : String) (next : Prog)
  | undef (name : MacroName) (next : Prog)
  | pragmaOnce (next : Prog)
  | include (inclusion : Inclusion) (next : Prog)

/-! ## `ConditionStack` -/

structure Condition where
  macros : List MacroName
  lastBranchTaken : Bool
  anyBranchTaken : Bool
  deriving DecidableEq, Repr

/-- The last condition comes first. -/
structure ConditionStack where
  macros : List MacroName := []
  conditions : List Condition := []
  deriving DecidableEq, Repr

/-- Whether there is no `#define`, `#undef` or `#include` in the text. -/
def skippable : List RawToken → Bool
  | [] => true
  | .hash true :: [] => true
  | .hash true :: .rawIdentifier name :: rest =>
    if name = "define" ∨ name = "undef" ∨ name = "include" then false else skippable rest
  -- The token after a lone `#` is passed over, so that a second `#` hides its directive.
  | .hash true :: _ :: rest => skippable rest
  | _ :: rest => skippable rest

/-- What a directive does to the stack: the new stack, the macros handed to `macroUsedCallback_` and those
dropped. -/
structure Handled where
  stack : ConditionStack
  reported : List MacroName := []
  dropped : List MacroName := []
  deriving DecidableEq, Repr

namespace ConditionStack

def addMacro (cs : ConditionStack) (name : MacroName) : ConditionStack :=
  { cs with macros := cs.macros ++ [name] }

/-- What `commit` hands to `macroUsedCallback_`. -/
def pending (cs : ConditionStack) : List MacroName :=
  cs.conditions.reverse.flatMap (·.macros) ++ cs.macros

def commit (cs : ConditionStack) : Handled := { stack := {}, reported := cs.pending }

def ifDirective (cs : ConditionStack) (taken : Bool) : Handled :=
  { stack := { macros := [], conditions := ⟨cs.macros, taken, taken⟩ :: cs.conditions } }

/-- `lastConditionSkippable`, and what follows if it is. -/
def ifLastConditionSkippable (condition : Condition) (rest : List Condition) (text : List RawToken)
    (next : Handled) : Handled :=
  if condition.lastBranchTaken || skippable text then next
  else commit { macros := [], conditions := condition :: rest }

def elifDirective (cs : ConditionStack) (text : List RawToken) (taken : Bool) : Handled :=
  match cs.conditions with
  | [] => cs.commit
  | condition :: rest =>
    let condition := { condition with
      macros := condition.macros ++ cs.macros
      anyBranchTaken := condition.anyBranchTaken || taken }
    ifLastConditionSkippable condition rest text
      { stack := { macros := [], conditions := { condition with lastBranchTaken := taken } :: rest } }

/-- Macros read since the last directive come from an `#elif` Clang did not report: the block counts as not
taken then. -/
def takeMacros (cs : ConditionStack) (condition : Condition) : Condition :=
  if cs.macros.isEmpty then condition
  else { condition with macros := condition.macros ++ cs.macros, lastBranchTaken := false }

def elseDirective (cs : ConditionStack) (text : List RawToken) : Handled :=
  match cs.conditions with
  | [] => cs.commit
  | condition :: rest =>
    let condition := cs.takeMacros condition
    ifLastConditionSkippable condition rest text
      { stack := { macros := [],
                   conditions := { condition with lastBranchTaken := !condition.anyBranchTaken } :: rest } }

def endifDirective (cs : ConditionStack) (text : List RawToken) : Handled :=
  match cs.conditions with
  | [] => { stack := cs }
  | condition :: rest =>
    let condition := cs.takeMacros condition
    ifLastConditionSkippable condition rest text
      { stack := { macros := [], conditions := rest }, dropped := condition.macros }

def directive (cs : ConditionStack) : Directive → Handled
  | .if_ taken => cs.ifDirective taken
  | .elif text taken => cs.elifDirective text taken
  | .else_ text => cs.elseDirective text
  | .endif text => cs.endifDirective text

end ConditionStack

/-! ## Headers and the cache -/

/-- Where a file was found: the directory, and the name in it. -/
structure Place where
  dir : String
  name : String
  deriving DecidableEq, Repr

structure Header where
  place : Place
  contentEntry : String
  relative : Bool
  deriving DecidableEq, Repr

/-- `Headers`: a set whose elements are compared by their place. -/
def insertHeader (headers : List Header) (header : Header) : List Header :=
  if header.place ∈ headers.map (·.place) then headers else headers ++ [header]

/-- The search path of a scan: the user's directories, then the system's. -/
structure SearchPath where
  user : List String
  system : List String
  deriving DecidableEq, Repr

/-- `recordedAs` and `recordedUnder` are not in the code: where the header was when the entry was made, and the
search path of the scan that made it. -/
structure CacheEntry where
  macroState : List Macro
  headers : List Header
  recordedAs : Place
  recordedUnder : SearchPath
  deriving DecidableEq, Repr

/-- `hits_` and `misses_` only matter together. -/
structure Cache where
  cacheContainer : FileId × Nat → Trie MacroName MacroValue CacheEntry := fun _ => .empty
  time : Nat := 0

namespace Cache

def cacheCleanupPeriod : Nat := 1024 * 2

/-- Which entries go depends on when they were hit last, and on which ones the scan going on still refers to;
`expired` stands for that. -/
def maintenance (expired : Nat → CacheEntry → Bool) (cache : Cache) : Cache :=
  if cache.time % cacheCleanupPeriod ≠ 0 then cache
  else { cache with cacheContainer := fun key => (cache.cacheContainer key).pruneRoot fun e => !expired cache.time e }

/-- The entry comes with its path in the tree. -/
def findEntry (expired : Nat → CacheEntry → Bool) (cache : Cache) (fileId : FileId) (searchPathId : Nat)
    (macroState : MacroState) : Option (List Macro × CacheEntry) × Cache :=
  ((cache.cacheContainer (fileId, searchPathId)).find macroState,
    maintenance expired { cache with time := cache.time + 1 })

/-- Returns the entry of the node, which is the given one unless there was one already. -/
def addEntry (cache : Cache) (fileId : FileId) (searchPathId : Nat) (usedMacros : List Macro) (entry : CacheEntry) :
    (List Macro × CacheEntry) × Cache :=
  let r := (cache.cacheContainer (fileId, searchPathId)).insert entry usedMacros
  (r.2, { cache with cacheContainer := fun key =>
    if key = (fileId, searchPathId) then r.1 else cache.cacheContainer key })

end Cache

/-! ## `HeaderCtx` -/

structure HeaderCtx where
  usedHere : List Macro := []
  changedHere : List MacroName := []
  includedHeaders : List Header := []
  deriving DecidableEq, Repr

namespace HeaderCtx

/-- A macro counts as used in a header only if it was not changed there before; it is noted once. -/
def macroUsed (ctx : HeaderCtx) (m : Macro) : HeaderCtx :=
  if m.1 ∈ ctx.changedHere ∨ m.1 ∈ ctx.usedHere.map (·.1) then ctx
  else { ctx with usedHere := ctx.usedHere ++ [m] }

def macroChanged (ctx : HeaderCtx) (name : MacroName) : HeaderCtx :=
  { ctx with changedHere := ctx.changedHere.insert name }

def addHeader (ctx : HeaderCtx) (header : Header) : HeaderCtx :=
  { ctx with includedHeaders := insertHeader ctx.includedHeaders header }

/-- `propagateToParent`, of what a header or its cache entry says was used, changed and included. -/
def propagate (parent : HeaderCtx) (used : List Macro) (changed : List MacroName) (headers : List Header) : HeaderCtx :=
  headers.foldl addHeader (changed.foldl macroChanged (used.foldl macroUsed parent))

/-- Only headers which use a sane amount of macros. -/
def isViableForCache (ctx : HeaderCtx) : Bool := ctx.usedHere.length < 1024

end HeaderCtx

/-! ## `HeaderTracker` -/

/-- An element of `fileStack_`, without its context. -/
structure IncludedHeaders where
  place : Place
  relative : Bool
  file : FileId
  deriving DecidableEq, Repr

/-- An entry of the cache was used for a header: found by `findEntry`, or, after the header was preprocessed,
returned by `addEntry`. -/
structure Use where
  found : Bool
  header : IncludedHeaders
  macroState : MacroState
  usedMacros : List Macro
  entry : CacheEntry

/-- The tracker and what it works on. `uses` and `dropped` are not in the code: what the cache was used for, and
what the condition stack dropped. -/
structure Tracker where
  macroState : MacroState := fun _ => none
  ctx : HeaderCtx := {}
  conditionStack : ConditionStack := {}
  cache : Cache := {}
  missingHeaders : List String := []
  uses : List Use := []
  dropped : List MacroName := []

/-- How the cache is used: not at all (`cache_ == 0`), or as it is meant to be. `bypassed` is neither: macros are
tracked as for the cache, but every header is preprocessed. -/
inductive Caching where
  | disabled
  | bypassed
  | enabled
  deriving DecidableEq, Repr

/-- What does not change during a scan. With `immediate` a macro read is reported to the header's context when it
happens, and not through the condition stack. -/
structure Setup where
  files : FileId → Prog
  dirName : FileId → String
  contentEntry : FileId → String
  searchPath : SearchPath := ⟨[], []⟩
  searchPathId : Nat := 0
  caching : Caching := .enabled
  immediate : Bool := false
  expired : Nat → CacheEntry → Bool := fun _ _ => false

namespace Tracker

/-- `HeaderCtx::macroUsed` of the current header. -/
def ctxMacroUsed (s : Tracker) (name : MacroName) : Tracker :=
  { s with ctx := s.ctx.macroUsed (name, s.macroState name) }

/-- What becomes of the macros in the condition stack. -/
def handle (s : Tracker) (h : Handled) : Tracker :=
  h.reported.foldl ctxMacroUsed { s with conditionStack := h.stack, dropped := s.dropped ++ h.dropped }

def commitMacros (s : Tracker) : Tracker := s.handle s.conditionStack.commit

/-- `HeaderCtx::macroDefined` and `macroUndefined`. -/
def ctxMacroChanged (s : Tracker) (name : MacroName) (value : MacroValue) : Tracker :=
  { s with macroState := s.macroState.defineMacro name value, ctx := s.ctx.macroChanged name }

def addHeader (s : Tracker) (header : Header) : Tracker := { s with ctx := s.ctx.addHeader header }

/-- A context for the header; the condition stack is the same for all files. -/
def enterFile (s : Tracker) (file : FileId) : Tracker :=
  ctxMacroUsed { s with ctx := {} } (macroForPragmaOnce file)

end Tracker

namespace Setup
variable (S : Setup)

/-! ### Callbacks -/

def macroUsed (s : Tracker) (name : MacroName) : Tracker :=
  if S.caching = .disabled then s
  else if S.immediate then s.ctxMacroUsed name
  else { s with conditionStack := s.conditionStack.addMacro name }

def conditional (s : Tracker) (directive : Directive) : Tracker :=
  if S.immediate then s else s.handle (s.conditionStack.directive directive)

def macroDefined (s : Tracker) (name : MacroName) (value : String) : Tracker :=
  if S.caching = .disabled then { s with macroState := s.macroState.defineMacro name (some value) }
  else s.commitMacros.ctxMacroChanged name (some value)

def macroUndefined (s : Tracker) (name : MacroName) : Tracker :=
  if S.caching = .disabled then { s with macroState := s.macroState.undefineMacro name }
  else s.commitMacros.ctxMacroChanged name none

/-- Unlike the others it does not commit first. With the cache disabled it is Clang alone that notes it. -/
def pragmaOnce (s : Tracker) (file : FileId) : Tracker :=
  if S.caching = .disabled then { s with macroState := s.macroState.defineMacro (macroForPragmaOnce file) (some " 1") }
  else s.ctxMacroChanged (macroForPragmaOnce file) (some " 1")

/-- `fileName.substr(0, fileName.find_last_of('/') + 1)`. -/
def upToSlash (fileName : String) : String :=
  String.ofList (fileName.toList.reverse.dropWhile (· ≠ '/')).reverse

def relativeToParent (parent : IncludedHeaders) (i : Inclusion) : Bool :=
  !i.isAngled && S.dirName parent.file == i.searchPath

/-- What `inclusionDirective` pushes to `fileStack_`. A header found next to its parent is named after it. -/
def included (parent : IncludedHeaders) (i : Inclusion) (file : FileId) : IncludedHeaders where
  place :=
    if S.relativeToParent parent i then ⟨parent.place.dir, upToSlash parent.place.name ++ i.relativePath⟩
    else ⟨i.searchPath, i.relativePath⟩
  relative := S.relativeToParent parent i
  file := file

def makeHeader (h : IncludedHeaders) : Header := ⟨h.place, S.contentEntry h.file, h.relative⟩

/-! ### Headers -/

/-- `cache().findEntry`, unless there is no cache to look at. -/
def findEntry (s : Tracker) (file : FileId) : Option (List Macro × CacheEntry) × Cache :=
  if S.caching = .enabled then s.cache.findEntry S.expired file S.searchPathId s.macroState else (none, s.cache)

/-- Leaves a header whose cache entry is known: its effect is what the entry says. -/
def leaveWithEntry (found : Bool) (parent : Tracker) (h : IncludedHeaders) (cache : Cache)
    (hit : List Macro × CacheEntry) : Tracker :=
  Tracker.addHeader { parent with
    macroState := parent.macroState.defineMacros hit.2.macroState
    ctx := parent.ctx.propagate hit.1 (hit.2.macroState.map (·.1)) hit.2.headers
    cache := cache
    uses := parent.uses ++ [⟨found, h, parent.macroState, hit.1, hit.2⟩] } (S.makeHeader h)

/-- What `addToCache` makes of a context. -/
def newEntry (h : IncludedHeaders) (child : Tracker) : CacheEntry where
  macroState := child.ctx.changedHere.map fun name => (name, child.macroState name)
  headers := child.ctx.includedHeaders
  recordedAs := h.place
  recordedUnder := S.searchPath

/-- `leaveHeader` after the header was preprocessed: `child` is what has become of the tracker, `parent` what it
was before. -/
def leaveHeader (parent : Tracker) (h : IncludedHeaders) (child : Tracker) : Tracker :=
  if S.caching = .enabled ∧ child.ctx.isViableForCache then
    -- The entry that comes back may be an older one with the same path; the parent gets what that one says.
    let r := child.cache.addEntry h.file S.searchPathId child.ctx.usedHere (S.newEntry h child)
    S.leaveWithEntry false { child with ctx := parent.ctx } h r.2 r.1
  else
    Tracker.addHeader { child with
      ctx := parent.ctx.propagate child.ctx.usedHere child.ctx.changedHere child.ctx.includedHeaders } (S.makeHeader h)

/-- A header that is not to be included twice: Clang skips it, or is given an empty file in its place. -/
def headerSkipped (s : Tracker) (h : IncludedHeaders) : Tracker :=
  (if S.caching = .disabled then s else s.ctxMacroUsed (macroForPragmaOnce h.file)).addHeader (S.makeHeader h)

/-- `enter` is what happens to a header that is entered. -/
def inclusionDirective (enter : IncludedHeaders → Tracker → Option Tracker) (parent : IncludedHeaders)
    (i : Inclusion) (s : Tracker) : Option Tracker :=
  match i.file with
  | none => some { s with missingHeaders := s.missingHeaders ++ [i.fileName] }
  | some file =>
    if s.macroState (macroForPragmaOnce file) ≠ none then
      -- Committed all the same: only an include that is not found leaves the stack alone.
      some (S.headerSkipped s.commitMacros (S.included parent i file))
    else enter (S.included parent i file) s.commitMacros

def lex (enter : IncludedHeaders → Tracker → Option Tracker) (h : IncludedHeaders) : Prog → Tracker → Option Tracker
  | .done, s => some s
  | .read name next, s => lex enter h (next (s.macroState name)) (S.macroUsed s name)
  | .conditional directive next, s => lex enter h next (S.conditional s directive)
  | .define name value next, s => lex enter h next (S.macroDefined s name value)
  | .undef name next, s => lex enter h next (S.macroUndefined s name)
  | .pragmaOnce next, s => lex enter h next (S.pragmaOnce s h.file)
  | .include i next, s => (S.inclusionDirective enter h i s).bind (lex enter h next)

/-- `replaceFile`, `enterHeader`, the header's text and `leaveHeader`. Headers are nested at most as deep as the
number says. -/
def enterHeader : Nat → IncludedHeaders → Tracker → Option Tracker
  | 0, _, _ => none
  | depth + 1, h, s =>
    match S.findEntry s h.file with
    | (some hit, cache) => some (S.leaveWithEntry true s h cache hit)
    | (none, cache) =>
      (S.lex (enterHeader depth) h (S.files h.file) (Tracker.enterFile { s with cache := cache } h.file)).map
        (S.leaveHeader s h)

end Setup

/-! ## Scans -/

/-- A source with its predefined macros and forced includes, which Clang reports as a part of it. -/
structure Source where
  main : IncludedHeaders
  prog : Prog

namespace Setup

/-- What `Preprocessor::scanHeaders` calls the real preprocessing. The result's `includedHeaders` and `missingHeaders`
are what it returns. -/
def preprocessSource (S : Setup) (depth : Nat) (source : Source) (cache : Cache) : Option Tracker :=
  S.lex (S.enterHeader depth) source.main source.prog (Tracker.enterFile { cache := cache } source.main.file)

/-- What preprocessing a header does that is included with these macros. -/
def preprocess (S : Setup) (depth : Nat) (h : IncludedHeaders) (σ : MacroState) : Option Tracker :=
  S.lex (S.enterHeader depth) h (S.files h.file) (Tracker.enterFile { macroState := σ } h.file)

end Setup

/-- Sources that are preprocessed with one cache, and what is left in it. -/
def preprocessAll (depth : Nat) : List (Setup × Source) → Cache → Option (List Tracker × Cache)
  | [], cache => some ([], cache)
  | (S, source) :: sources, cache =>
    (S.preprocessSource depth source cache).bind fun t =>
      (preprocessAll depth sources t.cache).map fun r => (t :: r.1, r.2)

end BuildPal.Scanner
