import BuildPal.Scanner.HeaderTracker
/-!
# The naive preprocessor

`naivePreprocessor_.cpp`: the headers of a source without preprocessing it. Its
text and the text of each file found is gone through for `#include`s, whatever
the conditions around them; what does not name its file as it stands sends the
source to Clang after all. The includes of a file are kept for the scans to
come.

Clang's lexer and `LookupFile` are parameters. `preprocess` is what Clang
itself would include.
-/

namespace BuildPal.Scanner.Naive

/-! ## Finding includes -/

structure IncludeDirective where
  filename : String
  isAngled : Bool
  deriving DecidableEq, Repr

/-- What the raw lexer returns. A `headerName` is what `LexIncludeFilename` returns for a `string_literal` or an
`angle_string_literal`. -/
inductive Token where
  | hash (atStartOfLine : Bool)
  | rawIdentifier (name : String)
  | headerName (isAngled : Bool) (name : String)
  | other
  deriving DecidableEq, Repr

inductive Lexed where
  | includeFound (d : IncludeDirective) (rest : List Token)
  | headerDone
  | headerComplex
  deriving DecidableEq, Repr

/-- The loop of `LexingIncludeFinder::nextInclude`; `directive` says whether the last token was a `#` that starts a
line. -/
def lexInclude (directive : Bool) : List Token → Lexed
  | [] => .headerDone
  | .hash true :: rest => lexInclude true rest
  | .rawIdentifier name :: rest =>
    if directive ∧ name = "include" then
      match rest with
      | .headerName isAngled filename :: rest => .includeFound ⟨filename, isAngled⟩ rest
      | _ => .headerComplex
    else lexInclude false rest
  | _ :: rest => lexInclude false rest

/-- `lexing` carries `includes_`, `fixed` what is left from `iter_` on. -/
inductive IncludeFinder where
  | lexing (text : List Token) (includes : List IncludeDirective)
  | fixed (includes : List IncludeDirective)
  deriving DecidableEq, Repr

/-- A finder that went through all of a text has its includes stored. -/
inductive NextInclude where
  | includeFound (d : IncludeDirective) (finder : IncludeFinder)
  | headerDone (store : Option (List IncludeDirective))
  | headerComplex
  deriving DecidableEq, Repr

def IncludeFinder.nextInclude : IncludeFinder → NextInclude
  | .fixed [] => .headerDone none
  | .fixed (d :: includes) => .includeFound d (.fixed includes)
  | .lexing text includes =>
    match lexInclude false text with
    | .includeFound d rest => .includeFound d (.lexing rest (includes ++ [d]))
    | .headerDone => .headerDone (some includes)
    | .headerComplex => .headerComplex

/-! ## `NaiveCache` -/

inductive NaiveCacheEntry where
  | complex
  | includes (includes : List IncludeDirective)
  deriving DecidableEq, Repr

abbrev NaiveCache := FileId → Option NaiveCacheEntry

namespace NaiveCache

def set (cache : NaiveCache) (file : FileId) (entry : NaiveCacheEntry) : NaiveCache :=
  fun f => if f = file then some entry else cache f

def markComplex (cache : NaiveCache) (file : FileId) : NaiveCache := cache.set file .complex

def store (cache : NaiveCache) (file : FileId) : Option (List IncludeDirective) → NaiveCache
  | none => cache
  | some includes => cache.set file (.includes includes)

end NaiveCache

/-! ## `NaivePreprocessorImpl` -/

/-- What `LookupFile` returns. -/
structure Found where
  file : FileId
  searchPath : String
  relativePath : String
  deriving DecidableEq, Repr

/-- The files, and Clang on them with one search path. `prog` is what Clang does in a file. -/
structure Clang where
  text : FileId → List Token
  prog : FileId → Prog
  lookupFile : String → Bool → FileId → Option Found
  dirName : FileId → String
  name : FileId → String

/-- The header is `currentHeader` with its file. -/
structure HeaderCtx where
  header : IncludedHeaders
  includeFinder : IncludeFinder
  deriving DecidableEq, Repr

/-- The top of `headerStack` comes first. A header of `allHeaders` comes with its file. -/
structure State where
  headerStack : List HeaderCtx := []
  alreadyVisited : List FileId := []
  allHeaders : List IncludedHeaders := []
  cache : NaiveCache

/-- `allHeaders_.insert`: headers are compared by their place. -/
def insertHeader (headers : List IncludedHeaders) (h : IncludedHeaders) : List IncludedHeaders :=
  if h.place ∈ headers.map (·.place) then headers else headers ++ [h]

/-- The main file is no header of its own. -/
def popHeader (s : State) : State :=
  match s.headerStack with
  | [] => s
  | [_] => { s with headerStack := [] }
  | top :: rest => { s with headerStack := rest, allHeaders := insertHeader s.allHeaders top.header }

namespace Clang
variable (C : Clang)

def relativeToParent (parent : IncludedHeaders) (d : IncludeDirective) (found : Found) : Bool :=
  !d.isAngled && C.dirName parent.file == found.searchPath

/-- The header `handleInclude` makes of what was found. -/
def included (parent : IncludedHeaders) (d : IncludeDirective) (found : Found) : IncludedHeaders where
  place :=
    if C.relativeToParent parent d found then
      ⟨parent.place.dir, Setup.upToSlash parent.place.name ++ found.relativePath⟩
    else ⟨found.searchPath, found.relativePath⟩
  relative := C.relativeToParent parent d found
  file := found.file

def lookup (d : IncludeDirective) (includer : FileId) : Option Found := C.lookupFile d.filename d.isAngled includer

def pushHeader (s : State) (h : IncludedHeaders) (includeDirectives : Option (List IncludeDirective)) : State :=
  let includeFinder := match includeDirectives with
    | some includes => .fixed includes
    | none => .lexing (C.text h.file) []
  { s with headerStack := ⟨h, includeFinder⟩ :: s.headerStack }

/-- The include is looked up from the file on top of the stack. -/
def handleInclude (d : IncludeDirective) (s : State) : Bool × State :=
  match s.headerStack with
  | [] => (true, s)
  | top :: _ =>
    match C.lookup d top.header.file with
    | none => (true, s)
    | some found =>
      -- A file is gone through once, at the place where it was found first.
      if found.file ∈ s.alreadyVisited then (true, s)
      else
        let s := { s with alreadyVisited := found.file :: s.alreadyVisited }
        match s.cache found.file with
        | some .complex => (false, s)
        | some (.includes includes) => (true, C.pushHeader s (C.included top.header d found) (some includes))
        | none => (true, C.pushHeader s (C.included top.header d found) none)

/-- The first loop of `run`. -/
def handleForced : List String → State → Bool × State
  | [], s => (true, s)
  | forced :: rest, s =>
    match C.handleInclude ⟨forced, false⟩ s with
    | (false, s) => (false, s)
    | (true, s) => handleForced rest s

/-- The second loop of `run`, for at most so many turns. -/
def loop : Nat → State → Option (Bool × State)
  | 0, _ => none
  | turns + 1, s =>
    match s.headerStack with
    | [] => some (true, s)
    | top :: rest =>
      -- The finder goes on where the file was left for an include of its own.
      match top.includeFinder.nextInclude with
      | .includeFound d finder =>
        match C.handleInclude d { s with headerStack := { top with includeFinder := finder } :: rest } with
        | (false, s) => some (false, s)
        | (true, s) => loop turns s
      | .headerDone store => loop turns (popHeader { s with cache := s.cache.store top.header.file store })
      | .headerComplex =>
        -- Whatever includes a complex header is complex as well.
        some (false, { s with cache := s.headerStack.foldl (fun cache ctx => cache.markComplex ctx.header.file) s.cache })

def mainHeader (main : FileId) : IncludedHeaders := ⟨⟨C.dirName main, C.name main⟩, true, main⟩

/-- The headers, if `run` returns true, and what it leaves in the cache. -/
def run (turns : Nat) (forcedIncludes : List String) (main : FileId) (cache : NaiveCache) :
    Option (Option (List IncludedHeaders) × NaiveCache) :=
  match C.handleForced forcedIncludes (C.pushHeader { cache := cache } (C.mainHeader main) none) with
  | (false, s) => some (none, s.cache)
  | (true, s) =>
    match C.loop turns s with
    | none => none
    | some (false, s) => some (none, s.cache)
    | some (true, s) => some (some s.allHeaders, s.cache)

/-! ## What Clang includes -/

/-- What was reported through `InclusionDirective`, with the file it stands in. -/
abbrev Reports := List (FileId × Inclusion)

def lex (enter : FileId → MacroState → MacroState × Reports) (file : FileId) : Prog → MacroState → MacroState × Reports
  | .done, σ => (σ, [])
  | .read name next, σ => lex enter file (next (σ name)) σ
  | .conditional _ next, σ => lex enter file next σ
  | .define name value next, σ => lex enter file next (σ.defineMacro name (some value))
  | .undef name next, σ => lex enter file next (σ.undefineMacro name)
  | .pragmaOnce next, σ => lex enter file next (σ.defineMacro (macroForPragmaOnce file) (some " 1"))
  | .include i next, σ =>
    match i.file with
    | none => let r := lex enter file next σ; (r.1, (file, i) :: r.2)
    | some header =>
      if σ (macroForPragmaOnce header) ≠ none then
        let r := lex enter file next σ
        (r.1, (file, i) :: r.2)
      else
        let entered := enter header σ
        let r := lex enter file next entered.1
        (r.1, (file, i) :: (entered.2 ++ r.2))

/-- A file included too deep is reported, but not entered. -/
def enter : Nat → FileId → MacroState → MacroState × Reports
  | 0, _, σ => (σ, [])
  | depth + 1, file, σ => lex (enter depth) file (C.prog file) σ

/-- The predefines: forced includes are looked up from the main file. -/
def predefines (main : FileId) (next : Prog) : List String → Prog
  | [] => next
  | forced :: rest =>
    let found := C.lookupFile forced false main
    .include
      { fileName := forced
        isAngled := false
        file := found.map (·.file)
        searchPath := (found.map (·.searchPath)).getD ""
        relativePath := (found.map (·.relativePath)).getD "" }
      (predefines main next rest)

/-- Everything Clang includes for a source whose predefined macros are `σ`. -/
def preprocess (depth : Nat) (forcedIncludes : List String) (main : FileId) (σ : MacroState) : Reports :=
  (lex (C.enter depth) main (C.predefines main (C.prog main) forcedIncludes) σ).2

end Clang

/-! ## All includes of a text -/

/-- The includes that are found in a text, and whether the search ends before the text does. -/
def lexIncludes (directive : Bool) : List Token → List IncludeDirective × Bool
  | [] => ([], false)
  | .hash true :: rest => lexIncludes true rest
  | .rawIdentifier name :: rest =>
    if directive ∧ name = "include" then
      match rest with
      | .headerName isAngled filename :: rest =>
        (⟨filename, isAngled⟩ :: (lexIncludes false rest).1, (lexIncludes false rest).2)
      | _ => ([], true)
    else lexIncludes false rest
  | _ :: rest => lexIncludes false rest

/-- Going through a text include by include. -/
theorem lexIncludes_eq (directive : Bool) (text : List Token) :
    lexIncludes directive text = match lexInclude directive text with
      | .includeFound d rest => (d :: (lexIncludes false rest).1, (lexIncludes false rest).2)
      | .headerDone => ([], false)
      | .headerComplex => ([], true) := by
  fun_induction lexInclude directive text with
  | case1 => rfl
  | case2 directive rest ih => simpa only [lexIncludes] using ih
  | case3 directive name h isAngled filename rest => simp [lexIncludes, h]
  | case4 directive name rest h hne =>
    rw [lexIncludes.eq_def]
    simp only [if_pos h]
  | case5 directive name rest h ih =>
    rw [lexIncludes.eq_def]
    simpa only [if_neg h] using ih
  | case6 directive token rest hh hi ih =>
    rw [lexIncludes.eq_def]
    split
    all_goals simp_all

/-- The tokens of an `#include`. -/
def IncludeDirective.tokens (d : IncludeDirective) : List Token :=
  [.hash true, .rawIdentifier "include", .headerName d.isAngled d.filename]

theorem IncludeDirective.tokens_infix_cons {d : IncludeDirective} {token : Token} {text : List Token}
    (hne : token ≠ .hash true) (h : d.tokens <:+: token :: text) : d.tokens <:+: text := by
  rcases List.infix_cons_iff.1 h with hp | hi
  · exact absurd (List.cons_prefix_cons.1 hp).1.symm hne
  · exact hi

/-- Every `#include` of a text that is gone through to its end is found. -/
theorem mem_lexIncludes {directive : Bool} {text : List Token} {d : IncludeDirective}
    (hend : (lexIncludes directive text).2 = false) (h : d.tokens <:+: text) :
    d ∈ (lexIncludes directive text).1 := by
  fun_induction lexIncludes directive text with
  | case1 => simp [IncludeDirective.tokens] at h
  | case2 directive rest ih =>
    rcases List.infix_cons_iff.1 h with hp | hi
    · obtain ⟨rest, rfl⟩ := (List.cons_prefix_cons.1 hp).2
      simp [lexIncludes]
    · exact ih hend hi
  | case3 directive name hd isAngled filename rest ih =>
    have hrest : d.tokens <:+: rest :=
      IncludeDirective.tokens_infix_cons (by simp) (IncludeDirective.tokens_infix_cons (by simp) h)
    exact List.mem_cons_of_mem _ (ih hend hrest)
  | case4 => simp at hend
  | case5 directive name rest hd ih => exact ih hend (IncludeDirective.tokens_infix_cons (by simp) h)
  | case6 directive token rest hhash hname ih => exact ih hend (IncludeDirective.tokens_infix_cons hhash h)

end BuildPal.Scanner.Naive
