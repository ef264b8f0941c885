import BuildPal.Lib.Paths
import BuildPal.Server.Runner
/-!
# Compile options

`CompileOptions` of `compilers/msvc.py`, and the tasks that `create_tasks` of
`command_processor.py` makes of them. The options are what `parse_args` has
taken the command line apart into.
-/
open BuildPal.Lib.Paths (upToLast afterLast dirPart baseName)
open BuildPal.Runner (splitDrive splitPath isSep)

namespace BuildPal.Conversation

/-- What a call raises. -/
inductive Raised where
  | indexError
  | assertionError
  | attributeError
  | typeError
  | valueError
  | unicodeDecodeError
  | osError
  /-- `parse_args` does not accept the options. -/
  | optionError
  | runtimeError (text : String)
  | exception (text : String)
  deriving DecidableEq, Repr

/-! ## File names -/

/-- `os.path.join`, for drives that are a letter. -/
def joinPath (path name : String) : String :=
  let (pathDrive, pathRest) := splitDrive path.toList
  let (nameDrive, nameRest) := splitDrive name.toList
  if nameRest.head?.any isSep then
    String.ofList ((if nameDrive ≠ [] ∨ pathDrive = [] then nameDrive else pathDrive) ++ nameRest)
  else if nameDrive ≠ [] ∧ nameDrive.map Char.toLower ≠ pathDrive.map Char.toLower then name
  else
    let drive := if nameDrive = [] then pathDrive else nameDrive
    let sep := if pathRest = [] ∨ pathRest.getLast?.any isSep then [] else ['\\']
    String.ofList (drive ++ (pathRest ++ (sep ++ nameRest)))

/-- `os.path.splitext`. Dots that a name starts with do not start an extension. -/
def splitExt (path : String) : String × String :=
  let name := baseName path.toList
  let stem := (upToLast (· == '.') name).dropLast
  if stem.any (· != '.') then
    (String.ofList (dirPart path.toList ++ stem), String.ofList ('.' :: afterLast (· == '.') name))
  else (path, "")

def isAbs (path : String) : Bool := (splitDrive path.toList).2.head?.any isSep

/-! ## Options -/

/-- An option with its values, and as it is rendered. -/
structure Arg where
  name : String
  values : List String
  rendered : List String
  deriving DecidableEq, Repr

structure CompileOptions where
  args : List Arg
  deriving DecidableEq, Repr

namespace CompileOptions

def buildLocalOptions : List String := ["E", "EP", "P", "Zg", "Zs", "FA", "Fa"]

def excludeOpts : List String := ["c", "I", "Fo", "link", "Fp", "Yc", "Tc", "Tp", "Yu", "FI"]

variable (o : CompileOptions)

def optionNames : List String := o.args.map (·.name)

/-- `value_dict`. -/
def values (name : String) : List String := (o.args.filter (·.name = name)).flatMap (·.values)

def shouldBuildLocally : Bool := o.optionNames.any (· ∈ buildLocalOptions)

def createPchCmd : Option (List (List String)) :=
  if "Yc" ∉ o.optionNames then none else some (o.args.map (·.rendered))

def shouldInvokeLinker : Bool := "c" ∉ o.optionNames

def avoidPch : Bool := "Zi" ∈ o.optionNames

def pchHeader : Option String := (o.values "Yu").getLast?

def pchFile : Option String := (o.values "Fp").getLast?

/-- What an option adds to the server's call. Inputs that look like flags are passed on. -/
def serverArg (a : Arg) : List String :=
  if a.name = "Zi" then ["/Z7"]
  else if a.name = "/Fd" then []
  else if a.name = "<input>" then a.rendered.filter fun val => val.toList.head? = some '/' ∧ val ≠ "/FD"
  else if a.name ∉ excludeOpts then a.rendered
  else []

/-- An empty input has no first character. -/
def createServerCall : Except Raised (List String) :=
  if o.args.any (fun a => a.name = "<input>" ∧ "" ∈ a.rendered) then .error .indexError
  else .ok ("/c" :: o.args.flatMap serverArg)

/-! ### Sources -/

def sourceExtensions : List String := [".c", ".cc", ".cxx", ".cpp"]

def inputIsSource (x : String) : Bool :=
  x.toList.head? ≠ some '/' ∧
    ("TC" ∈ o.optionNames ∨ "TP" ∈ o.optionNames ∨ (splitExt x).2.toLower ∈ sourceExtensions)

/-- The sources, each with its decorator. -/
def sources : List (String × String) :=
  (o.values "Tc").map (·, "/Tc") ++ ((o.values "Tp").map (·, "/Tp") ++
    ((o.values "<input>").filter o.inputIsSource).map (·, ""))

def sourceFiles : Except Raised (List (String × String)) :=
  if "" ∈ o.values "<input>" then .error .indexError else .ok o.sources

def outputFile : Option String := (o.values "Fo").getLast?

def objectName (source : String) : String := (splitExt (splitPath source).2).1 ++ ".obj"

def outputFiles (sources : List (String × String)) : Except Raised (List String) :=
  match o.outputFile.filter (· ≠ "") with
  | none => .ok (sources.map fun s => objectName s.1)
  | some output =>
    if output.toList.getLast?.any isSep then .ok (sources.map fun s => joinPath output (objectName s.1))
    else if 1 < sources.length then .error (.runtimeError "Cannot specify output file with multiple sources.")
    else .ok [output]

/-- Each source with its decorator and its object file. -/
def files : Except Raised (List ((String × String) × String)) :=
  match o.sourceFiles with
  | .error e => .error e
  | .ok sources =>
    match o.outputFiles sources with
    | .error e => .error e
    | .ok outputs => if sources.length ≠ outputs.length then .error .assertionError else .ok (sources.zip outputs)

end CompileOptions

/-! ## Tasks -/

/-- The manager's file system. -/
structure Disk where
  pathExists : String → Bool
  stat : String → Option (Nat × Nat)

structure PchFile where
  path : String
  size : Nat
  mtime : Nat
  deriving DecidableEq, Repr

structure Task where
  source : String
  decorator : String
  output : String
  call : List String
  pchHeader : Option String
  pchFile : Option PchFile
  deriving DecidableEq, Repr

namespace CompileOptions
variable (o : CompileOptions) (disk : Disk) (cwd : String)

/-- The header of a PCH file that is to be used. -/
def usedPchHeader : Option String := if o.avoidPch then none else o.pchHeader

def pchPath (header : String) : String :=
  joinPath cwd ((o.pchFile.filter (· ≠ "")).getD ((splitExt header).1 ++ ".pch"))

/-- The path is joined to the directory twice. -/
def findPch : Except Raised (Option PchFile) :=
  match o.usedPchHeader.filter (· ≠ "") with
  | none => .ok none
  | some header =>
    let path := o.pchPath cwd header
    if !disk.pathExists path then .error (.exception ("PCH file '" ++ path ++ "' does not exist."))
    else
      match disk.stat (joinPath cwd path) with
      | none => .error .osError
      | some (size, mtime) => .ok (some ⟨joinPath cwd path, size, mtime⟩)

def createTask (pchFile : Option PchFile) (call : List String) (file : (String × String) × String) : Task where
  source := if isAbs file.1.1 then file.1.1 else joinPath cwd file.1.1
  decorator := file.1.2
  output := joinPath cwd file.2
  call := call
  pchHeader := o.usedPchHeader
  pchFile := pchFile

/-- The tasks of `create_tasks`. The server's call is made once for each of them. -/
def createTasks : Except Raised (List Task) :=
  match o.findPch disk cwd with
  | .error e => .error e
  | .ok pchFile =>
    match o.files with
    | .error e => .error e
    | .ok files =>
      if files = [] then .ok []
      else
        match o.createServerCall with
        | .error e => .error e
        | .ok call => .ok (files.map (o.createTask cwd pchFile call))

/-! ### When there are tasks -/

/-- The PCH file is there, no input is empty, and an object file is given for one source only. -/
structure Creatable : Prop where
  pch : ∀ header, o.usedPchHeader = some header → header ≠ "" →
    disk.pathExists (o.pchPath cwd header) ∧ disk.stat (joinPath cwd (o.pchPath cwd header)) ≠ none
  inputs : "" ∉ o.values "<input>"
  output : ∀ output, o.outputFile = some output → output ≠ "" → output.toList.getLast?.any isSep ∨ o.sources.length = 1
  rendered : o.sources ≠ [] → ∀ a ∈ o.args, a.name = "<input>" → "" ∉ a.rendered

theorem filter_ne_empty {s : Option String} {t : String} : s.filter (· ≠ "") = some t ↔ s = some t ∧ t ≠ "" := by
  rw [Option.filter_eq_some_iff]
  simp

theorem findPch_ok : (∃ pch, o.findPch disk cwd = .ok pch) ↔
    ∀ header, o.usedPchHeader = some header → header ≠ "" →
      disk.pathExists (o.pchPath cwd header) ∧ disk.stat (joinPath cwd (o.pchPath cwd header)) ≠ none := by
  rw [findPch]
  cases hh : o.usedPchHeader.filter (· ≠ "") with
  | none =>
    simp only [Except.ok.injEq, exists_eq', true_iff]
    intro header hheader hne
    rw [filter_ne_empty.2 ⟨hheader, hne⟩] at hh
    cases hh
  | some header =>
    obtain ⟨hheader, hne⟩ := filter_ne_empty.1 hh
    have hall : (∀ h, o.usedPchHeader = some h → h ≠ "" →
        disk.pathExists (o.pchPath cwd h) ∧ disk.stat (joinPath cwd (o.pchPath cwd h)) ≠ none) ↔
        disk.pathExists (o.pchPath cwd header) ∧ disk.stat (joinPath cwd (o.pchPath cwd header)) ≠ none := by
      constructor
      · exact fun h => h header hheader hne
      · rintro h _ hh' -
        rw [hheader] at hh'
        cases hh'
        exact h
    rw [hall]
    by_cases hex : disk.pathExists (o.pchPath cwd header)
    · cases hst : disk.stat (joinPath cwd (o.pchPath cwd header)) <;> simp [hex, hst]
    · simp [hex]

theorem outputFiles_ok (h : ∀ output, o.outputFile = some output → output ≠ "" →
      output.toList.getLast?.any isSep ∨ o.sources.length = 1) :
    ∃ outputs, o.outputFiles o.sources = .ok outputs ∧ outputs.length = o.sources.length := by
  rw [outputFiles]
  cases hout : o.outputFile.filter (· ≠ "") with
  | none => exact ⟨_, rfl, by simp⟩
  | some output =>
    obtain ⟨houtput, hne⟩ := filter_ne_empty.1 hout
    simp only
    split
    · exact ⟨_, rfl, by simp⟩
    · next hsep =>
      have hone := (h output houtput hne).resolve_left hsep
      rw [if_neg (by omega)]
      exact ⟨_, rfl, by simp [hone]⟩

theorem output_of_outputFiles {outputs : List String} (h : o.outputFiles o.sources = .ok outputs)
    (hlen : outputs.length = o.sources.length) {output : String} (houtput : o.outputFile = some output)
    (hne : output ≠ "") : output.toList.getLast?.any isSep ∨ o.sources.length = 1 := by
  rw [outputFiles, filter_ne_empty.2 ⟨houtput, hne⟩] at h
  simp only at h
  split at h
  · next hsep => exact .inl hsep
  · split at h
    · cases h
    · cases h
      exact .inr hlen.symm

theorem files_ok : (∃ files, o.files = .ok files) ↔
    "" ∉ o.values "<input>" ∧
      ∀ output, o.outputFile = some output → output ≠ "" →
        output.toList.getLast?.any isSep ∨ o.sources.length = 1 := by
  rw [files, sourceFiles]
  by_cases hin : "" ∈ o.values "<input>"
  · simp [hin]
  rw [if_neg hin]
  constructor
  · rintro ⟨files, h⟩
    simp only at h
    cases hout : o.outputFiles o.sources with
    | error e =>
      rw [hout] at h
      cases h
    | ok outputs =>
      simp only [hout] at h
      split at h
      · cases h
      · next hlen => exact ⟨hin, fun _ => o.output_of_outputFiles hout (Eq.symm (Classical.not_not.1 hlen))⟩
  · rintro ⟨-, h⟩
    obtain ⟨outputs, hout, hlen⟩ := o.outputFiles_ok h
    simp [hout, hlen]

/-- There is a file for each source. -/
theorem files_nil {files : List ((String × String) × String)} (h : o.files = .ok files) :
    files = [] ↔ o.sources = [] := by
  rw [CompileOptions.files, sourceFiles] at h
  split at h
  · next h' => split at h' <;> cases h
  · next sources h' =>
    split at h'
    · cases h'
    · cases h'
      split at h
      · cases h
      · next outputs _ =>
        split at h
        · cases h
        · next hlen =>
          cases h
          have hlen := Classical.not_not.1 hlen
          rw [← List.length_eq_zero_iff, List.length_zip, ← hlen, Nat.min_self, List.length_eq_zero_iff]

theorem createServerCall_ok : (∃ call, o.createServerCall = .ok call) ↔
    ∀ a ∈ o.args, a.name = "<input>" → "" ∉ a.rendered := by
  rw [createServerCall]
  split
  · next h =>
    simp only [List.any_eq_true, decide_eq_true_eq] at h
    obtain ⟨a, ha, hname, hempty⟩ := h
    simp only [reduceCtorEq, exists_false, false_iff]
    exact fun h => h a ha hname hempty
  · next h =>
    simp only [Except.ok.injEq, exists_eq', true_iff]
    intro a ha hname hempty
    exact h (List.any_eq_true.2 ⟨a, ha, by simp [hname, hempty]⟩)

theorem createTasks_ok : (∃ tasks, o.createTasks disk cwd = .ok tasks) ↔ o.Creatable disk cwd := by
  rw [createTasks]
  constructor
  · rintro ⟨tasks, h⟩
    cases hpch : o.findPch disk cwd with
    | error e =>
      rw [hpch] at h
      cases h
    | ok pch =>
    cases hfiles : o.files with
    | error e =>
      simp only [hpch, hfiles] at h
      cases h
    | ok files =>
    simp only [hpch, hfiles] at h
    obtain ⟨hin, hout⟩ := o.files_ok.1 ⟨files, hfiles⟩
    refine ⟨(o.findPch_ok disk cwd).1 ⟨pch, hpch⟩, hin, hout, fun hne => ?_⟩
    rw [if_neg fun hnil => hne ((o.files_nil hfiles).1 hnil)] at h
    refine o.createServerCall_ok.1 ?_
    cases hcall : o.createServerCall with
    | error e =>
      rw [hcall] at h
      cases h
    | ok call => exact ⟨call, rfl⟩
  · intro h
    obtain ⟨pch, hpch⟩ := (o.findPch_ok disk cwd).2 h.pch
    obtain ⟨files, hfiles⟩ := o.files_ok.2 ⟨h.inputs, h.output⟩
    simp only [hpch, hfiles]
    split
    · exact ⟨[], rfl⟩
    · next hne =>
      obtain ⟨call, hcall⟩ := o.createServerCall_ok.2 (h.rendered fun hnil => hne ((o.files_nil hfiles).2 hnil))
      exact ⟨_, by rw [hcall]⟩

end CompileOptions

end BuildPal.Conversation
