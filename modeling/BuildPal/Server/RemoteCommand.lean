import BuildPal.Manager.CompileOptions
import Mathlib.Data.List.Forall2
/-!
# The command the server runs

The manager takes the user's command apart into a `ServerTask`, and
`__run_compiler` of `server/runner.py` puts it together again. We say what
becomes of the options on the way, in terms of what they are for.
-/

namespace BuildPal.Conversation

/-! ## From the options to the command -/

/-- What the server gets of a task. -/
structure ServerTask where
  call : List String
  pchHeader : Option String
  pchFile : Option PchFile
  forcedIncludes : List String
  includeDirs : List String
  srcDecorator : String
  deriving DecidableEq, Repr

/-- `sysinclude_dirs` as the processor of the command keeps them. -/
def sysincludeDirs (dirs : String) : List String := ((dirs.toList.splitOn ';').map String.ofList).filter (· ≠ "")

namespace CompileOptions
variable (o : CompileOptions)

def forcedIncludes : List String := o.values "FI"

def includeDirs : List String := o.values "I"

/-- The directories the server searches. -/
def searchedDirs (cwd sysinclude : String) : List String :=
  o.includeDirs.map (joinPath cwd) ++ sysincludeDirs sysinclude

def createServerTask (cwd sysinclude : String) (t : Task) : ServerTask where
  call := t.call
  pchHeader := t.pchHeader
  pchFile := t.pchFile
  forcedIncludes := o.forcedIncludes
  includeDirs := o.searchedDirs cwd sysinclude
  srcDecorator := t.decorator

def createServerTasks (disk : Disk) (cwd sysinclude : String) : Except Raised (List ServerTask) :=
  (o.createTasks disk cwd).map (·.map (o.createServerTask cwd sysinclude))

end CompileOptions

/-- `__run_compiler`, up to the command. `pchFile` is where the PCH file was put, and `srcLoc` the source that
`prepare_dir` returns, with the include directories it is given. -/
def runCompiler (compilerExe objectFile : String) (task : ServerTask) (pchFile srcLoc : Option String) :
    Except Raised (List String) := do
  let command := [compilerExe, "/Fo" ++ objectFile] ++ task.call
  let command ← match task.pchFile with
    | none => .ok command
    | some pch =>
      match pchFile, task.pchHeader with
      | some _, some header =>
        .ok (command ++ ["/Fp" ++ pch.path, "/Yu" ++ header] ++ task.forcedIncludes.map ("/FI" ++ ·))
      | _, _ => .error .assertionError
  match srcLoc with
  | none => .error .typeError
  | some src => .ok (command ++ task.includeDirs.map ("/I" ++ ·) ++ [task.srcDecorator ++ src])

/-! ## What is expected -/

/-- A compiler's command by its parts. -/
structure Command where
  compilerExe : String
  objectFile : String
  options : List String
  /-- The PCH file, with its header. -/
  pch : Option (String × String)
  forcedIncludes : List String
  includeDirs : List String
  source : String

/-- The PCH options of a command. -/
def Command.pchOptions (c : Command) : List String :=
  c.pch.elim [] fun (file, header) => ["/Fp" ++ file, "/Yu" ++ header]

def Command.line (c : Command) : List String :=
  [c.compilerExe, "/Fo" ++ c.objectFile, "/c"] ++ c.options ++ c.pchOptions ++ c.forcedIncludes.map ("/FI" ++ ·) ++
    c.includeDirs.map ("/I" ++ ·) ++ [c.source]

/-- What an option is for. -/
inductive Kind where
  /-- The output, a source, an include directory, a PCH, a forced include or the linker: the server has its own. -/
  | remade
  | debugInfo
  | programDatabase
  | input
  | other
  deriving DecidableEq

def Arg.kind (a : Arg) : Kind :=
  if a.name ∈ CompileOptions.excludeOpts then .remade
  else if a.name = "Zi" then .debugInfo
  else if a.name = "Fd" ∨ a.name = "/Fd" then .programDatabase
  else if a.name = "<input>" then .input
  else .other

/-- What the server's command should have of an option. An input with a slash is an option that is not known, and passed
on unless it is withheld. -/
def Arg.remote (withheld : List String) (a : Arg) : List String :=
  match a.kind with
  | .remade | .programDatabase => []
  | .debugInfo => ["/Z7"]
  | .input => a.rendered.filter fun val => val.toList.head? = some '/' ∧ val ∉ withheld
  | .other => a.rendered

/-- The command has a part for each option, in their order, and it is the right one where the option `Counts`; it has the
forced includes, if they `count` as well, and the directories. -/
structure Keeps (withheld : List String) (Counts : Arg → Prop) (count : Prop) (o : CompileOptions) (dirs : List String)
    (c : Command) : Prop where
  options : ∃ parts, c.options = parts.flatten ∧
    List.Forall₂ (fun a part => Counts a → part = Arg.remote withheld a) o.args parts
  forcedIncludes : count → c.forcedIncludes = o.values "FI"
  includeDirs : c.includeDirs = dirs

namespace CompileOptions
variable (o : CompileOptions)

/-- A PCH file is used. -/
def UsesPch : Prop := ∃ header, o.usedPchHeader = some header ∧ header ≠ ""

/-! ## The server's call -/

theorem serverArg_remote (a : Arg) (h : a.kind ≠ .programDatabase) : serverArg a = a.remote ["/FD"] := by
  unfold Arg.remote serverArg
  unfold Arg.kind at h ⊢
  by_cases hremade : a.name ∈ excludeOpts
  · have hzi : a.name ≠ "Zi" := ne_of_mem_of_not_mem hremade (by decide)
    have hfd : a.name ≠ "/Fd" := ne_of_mem_of_not_mem hremade (by decide)
    have hin : a.name ≠ "<input>" := ne_of_mem_of_not_mem hremade (by decide)
    simp [hremade, hzi, hfd, hin]
  · rw [if_neg hremade] at h ⊢
    by_cases hzi : a.name = "Zi"
    · simp [hzi]
    · rw [if_neg hzi] at h ⊢
      by_cases hfd : a.name = "Fd" ∨ a.name = "/Fd"
      · rw [if_pos hfd] at h
        exact absurd rfl h
      · obtain ⟨-, hfd'⟩ := not_or.1 hfd
        rw [if_neg hzi, if_neg hfd, if_neg hfd']
        by_cases hin : a.name = "<input>"
        · simp [hin]
        · simp [hin, hremade]

theorem createServerCall_eq {call : List String} (h : o.createServerCall = .ok call) :
    call = "/c" :: o.args.flatMap serverArg := by
  unfold createServerCall at h
  split at h
  · cases h
  · exact (Except.ok.inj h).symm

/-! ## The tasks -/

variable {o} {disk : Disk} {cwd sysinclude : String}

theorem findPch_eq {pchFile : Option PchFile} (h : o.findPch disk cwd = .ok pchFile) : pchFile.isSome ↔ o.UsesPch := by
  unfold findPch at h
  split at h
  · next hnone =>
    cases h
    refine iff_of_false Bool.false_ne_true ?_
    rintro ⟨header, hheader, hne⟩
    rw [filter_ne_empty.2 ⟨hheader, hne⟩] at hnone
    cases hnone
  · next header hsome =>
    obtain ⟨hheader, hne⟩ := filter_ne_empty.1 hsome
    dsimp only at h
    split at h
    · cases h
    · split at h
      · cases h
      · cases h
        exact iff_of_true rfl ⟨header, hheader, hne⟩

/-- All tasks of a command have its call and its PCH file. -/
theorem task_of_createTasks {tasks : List Task} (h : o.createTasks disk cwd = .ok tasks) {t : Task} (ht : t ∈ tasks) :
    t.call = "/c" :: o.args.flatMap serverArg ∧ (t.pchFile.isSome ↔ o.UsesPch) ∧ t.pchHeader = o.usedPchHeader := by
  unfold createTasks at h
  split at h
  · cases h
  · next pchFile hpch =>
    split at h
    · cases h
    · next files _ =>
      split at h
      · cases h
        cases ht
      · split at h
        · cases h
        · next call hcall =>
          cases h
          obtain ⟨file, -, rfl⟩ := List.mem_map.1 ht
          exact ⟨o.createServerCall_eq hcall, findPch_eq hpch, rfl⟩

theorem task_of_createServerTasks {tasks : List ServerTask} (h : o.createServerTasks disk cwd sysinclude = .ok tasks)
    {task : ServerTask} (ht : task ∈ tasks) :
    task.call = "/c" :: o.args.flatMap serverArg ∧ (task.pchFile.isSome ↔ o.UsesPch) ∧
      task.pchHeader = o.usedPchHeader ∧ task.forcedIncludes = o.values "FI" ∧
      task.includeDirs = o.searchedDirs cwd sysinclude := by
  unfold createServerTasks at h
  cases hall : o.createTasks disk cwd with
  | error e =>
    rw [hall] at h
    cases h
  | ok all =>
    rw [hall] at h
    cases h
    obtain ⟨t, hmem, rfl⟩ := List.mem_map.1 ht
    obtain ⟨hcall, hpch, hheader⟩ := task_of_createTasks hall hmem
    exact ⟨hcall, hpch, hheader, rfl, rfl⟩

/-! ## The command -/

/-- The PCH options of the command, and the forced includes with them. -/
theorem runCompiler_eq {compilerExe objectFile : String} {task : ServerTask} {pchFile srcLoc : Option String}
    {command : List String} (h : runCompiler compilerExe objectFile task pchFile srcLoc = .ok command) :
    ∃ (src : String) (pch : Option (String × String)), srcLoc = some src ∧ pch.isSome = task.pchFile.isSome ∧
      command = [compilerExe, "/Fo" ++ objectFile] ++ task.call ++
        (pch.elim [] fun (file, header) => ["/Fp" ++ file, "/Yu" ++ header] ++ task.forcedIncludes.map ("/FI" ++ ·)) ++
        task.includeDirs.map ("/I" ++ ·) ++ [task.srcDecorator ++ src] := by
  unfold runCompiler at h
  cases hpch : task.pchFile with
  | none =>
    rw [hpch] at h
    cases srcLoc with
    | none => cases h
    | some src =>
      cases h
      exact ⟨src, none, rfl, rfl, by simp⟩
  | some pch =>
    rw [hpch] at h
    cases pchFile with
    | none => cases h
    | some file =>
      cases hheader : task.pchHeader with
      | none =>
        rw [hheader] at h
        cases h
      | some header =>
        rw [hheader] at h
        cases srcLoc with
        | none => cases h
        | some src =>
          cases h
          exact ⟨src, some (pch.path, header), rfl, rfl, by simp⟩

/-- There is a command once the PCH file is there, if one is used, and the source. -/
theorem runCompiler_ok {tasks : List ServerTask} (h : o.createServerTasks disk cwd sysinclude = .ok tasks)
    {task : ServerTask} (ht : task ∈ tasks) (compilerExe objectFile : String) (pchFile srcLoc : Option String) :
    (∃ command, runCompiler compilerExe objectFile task pchFile srcLoc = .ok command) ↔
      (o.UsesPch → pchFile.isSome) ∧ srcLoc.isSome := by
  obtain ⟨-, hpch, hheader, -, -⟩ := task_of_createServerTasks h ht
  unfold runCompiler
  cases hfile : task.pchFile with
  | none =>
    have hnot : ¬ o.UsesPch := by
      rw [← hpch, hfile]
      exact Bool.false_ne_true
    cases srcLoc <;> simp [hnot, bind, Except.bind]
  | some pch =>
    have huses : o.UsesPch := hpch.1 (by rw [hfile]; rfl)
    obtain ⟨header, hsome, -⟩ := id huses
    rw [hheader, hsome]
    simp only [huses, true_imp_iff]
    cases pchFile <;> cases srcLoc <;> simp [bind, Except.bind]

/-- Whatever the command, the server's has the user's options in their order, with `/Zi` replaced and without `/FD`, the
directories, and, with a PCH, the forced includes. -/
theorem remote_command_keeps_options {tasks : List ServerTask}
    (h : o.createServerTasks disk cwd sysinclude = .ok tasks) {task : ServerTask} (ht : task ∈ tasks)
    {compilerExe objectFile : String} {pchFile srcLoc : Option String} {command : List String}
    (hrun : runCompiler compilerExe objectFile task pchFile srcLoc = .ok command) :
    ∃ c : Command, command = c.line ∧
      Keeps ["/FD"] (·.kind ≠ .programDatabase) (o.UsesPch ∨ o.values "FI" = []) o (o.searchedDirs cwd sysinclude) c ∧
      c.compilerExe = compilerExe ∧ c.objectFile = objectFile ∧ (c.pch.isSome ↔ o.UsesPch) ∧
      ∃ src, srcLoc = some src ∧ c.source = task.srcDecorator ++ src := by
  obtain ⟨hcall, hpch, -, hforced, hdirs⟩ := task_of_createServerTasks h ht
  obtain ⟨src, pch, rfl, hsome, rfl⟩ := runCompiler_eq hrun
  have hparts : List.Forall₂ (fun a part => a.kind ≠ .programDatabase → part = Arg.remote ["/FD"] a) o.args
      (o.args.map serverArg) :=
    List.forall₂_map_right_iff.2 (List.forall₂_same.2 fun a _ => serverArg_remote a)
  refine ⟨⟨compilerExe, objectFile, o.args.flatMap serverArg, pch, if pch.isSome then task.forcedIncludes else [],
    task.includeDirs, task.srcDecorator ++ src⟩, ?_, ⟨⟨_, List.flatMap_def, hparts⟩, fun hcount => ?_, hdirs⟩, rfl, rfl,
    ?_, src, rfl, rfl⟩
  · rw [hcall]
    cases pch <;> simp [Command.line, Command.pchOptions]
  · by_cases huses : o.UsesPch
    · rw [if_pos (hsome.trans (hpch.2 huses))]
      exact hforced
    · have hnil := hcount.resolve_left huses
      rw [hforced, hnil, ite_self]
  · rw [hsome]
    exact hpch

/-- A command with a precompiled header, a forced include and a program database. -/
theorem remote_command_keeps_options_pch :
    let o : CompileOptions := ⟨[⟨"c", [], ["/c"]⟩, ⟨"O", ["2"], ["/O2"]⟩, ⟨"Fd", ["a.pdb"], ["/Fda.pdb"]⟩,
      ⟨"Yu", ["a.h"], ["/Yua.h"]⟩, ⟨"FI", ["a.h"], ["/FIa.h"]⟩, ⟨"I", ["inc"], ["/Iinc"]⟩,
      ⟨"<input>", ["a.cpp"], ["a.cpp"]⟩]⟩
    ∃ c : Command, ["cl.exe", "/FoT:\\1.obj", "/c", "/O2", "/Fda.pdb", "/FpC:\\a.pch", "/Yua.h", "/FIa.h", "/IC:\\inc",
        "/IC:\\vc", "C:\\a.cpp"] = c.line ∧
      Keeps ["/FD"] (·.kind ≠ .programDatabase) (o.UsesPch ∨ o.values "FI" = []) o ["C:\\inc", "C:\\vc"] c ∧
      c.compilerExe = "cl.exe" ∧ c.objectFile = "T:\\1.obj" ∧ (c.pch.isSome ↔ o.UsesPch) ∧
      ∃ src, some "C:\\a.cpp" = some src ∧ c.source = "" ++ src := by
  intro o
  have h : o.createServerTasks ⟨fun _ => true, fun _ => some (1, 1)⟩ "C:\\" "C:\\vc;" = .ok
      [⟨["/c", "/O2", "/Fda.pdb"], some "a.h", some ⟨"C:\\a.pch", 1, 1⟩, ["a.h"], ["C:\\inc", "C:\\vc"], ""⟩] := by
    decide +kernel
  have hdirs : o.searchedDirs "C:\\" "C:\\vc;" = ["C:\\inc", "C:\\vc"] := by decide +kernel
  rw [← hdirs]
  exact @remote_command_keeps_options o _ _ _ _ h _ List.mem_cons_self _ _ (some "T:\\2.pch") _ _ rfl

/-- The server's command has no `/FD` though the user's has. -/
theorem remote_command_without_dependencies :
    let o : CompileOptions :=
      ⟨[⟨"c", [], ["/c"]⟩, ⟨"<input>", ["/FD"], ["/FD"]⟩, ⟨"<input>", ["a.cpp"], ["a.cpp"]⟩]⟩
    ∃ task command, o.createServerTasks ⟨fun _ => true, fun _ => none⟩ "C:\\" "" = .ok [task] ∧
      runCompiler "cl.exe" "T:\\1.obj" task none (some "C:\\a.cpp") = .ok command ∧
      ¬ ∃ c : Command, command = c.line ∧ Keeps [] (fun _ => True) True o (o.searchedDirs "C:\\" "") c := by
  intro o
  refine ⟨⟨["/c"], none, none, [], [], ""⟩, ["cl.exe", "/FoT:\\1.obj", "/c", "C:\\a.cpp"], by decide +kernel, rfl, ?_⟩
  rintro ⟨c, hline, ⟨parts, hoptions, hparts⟩, -, -⟩
  obtain _ | ⟨-, _ | ⟨hpart, -⟩⟩ := hparts
  have hmem : "/FD" ∈ c.line := by
    have hin : "/FD" ∈ c.options := by
      rw [hoptions, hpart trivial]
      exact List.mem_flatten_of_mem (List.mem_cons_of_mem _ List.mem_cons_self) (by decide)
    simp [Command.line, hin]
  rw [← hline] at hmem
  exact absurd hmem (by decide)

end CompileOptions

end BuildPal.Conversation
