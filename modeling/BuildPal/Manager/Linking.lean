import BuildPal.Manager.CompileOptions
/-!
# The command for the linker

What `postprocess` of `command_processor.py` has the client run once all the
sources of a command are compiled, and the parts of `CompileOptions` it is made
of: the object files, the options of the linker, and the inputs that are no
sources.
-/

namespace BuildPal.Conversation

namespace CompileOptions
variable (o : CompileOptions)

/-- `arg_dict`. -/
def argValues (name : String) : List String := (o.args.filter (·.name = name)).flatMap (·.rendered)

def linkOptions : List String := o.argValues "Fe" ++ o.argValues "link"

/-- The inputs that `input_files` yields, when no input is empty. -/
def inputFiles : List String :=
  (o.values "<input>").filter fun x => x.toList.head? ≠ some '/' ∧ x ∉ o.sources.map (·.1)

/-- `input_to_output.get`: of two entries for one source the dictionary has the last. -/
def inputToOutput (files : List ((String × String) × String)) (input : String) : Option String :=
  (files.reverse.find? (·.1.1 = input)).map (·.2)

/-- The call that `postprocess` makes up. -/
def linkCall : Except Raised (List String) :=
  match o.files with
  | .error e => .error e
  | .ok files =>
    match o.sourceFiles with
    | .error e => .error e
    | .ok sources =>
      .ok (sources.map (fun s => (inputToOutput files s.1).getD s.1) ++ o.linkOptions ++ o.inputFiles)

/-! ## Objects in place of sources -/

section
variable {o}

/-- The object file of a source depends on the source only. -/
theorem outputFiles_eq {sources : List (String × String)} {outputs : List String}
    (h : o.outputFiles sources = .ok outputs) (hlen : sources.length = outputs.length) :
    ∃ object : String → String, outputs = sources.map fun s => object s.1 := by
  rw [outputFiles] at h
  split at h
  · cases h
    exact ⟨objectName, rfl⟩
  · next output _ =>
    split at h
    · cases h
      exact ⟨fun source => joinPath output (objectName source), rfl⟩
    · split at h
      · cases h
      · cases h
        obtain ⟨s, rfl⟩ := List.length_eq_one_iff.1 hlen
        exact ⟨fun _ => output, rfl⟩

theorem files_eq {files : List ((String × String) × String)} (h : o.files = .ok files) :
    o.sourceFiles = .ok o.sources ∧ ∃ object : String → String, files = o.sources.map fun s => (s, object s.1) := by
  rw [CompileOptions.files] at h
  split at h
  · cases h
  · next sources hsources =>
    have heq : sources = o.sources := by
      rw [sourceFiles] at hsources
      split at hsources
      · cases hsources
      · cases hsources
        rfl
    subst heq
    refine ⟨hsources, ?_⟩
    split at h
    · cases h
    · next outputs houtputs =>
      split at h
      · cases h
      · next hlen =>
        cases h
        obtain ⟨object, rfl⟩ := outputFiles_eq houtputs (Classical.not_not.1 hlen)
        exact ⟨object, List.map_prod_left_eq_zip.symm⟩

/-- Whichever entry of a source the dictionary has. -/
theorem inputToOutput_map {sources : List (String × String)} {object : String → String} {s : String × String}
    (hs : s ∈ sources) : inputToOutput (sources.map fun s => (s, object s.1)) s.1 = some (object s.1) := by
  rw [inputToOutput, Option.map_eq_some_iff]
  obtain ⟨e, he⟩ : ∃ e, (sources.map fun s => (s, object s.1)).reverse.find? (·.1.1 = s.1) = some e := by
    apply Option.ne_none_iff_exists'.1
    intro hnone
    have hmem : (s, object s.1) ∈ (sources.map fun s => (s, object s.1)).reverse := by
      simpa using ⟨s.1, s.2, hs, rfl, rfl⟩
    simpa using List.find?_eq_none.1 hnone _ hmem
  refine ⟨e, he, ?_⟩
  have hname : e.1.1 = s.1 := by simpa using List.find?_some he
  obtain ⟨s', -, rfl⟩ := List.mem_map.1 (List.mem_reverse.1 (List.mem_of_find?_eq_some he))
  exact congrArg object hname

theorem linkCall_eq {files : List ((String × String) × String)} (h : o.files = .ok files) :
    o.linkCall = .ok (files.map (·.2) ++ o.linkOptions ++ o.inputFiles) := by
  obtain ⟨hsources, object, rfl⟩ := files_eq h
  have hobjects : o.sources.map (fun s => (inputToOutput (o.sources.map fun s => (s, object s.1)) s.1).getD s.1) =
      (o.sources.map fun s => (s, object s.1)).map (·.2) := by
    rw [List.map_map]
    apply List.map_congr_left
    intro s hs
    rw [inputToOutput_map hs]
    rfl
  rw [linkCall, h, hsources]
  simp only [hobjects]

theorem createTasks_files {disk : Disk} {cwd : String} {tasks : List Task} (h : o.createTasks disk cwd = .ok tasks) :
    ∃ files, o.files = .ok files ∧ tasks.map (·.output) = files.map fun f => joinPath cwd f.2 := by
  rw [createTasks] at h
  split at h
  · cases h
  · split at h
    · cases h
    · next files hfiles =>
      refine ⟨files, hfiles, ?_⟩
      split at h
      · next hnil =>
        cases h
        simp [hnil]
      · split at h
        · cases h
        · cases h
          simp [createTask]

end

end CompileOptions

/-- When a command's tasks could be created, the linker's command can be made up. It names the object file of each task,
in the order of the sources, then the options of the linker, and then the inputs that were not compiled: each input
that does not look like a flag is a source or given to the linker, and none is both. -/
theorem linkCall_objects (o : CompileOptions) {disk : Disk} {cwd : String} {tasks : List Task}
    (h : o.createTasks disk cwd = .ok tasks) :
    ∃ objects, o.linkCall = .ok (objects ++ o.linkOptions ++ o.inputFiles) ∧
      objects.map (joinPath cwd) = tasks.map (·.output) ∧
      (∀ x ∈ o.values "<input>", x.toList.head? ≠ some '/' → (x ∈ o.inputFiles ↔ x ∉ o.sources.map (·.1))) ∧
      ∀ x ∈ o.inputFiles, x ∈ o.values "<input>" ∧ x.toList.head? ≠ some '/' := by
  obtain ⟨files, hfiles, houtputs⟩ := CompileOptions.createTasks_files h
  refine ⟨files.map (·.2), CompileOptions.linkCall_eq hfiles, ?_, ?_, ?_⟩
  · rw [houtputs, List.map_map]
    rfl
  · intro x hx hflag
    simp [CompileOptions.inputFiles, hx, hflag]
  · intro x hx
    simp only [CompileOptions.inputFiles, List.mem_filter, decide_eq_true_eq] at hx
    exact ⟨hx.1, hx.2.1⟩

theorem linkCall_objects_two :
    ∃ objects, CompileOptions.linkCall
        ⟨[⟨"Fe", ["p.exe"], ["/Fep.exe"]⟩, ⟨"Tp", ["a.x", "b.x"], ["/Tpa.x", "/Tpb.x"]⟩]⟩ =
          .ok (objects ++ ["/Fep.exe"] ++ []) ∧
      objects.map (joinPath "C:/w") = ["C:/w\\a.obj", "C:/w\\b.obj"] := by
  obtain ⟨objects, hcall, houtputs, -⟩ := @linkCall_objects
    ⟨[⟨"Fe", ["p.exe"], ["/Fep.exe"]⟩, ⟨"Tp", ["a.x", "b.x"], ["/Tpa.x", "/Tpb.x"]⟩]⟩
    ⟨fun _ => true, fun _ => some (0, 0)⟩ "C:/w" _ rfl
  exact ⟨objects, hcall, houtputs.trans (by decide)⟩

end BuildPal.Conversation
