import BuildPal.Client.MapFiles
import BuildPal.Lib.Generations
/-!
# Files that are somewhere else

The hooks of `Extensions/MapFiles/mapFiles.cpp`. An injected process opens
files, and asks for their attributes, through its global mapping. It changes
that mapping by calls, keeps other mappings for the processes it makes, and
passes either on to them.
-/
open BuildPal.Lib BuildPal.Message

namespace BuildPal.MapFiles

/-- The functions of Windows that paths are normalised with. `pathCanonicalize` is what is in the buffer afterwards,
nothing if the path is too long; `pathFindFileName` is an offset. -/
structure Shell where
  charLower : UInt16 → UInt16
  pathCanonicalize : WString → WString
  pathFindFileName : WString → Nat

section Paths
variable (sh : Shell)

def normalizePath (path : WString) : WString :=
  sh.pathCanonicalize (path.map fun c => if c = 47 then 92 else sh.charLower c)

def decomposePath (path : WString) : WString × WString :=
  let normalizedPath := normalizePath sh path
  let offset := sh.pathFindFileName normalizedPath
  (normalizedPath.take offset, normalizedPath.drop offset)

/-- The string of a `UNICODE_STRING`, whose length in bytes has 16 bits. -/
def unicodeString (s : WString) : WString := s.take (s.length % 2 ^ 15)

namespace FileMapping

def realFile (m : FileMapping) (virtualFile : WString) : Option WString :=
  let dirAndFile := decomposePath sh virtualFile
  (m.find dirAndFile.1 dirAndFile.2).map unicodeString

def hasDir (m : FileMapping) (virtualDir : WString) : Bool := (m.dirMap.lookup virtualDir).isSome

/-- The last character of the path is looked at: the path is not empty. -/
def addBackslash (normalizedPath : WString) : WString :=
  if normalizedPath.getLast? = some 92 then normalizedPath else normalizedPath ++ [92]

/-- `getDir`, which sets the handle to the fake one if there is such a directory. -/
def getDir (m : FileMapping) (path : WString) : Bool := m.hasDir (addBackslash (normalizePath sh path))

end FileMapping

/-! ## Hooks -/

/-- The body of `ntCreateFile` and `ntQueryFullAttributesFile`: the name of the object, if there are attributes, is one
of a virtual directory, is exchanged for that of a real file, or is left alone. -/
def hooked {β : Type*} (globalMapping : FileMapping) (virtualDir : β) (orig : Option WString → β)
    (objectName : Option WString) : β :=
  match objectName with
  | none => orig none
  | some str =>
    if 4 < str.length * 2 ∧ FileMapping.ntPrefix <+: str then
      let fileName := str.drop 4
      if globalMapping.getDir sh fileName then virtualDir
      else
        match globalMapping.realFile sh fileName with
        | some tmpStr => orig (some tmpStr)
        | none => orig (some str)
    else orig (some str)

/-- What a call of `NtCreateFile` returns. -/
structure Created where
  status : UInt32
  fileHandle : UInt64
  information : UInt64

def fakeHandle : UInt64 := 0xFAB0BEEF

/-- `FILE_EXISTS` is 4. -/
def ntCreateFile (globalMapping : FileMapping) (origNtCreateFile : Option WString → Created)
    (objectName : Option WString) : Created :=
  hooked sh globalMapping ⟨0, fakeHandle, 4⟩ origNtCreateFile objectName

structure FileNetworkOpenInformation where
  creationTime : Int64 := 0
  lastAccessTime : Int64 := 0
  lastWriteTime : Int64 := 0
  changeTime : Int64 := 0
  allocationSize : Int64 := 0
  endOfFile : Int64 := 0
  fileAttributes : UInt32

/-- `FILE_ATTRIBUTE_DIRECTORY` is 16. -/
def ntQueryFullAttributesFile (globalMapping : FileMapping)
    (orig : Option WString → UInt32 × FileNetworkOpenInformation) (objectName : Option WString) :
    UInt32 × FileNetworkOpenInformation :=
  hooked sh globalMapping (0, { fileAttributes := 16 }) orig objectName

def ntClose (origNtClose : UInt64 → UInt32) (handle : UInt64) : UInt32 :=
  if handle = fakeHandle then 0 else origNtClose handle

/-- `STATUS_DEVICE_BUSY` for a virtual directory. -/
def ntQueryDirectoryFile (orig : UInt64 → UInt32) (fileHandle : UInt64) : UInt32 :=
  if fileHandle = fakeHandle then 0x80000011 else orig fileHandle

/-! ## The mappings of a process -/

/-- `MapFilesAPIHookData`. -/
structure HookData where
  globalMapping : FileMapping := .empty
  customMappings : AList fun _ : UInt32 => FileMapping := ∅
  counter : UInt32 := 0

namespace HookData

def mapFileGlobal (d : HookData) (virtualFile file : WString) : HookData :=
  { d with globalMapping := d.globalMapping.addPath (decomposePath sh) virtualFile file }

def unmapFileGlobal (d : HookData) (virtualFile : WString) : HookData :=
  { d with globalMapping := d.globalMapping.removeFile (decomposePath sh) virtualFile }

/-- A mapping that has the number of the new one already stays. -/
def createFileMap (d : HookData) : HookData × UInt32 :=
  let counter := d.counter + 1
  ({ d with
      counter
      customMappings := d.customMappings.insert counter ((d.customMappings.lookup counter).getD .empty) }, counter)

def destroyFileMap (d : HookData) (id : UInt32) : HookData :=
  { d with customMappings := d.customMappings.erase id }

def mapFile (d : HookData) (map : UInt32) (virtualFile file : WString) : HookData × Bool :=
  match d.customMappings.lookup map with
  | none => (d, false)
  | some m => ({ d with customMappings := d.customMappings.insert map (m.addPath (decomposePath sh) virtualFile file) },
      true)

/-- What `Initialize` makes of the bytes in the pipe, in a process that is new. -/
def ofPipe (stream : Bytes) : Option HookData :=
  (Initialize stream).map fun r => { globalMapping := r.1 }

/-- The new process of `createProcess`, with what going over the global mapping gives. -/
def createProcess (dirs : Listing) : Option HookData := ofPipe (writeMappings [dirs])

/-- The new process of `createProcessWithMapping`, with what going over the mappings gives; none if there is no mapping
of some number. -/
def createProcessWithMapping (d : HookData) (mappings : List UInt32) (dirs : List Listing) : Option HookData :=
  if mappings.all fun map => (d.customMappings.lookup map).isSome then ofPipe (writeMappings dirs) else none

end HookData

inductive ApiCall
  | mapFileGlobal (virtualFile file : WString)
  | unmapFileGlobal (virtualFile : WString)
  | createFileMap
  | destroyFileMap (id : UInt32)
  | mapFile (map : UInt32) (virtualFile file : WString)

/-- How a process makes another one, and the order in which the mappings were gone over. -/
inductive Creation
  | createProcess (dirs : Listing)
  | createProcessWithMapping (mappings : List UInt32) (dirs : List Listing)

/-- The injected processes. -/
def processes : Family HookData ApiCall Creation where
  apply d
    | .mapFileGlobal virtualFile file => d.mapFileGlobal sh virtualFile file
    | .unmapFileGlobal virtualFile => d.unmapFileGlobal sh virtualFile
    | .createFileMap => d.createFileMap.1
    | .destroyFileMap id => d.destroyFileMap id
    | .mapFile map virtualFile file => (d.mapFile sh map virtualFile file).1
  pass d
    | .createProcess dirs => HookData.createProcess dirs
    | .createProcessWithMapping mappings dirs => d.createProcessWithMapping mappings dirs

/-! ## What a process should see

A process goes back to others: its history are the calls for its mapping that were made there, up to when it was made,
and its own after them. -/

structure History where
  global : List FileMapping.Call := []
  custom : UInt32 → Option (List FileMapping.Call) := fun _ => none
  counter : UInt32 := 0

def histories : Family History ApiCall Creation where
  apply h
    | .mapFileGlobal virtualFile file => { h with global := h.global ++ [.addFile virtualFile file] }
    | .unmapFileGlobal virtualFile => { h with global := h.global ++ [.removeFile virtualFile] }
    | .createFileMap =>
      { h with
        counter := h.counter + 1
        custom := Function.update h.custom (h.counter + 1) (some ((h.custom (h.counter + 1)).getD [])) }
    | .destroyFileMap id => { h with custom := Function.update h.custom id none }
    | .mapFile map virtualFile file =>
      { h with custom := Function.update h.custom map ((h.custom map).map (· ++ [.addFile virtualFile file])) }
  pass h
    | .createProcess _ => some { global := h.global }
    | .createProcessWithMapping mappings _ =>
      if mappings.all fun map => (h.custom map).isSome then
        some { global := (mappings.map fun map => (h.custom map).getD []).flatten }
      else none

def FileMapping.Call.virtualAbsPath : FileMapping.Call → WString
  | .addFile virtualAbsPath _ => virtualAbsPath
  | .removeFile virtualAbsPath => virtualAbsPath

inductive Answer
  | directory
  | file (realFile : WString)
  | unchanged

/-- What becomes of a name. A directory of any call is there for good; a file is where the last call for it says. -/
def answer (calls : List FileMapping.Call) (name : WString) : Answer :=
  if 4 < name.length * 2 ∧ FileMapping.ntPrefix <+: name then
    let fileName := name.drop 4
    if ∃ c ∈ calls, (decomposePath sh c.virtualAbsPath).1 = FileMapping.addBackslash (normalizePath sh fileName) then
      .directory
    else
      match calls.reverse.find? fun c => decomposePath sh c.virtualAbsPath = decomposePath sh fileName with
      | some (.addFile _ realFile) => .file realFile
      | _ => .unchanged
  else .unchanged

/-- What a function gives that asks for the name. -/
def Answer.give {β : Type*} (virtualDir : β) (orig : Option WString → β) (name : WString) : Answer → β
  | .directory => virtualDir
  | .file realFile => orig (some (unicodeString (FileMapping.ntPrefix ++ realFile)))
  | .unchanged => orig (some name)

/-! ## One mapping -/

section
variable {sh : Shell}
open FileMapping

theorem hasDir_addFile (m : FileMapping) (d f r dir : WString) :
    (m.addFile d f r).hasDir dir = (decide (dir = d) || m.hasDir dir) := by
  by_cases h : dir = d
  · subst h
    simp [FileMapping.hasDir, FileMapping.addFile]
  · simp [FileMapping.hasDir, FileMapping.addFile, AList.lookup_insert_ne h, h]

theorem hasDir_removeFile (m : FileMapping) (path dir : WString) :
    (m.removeFile (decomposePath sh) path).hasDir dir = (decide (dir = (decomposePath sh path).1) || m.hasDir dir) := by
  by_cases h : dir = (decomposePath sh path).1
  · subst h
    simp [FileMapping.hasDir, FileMapping.removeFile]
  · simp [FileMapping.hasDir, FileMapping.removeFile, AList.lookup_insert_ne h, h]

theorem find_removeFile (m : FileMapping) (path d f : WString) : (m.removeFile (decomposePath sh) path).find d f =
    if (d, f) = decomposePath sh path then none else m.find d f := by
  generalize hp : decomposePath sh path = p
  obtain ⟨d', f'⟩ := p
  simp only [FileMapping.find, FileMapping.removeFile, hp, Prod.mk.injEq]
  by_cases hd : d = d'
  · subst hd
    by_cases hf : f = f'
    · subst hf
      simp
    · rw [if_neg (by simp [hf])]
      simp only [AList.lookup_insert, Option.bind_some, AList.lookup_erase_ne hf, FileMapping.dir]
      cases m.dirMap.lookup d <;> simp
  · simp [AList.lookup_insert_ne hd, hd]

/-- What a call does to a file. -/
theorem find_apply (m : FileMapping) (c : Call) (d f : WString) : (m.apply (decomposePath sh) c).find d f =
    if (d, f) = decomposePath sh c.virtualAbsPath then
      match c with
      | .addFile _ realFile => some (ntPrefix ++ realFile)
      | .removeFile _ => none
    else m.find d f := by
  cases c with
  | addFile path realFile =>
    simp only [FileMapping.apply, FileMapping.addPath, find_addFile, Call.virtualAbsPath, Prod.ext_iff]
  | removeFile path =>
    simp only [FileMapping.apply, find_removeFile, Call.virtualAbsPath]
    rfl

theorem hasDir_apply (m : FileMapping) (c : Call) (dir : WString) : (m.apply (decomposePath sh) c).hasDir dir =
    (decide (dir = (decomposePath sh c.virtualAbsPath).1) || m.hasDir dir) := by
  cases c with
  | addFile path realFile => exact hasDir_addFile ..
  | removeFile path => exact hasDir_removeFile ..

/-- Where a mapping stands for the files of some calls. -/
def Holds (sh : Shell) (m : FileMapping) (calls : List Call) : Prop :=
  (∀ d f, m.find d f = (build (decomposePath sh) calls).find d f) ∧
    ∀ dir, m.hasDir dir = (build (decomposePath sh) calls).hasDir dir

theorem build_concat (calls : List Call) (c : Call) :
    build (decomposePath sh) (calls ++ [c]) = (build (decomposePath sh) calls).apply (decomposePath sh) c := by
  rw [build, build, List.foldl_append]
  rfl

/-- A file is where the last call for it says. -/
theorem find_build (calls : List Call) (d f : WString) : (build (decomposePath sh) calls).find d f =
    match calls.reverse.find? fun c => decomposePath sh c.virtualAbsPath = (d, f) with
    | some (.addFile _ realFile) => some (ntPrefix ++ realFile)
    | _ => none := by
  induction calls using List.reverseRecOn with
  | nil => rfl
  | append_singleton calls c ih =>
    rw [build_concat, find_apply, List.reverse_concat, List.find?_cons]
    by_cases h : (d, f) = decomposePath sh c.virtualAbsPath
    · rw [if_pos h, decide_eq_true h.symm]
      cases c <;> rfl
    · rw [if_neg h, decide_eq_false (Ne.symm h), ih]

/-- The directory of a call stays, whatever becomes of the file. -/
theorem hasDir_build (calls : List Call) (dir : WString) : (build (decomposePath sh) calls).hasDir dir = true ↔
    ∃ c ∈ calls, (decomposePath sh c.virtualAbsPath).1 = dir := by
  induction calls using List.reverseRecOn with
  | nil => simp [build, FileMapping.empty, FileMapping.hasDir]
  | append_singleton calls c ih =>
    rw [build_concat, hasDir_apply, Bool.or_eq_true, decide_eq_true_iff, ih]
    constructor
    · rintro (rfl | ⟨c', hc', rfl⟩)
      · exact ⟨c, by simp, rfl⟩
      · exact ⟨c', by simp [hc'], rfl⟩
    · rintro ⟨c', hc', rfl⟩
      rcases List.mem_append.1 hc' with hc' | hc'
      · exact .inr ⟨c', hc', rfl⟩
      · rw [List.mem_singleton.1 hc']
        exact .inl rfl

theorem Holds.apply {m : FileMapping} {calls : List Call} (h : Holds sh m calls) (c : Call) :
    Holds sh (m.apply (decomposePath sh) c) (calls ++ [c]) := by
  rw [Holds, build_concat]
  constructor
  · intro d f
    rw [find_apply, find_apply, h.1]
  · intro dir
    rw [hasDir_apply, hasDir_apply, h.2]

/-- A mapping that stands for the calls answers as they do. -/
theorem Holds.hooked {m : FileMapping} {calls : List Call} (h : Holds sh m calls) {β : Type*} (virtualDir : β)
    (orig : Option WString → β) (name : WString) :
    hooked sh m virtualDir orig (some name) = (answer sh calls name).give virtualDir orig name := by
  simp only [MapFiles.hooked, answer]
  split
  swap
  · rfl
  have hdir : m.getDir sh (name.drop 4) = true ↔ ∃ c ∈ calls, (decomposePath sh c.virtualAbsPath).1 =
      addBackslash (normalizePath sh (name.drop 4)) := by
    rw [getDir, h.2, hasDir_build]
  by_cases hd : m.getDir sh (name.drop 4) = true
  · rw [if_pos hd, if_pos (hdir.1 hd)]
    rfl
  · rw [if_neg hd, if_neg fun hc => hd (hdir.2 hc)]
    simp only [FileMapping.realFile, h.1, find_build]
    cases hfind : calls.reverse.find? fun c => decomposePath sh c.virtualAbsPath = decomposePath sh (name.drop 4) with
    | none => rfl
    | some c => cases c <;> rfl

/-! ## What is passed on -/

/-- What fits the pipe: a directory without files would be taken for the end. -/
structure Sendable (m : FileMapping) : Prop where
  names : m.ShortNames
  sizes : ∀ n ∈ m.sizes, 0 < n ∧ n < 2 ^ 31

/-- What is passed on to the new process can be, and was gone over. -/
def Passed (d : HookData) : Creation → Prop
  | .createProcess dirs => Lists dirs d.globalMapping ∧ Sendable d.globalMapping
  | .createProcessWithMapping mappings dirs => ∀ ms, mappings.map d.customMappings.lookup = ms.map some →
    List.Forall₂ Lists dirs ms ∧ ∀ m ∈ ms, Sendable m

theorem ofPipe_written {dirs : List Listing} {ms : List FileMapping} (hlists : List.Forall₂ Lists dirs ms)
    (hsendable : ∀ m ∈ ms, Sendable m) :
    HookData.ofPipe (writeMappings dirs) = some { globalMapping := dirs.flatten.foldl addEntries .empty } := by
  have hnames := shortNames_listings hlists fun m hm => (hsendable m hm).names
  have hsizes : ∀ d ∈ dirs.flatten, 0 < d.2.length ∧ d.2.length < 2 ^ 31 := by
    intro d hd
    obtain ⟨m, hm, hn⟩ := sizes_listings hlists d hd
    exact (hsendable m hm).sizes _ hn
  obtain ⟨fuel, dirName, hrun⟩ := initialize_write dirs.flatten hnames hsizes writeEnd
  have hend := readDir_writeEnd dirName []
  rw [List.append_nil] at hend
  rw [HookData.ofPipe, writeMappings_eq, hrun, readDirs, hend]
  rfl

theorem hasDir_addEntries (dir : WString) (e : WString × List (WString × WString)) (hne : e.2 ≠ []) (g : FileMapping) :
    (addEntries g e).hasDir dir = true ↔ e.1 = dir ∨ g.hasDir dir = true := by
  obtain ⟨name, files⟩ := e
  induction files generalizing g with
  | nil => exact absurd rfl hne
  | cons file files ih =>
    have hone : (g.addFile name file.1 file.2).hasDir dir = true ↔ name = dir ∨ g.hasDir dir = true := by
      rw [hasDir_addFile, Bool.or_eq_true, decide_eq_true_iff, eq_comm]
    cases files with
    | nil => exact hone
    | cons next files =>
      refine (ih (g.addFile name file.1 file.2) (List.cons_ne_nil _ _)).trans ?_
      rw [hone]
      simp only [← or_assoc, or_self]

theorem hasDir_addDirs (dir : WString) (l : Listing) (hsizes : ∀ e ∈ l, 0 < e.2.length) : ∀ g : FileMapping,
    (l.foldl addEntries g).hasDir dir = true ↔ (∃ e ∈ l, e.1 = dir) ∨ g.hasDir dir = true := by
  induction l with
  | nil => simp
  | cons e l ih =>
    intro g
    have hne : e.2 ≠ [] := List.length_pos_iff.1 (hsizes e (by simp))
    rw [List.foldl_cons, ih (fun e he => hsizes e (by simp [he])), hasDir_addEntries dir e hne]
    simp only [List.exists_mem_cons_iff]
    rw [or_left_comm, or_assoc]

/-- The directories that were gone over are those of the mappings. -/
theorem dirs_listings {dirs : List Listing} {ms : List FileMapping} (h : List.Forall₂ Lists dirs ms) (dir : WString) :
    (∃ e ∈ dirs.flatten, e.1 = dir) ↔ ∃ m ∈ ms, m.hasDir dir = true := by
  induction h with
  | nil => simp
  | @cons l m dirs ms hl _ ih =>
    simp only [List.flatten_cons, List.mem_append, or_and_right, exists_or, List.exists_mem_cons_iff, ih]
    have hone : (∃ e ∈ l, e.1 = dir) ↔ m.hasDir dir = true := by
      constructor
      · rintro ⟨e, he, rfl⟩
        obtain ⟨fileList, hlookup, -⟩ := hl.files e he
        simp [hasDir, hlookup]
      · exact hl.all dir
    rw [hone]

/-- Files were only added. -/
def OnlyAdds (calls : List Call) : Prop := ∀ c ∈ calls, ∃ path realFile, c = .addFile path realFile

theorem find_append {calls added : List Call} (hadds : OnlyAdds added)
    (d f : WString) : (build (decomposePath sh) (calls ++ added)).find d f =
      ((build (decomposePath sh) added).find d f).or ((build (decomposePath sh) calls).find d f) := by
  rw [find_build, find_build, find_build, List.reverse_append, List.find?_append]
  cases hfind : added.reverse.find? fun c => decomposePath sh c.virtualAbsPath = (d, f) with
  | none => rfl
  | some c =>
    obtain ⟨path, realFile, rfl⟩ := hadds c (List.mem_reverse.1 (List.mem_of_find?_eq_some hfind))
    rfl

/-- Mappings that files were only added to are together what all the calls make, one after the other. -/
theorem union_build {calls : List (List Call)} (hadds : ∀ cs ∈ calls, OnlyAdds cs)
    (d f : WString) : union (calls.map (build (decomposePath sh))) d f =
      (build (decomposePath sh) calls.flatten).find d f := by
  induction calls using List.reverseRecOn with
  | nil => rfl
  | append_singleton calls added ih =>
    have hone : union ((calls ++ [added]).map (build (decomposePath sh))) d f =
        ((build (decomposePath sh) added).find d f).or (union (calls.map (build (decomposePath sh))) d f) := by
      simp [union]
    rw [hone, ih fun cs hcs => hadds cs (by simp [hcs]), List.flatten_append, List.flatten_singleton,
      find_append (hadds added (by simp))]

/-- A new process holds what the mappings that were passed on hold together. -/
theorem holds_received {dirs : List Listing} {ms : List FileMapping} {calls : List Call}
    (hlists : List.Forall₂ Lists dirs ms) (hsendable : ∀ m ∈ ms, Sendable m)
    (hfind : ∀ d f, union ms d f = (build (decomposePath sh) calls).find d f)
    (hdir : ∀ dir, (∃ m ∈ ms, m.hasDir dir = true) ↔ (build (decomposePath sh) calls).hasDir dir = true) :
    Holds sh (dirs.flatten.foldl addEntries .empty) calls := by
  have hsizes : ∀ e ∈ dirs.flatten, 0 < e.2.length := by
    intro e he
    obtain ⟨m, hm, hn⟩ := sizes_listings hlists e he
    exact ((hsendable m hm).sizes _ hn).1
  constructor
  · intro d f
    rw [find_union hlists d f .empty none rfl]
    exact hfind d f
  · intro dir
    rw [Bool.eq_iff_iff, hasDir_addDirs dir _ hsizes, dirs_listings hlists, hdir]
    exact or_iff_left (by simp [FileMapping.empty, FileMapping.hasDir])

/-! ## A process and its history -/

/-- The mappings for other processes are those of their calls. -/
structure Kept (sh : Shell) (customMappings : AList fun _ : UInt32 => FileMapping)
    (custom : UInt32 → Option (List Call)) : Prop where
  lookup : ∀ id, customMappings.lookup id = (custom id).map (build (decomposePath sh))
  adds : ∀ id calls, custom id = some calls → OnlyAdds calls

section
variable {customMappings : AList fun _ : UInt32 => FileMapping} {custom : UInt32 → Option (List Call)}

theorem Kept.insert (h : Kept sh customMappings custom) (id : UInt32) {calls : List Call} (hadds : OnlyAdds calls) :
    Kept sh (customMappings.insert id (build (decomposePath sh) calls)) (Function.update custom id (some calls)) := by
  constructor
  · intro id'
    by_cases hid : id' = id
    · rw [hid, AList.lookup_insert, Function.update_self, Option.map_some]
    · rw [AList.lookup_insert_ne hid, Function.update_of_ne hid, h.lookup]
  · intro id' calls' hcalls
    by_cases hid : id' = id
    · rw [hid, Function.update_self, Option.some.injEq] at hcalls
      exact hcalls ▸ hadds
    · rw [Function.update_of_ne hid] at hcalls
      exact h.adds id' calls' hcalls

theorem Kept.erase (h : Kept sh customMappings custom) (id : UInt32) :
    Kept sh (customMappings.erase id) (Function.update custom id none) := by
  constructor
  · intro id'
    by_cases hid : id' = id
    · rw [hid, AList.lookup_erase, Function.update_self, Option.map_none]
    · rw [AList.lookup_erase_ne hid, Function.update_of_ne hid, h.lookup]
  · intro id' calls hcalls
    by_cases hid : id' = id
    · rw [hid, Function.update_self] at hcalls
      cases hcalls
    · rw [Function.update_of_ne hid] at hcalls
      exact h.adds id' calls hcalls

end

structure Agrees (sh : Shell) (d : HookData) (h : History) : Prop where
  global : Holds sh d.globalMapping h.global
  kept : Kept sh d.customMappings h.custom
  counter : d.counter = h.counter

theorem agrees_received {dirs : List Listing} {ms : List FileMapping} {calls : List Call}
    (hlists : List.Forall₂ Lists dirs ms) (hsendable : ∀ m ∈ ms, Sendable m)
    (h : Holds sh (dirs.flatten.foldl addEntries .empty) calls) :
    ∃ d, HookData.ofPipe (writeMappings dirs) = some d ∧ Agrees sh d { global := calls } :=
  ⟨_, ofPipe_written hlists hsendable, h, ⟨fun _ => rfl, by simp⟩, rfl⟩

theorem agrees_apply {d : HookData} {h : History} (c : ApiCall) (ha : Agrees sh d h) :
    Agrees sh ((processes sh).apply d c) (histories.apply h c) := by
  cases c with
  | mapFileGlobal virtualFile file => exact ⟨ha.global.apply (.addFile virtualFile file), ha.kept, ha.counter⟩
  | unmapFileGlobal virtualFile => exact ⟨ha.global.apply (.removeFile virtualFile), ha.kept, ha.counter⟩
  | createFileMap =>
    have hold : (d.customMappings.lookup (d.counter + 1)).getD .empty =
        build (decomposePath sh) ((h.custom (h.counter + 1)).getD []) := by
      rw [ha.kept.lookup, ha.counter]
      cases h.custom (h.counter + 1) <;> rfl
    have hadds : OnlyAdds ((h.custom (h.counter + 1)).getD []) := by
      cases hc : h.custom (h.counter + 1) with
      | none => simp [OnlyAdds]
      | some old => exact ha.kept.adds _ old hc
    simp only [processes, histories, HookData.createFileMap, hold]
    refine ⟨ha.global, ?_, congrArg (· + 1) ha.counter⟩
    simp only [ha.counter]
    exact ha.kept.insert _ hadds
  | destroyFileMap id => exact ⟨ha.global, ha.kept.erase id, ha.counter⟩
  | mapFile map virtualFile file =>
    simp only [processes, histories, HookData.mapFile, ha.kept.lookup]
    cases hold : h.custom map with
    | none =>
      simp only [Option.map_none]
      rw [← hold, Function.update_eq_self]
      exact ha
    | some old =>
      have hadds : OnlyAdds (old ++ [.addFile virtualFile file]) := by
        intro c hc
        rcases List.mem_append.1 hc with hc | hc
        · exact ha.kept.adds _ old hold c hc
        · exact ⟨virtualFile, file, List.mem_singleton.1 hc⟩
      have hkept := ha.kept.insert map hadds
      rw [build_concat] at hkept
      exact ⟨ha.global, hkept, ha.counter⟩

theorem agrees_pass {d : HookData} {h : History} (t : Creation) (ha : Agrees sh d h) (hpassed : Passed d t) :
    Option.Rel (Agrees sh) ((processes sh).pass d t) (histories.pass h t) := by
  cases t with
  | createProcess dirs =>
    obtain ⟨hlists, hsendable⟩ := hpassed
    -- Only the global mapping is passed on, so that it is the union.
    have hall : List.Forall₂ Lists [dirs] [d.globalMapping] := .cons hlists .nil
    have hone : ∀ m ∈ [d.globalMapping], Sendable m := by simpa using hsendable
    have hfind : ∀ dir f, union [d.globalMapping] dir f = (build (decomposePath sh) h.global).find dir f := by
      intro dir f
      rw [← ha.global.1]
      simp [union]
    have hdir : ∀ dir, (∃ m ∈ [d.globalMapping], m.hasDir dir = true) ↔
        (build (decomposePath sh) h.global).hasDir dir = true := by
      intro dir
      rw [← ha.global.2]
      simp
    obtain ⟨d', hd', ha'⟩ := agrees_received hall hone (holds_received hall hone hfind hdir)
    simp only [processes, histories, HookData.createProcess, hd']
    exact .some ha'
  | createProcessWithMapping mappings dirs =>
    -- The handles that are known are the same ones on both sides; with an unknown one nothing is created.
    have hknown : (mappings.all fun map => (d.customMappings.lookup map).isSome) =
        mappings.all fun map => (h.custom map).isSome := by
      simp only [ha.kept.lookup, Option.isSome_map]
    simp only [processes, histories, HookData.createProcessWithMapping, hknown]
    by_cases hall : (mappings.all fun map => (h.custom map).isSome) = true
    swap
    · rw [if_neg hall, if_neg hall]
      exact .none
    rw [if_pos hall, if_pos hall]
    let calls := mappings.map fun map => (h.custom map).getD []
    have hcustom : ∀ map ∈ mappings, h.custom map = some ((h.custom map).getD []) := by
      intro map hmap
      obtain ⟨cs, hcs⟩ := Option.isSome_iff_exists.1 (List.all_eq_true.1 hall map hmap)
      rw [hcs, Option.getD_some]
    have hms : mappings.map d.customMappings.lookup = (calls.map (build (decomposePath sh))).map some := by
      simp only [calls, List.map_map]
      apply List.map_congr_left
      intro map hmap
      rw [ha.kept.lookup, hcustom map hmap]
      rfl
    obtain ⟨hlists, hsendable⟩ := hpassed _ hms
    have hadds : ∀ cs ∈ calls, OnlyAdds cs := by
      intro cs hcs
      obtain ⟨map, hmap, rfl⟩ := List.mem_map.1 hcs
      exact ha.kept.adds map _ (hcustom map hmap)
    have hdir : ∀ dir, (∃ m ∈ calls.map (build (decomposePath sh)), m.hasDir dir = true) ↔
        (build (decomposePath sh) calls.flatten).hasDir dir = true := by
      intro dir
      rw [hasDir_build]
      constructor
      · rintro ⟨m, hm, hdir⟩
        obtain ⟨cs, hcs, rfl⟩ := List.mem_map.1 hm
        obtain ⟨c, hc, hdir⟩ := (hasDir_build cs dir).1 hdir
        exact ⟨c, List.mem_flatten.2 ⟨cs, hcs, hc⟩, hdir⟩
      · rintro ⟨c, hc, hdir⟩
        obtain ⟨cs, hcs, hc⟩ := List.mem_flatten.1 hc
        exact ⟨_, List.mem_map_of_mem hcs, (hasDir_build cs dir).2 ⟨c, hc, hdir⟩⟩
    obtain ⟨d', hd', ha'⟩ := agrees_received hlists hsendable
      (holds_received hlists hsendable (union_build hadds) hdir)
    rw [hd']
    exact .some ha'

/-- What a process finds under a name is what the calls make of it. A virtual directory is listed and closed without the
system. -/
structure Finds (sh : Shell) (d : HookData) (calls : List Call) (name : WString) : Prop where
  opened : ∀ orig, ntCreateFile sh d.globalMapping orig (some name) =
    (answer sh calls name).give ⟨0, fakeHandle, 4⟩ orig name
  attributes : ∀ orig, ntQueryFullAttributesFile sh d.globalMapping orig (some name) =
    (answer sh calls name).give (0, { fileAttributes := 16 }) orig name
  virtual : answer sh calls name = .directory → ∀ orig origNtClose origNtQueryDirectoryFile,
    ntClose origNtClose (ntCreateFile sh d.globalMapping orig (some name)).fileHandle = 0 ∧
      ntQueryDirectoryFile origNtQueryDirectoryFile (ntCreateFile sh d.globalMapping orig (some name)).fileHandle =
        0x80000011

theorem Agrees.finds {d : HookData} {h : History} (ha : Agrees sh d h) (name : WString) : Finds sh d h.global name where
  opened orig := ha.global.hooked _ orig name
  attributes orig := ha.global.hooked _ orig name
  virtual hdir orig _ _ := by
    have hopened : ntCreateFile sh d.globalMapping orig (some name) = ⟨0, fakeHandle, 4⟩ := by
      rw [ntCreateFile, ha.global.hooked, hdir]
      rfl
    rw [hopened]
    exact ⟨rfl, rfl⟩

theorem simulates : (processes sh).Simulates histories (Agrees sh) Passed := ⟨agrees_apply, agrees_pass⟩

end

/-- **A process finds what its history says.** In every tree of processes that begins with one without mappings, where
whatever is passed on fits the pipe, the processes are those of their histories, none of them waits for ever to be told
its mappings, and each name that one of them opens, or asks the attributes of, is for it what its history makes of the
name: a virtual directory, a real file, or the name itself. -/
theorem found_by_history {events : List (Family.Event ApiCall Creation)}
    (hpassed : Meets (processes sh).step (Family.Makes Passed) [{}] events) :
    Option.Rel (List.Forall₂ fun d h => ∀ name, normalizePath sh (name.drop 4) ≠ [] → Finds sh d h.global name)
      (run (processes sh).step [{}] events) (run histories.step [{}] events) := by
  have hstart : Agrees sh {} {} := ⟨⟨fun _ _ => rfl, fun _ => rfl⟩, ⟨fun _ => rfl, by simp⟩, rfl⟩
  have hrun := Family.run_simulates simulates events (.cons hstart .nil) hpassed
  exact Family.rel_imp hrun fun ds hs h => h.imp fun d h hagrees name _ => hagrees.finds name

end Paths

/-- Paths that are normal already. -/
def plainShell : Shell := ⟨id, id, fun path => path.length - (path.reverse.takeWhile (· ≠ 92)).length⟩

/-- A process maps a file and makes another process, which maps another file of that directory. -/
def twoProcesses : List (Family.Event ApiCall Creation) :=
  [.call 0 (.mapFileGlobal [100, 92, 97] [120]),
    .make 0 (.createProcess (FileMapping.build (decomposePath plainShell) [.addFile [100, 92, 97] [120]]).listing),
    .call 1 (.mapFileGlobal [100, 92, 98] [121])]

theorem found_by_history_two :
    Option.Rel
      (List.Forall₂ fun d h => ∀ name, normalizePath plainShell (name.drop 4) ≠ [] → Finds plainShell d h.global name)
      (run (processes plainShell).step [{}] twoProcesses) (run histories.step [{}] twoProcesses) := by
  apply found_by_history
  refine ⟨trivial, fun s hs => ?_⟩
  cases hs
  refine ⟨?_, fun s hs => ⟨trivial, fun _ _ => trivial⟩⟩
  intro d hd
  cases hd
  refine ⟨lists_listing _, ?_, by decide⟩
  unfold FileMapping.ShortNames
  decide

end BuildPal.MapFiles
