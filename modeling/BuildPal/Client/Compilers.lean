import BuildPal.Client.HookProcess
import BuildPal.Client.RequestLoop
import BuildPal.Lib.Generations
import Std.Data.ExtTreeMap
/-!
# Which processes are compilers

`Extensions/Client/hookProcess.cpp`: a process registers compilers by their
files. When it makes another process, that is left to the build, or its
executable is replaced, if it is a registered compiler; otherwise the new
process is injected, and told the compilers and the port name.
-/
open BuildPal.Lib BuildPal.Message

namespace BuildPal.Client.Hook

/-- A string that ends at its first NUL. -/
abbrev CString := { s : Bytes // 0 ∉ s }

/-- What the system says of executables: `getUniqueID` of a path, and the path that `SearchPathW` finds for the first
argument of a command line. There is no file under the empty path. -/
structure Executables (ι : Type*) where
  getUniqueID : Bytes → Option ι
  searchPath : Bytes → Option Bytes
  noFile : getUniqueID [] = none

/-- The beginning of `isCompiler`: the file that is to be run. -/
def Executables.fileStatus {ι : Type*} (ex : Executables ι) (appName : Option Bytes) (cmd : Bytes) : Option ι :=
  match appName with
  | some appName => ex.getUniqueID appName
  | none => (ex.searchPath cmd).bind ex.getUniqueID

section
variable {ι : Type*} [Ord ι] [Std.TransOrd ι] [Std.LawfulEqOrd ι] [DecidableEq ι]

/-- `HookProcessAPIHookData`: the compilers, ordered by their files, and the port name. -/
structure HookData (ι : Type*) [Ord ι] where
  files : Std.ExtTreeMap ι CompilerDescription := ∅
  portName : Bytes := RequestLoop.text "default"

inductive Created
  | shortCircuit (compilerPath : Bytes)
  | replaced (replacement : Bytes)
  /-- The bytes in the pipe of the new process. -/
  | injected (stream : Bytes)

section
variable (ex : Executables ι)

namespace HookData

/-- `insert` leaves a file that is registered already. -/
def registerFile (d : HookData ι) (desc : CompilerDescription) : HookData ι :=
  match ex.getUniqueID desc.compilerPath with
  | some fileStatus => { d with files := d.files.insertIfNew fileStatus desc }
  | none => d

def compilerFiles (d : HookData ι) : List CompilerDescription := d.files.toList.map (·.2)

def isCompiler (d : HookData ι) (appName : Option Bytes) (cmd : Bytes) : Option CompilerDescription :=
  (ex.fileStatus appName cmd).bind fun fileStatus => (d.files.toList.find? fun e => e.1 = fileStatus).map (·.2)

def createProcess (d : HookData ι) (appName : Option Bytes) (cmd : Bytes) : Created :=
  match d.isCompiler ex appName cmd with
  | some compilerDesc =>
    if compilerDesc.replacement = [] then .shortCircuit compilerDesc.compilerPath
    else .replaced compilerDesc.replacement
  | none => .injected (hookProcess d.compilerFiles d.portName)

/-- A process that was injected, after `Initialize` on what its reads return. -/
def ofReads (buffers : List Bytes) : Option (HookData ι) :=
  (Initialize {} buffers).map fun r => { r.registered.foldl (registerFile ex) {} with portName := r.portName }

end HookData

inductive ApiCall
  | registerCompiler (compilerPath replacement : CString)
  | setPortName (portName : CString)

/-- How a process makes another one, and what the reads of the new one return. -/
structure Creation where
  appName : Option Bytes
  cmd : Bytes
  buffers : List Bytes

/-- The injected processes. -/
def processes : Family (HookData ι) ApiCall Creation where
  apply d
    | .registerCompiler compilerPath replacement => d.registerFile ex ⟨compilerPath, replacement⟩
    | .setPortName portName => { d with portName }
  pass d t :=
    match d.createProcess ex t.appName t.cmd with
    | .injected _ => HookData.ofReads ex t.buffers
    | _ => none

/-! ## What a process should know

The history of a process are the calls that were made where it goes back to, and
its own after them. -/

/-- The first description that was registered for the file. -/
def registered (calls : List ApiCall) (fileStatus : ι) : Option CompilerDescription :=
  calls.findSome? fun
    | .registerCompiler compilerPath replacement =>
      if ex.getUniqueID compilerPath = some fileStatus then some ⟨compilerPath, replacement⟩ else none
    | .setPortName _ => none

/-- The last port name. -/
def portName (calls : List ApiCall) : Bytes :=
  (calls.reverse.findSome? fun
    | .registerCompiler _ _ => none
    | .setPortName portName => some portName.1).getD (RequestLoop.text "default")

def asked (calls : List ApiCall) (appName : Option Bytes) (cmd : Bytes) : Option CompilerDescription :=
  (ex.fileStatus appName cmd).bind (registered ex calls)

/-- No process that is injected comes of a compiler. -/
def histories : Family (List ApiCall) ApiCall Creation where
  apply calls c := calls ++ [c]
  pass calls t := if (asked ex calls t.appName t.cmd).isSome then none else some calls

/-- What a process does about a new one is what the calls say. -/
structure Decides (d : HookData ι) (calls : List ApiCall) : Prop where
  compiler : ∀ appName cmd desc, asked ex calls appName cmd = some desc → d.createProcess ex appName cmd =
    if desc.replacement = [] then .shortCircuit desc.compilerPath else .replaced desc.replacement
  other : ∀ appName cmd, asked ex calls appName cmd = none →
    d.createProcess ex appName cmd = .injected (hookProcess d.compilerFiles (portName calls))

/-- The reads of an injected process return what was written for it, and lose nothing. -/
def Told (d : HookData ι) (t : Creation) : Prop :=
  ∀ stream, d.createProcess ex t.appName t.cmd = .injected stream → Reads t.buffers stream ∧
    ∀ k, 0 < k → k < t.buffers.length → CleanCut d.compilerFiles (t.buffers.take k).flatten

end

/-! ## Registered files -/

section
variable {ex : Executables ι} {d : HookData ι} {calls : List ApiCall}

theorem getElem?_insertIfNew (files : Std.ExtTreeMap ι CompilerDescription) (k id : ι) (desc : CompilerDescription) :
    (files.insertIfNew k desc)[id]? = files[id]?.or (if k = id then some desc else none) := by
  rw [Std.ExtTreeMap.getElem?_insertIfNew]
  simp only [Std.LawfulEqOrd.compare_eq_iff_eq]
  by_cases hk : k = id
  · subst hk
    by_cases hmem : k ∈ files <;> simp [hmem]
  · simp [hk]

theorem files_registerFile (d : HookData ι) (desc : CompilerDescription) (id : ι) :
    (d.registerFile ex desc).files[id]? =
      d.files[id]?.or (if ex.getUniqueID desc.compilerPath = some id then some desc else none) := by
  rw [HookData.registerFile]
  cases h : ex.getUniqueID desc.compilerPath with
  | none => simp
  | some fileStatus => simp only [getElem?_insertIfNew, Option.some.injEq]

theorem files_registerFiles (descs : List CompilerDescription) (id : ι) : ∀ d : HookData ι,
    (descs.foldl (HookData.registerFile ex) d).files[id]? = d.files[id]?.or
      (descs.findSome? fun desc => if ex.getUniqueID desc.compilerPath = some id then some desc else none) := by
  induction descs with
  | nil => simp
  | cons desc descs ih =>
    intro d
    rw [List.foldl_cons, ih, files_registerFile, Option.or_assoc, List.findSome?_cons]
    split <;> simp

theorem find?_toList (files : Std.ExtTreeMap ι CompilerDescription) (id : ι) :
    (files.toList.find? fun e => e.1 = id).map (·.2) = files[id]? := by
  apply Option.ext
  intro desc
  rw [Option.map_eq_some_iff, ← Std.ExtTreeMap.mem_toList_iff_getElem?_eq_some]
  constructor
  · rintro ⟨e, he, rfl⟩
    have hid : e.1 = id := by simpa using List.find?_some he
    exact hid ▸ List.mem_of_find?_eq_some he
  · intro hmem
    cases hfind : files.toList.find? fun e => e.1 = id with
    | none => simpa using List.find?_eq_none.1 hfind (id, desc) hmem
    | some e =>
      have hid : e.1 = id := by simpa using List.find?_some hfind
      have he : files[id]? = some e.2 := by
        rw [← Std.ExtTreeMap.mem_toList_iff_getElem?_eq_some, ← hid]
        exact List.mem_of_find?_eq_some hfind
      have hdesc : files[id]? = some desc := Std.ExtTreeMap.mem_toList_iff_getElem?_eq_some.1 hmem
      rw [hdesc, Option.some.injEq] at he
      exact ⟨e, rfl, he.symm⟩

/-! ## A process and its history -/

structure Agrees (ex : Executables ι) (d : HookData ι) (calls : List ApiCall) : Prop where
  files : ∀ id, d.files[id]? = registered ex calls id
  portName : d.portName = portName calls

omit [Ord ι] [Std.TransOrd ι] [Std.LawfulEqOrd ι] in
theorem registered_mem {id : ι} {desc : CompilerDescription} (h : registered ex calls id = some desc) :
    ex.getUniqueID desc.compilerPath = some id ∧ desc.Ok := by
  obtain ⟨c, -, hc⟩ := List.exists_of_findSome?_eq_some h
  cases c with
  | setPortName portName => cases hc
  | registerCompiler compilerPath replacement =>
    simp only at hc
    split at hc
    · next hid =>
      cases hc
      refine ⟨hid, ?_, compilerPath.2, replacement.2⟩
      intro hempty
      have hnil : compilerPath.1 = [] := hempty
      rw [hnil, ex.noFile] at hid
      cases hid
    · cases hc

theorem portName_clean (calls : List ApiCall) : 0 ∉ Hook.portName calls := by
  rw [Hook.portName]
  cases h : calls.reverse.findSome? _ with
  | none =>
    have hdefault : 0 ∉ RequestLoop.text "default" := by decide
    exact hdefault
  | some name =>
    obtain ⟨c, -, hc⟩ := List.exists_of_findSome?_eq_some h
    cases c with
    | registerCompiler _ _ => cases hc
    | setPortName portName =>
      cases hc
      exact portName.2

theorem isCompiler_eq (ha : Agrees ex d calls) (appName : Option Bytes) (cmd : Bytes) :
    d.isCompiler ex appName cmd = asked ex calls appName cmd := by
  rw [HookData.isCompiler, asked]
  congr 1
  funext id
  rw [find?_toList, ha.files]

theorem Agrees.decides (ha : Agrees ex d calls) : Decides ex d calls where
  compiler appName cmd desc h := by
    rw [HookData.createProcess, isCompiler_eq ha, h]
  other appName cmd h := by
    rw [HookData.createProcess, isCompiler_eq ha, h, ha.portName]

theorem agrees_apply (c : ApiCall) (ha : Agrees ex d calls) :
    Agrees ex ((processes ex).apply d c) ((histories ex).apply calls c) := by
  cases c with
  | registerCompiler compilerPath replacement =>
    constructor
    · intro id
      simp only [processes, histories, files_registerFile, ha.files, registered, List.findSome?_append]
      congr 1
      simp only [List.findSome?_singleton]
    · have hport : (d.registerFile ex ⟨compilerPath, replacement⟩).portName = d.portName := by
        rw [HookData.registerFile]
        split <;> rfl
      simp only [processes, histories, hport, ha.portName, Hook.portName, List.reverse_append, List.reverse_singleton,
        List.singleton_append, List.findSome?_cons]
  | setPortName portName =>
    constructor
    · intro id
      simp only [processes, histories, ha.files, registered, List.findSome?_append, List.findSome?_singleton,
        Option.or_none]
    · simp [processes, histories, Hook.portName]

/-- What is written for a new process is what it learns. -/
theorem learns_told (ha : Agrees ex d calls) {buffers : List Bytes}
    (hreads : Reads buffers (hookProcess d.compilerFiles d.portName))
    (hcuts : ∀ k, 0 < k → k < buffers.length → CleanCut d.compilerFiles (buffers.take k).flatten) :
    Learns d.compilerFiles d.portName buffers := by
  have hok : ∀ desc ∈ d.compilerFiles, desc.Ok := by
    intro desc hdesc
    obtain ⟨e, he, rfl⟩ := List.mem_map.1 hdesc
    have hfile : d.files[e.1]? = some e.2 := Std.ExtTreeMap.mem_toList_iff_getElem?_eq_some.1 he
    rw [ha.files] at hfile
    exact (registered_mem hfile).2
  have hport : 0 ∉ d.portName := ha.portName ▸ portName_clean calls
  have hne : ∀ buffer ∈ buffers, buffer ≠ [] := by
    intro buffer hbuffer
    exact List.length_pos_iff.1 (hreads.size buffer hbuffer).1
  have hread := buffers_of_clean hok hport buffers [] hreads.bytes hne rfl hcuts
  rw [Parse.feedAll_nil, parse_stream hok hport] at hread
  rw [learns_iff, hread]
  exact ⟨rfl, rfl⟩

/-- Registered once more, the compilers are the same. -/
theorem registered_again (ha : Agrees ex d calls) (id : ι) : (d.compilerFiles.findSome? fun desc =>
    if ex.getUniqueID desc.compilerPath = some id then some desc else none) = d.files[id]? := by
  have hkeys : ∀ e ∈ d.files.toList, ex.getUniqueID e.2.compilerPath = some e.1 := by
    intro e he
    have hfile : d.files[e.1]? = some e.2 := Std.ExtTreeMap.mem_toList_iff_getElem?_eq_some.1 he
    rw [ha.files] at hfile
    exact (registered_mem hfile).1
  rw [← find?_toList, HookData.compilerFiles, List.findSome?_map]
  generalize d.files.toList = files at hkeys
  induction files with
  | nil => rfl
  | cons e files ih =>
    have hrest := ih fun e he => hkeys e (by simp [he])
    rw [List.findSome?_cons, List.find?_cons]
    simp only [Function.comp_apply, hkeys e (by simp), Option.some.injEq]
    by_cases hid : e.1 = id
    · simp [hid]
    · simp only [hid, if_false, decide_false]
      exact hrest

theorem agrees_learned (ha : Agrees ex d calls) {buffers : List Bytes}
    (h : Learns d.compilerFiles d.portName buffers) :
    ∃ d', HookData.ofReads ex buffers = some d' ∧ Agrees ex d' calls := by
  obtain ⟨r, hr, hregistered, hport⟩ := h
  refine ⟨_, by rw [HookData.ofReads, hr, Option.map_some], ?_, ?_⟩
  · intro id
    simp only [files_registerFiles, hregistered, registered_again ha, ha.files]
    simp
  · rw [← ha.portName, hport]

theorem agrees_pass (t : Creation) (ha : Agrees ex d calls) (htold : Told ex d t) :
    Option.Rel (Agrees ex) ((processes ex).pass d t) ((histories ex).pass calls t) := by
  simp only [processes, histories]
  cases hasked : asked ex calls t.appName t.cmd with
  | some desc =>
    rw [ha.decides.compiler _ _ desc hasked, Option.isSome_some, if_pos rfl]
    by_cases hempty : desc.replacement = []
    · rw [if_pos hempty]
      exact .none
    · rw [if_neg hempty]
      exact .none
  | none =>
    have hinjected := ha.decides.other _ _ hasked
    rw [← ha.portName] at hinjected
    obtain ⟨hreads, hcuts⟩ := htold _ hinjected
    obtain ⟨d', hd', ha'⟩ := agrees_learned ha (learns_told ha hreads hcuts)
    simp only [hinjected, hd']
    exact .some ha'

theorem simulates : (processes ex).Simulates (histories ex) (Agrees ex) (Told ex) := ⟨agrees_apply, agrees_pass⟩

end

/-- **Compilers stay compilers.** In every tree of processes that begins with an injected one, where the reads of each
new process lose nothing, what a process does about a new one is what its history says: the first description that was
registered for the file that is to be run decides, whichever process that was in; and other processes are injected, and
are told the last port name. -/
theorem compilers_by_history {ex : Executables ι} {events : List (Family.Event ApiCall Creation)}
    (htold : Meets (processes ex).step (Family.Makes (Told ex)) [{}] events) :
    Option.Rel (List.Forall₂ (Decides ex)) (run (processes ex).step [{}] events)
      (run (histories ex).step [[]] events) := by
  have hstart : Agrees ex {} [] := ⟨fun _ => by simp [registered], rfl⟩
  have hrun := Family.run_simulates simulates events (.cons hstart .nil) htold
  exact Family.rel_imp hrun fun ds hs h => h.imp fun d calls ha => ha.decides

end

/-- Every path is that of a file, named by its first byte. -/
def executables : Executables Nat := ⟨fun path => path.head?.map UInt8.toNat, some, rfl⟩

/-- A process registers a compiler and makes another process, which runs the compiler. -/
def registeredAndRun : List (Family.Event ApiCall Creation) :=
  [.call 0 (.registerCompiler ⟨[65], by decide⟩ ⟨[], by decide⟩),
    .make 0 ⟨some [66], [], [hookProcess [⟨[65], []⟩] (RequestLoop.text "default")]⟩,
    .make 1 ⟨none, [65, 67], []⟩]

theorem compilers_by_history_two :
    Option.Rel (List.Forall₂ (Decides executables)) (run (processes executables).step [{}] registeredAndRun)
      (run (histories executables).step [[]] registeredAndRun) := by
  apply compilers_by_history
  refine ⟨trivial, fun s hs => ?_⟩
  cases hs
  refine ⟨?_, fun s hs => ?_⟩
  · intro d hd stream hstream
    cases hd
    cases hstream
    refine ⟨⟨rfl, by decide⟩, ?_⟩
    intro k h0 hk
    simp at hk
    omega
  · cases hs
    refine ⟨?_, fun _ _ => trivial⟩
    intro d hd stream hstream
    cases hd
    cases hstream

end BuildPal.Client.Hook
