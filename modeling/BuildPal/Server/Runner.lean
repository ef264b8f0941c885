import Mathlib.Logic.Function.Basic
import BuildPal.Server.CompileSession
/-!
# The server

`ServerRunner` and `CompileSession` of `buildpal/server/runner.py`, with
`pch_repository.py`, `compiler_repository.py` and the directories of
`header_repository.py`: all the sessions of a server, the files they share, and
the calls that come back to a session at some later time.

A call that raises leaves behind what it has done so far. Creating directories
and removing them is taken to succeed; storing a PCH file, unpacking what the
manager sent and storing headers may fail.
-/
open BuildPal.Message
open BuildPal.CompileSession (State Outcome)

namespace BuildPal.Runner

abbrev SessionId := Nat

/-- `CompilerRepository.__unique_id` of a compiler. -/
abbrev CompilerId := String

/-- A key of the PCH repository: `(path, size, mtime)`. -/
structure PchFile where
  path : String
  size : Nat
  mtime : Nat
  deriving DecidableEq, Repr

/-- A file in the PCH repository's directory. -/
structure LocalFile where
  dir : String
  name : String
  deriving DecidableEq, Repr

/-! ## File names -/

def isSep (c : Char) : Bool := c == '\\' || c == '/'

/-- `os.path.splitdrive`, for drives that are a letter. -/
def splitDrive : List Char → List Char × List Char
  | letter :: ':' :: rest => ([letter, ':'], rest)
  | path => ([], path)

/-- `head.rstrip('\\/') or head`. -/
def stripSeps (head : List Char) : List Char :=
  if head.all isSep then head else (head.reverse.dropWhile isSep).reverse

/-- `os.path.split`. -/
def splitPath (path : String) : String × String :=
  let (drive, rest) := splitDrive path.toList
  let name := (rest.reverse.takeWhile (! isSep ·)).reverse
  (String.ofList (drive ++ stripSeps (rest.take (rest.length - name.length))), String.ofList name)

/-- The digest of a directory's name, and the file that the file system finds under a name: it may find one under
several, as it does not look at case. -/
structure Names where
  md5 : String → String
  place : LocalFile → LocalFile

/-- Where `register_file` puts a file. -/
def localFilename (names : Names) (pch : PchFile) : LocalFile :=
  ⟨names.md5 (splitPath pch.path).1, (splitPath pch.path).2⟩

/-! ## Sessions -/

/-- What the server reads of a task, besides its headers. -/
structure Task where
  compilerId : CompilerId
  pchFile : Option PchFile := none
  /-- The toolset is `msvc`. -/
  msvc : Bool := true
  deriving DecidableEq, Repr

instance : Inhabited Task := ⟨{ compilerId := "" }⟩

/-- `include_dirs_future`: the headers are stored by a thread of the pool. -/
inductive IncludeDirs where
  | unset
  | pending
  | ready
  | failed
  deriving DecidableEq, Repr

structure Session where
  task : Task := default
  state : State := .getTask
  completed : Bool := false
  cancelPending : Bool := false
  /-- The session has an attribute `selfdestruct`. -/
  selfdestruct : Bool := false
  compilerRequired : Bool := false
  pchRequired : Bool := false
  /-- What `register_file` returned. -/
  pchFile : Option LocalFile := none
  /-- The session has an attribute `compiler_data`. -/
  compilerData : Bool := false
  pchDesc : Bytes := []
  /-- The decompressor has come to the end of its stream. -/
  pchEnded : Bool := false
  includeDirs : IncludeDirs := .unset
  /-- The directory the compiler is to run in. -/
  cwd : Option Nat := none
  deriving DecidableEq, Repr

/-- What is in a file: nobody knows once two threads write it at a time, or one stops half-way. -/
inductive Contents where
  | unknown
  /-- Opened by the thread of this session, which is yet to write the rest of it. -/
  | opened (sid : SessionId)
  | holds (data : Bytes)
  deriving DecidableEq, Repr

/-- What others can see a session do. -/
inductive Effect where
  | sent (sid : SessionId) (msg : FromServer)
  /-- A compiler process is started. -/
  | launched (sid : SessionId)
  /-- The session gets an entry in `tempdirs`. -/
  | tempdir (sid : SessionId)
  /-- The session gets an entry in `temp_map`. -/
  | tempMap (sid : SessionId)
  /-- `session_done` runs to its end. -/
  | done (sid : SessionId)
  /-- `compile` is called. -/
  | compiles (sid : SessionId)
  /-- The handler the session waits with for a file is called. -/
  | invoked (sid : SessionId)
  deriving DecidableEq, Repr

def Effect.session : Effect → SessionId
  | sent sid _ | launched sid | tempdir sid | tempMap sid | done sid | compiles sid | invoked sid => sid

/-- The runner knows the sessions that are not completed. `downloaded` and `log` are not in the code: what was
received for a PCH file, and what the sessions did. -/
structure Server where
  sessions : SessionId → Session := fun _ => {}
  counter : Nat := 0
  /-- The self-destruct events of the scheduler. -/
  queue : List SessionId := []
  files : PchFile → Option LocalFile := fun _ => none
  partialFiles : PchFile → Option LocalFile := fun _ => none
  pchWaiters : PchFile → List SessionId := fun _ => []
  disk : LocalFile → Contents := fun _ => .unknown
  compilers : List CompilerId := []
  partialCompilers : List CompilerId := []
  compilerWaiters : CompilerId → List SessionId := fun _ => []
  /-- The compilers whose directory exists. -/
  compilerDirs : List CompilerId := []
  tempdirs : SessionId → Option Nat := fun _ => none
  tempMaps : List SessionId := []
  /-- The number of directories made so far, which gives the next its name. -/
  nextDir : Nat := 0
  /-- PCH files that a thread of the pool is to write, or is writing. -/
  writes : List SessionId := []
  /-- Those it has opened. -/
  opened : List SessionId := []
  /-- The sessions `pch_completed` is to be called for. -/
  completions : List SessionId := []
  /-- Compilers that wait for a process slot. -/
  execs : List SessionId := []
  running : List SessionId := []
  uploads : List SessionId := []
  downloaded : PchFile → Option Bytes := fun _ => none
  log : List Effect := []

/-- The server after a call, and whether the call raised. -/
abbrev Called := Server × Bool

/-- What follows a call, unless it raised. -/
def Called.andThen (c : Called) (next : Server → Called) : Called := if c.2 then c else next c.1

namespace Server
variable (s : Server) (sid : SessionId)

def modify (f : Session → Session) : Server :=
  { s with sessions := Function.update s.sessions sid (f (s.sessions sid)) }

def note (e : Effect) : Server := { s with log := s.log ++ [e] }

/-! ## The end of a session -/

/-- `cancel_selfdestruct`: the scheduler raises for an event it does not have. -/
def cancelSelfdestruct : Called :=
  if (s.sessions sid).selfdestruct then
    if sid ∈ s.queue then
      ({ s.modify sid fun x => { x with selfdestruct := false } with queue := s.queue.erase sid }, false)
    else (s, true)
  else (s, false)

def rescheduleSelfdestruct : Called :=
  (s.cancelSelfdestruct sid).andThen fun s =>
    ({ s.modify sid fun x => { x with selfdestruct := true } with queue := sid :: s.queue }, false)

/-- The end of `session_done`, with `session_complete` of the header repository. -/
def finish : Server :=
  { s.modify sid fun x => { x with completed := true } with
    tempdirs := Function.update s.tempdirs sid none
    tempMaps := s.tempMaps.filter (· ≠ sid)
    log := s.log ++ [.done sid] }

/-- `session_done`. -/
def sessionDone : Called :=
  if (s.sessions sid).completed then (s, true)
  else (s.cancelSelfdestruct sid).andThen fun s => (s.finish sid, false)

/-- The scheduler calls `session_done(True)`. -/
def selfdestruct : Server :=
  let s := { s with queue := s.queue.erase sid }
  if (s.sessions sid).completed then s else (s.note (.sent sid .timedOut)).finish sid

def cancelSession : Called :=
  if (s.sessions sid).state = .cancelled then (s, true)
  else ((s.note (.sent sid .sessionCancelled)).modify sid fun x => { x with state := .cancelled }).sessionDone sid

/-! ## Running the compiler -/

/-- `HeaderRepository.tempdir`. -/
def tempdir : Server :=
  if (s.tempdirs sid).isSome then s
  else { s with
    tempdirs := Function.update s.tempdirs sid (some s.nextDir)
    nextDir := s.nextDir + 1
    log := s.log ++ [.tempdir sid] }

/-- `temp_map[session_id]`, which makes an entry if there is none. -/
def tempMap : Server :=
  if sid ∈ s.tempMaps then s else { s with tempMaps := sid :: s.tempMaps, log := s.log ++ [.tempMap sid] }

/-- `prepare_dir`, run by a thread. -/
def prepareDir (ok : Bool) : Server :=
  ((s.tempdir sid).tempMap sid).modify sid fun x => { x with includeDirs := if ok then .ready else .failed }

/-- `__run_compiler`. The event loop stands still until `prepare_dir` has returned; should it fail, it may as well
have failed before. -/
def runCompiler : Called :=
  if (s.sessions sid).cancelPending then s.cancelSession sid
  else
    (s.cancelSelfdestruct sid).andThen fun s =>
      if (s.sessions sid).task.msvc = false then (s, true)
      else if (s.sessions sid).includeDirs = .failed then (s.tempdir sid, true)
      else
        let s := (s.prepareDir sid true)
        ({ s.modify sid fun x => { x with cwd := s.tempdirs sid } with execs := s.execs ++ [sid] }, false)

/-- `__check_compiler_files` with `when_compiler_is_ready`. -/
def checkCompilerFiles : Called :=
  let id := (s.sessions sid).task.compilerId
  if id ∈ s.compilers then s.runCompiler sid
  else if id ∈ s.partialCompilers then
    ({ s with compilerWaiters := Function.update s.compilerWaiters id (s.compilerWaiters id ++ [sid]) }, false)
  else (s, true)

/-- `when_pch_is_available`, with `__check_compiler_files`. -/
def whenPchIsAvailable : Called :=
  match (s.sessions sid).task.pchFile with
  | none => s.checkCompilerFiles sid
  | some pch =>
    if (s.files pch).isSome then s.checkCompilerFiles sid
    else ({ s with pchWaiters := Function.update s.pchWaiters pch (s.pchWaiters pch ++ [sid]) }, false)

def enterRunningCompiler : Server :=
  (s.note (.compiles sid)).modify sid fun x => { x with state := .runningCompiler }

/-- Without a PCH file there is nothing to wait for but the compiler. -/
def compile : Called := (s.enterRunningCompiler sid).whenPchIsAvailable sid

/-! ## The repositories -/

/-- Calls the handlers of the sessions one after the other, until one raises. -/
def invokeAll (handler : Server → SessionId → Called) : List SessionId → Server → Called
  | [], s => (s, false)
  | w :: ws, s => (handler (s.note (.invoked w)) w).andThen (invokeAll handler ws)

/-- `PCHRepository.file_completed`. -/
def fileCompleted (pch : PchFile) : Called :=
  match s.partialFiles pch with
  | none => (s, true)
  | some file =>
    (invokeAll checkCompilerFiles (s.pchWaiters pch)
      { s with files := Function.update s.files pch (some file)
               partialFiles := Function.update s.partialFiles pch none }).andThen fun s =>
      ({ s with pchWaiters := Function.update s.pchWaiters pch [] }, false)

/-- `CompilerRepository.set_compiler_ready`. -/
def setCompilerReady (id : CompilerId) : Called :=
  if id ∈ s.partialCompilers ∧ id ∉ s.compilers then
    (invokeAll runCompiler (s.compilerWaiters id)
      { s with partialCompilers := s.partialCompilers.filter (· ≠ id), compilers := id :: s.compilers }).andThen fun s =>
      ({ s with compilerWaiters := Function.update s.compilerWaiters id [] }, false)
  else (s, true)

/-- `CompilerRepository.compiler_required`. -/
def compilerRequired (id : CompilerId) : Bool × Server :=
  if id ∈ s.compilers then (false, s)
  else if id ∈ s.compilerDirs then (false, { s with compilers := id :: s.compilers })
  else if id ∈ s.partialCompilers then (false, s)
  else (true, { s with partialCompilers := id :: s.partialCompilers })

/-- `PCHRepository.register_file`. -/
def registerFile (names : Names) (pch : PchFile) : (LocalFile × Bool) × Server :=
  match s.files pch with
  | some file => ((file, false), s)
  | none =>
    match s.partialFiles pch with
    | some file => ((file, false), s)
    | none =>
      ((localFilename names pch, true),
        { s with partialFiles := Function.update s.partialFiles pch (some (localFilename names pch)) })

/-! ## Messages -/

end Server

/-- The messages to a session that exists. `ok` says that what was received can be unpacked. -/
inductive Msg where
  | cancelSession
  | taskFiles
  | chunk (data : Bytes) (last ok : Bool)
  | sendConfirmation (verdict : Bool)
  deriving DecidableEq, Repr

namespace Server
variable (s : Server) (sid : SessionId)

/-- `register_file`, if the task has a PCH file. -/
def registerPch (names : Names) : Option PchFile → (Option LocalFile × Bool) × Server
  | none => ((none, false), s)
  | some pch => ((some (s.registerFile names pch).1.1, (s.registerFile names pch).1.2), (s.registerFile names pch).2)

/-- `CompileSession.__init__` and `StateGetTask`. -/
def newSession (names : Names) (task : Task) : Server :=
  let sid := s.counter
  let compiler := Server.compilerRequired { s with counter := sid + 1, queue := sid :: s.queue } task.compilerId
  let pch := compiler.2.registerPch names task.pchFile
  (pch.2.modify sid fun x => { x with
    task
    selfdestruct := true
    state := .downloadMissingHeaders
    compilerRequired := compiler.1
    pchRequired := pch.1.2
    pchFile := pch.1.1 }).note (.sent sid (.missingFiles compiler.1 pch.1.2))

def noteDownloaded (downloaded : PchFile → Option Bytes) (data : Bytes) : Option PchFile → PchFile → Option Bytes
  | none => downloaded
  | some pch => Function.update downloaded pch (some data)

/-- What comes after the compiler. -/
def afterCompiler : Called :=
  if (s.sessions sid).pchRequired then
    (s.modify sid fun x => { x with state := .downloadingPCH, pchDesc := [], pchEnded := false }, false)
  else s.compile sid

/-- `process_msg` of the current state; the states that have none raise. Any message of two parts is a chunk to the
states that expect one. -/
def stateProcessMsg (msg : Msg) : Called :=
  let x := s.sessions sid
  match x.state, msg with
  | .downloadMissingHeaders, .taskFiles =>
    let s := s.modify sid fun x => { x with includeDirs := .pending }
    if x.compilerRequired then
      (s.modify sid fun x => { x with state := .downloadingCompiler, compilerData := true }, false)
    else s.afterCompiler sid
  | .downloadingCompiler, .chunk _ last ok =>
    if x.compilerData = false then (s, true)
    else if last = false then (s, false)
    else
      -- the directory is there before anything is unpacked into it
      let s := { s with compilerDirs := x.task.compilerId :: s.compilerDirs }
      if ok = false then (s, true)
      else
        ((s.modify sid fun x => { x with compilerData := false }).setCompilerReady x.task.compilerId).andThen
          (afterCompiler · sid)
  | .downloadingPCH, .chunk data last ok =>
    -- the buffer cannot grow while it is being written to the file
    if ok = false ∨ sid ∈ s.writes then (s, true)
    else
      -- what follows the end of the stream decompresses to nothing
      let received := x.pchDesc ++ if x.pchEnded then [] else data
      let s := s.modify sid fun x => { x with pchDesc := received, pchEnded := x.pchEnded || last }
      if last then
        ({ s with writes := sid :: s.writes
                  downloaded := noteDownloaded s.downloaded received x.task.pchFile }, false)
      else (s, false)
  | .waitForConfirmation, .sendConfirmation true =>
    ({ s.modify sid fun x => { x with state := .uploadingFile } with uploads := sid :: s.uploads }, false)
  | .waitForConfirmation, .sendConfirmation false => s.sessionDone sid
  | .cancelled, _ => (s, false)
  | _, _ => (s, true)

/-- `process_msg`. -/
def processMsg (msg : Msg) : Called :=
  (s.rescheduleSelfdestruct sid).andThen fun s =>
    let x := s.sessions sid
    if msg = .cancelSession then
      if x.state.canBeCancelled ∧ ¬ x.state.hasProcessMsg then s.cancelSession sid
      else (s.modify sid fun x => { x with cancelPending := true }, false)
    else if x.cancelPending ∧ x.state.canBeCancelled then s.cancelSession sid
    else s.stateProcessMsg sid msg

/-! ## Calls that come back -/

/-- The file that the session's PCH is stored in, as the file system finds it. -/
def pchPlace (names : Names) : Option LocalFile := (s.sessions sid).pchFile.map names.place

/-- `buffer_to_file` opens the file, which empties it. Another thread may have it open. -/
def pchOpened (names : Names) : Server :=
  match s.pchPlace sid names with
  | none => s
  | some place => { s with
      opened := sid :: s.opened
      disk := Function.update s.disk place
        (if ∃ w ∈ s.opened, s.pchPlace w names = some place then .unknown else .opened sid) }

/-- What the thread that had opened the file leaves on the disk. -/
def storePch (names : Names) (ok : Bool) : LocalFile → Contents :=
  match s.pchPlace sid names with
  | none => s.disk
  | some place => Function.update s.disk place
      (if ok ∧ s.disk place = .opened sid then .holds (s.sessions sid).pchDesc else .unknown)

/-- `buffer_to_file` has run, or has raised. The buffer can grow again. -/
def pchWritten (names : Names) (ok : Bool) : Server :=
  { s with
    writes := s.writes.erase sid
    opened := s.opened.erase sid
    completions := sid :: s.completions
    disk := if sid ∈ s.opened then s.storePch sid names ok else s.disk }

/-- `pch_completed`, which is called whether or not writing the file succeeded. The buffer is closed with its state,
and cannot be if it is being written once more. -/
def pchCompleted : Called :=
  match (s.sessions sid).task.pchFile with
  | none => (s, true)
  | some pch =>
    (({ s with completions := s.completions.erase sid }).fileCompleted pch).andThen fun s =>
      if sid ∈ s.writes then (s, true) else s.compile sid

/-- `__compile_completed`. -/
def compileCompleted (outcome : Outcome) : Called :=
  if (s.sessions sid).state = .runningCompiler then
    match outcome with
    | .raised traceback =>
      ((s.modify sid fun x => { x with state := .failed }).note (.sent sid (.serverFailed traceback))).sessionDone sid
    | .exited retcode stdout stderr =>
      if retcode = 0 then
        ((s.modify sid fun x => { x with state := .waitForConfirmation }).note
          (.sent sid (.serverDone retcode stdout stderr))).rescheduleSelfdestruct sid
      else (s.note (.sent sid (.serverDone retcode stdout stderr))).sessionDone sid
  else (s, (s.sessions sid).state ≠ .cancelled)

/-- `subprocess_exec` has a slot. A process can only be started in a directory that is still there. -/
def execStart (ok : Bool) (traceback : Bytes) : Called :=
  let s := { s with execs := s.execs.erase sid }
  if ok ∧ (s.sessions sid).cwd = s.tempdirs sid ∧ (s.tempdirs sid).isSome then
    ({ s with running := sid :: s.running, log := s.log ++ [.launched sid] }, false)
  else s.compileCompleted sid (.raised traceback)

/-- `send_compressed`, of a file in the given number of parts, unless `compress_result` has raised. -/
def sendCompressed : Option Nat → Called
  | none => ({ s with uploads := s.uploads.erase sid }, true)
  | some parts => ({ s with
      uploads := s.uploads.erase sid
      log := s.log ++ (List.replicate parts (Effect.sent sid (.chunk false)) ++ [Effect.sent sid (.chunk true)])
    }).sessionDone sid

end Server

/-! ## Runs -/

inductive Event where
  /-- `NEW_SESSION` with the `SERVER_TASK`. -/
  | newSession (task : Task)
  | message (sid : SessionId) (msg : Msg)
  | prepareDir (sid : SessionId) (ok : Bool)
  | pchOpened (sid : SessionId)
  | pchWritten (sid : SessionId) (ok : Bool)
  | pchCompleted (sid : SessionId)
  | selfdestruct (sid : SessionId)
  | execStart (sid : SessionId) (ok : Bool) (traceback : Bytes)
  | compileCompleted (sid : SessionId) (outcome : Outcome)
  | sendCompressed (sid : SessionId) (parts : Option Nat)

/-- One call from the event loop, or what a thread does: `prepare_dir`, or opening a PCH file or writing it. Exceptions
end there. `limit` is the number of compilers that may run at a time. -/
def step (names : Names) (limit : Nat) (s : Server) : Event → Option Server
  | .newSession task => some (s.newSession names task)
  | .message sid msg =>
    if sid < s.counter ∧ (s.sessions sid).completed = false then some (s.processMsg sid msg).1 else some s
  | .prepareDir sid ok => if (s.sessions sid).includeDirs = .pending then some (s.prepareDir sid ok) else none
  | .pchOpened sid => if sid ∈ s.writes ∧ sid ∉ s.opened then some (s.pchOpened sid names) else none
  | .pchWritten sid ok =>
    if sid ∈ s.writes ∧ (ok → sid ∈ s.opened) then some (s.pchWritten sid names ok) else none
  | .pchCompleted sid => if sid ∈ s.completions then some (s.pchCompleted sid).1 else none
  | .selfdestruct sid => if sid ∈ s.queue then some (s.selfdestruct sid) else none
  | .execStart sid ok traceback =>
    if sid ∈ s.execs ∧ s.running.length < limit then some (s.execStart sid ok traceback).1 else none
  | .compileCompleted sid outcome =>
    if sid ∈ s.running then some (({ s with running := s.running.erase sid }).compileCompleted sid outcome).1 else none
  | .sendCompressed sid parts => if sid ∈ s.uploads then some (s.sendCompressed sid parts).1 else none

/-- When a call is possible, and what it does. -/
def Steps (names : Names) (s s' : Server) : Event → Prop
  | .newSession task => s' = s.newSession names task
  | .message sid msg =>
    sid < s.counter ∧ (s.sessions sid).completed = false ∧ s' = (s.processMsg sid msg).1 ∨ s' = s
  | .prepareDir sid ok => (s.sessions sid).includeDirs = .pending ∧ s' = s.prepareDir sid ok
  | .pchOpened sid => sid ∈ s.writes ∧ sid ∉ s.opened ∧ s' = s.pchOpened sid names
  | .pchWritten sid ok => sid ∈ s.writes ∧ (ok → sid ∈ s.opened) ∧ s' = s.pchWritten sid names ok
  | .pchCompleted sid => sid ∈ s.completions ∧ s' = (s.pchCompleted sid).1
  | .selfdestruct sid => sid ∈ s.queue ∧ s' = s.selfdestruct sid
  | .execStart sid ok traceback => sid ∈ s.execs ∧ s' = (s.execStart sid ok traceback).1
  | .compileCompleted sid outcome =>
    sid ∈ s.running ∧ s' = (({ s with running := s.running.erase sid }).compileCompleted sid outcome).1
  | .sendCompressed sid parts => sid ∈ s.uploads ∧ s' = (s.sendCompressed sid parts).1

theorem steps_of_step {names : Names} {limit : Nat} {s s' : Server} {e : Event}
    (h : step names limit s e = some s') : Steps names s s' e := by
  cases e with
  | newSession task => exact (Option.some.inj h).symm
  | message sid msg =>
    simp only [step] at h
    split at h
    · next hsid => exact .inl ⟨hsid.1, hsid.2, (Option.some.inj h).symm⟩
    · exact .inr (Option.some.inj h).symm
  | prepareDir sid ok =>
    obtain ⟨hpending, heq⟩ := Option.ite_none_right_eq_some.1 h
    exact ⟨hpending, (Option.some.inj heq).symm⟩
  | pchOpened sid =>
    obtain ⟨hw, heq⟩ := Option.ite_none_right_eq_some.1 h
    exact ⟨hw.1, hw.2, (Option.some.inj heq).symm⟩
  | pchWritten sid ok =>
    obtain ⟨hw, heq⟩ := Option.ite_none_right_eq_some.1 h
    exact ⟨hw.1, hw.2, (Option.some.inj heq).symm⟩
  | pchCompleted sid =>
    obtain ⟨hc, heq⟩ := Option.ite_none_right_eq_some.1 h
    exact ⟨hc, (Option.some.inj heq).symm⟩
  | selfdestruct sid =>
    obtain ⟨hq, heq⟩ := Option.ite_none_right_eq_some.1 h
    exact ⟨hq, (Option.some.inj heq).symm⟩
  | execStart sid ok traceback =>
    obtain ⟨hx, heq⟩ := Option.ite_none_right_eq_some.1 h
    exact ⟨hx.1, (Option.some.inj heq).symm⟩
  | compileCompleted sid outcome =>
    obtain ⟨hr, heq⟩ := Option.ite_none_right_eq_some.1 h
    exact ⟨hr, (Option.some.inj heq).symm⟩
  | sendCompressed sid parts =>
    obtain ⟨hu, heq⟩ := Option.ite_none_right_eq_some.1 h
    exact ⟨hu, (Option.some.inj heq).symm⟩

end BuildPal.Runner
