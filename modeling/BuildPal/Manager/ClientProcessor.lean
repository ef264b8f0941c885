import BuildPal.Lib.Runs
import BuildPal.Manager.CommandProcessor
import BuildPal.Manager.CompileOptions
/-!
# The conversation with a client

`ClientProcessor` of `runner.py`, with the parts of `command_processor.py` that
speak to the client. The client sends its command, and after that it only
answers what it is asked; it waits until the manager asks, or sends what it is
to do at last. A call that raises leaves behind what it has done so far, and the
connection stays open.
-/
open BuildPal.Message
open BuildPal.Scheduler (CommandId TaskId TaskResult Command DictOrder)

namespace BuildPal.Conversation

/-! ## Messages -/

inductive ClientMessage where
  | exit (retcode : Int) (stdout stderr : Bytes)
  | runLocally
  | executeAndExit (cmd : List (List String))
  | locateFiles (files : List Bytes)
  | executeGetOutput (cmd : List String)
  deriving DecidableEq, Repr

/-- After these the connection is closed. -/
def ClientMessage.isFinal : ClientMessage → Bool
  | .exit .. | .runLocally | .executeAndExit _ => true
  | .locateFiles _ | .executeGetOutput _ => false

/-- `bytes.decode`. -/
def decode (part : Bytes) : Option String := String.fromUTF8? ⟨part.toArray⟩

def decodePart (msg : List Bytes) (i : Nat) : Except Raised String :=
  match msg[i]? with
  | none => .error .indexError
  | some part =>
    match decode part with
    | none => .error .unicodeDecodeError
    | some text => .ok text

def decodeAll : List Bytes → Except Raised (List String)
  | [] => .ok []
  | part :: parts =>
    match decode part with
    | none => .error .unicodeDecodeError
    | some text =>
      match decodeAll parts with
      | .error e => .error e
      | .ok texts => .ok (text :: texts)

def isSpace (b : UInt8) : Bool := b = 32 ∨ 9 ≤ b ∧ b ≤ 13

def digits (text : Bytes) : Option Int :=
  if text ≠ [] ∧ text.all (fun b => 48 ≤ b ∧ b ≤ 57) then
    some (text.foldl (fun n b => 10 * n + (b.toNat - 48 : Nat)) 0)
  else none

/-- `int`, of bytes. -/
def toInt (text : Bytes) : Option Int :=
  match ((text.dropWhile isSpace).reverse.dropWhile isSpace).reverse with
  | 43 :: rest => digits rest
  | 45 :: rest => (digits rest).map (- ·)
  | rest => digits rest

/-- The return code and the output of what the client was to run. -/
def parseOutput (msg : List Bytes) : Except Raised (Int × Bytes × Bytes) :=
  match msg with
  | [] => .error .indexError
  | retcode :: rest =>
    match toInt retcode with
    | none => .error .valueError
    | some retcode =>
      match rest with
      | stdout :: stderr :: _ => .ok (retcode, stdout, stderr)
      | _ => .error .indexError

/-! ## States -/

structure CompilerInfo where
  executable : String
  compilerId : List Bytes
  macros : List String
  files : List (Bytes × Bytes) := []
  deriving DecidableEq, Repr

structure TestSource where
  cppFilename : String
  objFilename : String
  deriving DecidableEq, Repr

def TestSource.command (source : TestSource) : List String :=
  ["/Fo" ++ source.objFilename, "-c", source.cppFilename]

inductive Phase where
  | waitForCompilerInfoOutput
  | waitForCompilerFileList
  | ready
  deriving DecidableEq, Repr

/-- Nothing is ever put into `tasks_waiting`: `append_task` raises before. -/
structure ClientTaskCompiler where
  clientReady : Bool := false
  currentTask : Option TaskId := none

/-- An attribute that was not assigned yet, or was deleted, is `none`; `command` has what `create_tasks` assigns. -/
structure CommandProcessor where
  executable : String
  cwd : String
  options : CompileOptions
  state : Option Phase := none
  testSource : Option TestSource := none
  compilerInfo : Option CompilerInfo := none
  tmpCompilerFiles : List Bytes := []
  clientTaskCompiler : ClientTaskCompiler := {}
  command : Option Command := none

/-- `compilerInfoCache` is shared with the other clients. `queued` has what was passed to `task_created_func`, and
`requests` counts the requests that the client has not answered. -/
structure ClientProcessor where
  id : CommandId := 0
  compilerInfoCache : String → Option CompilerInfo := fun _ => none
  commandProcessor : Option CommandProcessor := none
  sent : List ClientMessage := []
  queued : List Task := []
  requests : Nat := 0

/-- What the calls find outside while one message is processed. -/
structure Env where
  parseArgs : List String → Option (List Arg)
  disk : Disk
  prepareTestSource : Option TestSource
  destroy : TestSource → Bool
  getCompilerInfo : String → Bytes → Bytes → Option (CompilerInfo × List Bytes)
  /-- The order of the dictionary `completed_tasks`, if one is made. -/
  completedOrder : DictOrder := .entered

/-! ## `CommandProcessor` -/

namespace CommandProcessor
variable (cp : CommandProcessor)

def setCompilerInfo (info : CompilerInfo) : CommandProcessor :=
  { cp with
    compilerInfo := some info
    state := some .ready
    clientTaskCompiler := { cp.clientTaskCompiler with clientReady := true } }

/-- `client_ready`, with no tasks waiting. -/
def clientIsReady : CommandProcessor :=
  { cp with clientTaskCompiler := { cp.clientTaskCompiler with clientReady := true } }

/-- `task_completed`, unless one of its assertions fails. -/
def taskCompleted (task : TaskId) (result : TaskResult) : Option CommandProcessor :=
  cp.command.bind fun command =>
    if task ∈ command.tasks ∧ task ∉ command.completed then
      some { cp with command := some (command.addResult task result).postprocessIfDone }
    else none

/-- `compile_on_client` raises, as the options of the compiler are not called as they have to be. -/
def compileOnClient (task : TaskId) : CommandProcessor :=
  if cp.clientTaskCompiler.clientReady then { cp with clientTaskCompiler := ⟨false, some task⟩ } else cp

/-- `ClientTaskCompiler.task_done`. The return code is sent on without what exceeds 32 bits. -/
def taskDone (msg : List Bytes) : CommandProcessor × Option Raised :=
  match cp.clientTaskCompiler.currentTask with
  | none => (cp, some .assertionError)
  | some task =>
    match parseOutput msg with
    | .error e => (cp, some e)
    | .ok (retcode, stdout, stderr) =>
      match cp.taskCompleted task ⟨UInt32.ofInt retcode, stdout, stderr⟩ with
      | none => (cp, some .assertionError)
      | some cp => (cp.clientIsReady, none)

end CommandProcessor

/-- `CommandProcessor.__init__`, with what is read before. -/
def newCommandProcessor (env : Env) (msg : List Bytes) : Except Raised CommandProcessor := do
  let compilerName ← decodePart msg 0
  if compilerName ≠ "msvc" then throw .assertionError
  let executable ← decodePart msg 1
  let _sysincludeDirs ← decodePart msg 2
  let cwd ← decodePart msg 3
  let command ← decodeAll (msg.drop 4)
  match env.parseArgs command with
  | none => throw .optionError
  | some args => return { executable, cwd, options := ⟨args⟩ }

/-! ## `ClientProcessor` -/

namespace ClientProcessor
variable (s : ClientProcessor)

def sendMsg (m : ClientMessage) : ClientProcessor :=
  { s with sent := s.sent ++ [m], requests := if m.isFinal then s.requests else s.requests + 1 }

def setCommand (cp : CommandProcessor) : ClientProcessor := { s with commandProcessor := some cp }

/-- `__create_tasks`, and `create_tasks`, which it calls. -/
def createTasks (env : Env) (cp : CommandProcessor) (info : CompilerInfo) : ClientProcessor × Option Raised :=
  let s := { s with
    compilerInfoCache := fun executable =>
      if executable = cp.executable ∧ s.compilerInfoCache executable = none then some info
      else s.compilerInfoCache executable }
  match cp.options.createTasks env.disk cp.cwd with
  | .error e => (s, some e)
  | .ok tasks =>
    if tasks = [] then ((s.setCommand { cp with command := some {} }).sendMsg .runLocally, none)
    else
      let command : Command :=
        { tasks := (List.range tasks.length).map fun source => ⟨s.id, source⟩
          shouldInvokeLinker := cp.options.shouldInvokeLinker
          order := env.completedOrder }
      ({ s.setCommand { cp with command := some command } with queued := s.queued ++ tasks }, none)

def requestCompilerInfo (env : Env) (cp : CommandProcessor) : ClientProcessor × Option Raised :=
  match env.prepareTestSource with
  | none => (s, some .osError)
  | some source =>
    ((s.setCommand { cp with testSource := some source, state := some .waitForCompilerInfoOutput }).sendMsg
      (.executeGetOutput source.command), none)

def handleNewClient (env : Env) (msg : List Bytes) : ClientProcessor × Option Raised :=
  match newCommandProcessor env msg with
  | .error e => (s, some e)
  | .ok cp =>
    let s := s.setCommand cp
    if cp.options.shouldBuildLocally then (s.sendMsg .runLocally, none)
    else
      match cp.options.createPchCmd with
      | some cmd => (s.sendMsg (.executeAndExit cmd), none)
      | none =>
        match s.compilerInfoCache cp.executable with
        | some info => (s.setCommand (cp.setCompilerInfo info)).createTasks env (cp.setCompilerInfo info) info
        | none => s.requestCompilerInfo env cp

/-- `got_data_from_client` while the client runs the test source. -/
def gotCompilerOutput (env : Env) (cp : CommandProcessor) (msg : List Bytes) : ClientProcessor × Option Raised :=
  match cp.testSource with
  | none => (s, some .attributeError)
  | some source =>
    if !env.destroy source then (s, some .osError)
    else
      let cp := { cp with testSource := none }
      let s := s.setCommand cp
      match parseOutput msg with
      | .error e => (s, some e)
      | .ok (retcode, stdout, stderr) =>
        if retcode ≠ 0 then
          (s.sendMsg (.exit retcode ("BuildPal - failed to run test compile.\r\n".toUTF8.toList ++ stdout) stderr), none)
        else
          match env.getCompilerInfo cp.executable stdout stderr with
          | none => (s.sendMsg .runLocally, none)
          | some (info, files) =>
            ((s.setCommand { cp with
                compilerInfo := some info
                tmpCompilerFiles := files
                state := some .waitForCompilerFileList }).sendMsg (.locateFiles files), none)

/-- `got_data_from_client` while the client looks for the compiler's files. -/
def gotFileList (env : Env) (cp : CommandProcessor) (msg : List Bytes) : ClientProcessor × Option Raised :=
  if msg.length ≠ cp.tmpCompilerFiles.length then (s, some .assertionError)
  else
    match cp.compilerInfo with
    | none => (s, some .attributeError)
    | some info =>
      let info := { info with files := msg.zip cp.tmpCompilerFiles }
      let cp := { cp with compilerInfo := some info, state := some .ready }
      match (s.setCommand cp).createTasks env cp info with
      | (s, some e) => (s, some e)
      | (s, none) => ({ s with commandProcessor := s.commandProcessor.map (·.clientIsReady) }, none)

def gotDataFromClient (env : Env) (cp : CommandProcessor) (msg : List Bytes) : ClientProcessor × Option Raised :=
  match cp.state with
  | none => (s, some .attributeError)
  | some .waitForCompilerInfoOutput => s.gotCompilerOutput env cp msg
  | some .waitForCompilerFileList => s.gotFileList env cp msg
  | some .ready => let r := cp.taskDone msg; (s.setCommand r.1, r.2)

/-- A message is the answer to a request, if there is one. -/
def replied : ClientProcessor := { s with requests := s.requests - 1 }

def processMsg (env : Env) (msg : List Bytes) : ClientProcessor × Option Raised :=
  match s.commandProcessor with
  | none => s.replied.handleNewClient env msg
  | some cp => s.replied.gotDataFromClient env cp msg

/-! ## Runs -/

inductive Event where
  | message (env : Env) (msg : List Bytes)
  /-- A session has the result of a task. -/
  | taskCompleted (task : TaskId) (result : TaskResult)
  /-- A task is to be compiled by the client. -/
  | cannotDistribute (task : TaskId)
  /-- Another client's compiler was identified. -/
  | cached (executable : String) (info : CompilerInfo)

def handle : Event → ClientProcessor
  | .message env msg => (s.processMsg env msg).1
  | .taskCompleted task result =>
    { s with commandProcessor := s.commandProcessor.map fun cp => (cp.taskCompleted task result).getD cp }
  | .cannotDistribute task => { s with commandProcessor := s.commandProcessor.map (·.compileOnClient task) }
  | .cached executable info =>
    { s with compilerInfoCache := fun e => if e = executable then some info else s.compilerInfoCache e }

/-- Whatever happens, the process goes on. -/
def step (s : ClientProcessor) (e : Event) : Option ClientProcessor := some (s.handle e)

/-! ## What the client waits for -/

def command : Option Command := s.commandProcessor.bind (·.command)

/-- The client was told what to do at last. -/
def Answered : Prop := (∃ m ∈ s.sent, m.isFinal) ∨ ∃ command, s.command = some command ∧ command.replies ≠ []

/-- The result of a task is still to come. -/
def Working : Prop := ∃ command, s.command = some command ∧ ∃ t ∈ command.tasks, t ∉ command.completed

/-- The client was answered, is asked, or has a task in progress. -/
def Obliged : Prop := s.Answered ∨ 0 < s.requests ∨ s.Working

/-- The parts of the first message: the compiler's kind, the compiler, its include directories, the client's
directory and the options. -/
def Reads (env : Env) (msg : List Bytes) (executable cwd : String) (args : List Arg) : Prop :=
  ∃ sysincludeDirs command, msg.map decode = ("msvc" :: executable :: sysincludeDirs :: cwd :: command).map some ∧
    env.parseArgs command = some args

/-- A command that is not built locally can be taken apart into tasks, or a test source can be made to find out about
the compiler. -/
def Accepts (env : Env) (msg : List Bytes) : Prop :=
  ∃ executable cwd args, Reads env msg executable cwd args ∧
    ((⟨args⟩ : CompileOptions).shouldBuildLocally ∨ (⟨args⟩ : CompileOptions).createPchCmd ≠ none ∨
      if s.compilerInfoCache executable = none then env.prepareTestSource ≠ none
      else (⟨args⟩ : CompileOptions).Creatable env.disk cwd)

/-- Nothing raises before the client is told or asked anything, if it has to be. -/
def GoesThrough (env : Env) (msg : List Bytes) : Prop :=
  match s.commandProcessor with
  | none => s.Accepts env msg
  | some cp =>
    match cp.state with
    | some .waitForCompilerInfoOutput =>
      s.Answered ∨ (∃ source, cp.testSource = some source ∧ env.destroy source) ∧
        ∃ retcode stdout stderr rest, msg = retcode :: stdout :: stderr :: rest ∧ toInt retcode ≠ none
    | some .waitForCompilerFileList =>
      s.Answered ∨ msg.length = cp.tmpCompilerFiles.length ∧ cp.options.Creatable env.disk cp.cwd
    | some .ready | none => True

theorem goesThrough_of_compilerOutput {s : ClientProcessor} {env : Env} {msg : List Bytes} {cp : CommandProcessor}
    (hcp : s.commandProcessor = some cp) (hstate : cp.state = some .waitForCompilerInfoOutput) :
    s.GoesThrough env msg ↔ s.Answered ∨ (∃ source, cp.testSource = some source ∧ env.destroy source) ∧
      ∃ retcode stdout stderr rest, msg = retcode :: stdout :: stderr :: rest ∧ toInt retcode ≠ none := by
  simp only [GoesThrough, hcp, hstate]

end ClientProcessor

/-! ## Reading messages -/

theorem decodePart_ok {msg : List Bytes} {i : Nat} {text : String} :
    decodePart msg i = .ok text ↔ (msg.map decode)[i]? = some (some text) := by
  rw [decodePart, List.getElem?_map]
  cases msg[i]? with
  | none => simp
  | some part => cases h : decode part <;> simp [h]

theorem decodeAll_ok {parts : List Bytes} {texts : List String} :
    decodeAll parts = .ok texts ↔ parts.map decode = texts.map some := by
  induction parts generalizing texts with
  | nil =>
    rw [decodeAll, List.map_nil, Except.ok.injEq]
    cases texts <;> simp
  | cons part parts ih =>
    rw [decodeAll, List.map_cons]
    cases hpart : decode part with
    | none =>
      cases texts <;> simp
    | some text =>
      cases hparts : decodeAll parts with
      | error e =>
        have hno : ∀ texts : List String, parts.map decode ≠ texts.map some := by
          intro texts h
          rw [← ih, hparts] at h
          cases h
        cases texts with
        | nil => simp
        | cons t texts => simpa using fun _ => hno texts
      | ok rest =>
        rw [ih.1 hparts]
        cases texts with
        | nil => simp
        | cons t texts =>
          simp only [Except.ok.injEq, List.cons.injEq, List.map_cons, Option.some.injEq]
          rw [(List.map_injective_iff.2 (Option.some_injective String)).eq_iff]

theorem parseOutput_ok {msg : List Bytes} : (∃ r, parseOutput msg = .ok r) ↔
    ∃ retcode stdout stderr rest, msg = retcode :: stdout :: stderr :: rest ∧ toInt retcode ≠ none := by
  match msg with
  | [] => simp [parseOutput]
  | [retcode] => cases h : toInt retcode <;> simp [parseOutput, h]
  | [retcode, stdout] => cases h : toInt retcode <;> simp [parseOutput, h]
  | retcode :: stdout :: stderr :: rest => cases h : toInt retcode <;> simp [parseOutput, h]

theorem newCommandProcessor_ok {env : Env} {msg : List Bytes} {cp : CommandProcessor} :
    newCommandProcessor env msg = .ok cp ↔
      ∃ executable cwd args, ClientProcessor.Reads env msg executable cwd args ∧
        cp = { executable, cwd, options := ⟨args⟩ } := by
  constructor
  · intro h
    simp only [newCommandProcessor, bind, Except.bind, throw, throwThe, MonadExceptOf.throw, pure, Except.pure] at h
    cases h0 : decodePart msg 0 with
    | error e => simp [h0] at h
    | ok name =>
    by_cases hname : name ≠ "msvc"
    · simp [h0, hname] at h
    cases h1 : decodePart msg 1 with
    | error e => simp [h0, h1, hname] at h
    | ok executable =>
    cases h2 : decodePart msg 2 with
    | error e => simp [h0, h1, h2, hname] at h
    | ok sysincludeDirs =>
    cases h3 : decodePart msg 3 with
    | error e => simp [h0, h1, h2, h3, hname] at h
    | ok cwd =>
    cases h4 : decodeAll (msg.drop 4) with
    | error e => simp [h0, h1, h2, h3, h4, hname] at h
    | ok command =>
    cases h5 : env.parseArgs command with
    | none => simp [h0, h1, h2, h3, h4, h5, hname] at h
    | some args =>
    simp only [h0, h1, h2, h3, h4, h5, hname, if_false, Except.ok.injEq] at h
    refine ⟨executable, cwd, args, ⟨sysincludeDirs, command, ?_, h5⟩, h.symm⟩
    rw [decodePart_ok] at h0 h1 h2 h3
    rw [decodeAll_ok, List.map_drop] at h4
    have hname := Classical.not_not.1 hname
    subst hname
    generalize msg.map decode = parts at h0 h1 h2 h3 h4
    match parts with
    | p0 :: p1 :: p2 :: p3 :: rest => simp_all
    | [] | [_] | [_, _] | [_, _, _] => simp at h0 h1 h2 h3
  · rintro ⟨executable, cwd, args, ⟨sysincludeDirs, command, hmsg, hargs⟩, rfl⟩
    have h0 : decodePart msg 0 = .ok "msvc" := by rw [decodePart_ok, hmsg]; rfl
    have h1 : decodePart msg 1 = .ok executable := by rw [decodePart_ok, hmsg]; rfl
    have h2 : decodePart msg 2 = .ok sysincludeDirs := by rw [decodePart_ok, hmsg]; rfl
    have h3 : decodePart msg 3 = .ok cwd := by rw [decodePart_ok, hmsg]; rfl
    have h4 : decodeAll (msg.drop 4) = .ok command := by rw [decodeAll_ok, List.map_drop, hmsg]; rfl
    simp [newCommandProcessor, bind, Except.bind, pure, Except.pure, h0, h1, h2, h3, h4, hargs]

namespace ClientProcessor

/-! ## What calls leave -/

section Frame
variable (s : ClientProcessor) (m : ClientMessage) (cp : CommandProcessor)

@[simp] theorem sendMsg_commandProcessor : (s.sendMsg m).commandProcessor = s.commandProcessor := rfl
@[simp] theorem sendMsg_command : (s.sendMsg m).command = s.command := rfl
@[simp] theorem sendMsg_requests :
    (s.sendMsg m).requests = if m.isFinal then s.requests else s.requests + 1 := rfl
@[simp] theorem sendMsg_sent : (s.sendMsg m).sent = s.sent ++ [m] := rfl
@[simp] theorem setCommand_commandProcessor : (s.setCommand cp).commandProcessor = some cp := rfl
@[simp] theorem setCommand_command : (s.setCommand cp).command = cp.command := rfl
@[simp] theorem setCommand_sent : (s.setCommand cp).sent = s.sent := rfl
@[simp] theorem setCommand_requests : (s.setCommand cp).requests = s.requests := rfl
@[simp] theorem setCommand_cache : (s.setCommand cp).compilerInfoCache = s.compilerInfoCache := rfl

theorem answered_sendMsg (h : m.isFinal) : (s.sendMsg m).Answered :=
  .inl ⟨m, by simp, h⟩

end Frame

/-- What `createTasks` leaves: if it does not raise, the client was told to build locally or there are tasks. -/
theorem createTasks_cases (s : ClientProcessor) (env : Env) (cp : CommandProcessor) (info : CompilerInfo) :
    (cp.options.Creatable env.disk cp.cwd ∧ (s.createTasks env cp info).2 = none ∧
      (∃ c, (s.createTasks env cp info).1.commandProcessor = some { cp with command := some c } ∧ c.completed = []) ∧
      ((s.createTasks env cp info).1.Answered ∨ (s.createTasks env cp info).1.Working) ∧
      (s.createTasks env cp info).1.requests = s.requests ∧ s.sent ⊆ (s.createTasks env cp info).1.sent) ∨
    (¬ cp.options.Creatable env.disk cp.cwd ∧ (s.createTasks env cp info).2 ≠ none ∧
      (s.createTasks env cp info).1.commandProcessor = s.commandProcessor ∧
      (s.createTasks env cp info).1.requests = s.requests ∧ (s.createTasks env cp info).1.sent = s.sent) := by
  rw [← cp.options.createTasks_ok]
  cases htasks : cp.options.createTasks env.disk cp.cwd with
  | error e =>
    refine .inr ⟨by simp, ?_⟩
    simp [createTasks, htasks]
  | ok tasks =>
    refine .inl ⟨⟨tasks, rfl⟩, ?_⟩
    simp only [createTasks, htasks]
    by_cases hnil : tasks = []
    · rw [if_pos hnil]
      exact ⟨rfl, ⟨_, rfl, rfl⟩, .inl (answered_sendMsg _ _ rfl), rfl, by simp⟩
    · rw [if_neg hnil]
      refine ⟨rfl, ⟨_, rfl, rfl⟩, .inr ⟨_, rfl, ⟨s.id, 0⟩, ?_, List.not_mem_nil⟩, rfl, List.Subset.refl _⟩
      simp [List.length_pos_iff.2 hnil]

/-! ## The invariant -/

/-- A request is open while the compiler is looked at, and only then; tasks are there after that. -/
structure Inv (s : ClientProcessor) : Prop where
  idle : s.commandProcessor = none → s.requests = 0 ∧ s.sent = []
  asked : 0 < s.requests → s.requests = 1 ∧ ∃ cp, s.commandProcessor = some cp ∧
    (cp.state = some .waitForCompilerInfoOutput ∨ cp.state = some .waitForCompilerFileList)
  ready : ∀ cp, s.commandProcessor = some cp → cp.command ≠ none → cp.state = some .ready
  files : ∀ cp, s.commandProcessor = some cp → cp.state = some .waitForCompilerFileList → cp.compilerInfo ≠ none
  completed : ∀ c, s.command = some c → c.completed ⊆ c.tasks

section
variable {s : ClientProcessor} {env : Env} {msg : List Bytes} {cp : CommandProcessor}

theorem Inv.requests_le (hi : s.Inv) : s.requests ≤ 1 := by
  by_cases h : 0 < s.requests
  · exact Nat.le_of_eq (hi.asked h).1
  · omega

/-- While there are no tasks and the client is not asked, it has to be told what to do. -/
theorem obliged_iff_sent (hcommand : s.command = none) (hrequests : s.requests = 0) :
    s.Obliged ↔ ∃ m ∈ s.sent, m.isFinal := by
  simp [Obliged, Answered, Working, hcommand, hrequests]

theorem answered_iff_sent (hcommand : s.command = none) : s.Answered ↔ ∃ m ∈ s.sent, m.isFinal := by
  simp [Answered, hcommand]

theorem command_eq (h : s.commandProcessor = some cp) : s.command = cp.command := by
  simp [command, h]

/-- A command processor without tasks, and no request open. -/
theorem Inv.of_no_command (h : s.commandProcessor = some cp) (hcommand : cp.command = none) (hrequests : s.requests = 0)
    (hfiles : cp.state = some .waitForCompilerFileList → cp.compilerInfo ≠ none) : s.Inv where
  idle h' := by
    rw [h] at h'
    cases h'
  asked h' := by omega
  ready cp' h' hne := by
    rw [h] at h'
    cases h'
    exact absurd hcommand hne
  files cp' h' := by
    rw [h] at h'
    cases h'
    exact hfiles
  completed c hc := by
    rw [command_eq h, hcommand] at hc
    cases hc

theorem Inv.of_request (h : s.commandProcessor = some cp) (hcommand : cp.command = none) (hrequests : s.requests = 1)
    (hstate : cp.state = some .waitForCompilerInfoOutput ∨
      cp.state = some .waitForCompilerFileList ∧ cp.compilerInfo ≠ none) : s.Inv where
  idle h' := by
    rw [h] at h'
    cases h'
  asked _ := ⟨hrequests, cp, h, hstate.imp_right And.left⟩
  ready cp' h' hne := by
    rw [h] at h'
    cases h'
    exact absurd hcommand hne
  files cp' h' hf := by
    rw [h] at h'
    cases h'
    rcases hstate with hs | hs
    · rw [hs] at hf
      cases hf
    · exact hs.2
  completed c hc := by
    rw [command_eq h, hcommand] at hc
    cases hc

theorem Inv.of_ready {c : Command} (h : s.commandProcessor = some cp) (hstate : cp.state = some .ready)
    (hcommand : cp.command = some c) (hrequests : s.requests = 0) (hcompleted : c.completed ⊆ c.tasks) : s.Inv where
  idle h' := by
    rw [h] at h'
    cases h'
  asked h' := by omega
  ready cp' h' _ := by
    rw [h] at h'
    cases h'
    exact hstate
  files cp' h' hf := by
    rw [h] at h'
    cases h'
    rw [hstate] at hf
    cases hf
  completed c' hc := by
    rw [command_eq h, hcommand] at hc
    cases hc
    exact hcompleted

/-- What neither the phase nor the tasks depend on. -/
theorem command_map {f : CommandProcessor → CommandProcessor} (hf : ∀ cp, (f cp).command = cp.command) :
    ({ s with commandProcessor := s.commandProcessor.map f } : ClientProcessor).command = s.command := by
  simp only [command]
  cases s.commandProcessor <;> simp [hf]

theorem Inv.map {f : CommandProcessor → CommandProcessor} (hi : s.Inv) (hstate : ∀ cp, (f cp).state = cp.state)
    (hinfo : ∀ cp, (f cp).compilerInfo = cp.compilerInfo) (hcommand : ∀ cp, (f cp).command = cp.command) :
    ({ s with commandProcessor := s.commandProcessor.map f } : ClientProcessor).Inv where
  idle h := hi.idle (by simpa using h)
  asked h := by
    obtain ⟨hone, cp, hcp, h⟩ := hi.asked h
    exact ⟨hone, f cp, by simp [hcp], by rwa [hstate]⟩
  ready cp h := by
    obtain ⟨cp, hcp, rfl⟩ := Option.map_eq_some_iff.1 h
    rw [hcommand, hstate]
    exact hi.ready cp hcp
  files cp h := by
    obtain ⟨cp, hcp, rfl⟩ := Option.map_eq_some_iff.1 h
    rw [hinfo, hstate]
    exact hi.files cp hcp
  completed c hc := hi.completed c (by rwa [command_map hcommand] at hc)

/-! ### Tasks -/

/-- A result leaves other tasks to wait for, or is the last one. -/
theorem replies_or_task {c : Command} {task : TaskId} (result : TaskResult) (htask : task ∈ c.tasks)
    (hcompleted : c.completed ⊆ c.tasks) :
    let c' := (c.addResult task result).postprocessIfDone
    c'.completed ⊆ c'.tasks ∧ (c'.replies ≠ [] ∨ ∃ t ∈ c'.tasks, t ∉ c'.completed) := by
  have hsub : (c.addResult task result).completed ⊆ c.tasks := by
    intro t ht
    rw [Command.completed, Command.addResult, List.map_append] at ht
    rcases List.mem_append.1 ht with ht | ht
    · exact hcompleted ht
    · rw [List.map_singleton, List.mem_singleton] at ht
      exact ht ▸ htask
  simp only [Command.postprocessIfDone]
  split
  · exact ⟨hsub, .inl (by simp [Command.postprocess])⟩
  · next hsame =>
    refine ⟨hsub, .inr ?_⟩
    simp only [Command.sameElements, Bool.and_eq_true, List.all_eq_true, decide_eq_true_eq, not_and] at hsame
    by_contra hall
    push Not at hall
    exact hsame hall fun t ht => hsub ht

theorem taskCompleted_cases {task : TaskId} {result : TaskResult} {cp' : CommandProcessor}
    (h : cp.taskCompleted task result = some cp') : ∃ c, cp.command = some c ∧ task ∈ c.tasks ∧
      cp' = { cp with command := some (c.addResult task result).postprocessIfDone } := by
  obtain ⟨c, hc, h⟩ := Option.bind_eq_some_iff.1 h
  split at h
  · next htask =>
    cases h
    exact ⟨c, hc, htask.1, rfl⟩
  · cases h

theorem obliged_congr {s' : ClientProcessor} (hsent : s'.sent = s.sent) (hrequests : s'.requests = s.requests)
    (hcommand : s'.command = s.command) : s'.Obliged ↔ s.Obliged := by
  rw [Obliged, Answered, Working, hsent, hrequests, hcommand, Obliged, Answered, Working]

/-! ### Messages -/

/-- After `createTasks` the client was told to build locally or there are tasks, unless it has raised. -/
theorem createTasks_obliged (hcp : s.commandProcessor = some cp) (hcommand : cp.command = none)
    (hstate : cp.state = some .ready) (hrequests : s.requests = 0) (info : CompilerInfo) :
    (s.createTasks env cp info).1.Inv ∧ ((s.createTasks env cp info).1.Obliged ↔
      (∃ m ∈ s.sent, m.isFinal) ∨ cp.options.Creatable env.disk cp.cwd) := by
  rcases s.createTasks_cases env cp info with
    ⟨hcreatable, -, ⟨c, hc, hcompleted⟩, hobliged, hr, -⟩ | ⟨hnot, -, hc, hr, hsent⟩
  · refine ⟨Inv.of_ready hc hstate rfl (hr.trans hrequests) (by simp [hcompleted]), ?_⟩
    exact iff_of_true (hobliged.imp_right .inr) (.inr hcreatable)
  · rw [hcp] at hc
    refine ⟨Inv.of_no_command hc hcommand (hr.trans hrequests) (by simp [hstate]), ?_⟩
    rw [obliged_iff_sent ((command_eq hc).trans hcommand) (hr.trans hrequests), hsent]
    simp [hnot]

theorem accepts_iff : s.Accepts env msg ↔ ∃ cp, newCommandProcessor env msg = .ok cp ∧
    (cp.options.shouldBuildLocally ∨ cp.options.createPchCmd ≠ none ∨
      if s.compilerInfoCache cp.executable = none then env.prepareTestSource ≠ none
      else cp.options.Creatable env.disk cp.cwd) := by
  constructor
  · rintro ⟨executable, cwd, args, hreads, h⟩
    exact ⟨_, newCommandProcessor_ok.2 ⟨executable, cwd, args, hreads, rfl⟩, h⟩
  · rintro ⟨cp, hcp, h⟩
    obtain ⟨executable, cwd, args, hreads, rfl⟩ := newCommandProcessor_ok.1 hcp
    exact ⟨executable, cwd, args, hreads, h⟩

theorem handleNewClient_obliged (hcp : s.commandProcessor = none) (hsent : s.sent = []) (hrequests : s.requests = 0) :
    (s.handleNewClient env msg).1.Inv ∧ ((s.handleNewClient env msg).1.Obliged ↔ s.Accepts env msg) := by
  rw [accepts_iff, handleNewClient]
  cases hnew : newCommandProcessor env msg with
  | error e =>
    have hcommand : s.command = none := by simp [command, hcp]
    refine ⟨⟨fun _ => ⟨hrequests, hsent⟩, by simp [hrequests], by simp [hcp], by simp [hcp], by simp [hcommand]⟩, ?_⟩
    simp only
    rw [obliged_iff_sent hcommand hrequests, hsent]
    simp
  | ok cp =>
  obtain ⟨executable, cwd, args, -, rfl⟩ := newCommandProcessor_ok.1 hnew
  simp only [Except.ok.injEq, exists_eq_left']
  -- a command processor was made, and nothing is sent yet
  split
  · next hlocal =>
    refine ⟨Inv.of_no_command rfl rfl hrequests (by simp), iff_of_true (.inl (answered_sendMsg _ _ rfl)) (.inl hlocal)⟩
  next hlocal =>
  cases hpch : (⟨args⟩ : CompileOptions).createPchCmd with
  | some cmd =>
    exact ⟨Inv.of_no_command rfl rfl hrequests (by simp),
      iff_of_true (.inl (answered_sendMsg _ _ rfl)) (.inr (.inl (by simp)))⟩
  | none =>
  simp only [hlocal, ne_eq, not_true_eq_false, false_or, setCommand_cache]
  cases hcache : s.compilerInfoCache executable with
  | some info =>
    simp only [reduceCtorEq, if_false]
    have h := @createTasks_obliged ((s.setCommand { executable, cwd, options := ⟨args⟩ }).setCommand
        (CommandProcessor.setCompilerInfo { executable, cwd, options := ⟨args⟩ } info)) env _
      rfl rfl rfl hrequests info
    refine ⟨h.1, h.2.trans ?_⟩
    simp [hsent, CommandProcessor.setCompilerInfo]
  | none =>
    simp only [if_true, requestCompilerInfo]
    cases hsource : env.prepareTestSource with
    | none =>
      refine ⟨Inv.of_no_command rfl rfl hrequests (by simp), ?_⟩
      have h := obliged_iff_sent (s := s.setCommand { executable, cwd, options := ⟨args⟩ }) rfl hrequests
      exact h.trans (by simp [hsent])
    | some source =>
      refine ⟨Inv.of_request rfl rfl ?_ (.inl rfl), iff_of_true (.inr (.inl ?_)) (by simp)⟩
      · simp [ClientMessage.isFinal, hrequests]
      · simp [ClientMessage.isFinal]

theorem gotCompilerOutput_obliged (hcp : s.commandProcessor = some cp) (hcommand : cp.command = none)
    (hstate : cp.state = some .waitForCompilerInfoOutput) (hrequests : s.requests = 0) :
    (s.gotCompilerOutput env cp msg).1.Inv ∧ ((s.gotCompilerOutput env cp msg).1.Obliged ↔
      (∃ m ∈ s.sent, m.isFinal) ∨ (∃ source, cp.testSource = some source ∧ env.destroy source) ∧
        ∃ retcode stdout stderr rest, msg = retcode :: stdout :: stderr :: rest ∧ toInt retcode ≠ none) := by
  have hfiles : cp.state = some .waitForCompilerFileList → cp.compilerInfo ≠ none := by simp [hstate]
  have hraised : s.Inv ∧ (s.Obliged ↔ ∃ m ∈ s.sent, m.isFinal) :=
    ⟨Inv.of_no_command hcp hcommand hrequests hfiles, obliged_iff_sent ((command_eq hcp).trans hcommand) hrequests⟩
  rw [gotCompilerOutput, ← parseOutput_ok]
  cases hsource : cp.testSource with
  | none => simpa using hraised
  | some source =>
  by_cases hdestroy : env.destroy source
  swap
  · simpa [hdestroy] using hraised
  simp only [hdestroy, Bool.not_true, Bool.false_eq_true, if_false, Option.some.injEq, exists_eq_left', true_and]
  -- the test source is gone
  have hcp' : (s.setCommand { cp with testSource := none }).commandProcessor =
      some { cp with testSource := none } := rfl
  cases hparse : parseOutput msg with
  | error e =>
    refine ⟨Inv.of_no_command hcp' hcommand hrequests hfiles, ?_⟩
    have h := obliged_iff_sent (s := s.setCommand { cp with testSource := none }) hcommand hrequests
    exact h.trans (by simp)
  | ok r =>
  obtain ⟨retcode, stdout, stderr⟩ := r
  simp only [Except.ok.injEq, exists_eq', or_true, iff_true]
  split
  · exact ⟨Inv.of_no_command hcp' hcommand hrequests hfiles, .inl (answered_sendMsg _ _ rfl)⟩
  · cases hinfo : env.getCompilerInfo cp.executable stdout stderr with
    | none => exact ⟨Inv.of_no_command hcp' hcommand hrequests hfiles, .inl (answered_sendMsg _ _ rfl)⟩
    | some found =>
      obtain ⟨info, files⟩ := found
      refine ⟨Inv.of_request rfl hcommand ?_ (.inr ⟨rfl, by simp⟩), .inr (.inl ?_)⟩
      · simp [ClientMessage.isFinal, hrequests]
      · simp [ClientMessage.isFinal]

theorem gotFileList_obliged (hcp : s.commandProcessor = some cp) (hcommand : cp.command = none)
    (hinfo : cp.compilerInfo ≠ none) (hrequests : s.requests = 0) :
    (s.gotFileList env cp msg).1.Inv ∧ ((s.gotFileList env cp msg).1.Obliged ↔
      (∃ m ∈ s.sent, m.isFinal) ∨
        msg.length = cp.tmpCompilerFiles.length ∧ cp.options.Creatable env.disk cp.cwd) := by
  rw [gotFileList]
  by_cases hlength : msg.length = cp.tmpCompilerFiles.length
  swap
  · rw [if_pos hlength]
    refine ⟨Inv.of_no_command hcp hcommand hrequests fun _ => hinfo, ?_⟩
    exact (obliged_iff_sent ((command_eq hcp).trans hcommand) hrequests).trans (by simp [hlength])
  rw [if_neg (not_not.2 hlength)]
  obtain ⟨info, hinfo⟩ := Option.ne_none_iff_exists'.1 hinfo
  simp only [hinfo]
  have h := @createTasks_obliged (s.setCommand { cp with
      compilerInfo := some { info with files := msg.zip cp.tmpCompilerFiles }, state := some .ready }) env _
    rfl hcommand rfl hrequests { info with files := msg.zip cp.tmpCompilerFiles }
  split
  · next s' e hr =>
    rw [hr] at h
    exact ⟨h.1, h.2.trans (by simp [hlength])⟩
  · next s' hr =>
    rw [hr] at h
    refine ⟨h.1.map (fun _ => rfl) (fun _ => rfl) (fun _ => rfl), ?_⟩
    have hcongr : ({ s' with commandProcessor := s'.commandProcessor.map (·.clientIsReady) } :
        ClientProcessor).Obliged ↔ s'.Obliged := obliged_congr rfl rfl (command_map fun _ => rfl)
    exact hcongr.trans (h.2.trans (by simp [hlength]))

/-- When a request is answered it is no longer open. -/
theorem Inv.replied (hi : s.Inv) : s.replied.requests = 0 ∧ s.replied.Inv := by
  have hrequests : s.replied.requests = 0 := by
    have := hi.requests_le
    simp only [ClientProcessor.replied]
    omega
  exact ⟨hrequests, fun h => ⟨hrequests, (hi.idle h).2⟩, fun h => absurd hrequests (Nat.ne_of_gt h), hi.ready, hi.files,
    hi.completed⟩

/-- The client is asked only while the compiler is looked at. -/
theorem Inv.not_asked (hi : s.Inv) (hcp : s.commandProcessor = some cp)
    (hoff : cp.state ≠ some .waitForCompilerInfoOutput ∧ cp.state ≠ some .waitForCompilerFileList) :
    s.requests = 0 := by
  by_contra hne
  obtain ⟨-, cp', hcp', hwait⟩ := hi.asked (Nat.pos_of_ne_zero hne)
  rw [hcp] at hcp'
  cases hcp'
  exact hwait.elim hoff.1 hoff.2

theorem Inv.no_command (hi : s.Inv) (hcp : s.commandProcessor = some cp) (hoff : cp.state ≠ some .ready) :
    cp.command = none := by
  by_contra hne
  exact hoff (hi.ready cp hcp hne)

/-- With tasks, or after it was answered, the client needs no more. -/
theorem taskCompleted_obliged (hi : s.Inv) (hcp : s.commandProcessor = some cp) {task : TaskId} {result : TaskResult}
    {cp' : CommandProcessor} (h : cp.taskCompleted task result = some cp') :
    (s.setCommand cp').Inv ∧ (s.setCommand cp').Obliged := by
  obtain ⟨c, hc, htask, rfl⟩ := taskCompleted_cases h
  obtain ⟨hsub, hobliged⟩ := replies_or_task result htask (hi.completed c ((command_eq hcp).trans hc))
  have hstate : cp.state = some .ready := hi.ready cp hcp (by simp [hc])
  have hrequests : s.requests = 0 := hi.not_asked hcp (by simp [hstate])
  refine ⟨Inv.of_ready rfl hstate rfl hrequests hsub, ?_⟩
  rcases hobliged with hreplies | htasks
  · exact .inl (.inr ⟨_, rfl, hreplies⟩)
  · exact .inr (.inr ⟨_, rfl, htasks⟩)

theorem taskDone_obliged (hi : s.Inv) (hcp : s.commandProcessor = some cp) (h : s.Obliged) :
    (s.setCommand (cp.taskDone msg).1).Inv ∧ (s.setCommand (cp.taskDone msg).1).Obliged := by
  have hsame : s.setCommand cp = s := by rw [setCommand, ← hcp]
  rw [CommandProcessor.taskDone]
  split
  · rw [hsame]
    exact ⟨hi, h⟩
  split
  · rw [hsame]
    exact ⟨hi, h⟩
  split
  · rw [hsame]
    exact ⟨hi, h⟩
  next cp' hcp' =>
    obtain ⟨hi', h'⟩ := taskCompleted_obliged hi hcp hcp'
    refine ⟨hi'.map (f := CommandProcessor.clientIsReady) (fun _ => rfl) (fun _ => rfl) (fun _ => rfl), ?_⟩
    exact (obliged_congr (s := s.setCommand cp') rfl rfl rfl).2 h'

theorem processMsg_obliged (hi : s.Inv) (hobliged : s.commandProcessor ≠ none → s.Obliged) :
    (s.processMsg env msg).1.Inv ∧ ((s.processMsg env msg).1.Obliged ↔ s.GoesThrough env msg) := by
  obtain ⟨hrequests, hi'⟩ := hi.replied
  rw [processMsg, GoesThrough]
  cases hcp : s.commandProcessor with
  | none =>
    simp only
    exact handleNewClient_obliged (s := s.replied) hcp (hi.idle hcp).2 hrequests
  | some cp =>
  -- out of the phases in which it is asked, the client is obliged without its answer
  have hoff : cp.state ≠ some .waitForCompilerInfoOutput ∧ cp.state ≠ some .waitForCompilerFileList →
      s.replied.Obliged := by
    intro hoff
    rcases hobliged (by simp [hcp]) with h | h | h
    · exact .inl h
    · rw [hi.not_asked hcp hoff] at h
      exact absurd h (lt_irrefl 0)
    · exact .inr (.inr h)
  simp only [gotDataFromClient]
  cases hstate : cp.state with
  | none => exact ⟨hi', iff_of_true (hoff (by simp [hstate])) trivial⟩
  | some phase =>
    cases phase with
    | waitForCompilerInfoOutput =>
      have hcommand := hi.no_command hcp (by simp [hstate])
      simp only [answered_iff_sent ((command_eq hcp).trans hcommand)]
      exact gotCompilerOutput_obliged (s := s.replied) hcp hcommand hstate hrequests
    | waitForCompilerFileList =>
      have hcommand := hi.no_command hcp (by simp [hstate])
      simp only [answered_iff_sent ((command_eq hcp).trans hcommand)]
      exact gotFileList_obliged (s := s.replied) hcp hcommand (hi.files cp hcp hstate) hrequests
    | ready =>
      have h := @taskDone_obliged s.replied msg _ hi' hcp (hoff (by simp [hstate]))
      exact ⟨h.1, iff_of_true h.2 trivial⟩

end

/-! ### Runs -/

/-- The condition on a message. -/
def Cond (s : ClientProcessor) : Event → Prop
  | .message env msg => s.GoesThrough env msg
  | _ => True

/-- From the first message on the client is answered or something is in progress. -/
structure Served (s : ClientProcessor) : Prop extends Inv s where
  obliged : s.commandProcessor ≠ none → s.Obliged

theorem served_start (id : CommandId) (cache : String → Option CompilerInfo) :
    Served { id := id, compilerInfoCache := cache } where
  idle _ := ⟨rfl, rfl⟩
  asked h := absurd h (lt_irrefl 0)
  ready _ h := by cases h
  files _ h := by cases h
  completed _ h := by cases h
  obliged h := absurd rfl h

theorem Served.step {s s' : ClientProcessor} {e : Event} (hs : s.Served) (hcond : s.Cond e) (h : s.step e = some s') :
    s'.Served := by
  cases h
  cases e with
  | message env msg =>
    obtain ⟨hi, hiff⟩ := @processMsg_obliged s env msg hs.toInv hs.obliged
    exact ⟨hi, fun _ => hiff.2 hcond⟩
  | taskCompleted task result =>
    cases hcp : s.commandProcessor with
    | none =>
      have hsame : s.handle (.taskCompleted task result) = s := by
        simp only [handle, hcp, Option.map_none]
        rw [← hcp]
      rw [hsame]
      exact hs
    | some cp =>
      have hset : s.handle (.taskCompleted task result) = s.setCommand ((cp.taskCompleted task result).getD cp) := by
        simp only [handle, hcp, Option.map_some, setCommand]
      rw [hset]
      cases hdone : cp.taskCompleted task result with
      | none =>
        have hsame : s.setCommand cp = s := by rw [setCommand, ← hcp]
        rw [Option.getD_none, hsame]
        exact hs
      | some cp' =>
        obtain ⟨hi, ho⟩ := taskCompleted_obliged hs.toInv hcp hdone
        exact ⟨hi, fun _ => ho⟩
  | cannotDistribute task =>
    have hf : ∀ cp : CommandProcessor, (cp.compileOnClient task).state = cp.state ∧
        (cp.compileOnClient task).compilerInfo = cp.compilerInfo ∧ (cp.compileOnClient task).command = cp.command := by
      intro cp
      rw [CommandProcessor.compileOnClient]
      split <;> exact ⟨rfl, rfl, rfl⟩
    refine ⟨hs.toInv.map (fun cp => (hf cp).1) (fun cp => (hf cp).2.1) (fun cp => (hf cp).2.2), fun h => ?_⟩
    have hcongr : (s.handle (.cannotDistribute task)).Obliged ↔ s.Obliged :=
      obliged_congr rfl rfl (command_map fun cp => (hf cp).2.2)
    exact hcongr.2 (hs.obliged (by simpa [handle] using h))
  | cached executable info =>
    exact ⟨⟨hs.idle, hs.asked, hs.ready, hs.files, hs.completed⟩, hs.obliged⟩

end ClientProcessor

/-- In a run whose messages all go through, and after one more message, the client was answered, is asked or has a task
in progress if, and only if, the message goes through. -/
theorem answered_or_in_progress (id : CommandId) (cache : String → Option CompilerInfo)
    {events : List ClientProcessor.Event} {s : ClientProcessor}
    (hmeets : Lib.Meets ClientProcessor.step ClientProcessor.Cond { id := id, compilerInfoCache := cache } events)
    (hrun : Lib.run ClientProcessor.step { id := id, compilerInfoCache := cache } events = some s) :
    (s.commandProcessor ≠ none → s.Obliged) ∧
      ∀ env msg, (s.processMsg env msg).1.Obliged ↔ s.GoesThrough env msg := by
  have hs : s.Served := Lib.run_inv_of_meets ClientProcessor.step (fun _ _ _ hs hc h => hs.step hc h) events _ s
    (ClientProcessor.served_start id cache) hmeets hrun
  exact ⟨hs.obliged, fun env msg => (ClientProcessor.processMsg_obliged hs.toInv hs.obliged).2⟩

/-! ## Two sources and one object file -/

/-- The options of a command that compiles these sources. -/
def compileArgs (output : Option String) (sources : List String) : List Arg :=
  ⟨"c", [], ["/c"]⟩ :: (output.toList.map fun o => ⟨"Fo", [o], ["/Fo" ++ o]⟩) ++
    sources.map fun source => ⟨"<input>", [source], [source]⟩

/-- A manager's machine where the test source can be made, and `cl` is identified. -/
def machine (args : List Arg) : Env where
  parseArgs _ := some args
  disk := ⟨fun _ => true, fun _ => some (0, 0)⟩
  prepareTestSource := some ⟨"t.cpp", "t.obj"⟩
  destroy _ := true
  getCompilerInfo executable _ _ := some (⟨executable, [], [], []⟩, ["cl.exe".toUTF8.toList])

def clientMsg (parts : List String) : List Bytes := parts.map (·.toUTF8.toList)

def compileCommand : List Bytes := clientMsg ["msvc", "cl.exe", "", "C:\\p", "/c", "a.cpp"]

theorem answered_or_in_progress_identified :
    ∃ s, Lib.run ClientProcessor.step {} [.message (machine (compileArgs none ["a.cpp"])) compileCommand] = some s ∧
      (s.processMsg (machine []) (clientMsg ["0", "", ""])).1.Obliged := by
  have hreads : ClientProcessor.Reads (machine (compileArgs none ["a.cpp"])) compileCommand "cl.exe" "C:\\p"
      (compileArgs none ["a.cpp"]) := ⟨"", ["/c", "a.cpp"], by decide +kernel, rfl⟩
  have hmeets : Lib.Meets ClientProcessor.step ClientProcessor.Cond {}
      [.message (machine (compileArgs none ["a.cpp"])) compileCommand] :=
    ⟨⟨_, _, _, hreads, .inr (.inr (by simp [machine]))⟩, fun _ _ => trivial⟩
  obtain ⟨s, hs⟩ : ∃ s, Lib.run ClientProcessor.step {}
      [.message (machine (compileArgs none ["a.cpp"])) compileCommand] = some s := ⟨_, rfl⟩
  obtain ⟨-, hiff⟩ := answered_or_in_progress 0 (fun _ => none) hmeets hs
  refine ⟨s, hs, (hiff _ _).2 ?_⟩
  have hwaits : s.commandProcessor.bind (·.state) = some .waitForCompilerInfoOutput := by
    cases hs
    decide +kernel
  have hsource : s.commandProcessor.bind (·.testSource) = some ⟨"t.cpp", "t.obj"⟩ := by
    cases hs
    decide +kernel
  obtain ⟨cp, hcp, hstate⟩ := Option.bind_eq_some_iff.1 hwaits
  rw [hcp, Option.bind_some] at hsource
  rw [ClientProcessor.goesThrough_of_compilerOutput hcp hstate]
  exact .inr ⟨⟨_, hsource, rfl⟩, _, _, _, [], rfl, by decide +kernel⟩

/-- Nothing is sent to a client that names one object file for two sources, and it has no tasks. -/
theorem object_file_of_two_sources :
    let s : ClientProcessor := { compilerInfoCache := fun _ => some ⟨"cl.exe", [], [], []⟩ }
    let r := s.processMsg (machine (compileArgs (some "o.obj") ["a.cpp", "b.cpp"]))
      (clientMsg ["msvc", "cl.exe", "", "C:\\p", "/c", "/Foo.obj", "a.cpp", "b.cpp"])
    r.2 = some (.runtimeError "Cannot specify output file with multiple sources.") ∧ ¬ r.1.Obliged := by
  refine ⟨by decide +kernel, ?_⟩
  rw [ClientProcessor.obliged_iff_sent]
  · decide +kernel
  · rw [← Option.isNone_iff_eq_none]
    decide +kernel
  · decide +kernel

end BuildPal.Conversation
