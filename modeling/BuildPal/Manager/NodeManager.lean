import Mathlib.Logic.Function.Basic
import BuildPal.Lib.Runs
import BuildPal.Manager.CommandProcessor
/-!
# The manager's scheduler

`NodeManager` (`node_manager.py`) with the parts of `Task` and
`CommandProcessor` that its callbacks run through. A step is one callback of
the event loop. An exception ends its callback where it stands: what was
changed before it stays changed, and the exception is noted in `failures`.
-/
open BuildPal.Lib BuildPal.Message

namespace BuildPal.Scheduler

/-- A `ServerSession` with the node and the task it was made for. -/
structure Session where
  node : NodeId
  task : TaskId
  session : ServerSession

/-- The exceptions a callback can end with. -/
inductive Failure where
  /-- The connection attempt failed, so `future.result()` raises. -/
  | connection
  /-- `struct.pack('!I', counter)` is out of range. -/
  | uniqueId
  /-- An assertion of the session itself. -/
  | session
  /-- `del self.sessions[session.local_id]`. -/
  | sessionGone
  /-- `self.tasks_running[session.node].remove(session.task)`. -/
  | taskNotOnNode
  /-- `_tasks_change` is not set. -/
  | tasksChange
  /-- `assert session.result is not None`. -/
  | noResult
  /-- `assert session in self.sessions_running`. -/
  | sessionNotRunning
  /-- `assert session == self.completed_by_session`. -/
  | notCompletedBySession
  /-- `assert task in self.tasks`. -/
  | unknownTask
  /-- `assert task not in self.completed_tasks`. -/
  | completedTwice
  /-- `assert not self.sessions_running` in `Task.get_info`. -/
  | sessionsRunning
  /-- `node.node_dict()['job_slots'] + 1` for a node without job slots. -/
  | jobSlots
  deriving DecidableEq, Repr

/-- A call of `CommandProcessor.task_completed`: for which task, by which session (none for the
preprocessing error), and what the task's `completed_by_session` and its fate in the scanner were. -/
structure TaskReport where
  task : TaskId
  session : Option SessionId
  completedBy : Option SessionId
  scan : Option Scan
  deriving DecidableEq, Repr

structure NodeManager where
  nodes : NodeId → NodeInfo := fun _ => {}
  nodeInfo : List NodeId := []
  /-- The node getter has been called before. -/
  polled : Bool := false
  tasksRunning : NodeId → List TaskId := fun _ => []
  /-- The keys of `sessions`. -/
  sessions : List SessionId := []
  /-- The session objects made so far. -/
  objects : SessionId → Option Session := fun _ => none
  unassignedTasks : List TaskId := []
  /-- The connection attempts under way. -/
  connecting : List (TaskId × NodeId) := []
  counter : Nat := 0
  tasks : TaskId → Task := fun _ => {}
  commands : CommandId → Command := fun _ => {}
  /-- The sessions whose result files are being decompressed. -/
  decompressing : List SessionId := []
  /-- Every call of `task_completed` so far. -/
  reports : List TaskReport := []
  failures : List Failure := []

namespace NodeManager

/-- Before anything has happened: the nodes have any job slots, and the dictionaries any order. -/
abbrev initial (slots : NodeId → Option Nat) (orders : CommandId → DictOrder := fun _ => .entered) : NodeManager :=
  { nodes := fun n => { jobSlots := slots n }, commands := fun c => { order := orders c } }

variable (s : NodeManager)

def raise (failure : Failure) : NodeManager := { s with failures := s.failures ++ [failure] }

def setTask (t : TaskId) (task : Task) : NodeManager := { s with tasks := Function.update s.tasks t task }

def setCommand (c : CommandId) (command : Command) : NodeManager :=
  { s with commands := Function.update s.commands c command }

def setObject (sid : SessionId) (obj : Session) : NodeManager :=
  { s with objects := Function.update s.objects sid (some obj) }

def setNode (node : NodeId) (info : NodeInfo) : NodeManager := { s with nodes := Function.update s.nodes node info }

/-! ## Scheduling

A node has job slots or it has none, and counting with the slots it does not have raises. -/

/-- Its `job_slots` is `None`. -/
def slotless (node : NodeId) : Bool := (s.nodes node).jobSlots.isNone

/-- No node of the set is without. -/
abbrev AllSlots : Prop := ∀ node ∈ s.nodeInfo, s.slotless node = false

/-- The job slots of a node that has them. -/
def slots (node : NodeId) : Nat := (s.nodes node).jobSlots.getD 0

def targetTasksPerNode (node : NodeId) : Int := s.slots node + 1

def canStealTask (node : NodeId) : Bool := (s.tasksRunning node).length < s.slots node

def freeSlots (node : NodeId) : Int := s.targetTasksPerNode node - (s.tasksRunning node).length

/-- `current_node_weight`. -/
def nodeWeight (node : NodeId) : Rat × Rat × Rat :=
  let count : Rat := (s.tasksRunning node).length
  let average := (s.nodes node).averageTaskTime
  (count * average, average, count)

def lighter (a b : Rat × Rat × Rat) : Bool :=
  a.1 < b.1 || a.1 == b.1 && (a.2.1 < b.2.1 || a.2.1 == b.2.1 && a.2.2 < b.2.2)

/-- `min(free_nodes, key=current_node_weight)`: the first of the lightest nodes. -/
def bestNode : Option NodeId :=
  (s.nodeInfo.filter fun node => 0 < s.freeSlots node).foldl
    (fun best node => match best with
      | none => some node
      | some b => if lighter (s.nodeWeight node) (s.nodeWeight b) then some node else best) none

/-- `__schedule_task_to_specific_node`. -/
def connect (ts : List TaskId) (node : NodeId) : NodeManager :=
  { s with connecting := s.connecting ++ ts.map (·, node) }

def scheduleTask (t : TaskId) (highPriority : Bool) : NodeManager :=
  -- `__best_node` counts the free slots of every node first.
  if s.unassignedTasks = [] ∧ ¬ s.AllSlots then s.raise .jobSlots
  else match if s.unassignedTasks = [] then s.bestNode else none with
  | some node => s.connect [t] node
  | none =>
    { s with unassignedTasks := if highPriority then t :: s.unassignedTasks else s.unassignedTasks ++ [t] }

/-- `__tasks_viable_for_stealing`. A node with an average task time has job slots
(`Records.slotless_not_viable`). -/
def tasksViableForStealing (src tgt : NodeId) : List TaskId :=
  let srcTime := (s.nodes src).averageTaskTime
  let tgtTime := (s.nodes tgt).averageTaskTime
  if srcTime = 0 then []
  else if tgtTime = 0 then []
  else
    let index : Int := (tgtTime / srcTime).floor * s.slots src
    (s.tasksRunning src).drop (if index < 0 then (s.tasksRunning src).length - index.natAbs else index.toNat)

/-- The tasks a node steals, at most `slots` of them; `order` is the order in which the dictionary
`tasks_running` lists its nodes. -/
def stolenTasks (order : List NodeId) (node : NodeId) (slots : Nat) : List TaskId :=
  (((order.filter (· ≠ node)).flatMap fun src => (s.tasksViableForStealing src node).reverse).filter fun t =>
    ¬ (s.tasks t).isCompleted ∧ t ∉ s.tasksRunning node).take slots

/-- `__find_work`. -/
def findWork (order : NodeManager → List NodeId) (node : NodeId) : NodeManager :=
  let slots := (s.freeSlots node).toNat
  if s.slotless node then s.raise .jobSlots
  else if slots = 0 then s
  else
    -- The outer loop of the source has one round: its body ends with `return`.
    let assigned := { s.connect (s.unassignedTasks.take slots) node with
      unassignedTasks := s.unassignedTasks.drop slots }
    -- The free slots are one more than the job slots, so that one may be left which steals nothing.
    let left := slots - s.unassignedTasks.length
    if left = 0 ∨ ¬ s.canStealTask node then assigned
    else assigned.connect (s.stolenTasks (order s) node left) node

/-- `__find_work` for one node after the other. -/
def findWorkAll (order : NodeManager → List NodeId) : NodeManager → List NodeId → NodeManager
  | s, [] => s
  | s, node :: rest =>
    if s.slotless node then s.findWork order node else findWorkAll order (s.findWork order node) rest

/-! ## Tasks and commands -/

/-- `Task.register_completion`: whether the session is the one to complete its task. -/
def registerCompletion (sid : SessionId) (t : TaskId) : NodeManager × Bool :=
  let task := s.tasks t
  if task.isCompleted then (s, false)
  else
    ({ s with
        tasks := Function.update s.tasks t { task with completedBySession := some sid }
        objects := fun other =>
          if other ∈ task.sessionsRunning ∧ other ≠ sid then
            (s.objects other).map fun obj => { obj with session := obj.session.cancel.session }
          else s.objects other }, true)

/-- Notes a call of `task_completed`. -/
def logReport (t : TaskId) (session : Option SessionId) : NodeManager :=
  let report : TaskReport := ⟨t, session, (s.tasks t).completedBySession, (s.tasks t).scan⟩
  { s with reports := s.reports ++ [report] }

/-- `CommandProcessor.task_completed`. -/
def taskCompleted (t : TaskId) (result : TaskResult) (session : Option SessionId) : NodeManager :=
  if t ∉ (s.commands t.command).tasks then (s.logReport t session).raise .unknownTask
  else if t ∈ (s.commands t.command).completed then (s.logReport t session).raise .completedTwice
  else (s.logReport t session).setCommand t.command ((s.commands t.command).addResult t result).postprocessIfDone

/-- `CommandProcessor.all_sessions_done`, and whether it returned. -/
def allSessionsDone (t : TaskId) : NodeManager × Bool :=
  let command := (s.commands t.command).sessionsDone t
  if Command.sameElements command.tasksWithSessionsDone command.tasks then
    if command.tasks.all fun t => (s.tasks t).sessionsRunning = [] then
      (s.setCommand t.command { command with inserted := command.inserted + 1 }, true)
    else ((s.setCommand t.command command).raise .sessionsRunning, false)
  else (s.setCommand t.command command, true)

/-- `all_sessions_done` is called once no session of a completed task is left. -/
def noMoreSessions (t : TaskId) : NodeManager × Bool :=
  if (s.tasks t).sessionsRunning = [] ∧ (s.tasks t).isCompleted then s.allSessionsDone t else (s, true)

/-- The result of a session that was successful is reported. -/
def reportResult (sid : SessionId) (obj : Session) (elapsed : Rat) : NodeManager :=
  if (s.tasks obj.task).completedBySession = some sid then
    (s.setNode obj.node ((s.nodes obj.node).addTotalTime elapsed)).taskCompleted obj.task
      ⟨obj.session.retcode, obj.session.stdout, obj.session.stderr⟩ (some sid)
  else s.raise .notCompletedBySession

/-- The end of `Task.session_completed` for a session that did not fail. -/
def sessionDelivered (sid : SessionId) (obj : Session) (result : SessionResult) (elapsed : Rat) : NodeManager :=
  if (s.noMoreSessions obj.task).2 ∧ result = .success then
    (s.noMoreSessions obj.task).1.reportResult sid obj elapsed
  else (s.noMoreSessions obj.task).1

/-- `Task.session_completed`, and whether the task is to be rescheduled. -/
def taskSessionCompleted (sid : SessionId) (obj : Session) (elapsed : Rat) : NodeManager × Bool :=
  match obj.session.result with
  | none => (s.raise .noResult, false)
  | some result =>
    if sid ∉ (s.tasks obj.task).sessionsRunning then (s.raise .sessionNotRunning, false)
    else
      let task := (s.tasks obj.task).finish sid
      -- The session has left the task by now, and stays out of it if the statistics raise.
      match (s.nodes obj.node).processSessionResult result with
      | none => ((s.setTask obj.task task).raise .tasksChange, false)
      | some info =>
        if isServerFailure result then
          ((s.setTask obj.task (task.dethrone sid)).setNode obj.node info,
            -- Any session that still runs is a reason not to reschedule, a cancelled one as well.
            !((task.dethrone sid).isCompleted || task.sessionsRunning ≠ []))
        else (((s.setTask obj.task task).setNode obj.node info).sessionDelivered sid obj result elapsed, false)

/-- The session no longer counts as running. -/
def removeSession (sid : SessionId) (obj : Session) : NodeManager :=
  { s with
    sessions := s.sessions.erase sid
    tasksRunning := Function.update s.tasksRunning obj.node ((s.tasksRunning obj.node).erase obj.task) }

/-- The `session_completed` callback of `create_session`. -/
def sessionCompleted (order : NodeManager → List NodeId) (sid : SessionId) (obj : Session) (elapsed : Rat) : NodeManager :=
  if sid ∉ s.sessions then s.raise .sessionGone
  else if obj.task ∉ s.tasksRunning obj.node then { s with sessions := s.sessions.erase sid }.raise .taskNotOnNode
  else
    -- Work is found for the node before the task hears of its session.
    let found := (s.removeSession sid obj).findWork order obj.node
    if s.slotless obj.node then found
    else
      let r := found.taskSessionCompleted sid obj elapsed
      if r.2 then r.1.scheduleTask obj.task true else r.1

/-! ## Sessions -/

/-- What follows from a call of the session. -/
def replied (order : NodeManager → List NodeId) (sid : SessionId) (obj : Session) (reply : ServerSession.Reply)
    (elapsed : Rat) : NodeManager :=
  let s := s.setObject sid { obj with session := reply.session }
  match reply.action with
  | none | some .compressPch => s
  | some .gather => { s with decompressing := s.decompressing ++ [sid] }
  | some .raise => s.raise .session
  | some (.complete _) => s.sessionCompleted order sid { obj with session := reply.session } elapsed

/-- A session that is told of the end of the compilation registers its completion first. -/
def registration (sid : SessionId) (obj : Session) (msg : FromServer) : NodeManager × Bool :=
  match obj.session.state, msg with
  | .waitForServerResponse, .serverDone _ _ _ => s.registerCompletion sid obj.task
  | _, _ => (s, false)

/-- `process_msg`: `got_data_from_server` of the session the message is for. -/
def gotDataFromServer (order : NodeManager → List NodeId) (sid : SessionId) (obj : Session) (msg : FromServer)
    (elapsed : Rat) : NodeManager :=
  (s.registration sid obj msg).1.replied order sid obj
    (obj.session.gotDataFromServer (s.tasks obj.task).files (s.registration sid obj msg).2 msg) elapsed

/-- `create_session`, for a connection that was made. -/
def createSession (t : TaskId) (node : NodeId) : NodeManager :=
  let sid := s.counter + 1
  -- The counter has gone up also where packing it raises.
  if 2 ^ 32 ≤ sid then { s with counter := sid }.raise .uniqueId
  else match (s.nodes node).addTasksSent with
    | none => { s with counter := sid }.raise .tasksChange
    | some info =>
      { s with
        counter := sid
        nodes := Function.update s.nodes node info
        tasks := Function.update s.tasks t ((s.tasks t).registerSession sid)
        objects := Function.update s.objects sid (some ⟨node, t, ({} : ServerSession).start.session⟩)
        tasksRunning := Function.update s.tasksRunning node (s.tasksRunning node ++ [t])
        sessions := s.sessions ++ [sid] }

/-- `terminate` for one session after the other. -/
def terminateSessions (order : NodeManager → List NodeId) : NodeManager → List SessionId → NodeManager
  | s, [] => s
  | s, sid :: rest =>
    match s.objects sid with
    | none => s
    | some obj =>
      -- The first `terminate` that raises ends the poll.
      let s' := s.replied order sid obj obj.session.terminate 0
      if s'.failures.length = s.failures.length then terminateSessions order s' rest else s'

end NodeManager

/-! ## Steps -/

inductive Event where
  /-- A command's tasks are created and handed to the source scanner. -/
  | createTasks (c : CommandId) (files : List SessionTask) (shouldInvokeLinker : Bool)
  /-- `task_preprocessed`, then `schedule_task`. -/
  | preprocessed (t : TaskId)
  | preprocessingFailed (t : TaskId) (stderr : Bytes)
  | cannotDistribute (t : TaskId)
  | connected (i : Nat)
  | connectionFailed (i : Nat)
  | message (sid : SessionId) (msg : FromServer) (elapsed : Rat)
  /-- All result files of a session are decompressed, or one could not be. -/
  | decompressed (i : Nat) (ok : Bool) (elapsed : Rat)
  /-- `update_node_info_coro`: the getter returned `nodes`; `gone` are the sessions whose node has vanished, in
  the order of the dictionary. -/
  | updateNodeInfo (nodes : List NodeId) (gone : List SessionId)

namespace NodeManager

/-- What the source scanner does with a task, once. -/
def scanned (s : NodeManager) (t : TaskId) (scan : Scan) : Option NodeManager :=
  if t ∈ (s.commands t.command).tasks ∧ (s.tasks t).scan = none then
    some (s.setTask t { s.tasks t with scan := some scan })
  else none

/-- The nodes that the comparison of a poll takes for the previous ones. `NodeDetector` returns a view of
the dictionary it has just updated (`live`), so that from the second poll on they are the new ones. -/
def previousNodes (live : Bool) (s : NodeManager) (nodes : List NodeId) : List NodeId :=
  if live ∧ s.polled then nodes else s.nodeInfo

/-- The sessions on a node that the new list no longer has. -/
def sessionsGone (live : Bool) (s : NodeManager) (nodes : List NodeId) : List SessionId :=
  s.sessions.filter fun sid =>
    (s.objects sid).any fun obj => obj.node ∈ s.previousNodes live nodes ∧ obj.node ∉ nodes

def updateNodeInfo (live : Bool) (order : NodeManager → List NodeId) (s : NodeManager) (nodes : List NodeId)
    (gone : List SessionId) : NodeManager :=
  let newNodes := nodes.filter (· ∉ s.previousNodes live nodes)
  let s' := { s with nodeInfo := nodes, polled := true }.terminateSessions order gone
  if s'.failures.length = s.failures.length then s'.findWorkAll order newNodes else s'

end NodeManager

open NodeManager in
/-- One callback. `live` is whether the node getter returns a view of its own dictionary, and `order s` the
order in which the dictionary `tasks_running` lists its nodes. -/
def step (live : Bool) (order : NodeManager → List NodeId) (s : NodeManager) : Event → Option NodeManager
  | .createTasks c files shouldInvokeLinker =>
    if (s.commands c).tasks = [] ∧ files ≠ [] then
      some { s.setCommand c
          { tasks := (List.range files.length).map (⟨c, ·⟩), shouldInvokeLinker, order := (s.commands c).order } with
        tasks := fun t => if t.command = c then { files := files.getD t.source ⟨0, 0⟩ } else s.tasks t }
    else none
  | .preprocessed t => (s.scanned t .scheduled).map (·.scheduleTask t false)
  | .preprocessingFailed t stderr =>
    (s.scanned t .failed).map (·.taskCompleted t { retcode := UInt32.ofInt (-1), stderr } none)
  | .cannotDistribute t => s.scanned t .cannotDistribute
  | .connected i =>
    (s.connecting[i]?).map fun (t, node) => { s with connecting := s.connecting.eraseIdx i }.createSession t node
  | .connectionFailed i =>
    (s.connecting[i]?).map fun _ => { s with connecting := s.connecting.eraseIdx i }.raise .connection
  | .message sid msg elapsed =>
    if sid ∈ s.sessions then (s.objects sid).map fun obj => s.gotDataFromServer order sid obj msg elapsed else some s
  | .decompressed i ok elapsed => do
    let sid ← s.decompressing[i]?
    let obj ← s.objects sid
    some <| NodeManager.replied { s with decompressing := s.decompressing.eraseIdx i } order sid obj
      (obj.session.completeSession ok) elapsed
  | .updateNodeInfo nodes gone =>
    if nodes.Nodup ∧ gone.Perm (s.sessionsGone live nodes) then some (s.updateNodeInfo live order nodes gone) else none

/-- When a callback is possible, and what it does. -/
def Steps (live : Bool) (order : NodeManager → List NodeId) (s s' : NodeManager) : Event → Prop
  | .createTasks c files shouldInvokeLinker => ((s.commands c).tasks = [] ∧ files ≠ []) ∧
    s' = { s.setCommand c
        { tasks := (List.range files.length).map (⟨c, ·⟩), shouldInvokeLinker, order := (s.commands c).order } with
      tasks := fun t => if t.command = c then { files := files.getD t.source ⟨0, 0⟩ } else s.tasks t }
  | .preprocessed t => ∃ s₁, s.scanned t .scheduled = some s₁ ∧ s' = s₁.scheduleTask t false
  | .preprocessingFailed t stderr => ∃ s₁, s.scanned t .failed = some s₁ ∧
    s' = s₁.taskCompleted t { retcode := UInt32.ofInt (-1), stderr } none
  | .cannotDistribute t => s.scanned t .cannotDistribute = some s'
  | .connected i => ∃ t node, s.connecting[i]? = some (t, node) ∧
    s' = { s with connecting := s.connecting.eraseIdx i }.createSession t node
  | .connectionFailed i => ∃ t node, s.connecting[i]? = some (t, node) ∧
    s' = { s with connecting := s.connecting.eraseIdx i }.raise .connection
  | .message sid msg elapsed =>
    (sid ∈ s.sessions ∧ ∃ obj, s.objects sid = some obj ∧ s' = s.gotDataFromServer order sid obj msg elapsed) ∨
      sid ∉ s.sessions ∧ s = s'
  | .decompressed i ok elapsed => ∃ sid obj, s.decompressing[i]? = some sid ∧ s.objects sid = some obj ∧
    s' = NodeManager.replied { s with decompressing := s.decompressing.eraseIdx i } order sid obj
      (obj.session.completeSession ok) elapsed
  | .updateNodeInfo nodes gone => (nodes.Nodup ∧ gone.Perm (s.sessionsGone live nodes)) ∧
    s' = s.updateNodeInfo live order nodes gone

theorem steps_of_step {live : Bool} {order : NodeManager → List NodeId} {s s' : NodeManager} {e : Event}
    (hs : step live order s e = some s') : Steps live order s s' e := by
  cases e with
  | createTasks c files shouldInvokeLinker =>
    obtain ⟨hguard, heq⟩ := Option.ite_none_right_eq_some.1 hs
    exact ⟨hguard, (Option.some.inj heq).symm⟩
  | preprocessed t =>
    obtain ⟨s₁, hs₁, heq⟩ := Option.map_eq_some_iff.1 hs
    exact ⟨s₁, hs₁, heq.symm⟩
  | preprocessingFailed t stderr =>
    obtain ⟨s₁, hs₁, heq⟩ := Option.map_eq_some_iff.1 hs
    exact ⟨s₁, hs₁, heq.symm⟩
  | cannotDistribute t => exact hs
  | connected i =>
    obtain ⟨⟨t, node⟩, hi, heq⟩ := Option.map_eq_some_iff.1 hs
    exact ⟨t, node, hi, heq.symm⟩
  | connectionFailed i =>
    obtain ⟨⟨t, node⟩, hi, heq⟩ := Option.map_eq_some_iff.1 hs
    exact ⟨t, node, hi, heq.symm⟩
  | message sid msg elapsed =>
    simp only [step] at hs
    split at hs
    · next hsid =>
      obtain ⟨obj, hobj, heq⟩ := Option.map_eq_some_iff.1 hs
      exact .inl ⟨hsid, obj, hobj, heq.symm⟩
    · next hsid => exact .inr ⟨hsid, Option.some.inj hs⟩
  | decompressed i ok elapsed =>
    obtain ⟨sid, hi, hs⟩ := Option.bind_eq_some_iff.1 hs
    obtain ⟨obj, hobj, hs⟩ := Option.bind_eq_some_iff.1 hs
    exact ⟨sid, obj, hi, hobj, (Option.some.inj hs).symm⟩
  | updateNodeInfo nodes gone =>
    obtain ⟨hguard, heq⟩ := Option.ite_none_right_eq_some.1 hs
    exact ⟨hguard, (Option.some.inj heq).symm⟩

end BuildPal.Scheduler
