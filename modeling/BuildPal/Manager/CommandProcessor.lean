import Mathlib.Data.List.Perm.Basic
import Mathlib.Data.Rat.Defs
import BuildPal.Manager.ServerSession
/-!
# Nodes, tasks and commands

The records the manager keeps: `NodeInfo` (`node_info.py`), the state of a
`Task` (`task.py`) and of a `CommandProcessor` (`command_processor.py`), with
the operations that concern one record only.
-/
open BuildPal.Message

namespace BuildPal.Scheduler

abbrev NodeId := Nat
abbrev SessionId := Nat
abbrev CommandId := Nat

/-- A task: its command, and which of the command's sources it compiles. -/
structure TaskId where
  command : CommandId
  source : Nat
  deriving DecidableEq, Repr

/-! ## Nodes -/

structure NodeInfo where
  /-- `job_slots` of the dictionary; a node given as `<host>:<port>` has none. -/
  jobSlots : Option Nat := some 1
  tasksCompleted : Nat := 0
  tasksFailed : Nat := 0
  tasksSent : Nat := 0
  tasksCancelled : Nat := 0
  tasksTooLate : Nat := 0
  tasksTimedOut : Nat := 0
  tasksTerminated : Nat := 0
  totalTime : Rat := 0
  /-- `_tasks_change` is set. -/
  tasksChange : Bool := false

namespace NodeInfo
variable (node : NodeInfo)

def averageTaskTime : Rat := if node.tasksCompleted = 0 then 0 else node.totalTime / node.tasksCompleted

def tasksPending : Int :=
  node.tasksSent - node.tasksCompleted - node.tasksFailed - node.tasksTooLate - node.tasksCancelled -
    node.tasksTimedOut - node.tasksTerminated

/-- `__tasks_pending_about_to_change`; the duration of a change that was never noted cannot be taken. -/
def tasksPendingAboutToChange : Option NodeInfo :=
  if 0 < node.tasksPending ∧ node.tasksChange = false then none else some { node with tasksChange := true }

def countResult : SessionResult → NodeInfo
  | .success => { node with tasksCompleted := node.tasksCompleted + 1 }
  | .failure => { node with tasksFailed := node.tasksFailed + 1 }
  | .cancelled => { node with tasksCancelled := node.tasksCancelled + 1 }
  | .timedOut => { node with tasksTimedOut := node.tasksTimedOut + 1 }
  | .tooLate => { node with tasksTooLate := node.tasksTooLate + 1 }
  | .terminated => { node with tasksTerminated := node.tasksTerminated + 1 }

def processSessionResult (result : SessionResult) : Option NodeInfo :=
  node.tasksPendingAboutToChange.map (·.countResult result)

def addTasksSent : Option NodeInfo :=
  node.tasksPendingAboutToChange.map fun node => { node with tasksSent := node.tasksSent + 1 }

def addTotalTime (value : Rat) : NodeInfo := { node with totalTime := node.totalTime + value }

end NodeInfo

/-! ## Tasks -/

/-- What became of a task in the source scanner. -/
inductive Scan where
  /-- It was passed to `schedule_task`. -/
  | scheduled
  /-- Preprocessing raised. -/
  | failed
  /-- Headers are missing. Asking the client to compile the source raises before anything is sent. -/
  | cannotDistribute
  deriving DecidableEq, Repr

structure Task where
  files : SessionTask := ⟨0, 0⟩
  scan : Option Scan := none
  sessionsRunning : List SessionId := []
  sessionsFinished : List SessionId := []
  completedBySession : Option SessionId := none

namespace Task
variable (task : Task)

def isCompleted : Bool := task.completedBySession.isSome

def registerSession (sid : SessionId) : Task := { task with sessionsRunning := task.sessionsRunning ++ [sid] }

/-- A session moves to `sessions_finished`. -/
def finish (sid : SessionId) : Task :=
  { task with
    sessionsRunning := task.sessionsRunning.erase sid
    sessionsFinished := task.sessionsFinished ++ [sid] }

/-- The session owed the result, but failed. -/
def dethrone (sid : SessionId) : Task :=
  { task with completedBySession := if task.completedBySession = some sid then none else task.completedBySession }

end Task

/-- The results after which a task may have to be rescheduled. -/
def isServerFailure : SessionResult → Bool
  | .failure | .timedOut | .terminated => true
  | _ => false

/-! ## Commands -/

structure TaskResult where
  retcode : Retcode
  stdout : Bytes := []
  stderr : Bytes := []
  deriving DecidableEq, Repr

/-- The final message to the client. -/
inductive ClientReply where
  | exit (retcode : Retcode) (stdout stderr : Bytes)
  /-- `EXECUTE_AND_EXIT` with the linker's command line. -/
  | executeAndExit
  deriving DecidableEq, Repr

/-- The order in which a dictionary lists what was entered into it: any order. -/
structure DictOrder where
  items : List (TaskId × TaskResult) → List (TaskId × TaskResult)
  perm : ∀ entered, (items entered).Perm entered

/-- As it was entered. -/
def DictOrder.entered : DictOrder := ⟨id, List.Perm.refl⟩

structure Command where
  tasks : List TaskId := []
  /-- What was entered into `completed_tasks`. -/
  completedTasks : List (TaskId × TaskResult) := []
  order : DictOrder := .entered
  tasksWithSessionsDone : List TaskId := []
  shouldInvokeLinker : Bool := false
  /-- What `postprocess` sent. -/
  replies : List ClientReply := []
  /-- How often the command was passed to `async_insert`. -/
  inserted : Nat := 0

namespace Command
variable (command : Command)

def completed : List TaskId := command.completedTasks.map (·.1)

/-- `completed_tasks.items()`. -/
def items : List (TaskId × TaskResult) := command.order.items command.completedTasks

/-- The return code `postprocess` exits with: the last one listed that is not zero. -/
def exitErrorCode : Retcode :=
  command.items.foldl (fun code (_, result) => if result.retcode ≠ 0 then result.retcode else code) 0

def stdout : Bytes := command.items.flatMap (·.2.stdout)
def stderr : Bytes := command.items.flatMap (·.2.stderr)

def postprocess : Command :=
  { command with
    replies := command.replies ++
      [if command.exitErrorCode ≠ 0 then .exit command.exitErrorCode command.stdout command.stderr
        else if command.shouldInvokeLinker then .executeAndExit
        else .exit 0 command.stdout command.stderr] }

/-- Two lists have the same elements: equality of the sets they stand for. -/
def sameElements (a b : List TaskId) : Bool := a.all (· ∈ b) && b.all (· ∈ a)

def addResult (task : TaskId) (result : TaskResult) : Command :=
  { command with completedTasks := command.completedTasks ++ [(task, result)] }

/-- Once every task has its result, the client is answered. -/
def postprocessIfDone : Command :=
  if sameElements command.tasks command.completed then command.postprocess else command

def sessionsDone (task : TaskId) : Command :=
  { command with
    tasksWithSessionsDone :=
      if task ∈ command.tasksWithSessionsDone then command.tasksWithSessionsDone
      else command.tasksWithSessionsDone ++ [task] }

end Command

end BuildPal.Scheduler
