import BuildPal.Manager.ClientProcessor
/-!
# Compiling on the client

`ClientTaskCompiler` of `command_processor.py`: tasks that cannot be distributed
are handed back to the client, one at a time, and wait for their turn. Neither
way in is ever gone through to its end, so that no such task is compiled.
-/
open BuildPal.Lib BuildPal.Message
open BuildPal.Conversation (Raised CompileOptions CommandProcessor parseOutput)
open BuildPal.Scheduler (TaskId)

namespace BuildPal.LocalCompiles

/-! ## The call -/

structure LocalTask where
  id : TaskId
  source : String
  output : String
  deriving DecidableEq, Repr

/-- A class method of `MSVCCompiler` that takes the value of an option, and the arguments it is called with. -/
def setOption (flag : String) : List String → Except Raised String
  | [val] => .ok (flag ++ val)
  | _ => .error .typeError

def setIncludeOption : List String → Except Raised String := setOption "/I"
def setDefineOption : List String → Except Raised String := setOption "/D"
def setPchFileOption : List String → Except Raised String := setOption "/Fp"
def setUsePchOption : List String → Except Raised String := setOption "/Yu"
def setObjectNameOption : List String → Except Raised String := setOption "/Fo"

/-- `call.append(compiler.set_include_option().format(include))` and the like. The method is given nothing, and what it
returns is to be formatted; it returns nothing. -/
def appendOption (set : List String → Except Raised String) (call : List String) : Except Raised (List String) := do
  let text ← set []
  return call ++ [text]

def appendPch (o : CompileOptions) (call : List String) : Except Raised (List String) :=
  match o.pchFile.filter (· ≠ "") with
  | none => .ok call
  | some _ => do
    let call ← appendOption setPchFileOption call
    appendOption setUsePchOption call

/-- The call that `compile_on_client` makes up. -/
def clientCall (o : CompileOptions) (task : LocalTask) : Except Raised (List String) := do
  let call ← o.createServerCall
  let call ← (o.values "I").foldlM (fun call _ => appendOption setIncludeOption call) call
  let call ← (o.values "D").foldlM (fun call _ => appendOption setDefineOption call) call
  let call ← appendPch o call
  let call ← appendOption setObjectNameOption call
  return call ++ [task.source]

/-! ## The queue -/

/-- `current_task` is a task, or what was taken from the waiting list. -/
inductive Current where
  | task (t : LocalTask)
  | entry (options : CompileOptions) (t : LocalTask)
  deriving DecidableEq, Repr

/-- `appended`, `sent` and `completed` list the tasks in the order in which `append_task` was called for them, their
commands went to the client, and replies were passed on to them. `answered` counts the replies. -/
structure ClientTaskCompiler where
  tasksWaiting : List (CompileOptions × LocalTask) := []
  clientReady : Bool := false
  currentTask : Option Current := none
  started : Bool := false
  appended : List LocalTask := []
  sent : List (LocalTask × List String) := []
  completed : List (LocalTask × (Int × Bytes × Bytes)) := []
  answered : Nat := 0

/-- `compiler. options`, where a comma was meant. The compiler has no such attribute. -/
def compilerOptions : Except Raised CompileOptions := .error .attributeError

namespace ClientTaskCompiler
variable (s : ClientTaskCompiler)

def compileOnClient (o : CompileOptions) (task : LocalTask) : ClientTaskCompiler × Option Raised :=
  let s := { s with currentTask := some (.task task) }
  match clientCall o task with
  | .error e => (s, some e)
  | .ok call => ({ s with sent := s.sent ++ [(task, call)] }, none)

/-- An entry of the waiting list has one part less than `compile_on_client` takes. -/
def setClientReady : ClientTaskCompiler × Option Raised :=
  match s.tasksWaiting with
  | [] => ({ s with clientReady := true }, none)
  | (options, task) :: waiting =>
    ({ s with tasksWaiting := waiting, currentTask := some (.entry options task) }, some .typeError)

def appendTask (o : CompileOptions) (task : LocalTask) : ClientTaskCompiler × Option Raised :=
  if s.clientReady then { s with clientReady := false }.compileOnClient o task
  else
    match compilerOptions with
    | .error e => (s, some e)
    | .ok options => ({ s with tasksWaiting := s.tasksWaiting ++ [(options, task)] }, none)

/-- `returns`: the task's `task_completed` does. -/
def taskDone (msg : List Bytes) (returns : Bool) : ClientTaskCompiler × Option Raised :=
  match s.currentTask with
  | none => (s, some .assertionError)
  | some current =>
    match parseOutput msg with
    | .error e => (s, some e)
    | .ok result =>
      match current with
      | .entry _ _ => (s, some .attributeError)
      | .task task =>
        let s := { s with completed := s.completed ++ [(task, result)] }
        if returns then s.setClientReady else (s, some .assertionError)

end ClientTaskCompiler

inductive Event where
  /-- The compiler is known: the first call of `client_ready`. -/
  | clientReady
  | appendTask (options : CompileOptions) (task : LocalTask)
  /-- The client answers. -/
  | taskDone (msg : List Bytes) (returns : Bool)

def Event.tasks : Event → List LocalTask
  | .appendTask _ task => [task]
  | .clientReady | .taskDone .. => []

/-- The client answers what it was sent, and nothing else. -/
def step (s : ClientTaskCompiler) : Event → Option ClientTaskCompiler
  | .clientReady => if s.started then none else some { s with started := true }.setClientReady.1
  | .appendTask options task => some ({ s with appended := s.appended ++ [task] }.appendTask options task).1
  | .taskDone msg returns =>
    if s.answered < s.sent.length then some ({ s with answered := s.answered + 1 }.taskDone msg returns).1 else none

/-- Every task has been sent or waits, in the order in which they came; one at most is with the client, and none waits
while none is; and the replies have gone to the tasks whose commands they answer. -/
structure Queued (s : ClientTaskCompiler) : Prop where
  inOrder : s.sent.map (·.1) ++ s.tasksWaiting.map (·.2) = s.appended
  oneOutstanding : s.sent.length ≤ s.answered + 1
  noneIdle : s.started = true → s.sent.length = s.answered → s.tasksWaiting = []
  credited : s.completed.map (·.1) = (s.sent.map (·.1)).take s.answered

/-! ## No command is sent -/

theorem bind_error {α β : Type} (x : Except Raised α) {f : α → Except Raised β} (h : ∀ a, ∃ e, f a = .error e) :
    ∃ e, x >>= f = .error e := by
  cases x with
  | error e => exact ⟨e, rfl⟩
  | ok a => exact h a

/-- Whatever the options, the name of the object file is asked for without a name. -/
theorem clientCall_error (o : CompileOptions) (task : LocalTask) : ∃ e, clientCall o task = .error e := by
  refine bind_error _ fun call => bind_error _ fun call => bind_error _ fun call => bind_error _ fun call => ?_
  exact ⟨.typeError, rfl⟩

theorem compileOnClient_eq (s : ClientTaskCompiler) (o : CompileOptions) (task : LocalTask) :
    (s.compileOnClient o task).1 = { s with currentTask := some (.task task) } := by
  obtain ⟨e, he⟩ := clientCall_error o task
  rw [ClientTaskCompiler.compileOnClient, he]

/-- `append_task` puts no task on the waiting list, and has none sent. -/
theorem appendTask_eq (s : ClientTaskCompiler) (o : CompileOptions) (task : LocalTask) :
    (s.appendTask o task).1 =
      if s.clientReady then { s with clientReady := false, currentTask := some (.task task) } else s := by
  rw [ClientTaskCompiler.appendTask]
  split
  · rw [compileOnClient_eq]
  · rfl

theorem appendTask_raises (s : ClientTaskCompiler) (o : CompileOptions) (task : LocalTask) :
    (s.appendTask o task).2 ≠ none := by
  obtain ⟨e, he⟩ := clientCall_error o task
  rw [ClientTaskCompiler.appendTask]
  split
  · rw [ClientTaskCompiler.compileOnClient, he]
    simp
  · simp [compilerOptions]

/-- Nothing has been sent, nothing waits, and nothing was answered. -/
structure Silent (s : ClientTaskCompiler) : Prop where
  sent : s.sent = []
  waiting : s.tasksWaiting = []
  completed : s.completed = []
  answered : s.answered = 0

section Step
variable {s s' : ClientTaskCompiler}

theorem step_silent {e : Event} (h : Silent s) (hs : step s e = some s') :
    Silent s' ∧ s'.appended = s.appended ++ e.tasks := by
  cases e with
  | clientReady =>
    simp only [step] at hs
    split at hs
    · cases hs
    · cases hs
      simp only [ClientTaskCompiler.setClientReady, h.waiting]
      exact ⟨⟨h.sent, rfl, h.completed, h.answered⟩, by simp [Event.tasks]⟩
  | appendTask options task =>
    cases hs
    rw [appendTask_eq]
    split
    · exact ⟨⟨h.sent, h.waiting, h.completed, h.answered⟩, rfl⟩
    · exact ⟨⟨h.sent, h.waiting, h.completed, h.answered⟩, rfl⟩
  | taskDone msg returns =>
    -- there is nothing to answer
    simp [step, h.sent, h.answered] at hs

theorem run_silent (events : List Event) (h : Silent s) (hrun : run step s events = some s') :
    Silent s' ∧ s'.appended = s.appended ++ events.flatMap Event.tasks := by
  induction events generalizing s with
  | nil =>
    cases hrun
    exact ⟨h, by simp⟩
  | cons e events ih =>
    obtain ⟨s₁, hs, hrun'⟩ := Option.bind_eq_some_iff.1 hrun
    obtain ⟨h₁, happended⟩ := step_silent h hs
    obtain ⟨h', happended'⟩ := ih h₁ hrun'
    exact ⟨h', by rw [happended', happended, List.append_assoc, List.flatMap_cons]⟩

theorem Silent.queued_iff (h : Silent s) : Queued s ↔ s.appended = [] := by
  constructor
  · intro hq
    simpa [h.sent, h.waiting] using hq.inOrder.symm
  · intro happended
    exact ⟨by simp [h.sent, h.waiting, happended], by simp [h.sent], fun _ _ => h.waiting,
      by simp [h.sent, h.completed]⟩

end Step

/-! ## Main theorem -/

/-- **Local compilations are queued as they should be** in the runs without any, and in no others. -/
theorem local_tasks_queued (events : List Event) (s : ClientTaskCompiler) (hrun : run step {} events = some s) :
    Queued s ↔ ∀ options task, Event.appendTask options task ∉ events := by
  obtain ⟨hsilent, happended⟩ := run_silent events ⟨rfl, rfl, rfl, rfl⟩ hrun
  rw [hsilent.queued_iff, happended, List.nil_append, List.flatMap_eq_nil_iff]
  constructor
  · intro h options task hmem
    cases h _ hmem
  · intro h e he
    cases e with
    | appendTask options task => exact absurd he (h options task)
    | clientReady => rfl
    | taskDone msg returns => rfl

theorem local_tasks_queued_none : Queued { clientReady := true, started := true } :=
  (local_tasks_queued [.clientReady] _ rfl).2 (by simp)

/-- A task that comes before the client is ready is neither sent nor kept. -/
theorem early_task_lost :
    ∃ s, run step {} [.appendTask ⟨[]⟩ ⟨⟨0, 0⟩, "a.cpp", "a.obj"⟩, .clientReady] = some s ∧ s.sent = [] ∧
      s.tasksWaiting = [] ∧ s.clientReady = true ∧ ¬ Queued s :=
  ⟨_, rfl, rfl, rfl, rfl, fun h => by cases h.inOrder⟩

/-! ## As the conversation has it -/

def ClientTaskCompiler.view (s : ClientTaskCompiler) : Conversation.ClientTaskCompiler where
  clientReady := s.clientReady
  currentTask := s.currentTask.map fun | .task t => t.id | .entry _ t => t.id

/-- `CommandProcessor.compile_on_client` in the conversation with the client is `append_task` here. -/
theorem compileOnClient_refines (cp : CommandProcessor) (s : ClientTaskCompiler) (o : CompileOptions)
    (task : LocalTask) :
    { cp with clientTaskCompiler := s.view }.compileOnClient task.id =
      { cp with clientTaskCompiler := (s.appendTask o task).1.view } := by
  rw [appendTask_eq, CommandProcessor.compileOnClient]
  cases hready : s.clientReady <;> simp [ClientTaskCompiler.view, hready]

theorem clientIsReady_refines (cp : CommandProcessor) {s : ClientTaskCompiler} (h : Silent s) :
    { cp with clientTaskCompiler := s.view }.clientIsReady =
      { cp with clientTaskCompiler := s.setClientReady.1.view } := by
  rw [ClientTaskCompiler.setClientReady, h.waiting]
  rfl

end BuildPal.LocalCompiles
