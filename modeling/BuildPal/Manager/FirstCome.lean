import BuildPal.Lib.Line
import BuildPal.Manager.Pending
/-!
# First come, first served

`schedule_task` puts a task at the end of the queue, or at its head when its
session has failed, and `__find_work` takes tasks from the head. A task may be
stolen, retried and completed while others wait; still none is ever passed by
a task that was preprocessed after it.
-/
open BuildPal.Lib BuildPal.Message

namespace BuildPal.Scheduler

/-- A session was made for the task. -/
def Served (s : NodeManager) (t : TaskId) : Prop := ∃ sid obj, s.objects sid = some obj ∧ obj.task = t

/-- A session was made for the task, or the connection for it is being made. -/
def Called (s : NodeManager) (t : TaskId) : Prop := Served s t ∨ ∃ node, (t, node) ∈ s.connecting

/-- The tasks that came from the source scanner, in this order. -/
def arrivals (events : List Event) : List TaskId :=
  events.filterMap fun e => match e with
    | .preprocessed t => some t
    | _ => none

/-! ## What leaves the tasks as they are -/

/-- Nothing is scheduled, and the sessions are for the tasks they were for. -/
structure SameTasks (s s' : NodeManager) : Prop extends SameLoad s s' where
  objects : ∀ sid, (s'.objects sid).map Session.task = (s.objects sid).map Session.task
  counter : s.counter ≤ s'.counter
  scan : ∀ t, (s'.tasks t).scan = (s.tasks t).scan
  commands : ∀ c, (s'.commands c).tasks = (s.commands c).tasks
  failures : s'.failures = [] → s.failures = []

namespace SameTasks
variable {s s' s'' : NodeManager} {t : TaskId} {sid : SessionId} {obj : Session} {elapsed : Rat}

theorem refl (s : NodeManager) : SameTasks s s := ⟨.refl s, fun _ => rfl, le_rfl, fun _ => rfl, fun _ => rfl, id⟩

theorem trans (h : SameTasks s s') (h' : SameTasks s' s'') : SameTasks s s'' where
  toSameLoad := h.toSameLoad.trans h'.toSameLoad
  objects sid := (h'.objects sid).trans (h.objects sid)
  counter := h.counter.trans h'.counter
  scan t := (h'.scan t).trans (h.scan t)
  commands c := (h'.commands c).trans (h.commands c)
  failures hnone := h.failures (h'.failures hnone)

theorem served (h : SameTasks s s') : Served s' t ↔ Served s t := by
  have hobject : ∀ {s : NodeManager}, Served s t ↔ ∃ sid, (s.objects sid).map Session.task = some t := by
    intro s
    simp only [Served, Option.map_eq_some_iff]
  rw [hobject, hobject]
  simp only [h.objects]

theorem called (h : SameTasks s s') : Called s' t ↔ Called s t := by
  unfold Called
  rw [h.served, h.connecting]

theorem raise {failure : Failure} : SameTasks s (s.raise failure) := by
  refine ⟨⟨rfl, rfl, rfl, rfl, rfl, fun _ => rfl⟩, fun _ => rfl, le_rfl, fun _ => rfl, fun _ => rfl, fun hnone => ?_⟩
  simp [NodeManager.raise] at hnone

theorem setTask {task : Task} (h : task.scan = (s.tasks t).scan) : SameTasks s (s.setTask t task) := by
  refine ⟨⟨rfl, rfl, rfl, rfl, rfl, fun _ => rfl⟩, fun _ => rfl, le_rfl, fun t' => ?_, fun _ => rfl, id⟩
  by_cases ht : t' = t
  · subst ht
    simpa [NodeManager.setTask] using h
  · simp [NodeManager.setTask, ht]

theorem setCommand {c : CommandId} {command : Command} (h : command.tasks = (s.commands c).tasks) :
    SameTasks s (s.setCommand c command) := by
  refine ⟨⟨rfl, rfl, rfl, rfl, rfl, fun _ => rfl⟩, fun _ => rfl, le_rfl, fun _ => rfl, fun c' => ?_, id⟩
  by_cases hc : c' = c
  · subst hc
    simpa [NodeManager.setCommand] using h
  · simp [NodeManager.setCommand, hc]

theorem setNode {node : NodeId} {info : NodeInfo} (h : info.jobSlots = (s.nodes node).jobSlots) :
    SameTasks s (s.setNode node info) :=
  ⟨SameLoad.setNode h, fun _ => rfl, le_rfl, fun _ => rfl, fun _ => rfl, id⟩

theorem setObject (hobj : (s.objects sid).map Session.task = some obj.task) (session : ServerSession) :
    SameTasks s (s.setObject sid { obj with session }) := by
  refine ⟨⟨rfl, rfl, rfl, rfl, rfl, fun _ => rfl⟩, fun sid' => ?_, le_rfl, fun _ => rfl, fun _ => rfl, id⟩
  by_cases hsid : sid' = sid
  · subst hsid
    simp [NodeManager.setObject, hobj]
  · simp [NodeManager.setObject, hsid]

theorem taskCompleted {result : TaskResult} {session : Option SessionId} :
    SameTasks s (s.taskCompleted t result session) := by
  have hlogged : SameTasks s (s.logReport t session) :=
    ⟨⟨rfl, rfl, rfl, rfl, rfl, fun _ => rfl⟩, fun _ => rfl, le_rfl, fun _ => rfl, fun _ => rfl, id⟩
  unfold NodeManager.taskCompleted
  split
  · exact hlogged.trans raise
  · split
    · exact hlogged.trans raise
    · exact hlogged.trans (setCommand (postprocessIfDone_tasks _))

theorem noMoreSessions : SameTasks s (s.noMoreSessions t).1 := by
  obtain ⟨c, hsame, heq⟩ := noMoreSessions_spec s t
  rw [heq]
  refine (setCommand hsame.tasks).trans
    ⟨⟨rfl, rfl, rfl, rfl, rfl, fun _ => rfl⟩, fun _ => rfl, le_rfl, fun _ => rfl, fun _ => rfl, fun hnone => ?_⟩
  dsimp only at hnone
  split at hnone
  · exact hnone
  · simp at hnone

theorem sessionDelivered {result : SessionResult} : SameTasks s (s.sessionDelivered sid obj result elapsed) := by
  have hrecorded : SameTasks s (s.noMoreSessions obj.task).1 := noMoreSessions
  unfold NodeManager.sessionDelivered
  split
  · refine hrecorded.trans ?_
    unfold NodeManager.reportResult
    split
    · refine SameTasks.trans (setNode ?_) taskCompleted
      rfl
    · exact raise
  · exact hrecorded

theorem taskSessionCompleted : SameTasks s (s.taskSessionCompleted sid obj elapsed).1 := by
  have hfinish : SameTasks s (s.setTask obj.task ((s.tasks obj.task).finish sid)) := setTask rfl
  have hdethrone : SameTasks s (s.setTask obj.task (((s.tasks obj.task).finish sid).dethrone sid)) := setTask rfl
  unfold NodeManager.taskSessionCompleted
  cases obj.session.result with
  | none => exact raise
  | some result =>
    dsimp only
    split
    · exact raise
    · cases hinfo : (s.nodes obj.node).processSessionResult result with
      | none => exact hfinish.trans raise
      | some info =>
        have hslots := processSessionResult_jobSlots hinfo
        dsimp only
        split
        · exact hdethrone.trans (setNode hslots)
        · exact (hfinish.trans (setNode hslots)).trans sessionDelivered

/-- The other sessions of the task are cancelled. -/
theorem registration {msg : FromServer} : SameTasks s (s.registration sid obj msg).1 := by
  unfold NodeManager.registration
  split
  · unfold NodeManager.registerCompletion
    dsimp only
    split
    · exact .refl s
    · refine ⟨⟨rfl, rfl, rfl, rfl, rfl, fun _ => rfl⟩, fun other => ?_, le_rfl, fun t => ?_, fun _ => rfl, id⟩
      · dsimp only
        split
        · rw [Option.map_map]
          rfl
        · rfl
      · by_cases ht : t = obj.task
        · subst ht
          simp
        · simp [ht]
  · exact .refl s

end SameTasks

/-! ## The queue -/

/-- The queue is a line of the tasks that came from the source scanner. -/
structure FirstCome (arrived : List TaskId) (s : NodeManager) : Prop where
  nodup : arrived.Nodup
  known : ∀ t ∈ arrived, (s.tasks t).scan ≠ none ∧ t ∈ (s.commands t.command).tasks
  called : ∀ t, Called s t → t ∈ arrived
  running : ∀ n, ∀ t ∈ s.tasksRunning n, Served s t
  fresh : ∀ sid, s.counter < sid → s.objects sid = none
  line : InLine arrived (Served s) (Called s) s.unassignedTasks
  /-- Unless something raised, whoever does not wait has been called. -/
  left : s.failures = [] → ∀ t ∈ arrived, Called s t ∨ t ∈ s.unassignedTasks

namespace FirstCome
variable {arrived : List TaskId} {s s' : NodeManager} {t : TaskId} {node : NodeId} {sid : SessionId} {obj : Session}
  {elapsed : Rat} {order : NodeManager → List NodeId}

theorem init (slots : NodeId → Option Nat) (orders : CommandId → DictOrder) : FirstCome [] (.initial slots orders) where
  nodup := List.nodup_nil
  known := by simp
  called := by simp [Called, Served]
  running := by simp
  fresh := fun _ _ => rfl
  line := .empty
  left := by simp

theorem same (h : FirstCome arrived s) (hs : SameTasks s s') : FirstCome arrived s' where
  nodup := h.nodup
  known t ht := by
    rw [hs.scan, hs.commands]
    exact h.known t ht
  called t ht := h.called t (hs.called.1 ht)
  running n t ht := by
    rw [hs.tasksRunning] at ht
    exact hs.served.2 (h.running n t ht)
  fresh sid hsid := by
    have hnone := hs.objects sid
    rwa [h.fresh sid (hs.counter.trans_lt hsid), Option.map_none, Option.map_eq_none_iff] at hnone
  line := by
    rw [hs.unassignedTasks]
    exact h.line.mono (fun t => hs.served.2) fun t => hs.called.1
  left hnone t ht := by
    rw [hs.called, hs.unassignedTasks]
    exact h.left (hs.failures hnone) t ht

/-- The first of the queue are called; others are stolen. -/
theorem connect (h : FirstCome arrived s) {ts : List TaskId} {n : Nat}
    (hts : ∀ t ∈ ts, t ∈ s.unassignedTasks.take n ∨ Served s t) (hfirst : ∀ t ∈ s.unassignedTasks.take n, t ∈ ts)
    (hqueue : ∀ t ∈ s.unassignedTasks, t ∈ arrived) :
    FirstCome arrived { s.connect ts node with unassignedTasks := s.unassignedTasks.drop n } := by
  have hcalled : ∀ t, Called { s.connect ts node with unassignedTasks := s.unassignedTasks.drop n } t →
      Called s t ∨ t ∈ s.unassignedTasks.take n := by
    rintro t (hserved | ⟨n', hmem⟩)
    · exact .inl (.inl hserved)
    · rcases List.mem_append.1 hmem with hmem | hmem
      · exact .inl (.inr ⟨n', hmem⟩)
      · obtain ⟨t', ht', heq⟩ := List.mem_map.1 hmem
        obtain rfl := (Prod.mk.inj heq).1
        rcases hts t' ht' with htaken | hserved
        · exact .inr htaken
        · exact .inl (.inl hserved)
  refine ⟨h.nodup, h.known, fun t ht => ?_, h.running, h.fresh, ?_, fun hnone t ht => ?_⟩
  · rcases hcalled t ht with hold | htaken
    · exact h.called t hold
    · exact hqueue t (List.mem_of_mem_take htaken)
  · exact h.line.call h.nodup (fun t ht => .inl ht) n hcalled
  · rcases h.left hnone t ht with (hserved | ⟨n', hmem⟩) | hwaits
    · exact .inl (.inl hserved)
    · exact .inl (.inr ⟨n', List.mem_append_left _ hmem⟩)
    · rw [← List.take_append_drop n s.unassignedTasks] at hwaits
      rcases List.mem_append.1 hwaits with htaken | hwaits
      · exact .inl (.inr ⟨node, List.mem_append_right _ (List.mem_map.2 ⟨t, hfirst t htaken, rfl⟩)⟩)
      · exact .inr hwaits

/-- Everything in the queue has arrived. -/
theorem queue_arrived (h : FirstCome arrived s) (ht : t ∈ s.unassignedTasks) : t ∈ arrived := by
  obtain ⟨returned, waiting, heq, horder, hreturned, -⟩ := h.line
  rw [heq] at ht
  rcases List.mem_append.1 ht with ht | ht
  · exact h.called t (.inl (hreturned t ht))
  · exact horder.subset ht

theorem findWork (h : FirstCome arrived s) (node : NodeId) : FirstCome arrived (s.findWork order node) := by
  cases hslots : s.slotless node with
  | true =>
    rw [findWork_raises order hslots]
    exact h.same .raise
  | false =>
    rw [findWork_eq order hslots, List.take_append]
    apply h.connect
    · intro t ht
      rcases List.mem_append.1 ht with htaken | hstolen
      · exact .inl htaken
      · obtain ⟨-, src, hsrc⟩ := stealable_running (List.mem_of_mem_take hstolen)
        exact .inr (h.running src t hsrc)
    · exact fun t ht => List.mem_append_left _ ht
    · exact fun t ht => h.queue_arrived ht

theorem findWorkAll (h : FirstCome arrived s) (nodes : List NodeId) :
    FirstCome arrived (s.findWorkAll order nodes) := by
  induction nodes generalizing s with
  | nil => exact h
  | cons node nodes ih =>
    unfold NodeManager.findWorkAll
    split
    · exact h.findWork node
    · exact ih (h.findWork node)

/-- A task whose session has failed comes back. -/
theorem reschedule (h : FirstCome arrived s) (hserved : Served s t) : FirstCome arrived (s.scheduleTask t true) := by
  by_cases hsched : Schedulable s
  swap
  · rw [scheduleTask_raises hsched]
    exact h.same .raise
  rw [scheduleTask_eq hsched]
  split
  · rename_i node hchosen
    have htask : ∀ t' ∈ [t], t' ∈ s.unassignedTasks.take 0 ∨ Served s t' := by
      intro t' ht'
      rw [List.mem_singleton.1 ht']
      exact .inr hserved
    exact h.connect htask (by simp) fun t' ht' => h.queue_arrived ht'
  · refine { h with line := h.line.comeBack hserved, left := fun hnone t' ht' => ?_ }
    exact (h.left hnone t' ht').imp_right (List.mem_cons_of_mem _)

/-- A task comes from the source scanner. -/
theorem arrive (h : FirstCome arrived s) (hnew : t ∉ arrived) (hscan : (s.tasks t).scan ≠ none)
    (hknown : t ∈ (s.commands t.command).tasks) : FirstCome (arrived ++ [t]) (s.scheduleTask t false) := by
  have hnodup : (arrived ++ [t]).Nodup := List.nodup_append_comm.1 (List.nodup_cons.2 ⟨hnew, h.nodup⟩)
  have hall : ∀ t' ∈ arrived ++ [t], (s.tasks t').scan ≠ none ∧ t' ∈ (s.commands t'.command).tasks := by
    intro t' ht'
    rcases List.mem_append.1 ht' with ht' | ht'
    · exact h.known t' ht'
    · rw [List.mem_singleton.1 ht']
      exact ⟨hscan, hknown⟩
  by_cases hsched : Schedulable s
  swap
  · -- the task is in no queue, as something has raised
    obtain ⟨hempty, -⟩ := Classical.not_imp.1 hsched
    rw [scheduleTask_raises hsched]
    refine ⟨hnodup, hall, fun t' ht' => List.mem_append_left _ (h.called t' ht'), h.running, h.fresh, ?_,
      fun hnone => by simp [NodeManager.raise] at hnone⟩
    change InLine _ _ _ s.unassignedTasks
    rw [hempty]
    exact .empty
  rw [scheduleTask_eq hsched]
  split
  · rename_i n hchosen
    -- A node is chosen only while nobody waits.
    have hempty : s.unassignedTasks = [] := by
      by_contra hne
      rw [NodeManager.chosenNode, if_neg fun hboth => hne hboth.1] at hchosen
      cases hchosen
    refine ⟨hnodup, hall, ?_, h.running, h.fresh, ?_, fun hnone t' ht' => ?_⟩
    · rintro t' (hserved | ⟨n', hmem⟩)
      · exact List.mem_append_left _ (h.called t' (.inl hserved))
      · rcases List.mem_append.1 hmem with hmem | hmem
        · exact List.mem_append_left _ (h.called t' (.inr ⟨n', hmem⟩))
        · simp only [List.map_cons, List.map_nil, List.mem_singleton, Prod.mk.injEq] at hmem
          simp [hmem.1]
    · change InLine _ _ _ s.unassignedTasks
      rw [hempty]
      exact .empty
    · rcases List.mem_append.1 ht' with ht' | ht'
      · rcases h.left hnone t' ht' with (hserved | ⟨n', hmem⟩) | hwaits
        · exact .inl (.inl hserved)
        · exact .inl (.inr ⟨n', List.mem_append_left _ hmem⟩)
        · exact .inr hwaits
      · rw [List.mem_singleton.1 ht']
        exact .inl (.inr ⟨n, List.mem_append_right _ (by simp)⟩)
  · refine ⟨hnodup, hall, fun t' ht' => List.mem_append_left _ (h.called t' ht'), h.running, h.fresh,
      h.line.arrive fun hcalled => hnew (h.called t hcalled), fun hnone t' ht' => ?_⟩
    rcases List.mem_append.1 ht' with ht' | ht'
    · exact (h.left hnone t' ht').imp_right (List.mem_append_left _)
    · exact .inr (List.mem_append_right _ ht')

theorem removeSession (h : FirstCome arrived s) : FirstCome arrived (s.removeSession sid obj) where
  nodup := h.nodup
  known := h.known
  called := h.called
  running n t ht := by
    by_cases hn : n = obj.node
    · subst hn
      simp only [NodeManager.removeSession, Function.update_self] at ht
      exact h.running _ t (List.mem_of_mem_erase ht)
    · simp only [NodeManager.removeSession, Function.update_of_ne hn] at ht
      exact h.running n t ht
  fresh := h.fresh
  line := h.line
  left := h.left

theorem sessionCompleted (h : FirstCome arrived s) : FirstCome arrived (s.sessionCompleted order sid obj elapsed) := by
  unfold NodeManager.sessionCompleted
  split
  · exact h.same .raise
  · split
    · have herased : SameTasks s { s with sessions := s.sessions.erase sid } :=
        ⟨⟨rfl, rfl, rfl, rfl, rfl, fun _ => rfl⟩, fun _ => rfl, le_rfl, fun _ => rfl, fun _ => rfl, id⟩
      exact h.same (herased.trans .raise)
    · rename_i hmem
      have hserved : Served s obj.task := h.running _ _ (by simpa using hmem)
      have hremoved : FirstCome arrived (s.removeSession sid obj) := h.removeSession
      have hdone : FirstCome arrived ((s.removeSession sid obj).findWork order obj.node) := hremoved.findWork obj.node
      have hsame : SameTasks _ (((s.removeSession sid obj).findWork order obj.node).taskSessionCompleted sid obj
        elapsed).1 := .taskSessionCompleted
      dsimp only
      split
      · exact hdone
      · split
        · refine (hdone.same hsame).reschedule (hsame.served.2 ?_)
          rw [(Rearranged.findWork _ order obj.node).same]
          exact hserved
        · exact hdone.same hsame

theorem replied (h : FirstCome arrived s) (hobj : (s.objects sid).map Session.task = some obj.task)
    {reply : ServerSession.Reply} : FirstCome arrived (s.replied order sid obj reply elapsed) := by
  have hset := h.same (.setObject hobj reply.session)
  unfold NodeManager.replied
  cases reply.action with
  | none => exact hset
  | some action =>
    cases action with
    | compressPch => exact hset
    | gather =>
      exact hset.same ⟨⟨rfl, rfl, rfl, rfl, rfl, fun _ => rfl⟩, fun _ => rfl, le_rfl, fun _ => rfl, fun _ => rfl, id⟩
    | raise => exact hset.same .raise
    | complete result => exact hset.sessionCompleted

theorem terminateSessions (h : FirstCome arrived s) (gone : List SessionId) :
    FirstCome arrived (NodeManager.terminateSessions order s gone) := by
  induction gone generalizing s with
  | nil => exact h
  | cons sid rest ih =>
    unfold NodeManager.terminateSessions
    cases hobj : s.objects sid with
    | none => exact h
    | some obj =>
      have hreplied : FirstCome arrived (s.replied order sid obj obj.session.terminate 0) := h.replied (by simp [hobj])
      dsimp only
      split
      · exact ih hreplied
      · exact hreplied

theorem updateNodeInfo (h : FirstCome arrived s) {live : Bool} (nodes : List NodeId) (gone : List SessionId) :
    FirstCome arrived (s.updateNodeInfo live order nodes gone) := by
  have hpolled : FirstCome arrived { s with nodeInfo := nodes, polled := true } := { h with }
  have hgone : FirstCome arrived
      (NodeManager.terminateSessions order { s with nodeInfo := nodes, polled := true } gone) :=
    hpolled.terminateSessions gone
  unfold NodeManager.updateNodeInfo
  dsimp only
  split
  · exact hgone.findWorkAll _
  · exact hgone

theorem scanned (h : FirstCome arrived s) {scan : Scan} (hs : s.scanned t scan = some s') :
    FirstCome arrived s' ∧ t ∉ arrived ∧ (s'.tasks t).scan = some scan ∧ t ∈ (s'.commands t.command).tasks := by
  unfold NodeManager.scanned at hs
  obtain ⟨⟨hmem, hnone⟩, heq⟩ := Option.ite_none_right_eq_some.1 hs
  obtain rfl := Option.some.inj heq
  have hnew : t ∉ arrived := fun ht => (h.known t ht).1 hnone
  refine ⟨{ h with known := fun t' ht' => ?_ }, hnew, by simp [NodeManager.setTask], hmem⟩
  have hne : t' ≠ t := fun heq => hnew (heq ▸ ht')
  simpa [NodeManager.setTask, hne] using h.known t' ht'

theorem createTasks (h : FirstCome arrived s) {c : CommandId} (hnone : (s.commands c).tasks = []) (command : Command)
    (tasks : TaskId → Task) (hkept : ∀ t, t.command ≠ c → tasks t = s.tasks t) :
    FirstCome arrived { s.setCommand c command with tasks } := by
  refine { h with known := fun t ht => ?_ }
  obtain ⟨hscan, hmem⟩ := h.known t ht
  have hne : t.command ≠ c := by
    rintro rfl
    rw [hnone] at hmem
    cases hmem
  refine ⟨?_, ?_⟩
  · change (tasks t).scan ≠ none
    rwa [hkept t hne]
  · simpa [NodeManager.setCommand, hne] using hmem

/-- The connection for a task is lost, and the task with it. -/
theorem dropped (h : FirstCome arrived s) (i : Nat) {counter : Nat} (hcounter : s.counter ≤ counter)
    (failure : Failure) :
    FirstCome arrived ({ s with connecting := s.connecting.eraseIdx i, counter }.raise failure) := by
  have hcalled : ∀ t, Called { s with connecting := s.connecting.eraseIdx i } t → Called s t := by
    rintro t (hserved | ⟨n, hmem⟩)
    · exact .inl hserved
    · exact .inr ⟨n, List.mem_of_mem_eraseIdx hmem⟩
  exact { h with
    called := fun t ht => h.called t (hcalled t ht)
    fresh := fun sid hsid => h.fresh sid (hcounter.trans_lt hsid)
    line := h.line.mono (fun _ ht => ht) hcalled
    left := fun hnone => by simp [NodeManager.raise] at hnone }

/-- The connection for a task is made, and its session with it. -/
theorem connected (h : FirstCome arrived s) {i : Nat} (hi : s.connecting[i]? = some (t, node)) :
    FirstCome arrived ({ s with connecting := s.connecting.eraseIdx i }.createSession t node) := by
  have hcalled : Called s t := .inr ⟨node, List.mem_of_getElem? hi⟩
  let s₀ : NodeManager := { s with connecting := s.connecting.eraseIdx i }
  obtain ⟨hqueue, hconnecting⟩ : (s₀.createSession t node).unassignedTasks = s.unassignedTasks ∧
      (s₀.createSession t node).connecting = s.connecting.eraseIdx i := by
    rcases createSession_load s₀ t node with ⟨hload, -⟩ | hload
    · exact ⟨hload.unassignedTasks, hload.connecting⟩
    · exact ⟨hload.unassignedTasks, hload.connecting⟩
  rcases createSession_spec s₀ t node with ⟨failure, heq, -⟩ | hopened
  · change FirstCome arrived (s₀.createSession t node)
    rw [heq]
    exact h.dropped i (Nat.le_succ _) failure
  · change FirstCome arrived (s₀.createSession t node)
    generalize s₀.createSession t node = s' at *
    -- the new session takes nobody else's place
    have hold : ∀ {sid obj}, s.objects sid = some obj → s'.objects sid = some obj := by
      intro sid obj hobj
      have hle : sid ≤ s.counter := by
        by_contra hlt
        rw [h.fresh sid (Nat.lt_of_not_le hlt)] at hobj
        cases hobj
      rw [hopened.object_kept hle]
      exact hobj
    have hserved : ∀ t', Served s' t' → Served s t' ∨ t' = t := by
      rintro t' ⟨sid, obj, hobj, rfl⟩
      rcases hopened.object_cases hobj with ⟨-, hobj⟩ | ⟨-, hnew⟩
      · exact .inl ⟨sid, obj, hobj, rfl⟩
      · exact .inr hnew.task
    have hcalled' : ∀ t', Called s' t' → Called s t' := by
      rintro t' (ht' | ⟨n, hmem⟩)
      · rcases hserved t' ht' with ht' | rfl
        · exact .inl ht'
        · exact hcalled
      · rw [hconnecting] at hmem
        exact .inr ⟨n, List.mem_of_mem_eraseIdx hmem⟩
    have hkept : ∀ t', Served s t' → Served s' t' := by
      rintro t' ⟨sid, obj, hobj, htask⟩
      exact ⟨sid, obj, hold hobj, htask⟩
    have hnew : Served s' t := by
      obtain ⟨obj, hobj, hnew⟩ := hopened.object_new
      exact ⟨_, obj, hobj, hnew.task⟩
    refine ⟨h.nodup, fun t' ht' => ?_, fun t' ht' => h.called t' (hcalled' t' ht'), fun n t' ht' => ?_,
      fun sid hsid => ?_, ?_, fun hnone t' ht' => ?_⟩
    · rw [hopened.task, hopened.commands]
      exact h.known t' ht'
    · rw [hopened.tasksRunning] at ht'
      by_cases hn : n = node
      · subst hn
        rw [Function.update_self] at ht'
        rcases List.mem_append.1 ht' with ht' | ht'
        · exact hkept t' (h.running n t' ht')
        · rwa [List.mem_singleton.1 ht']
      · rw [Function.update_of_ne hn] at ht'
        exact hkept t' (h.running n t' ht')
    · have hlt : s.counter + 1 < sid := by
        rw [hopened.counter] at hsid
        exact hsid
      rw [hopened.object_old (Nat.ne_of_gt hlt)]
      exact h.fresh sid (Nat.lt_of_succ_lt hlt)
    · rw [hqueue]
      exact h.line.mono hkept hcalled'
    · rw [hopened.failures] at hnone
      rw [hqueue]
      rcases h.left hnone t' ht' with (hserved | ⟨n, hmem⟩) | hwaits
      · exact .inl (.inl (hkept t' hserved))
      · by_cases heq : t' = t
        · exact .inl (.inl (heq ▸ hnew))
        · obtain ⟨hlt, hget⟩ := List.getElem?_eq_some_iff.1 hi
          have hperm := List.getElem_cons_eraseIdx_perm hlt
          rw [hget] at hperm
          refine .inl (.inr ⟨n, ?_⟩)
          rw [hconnecting]
          exact (List.mem_cons.1 (hperm.mem_iff.2 hmem)).resolve_left (by simp [heq])
      · exact .inr hwaits

end FirstCome

section Runs
variable {arrived : List TaskId} {s s' : NodeManager} {order : NodeManager → List NodeId}

theorem step_firstCome {live : Bool} {e : Event} (h : FirstCome arrived s) (hs : step live order s e = some s') :
    FirstCome (arrived ++ arrivals [e]) s' := by
  cases e with
  | preprocessed t =>
    obtain ⟨s₁, hs₁, rfl⟩ := steps_of_step hs
    obtain ⟨h₁, hnew, hscan, hmem⟩ := h.scanned hs₁
    exact h₁.arrive hnew (by simp [hscan]) hmem
  | createTasks c files shouldInvokeLinker =>
    obtain ⟨⟨hnone, -⟩, rfl⟩ := steps_of_step hs
    have htasks := h.createTasks hnone
      { tasks := (List.range files.length).map (⟨c, ·⟩), shouldInvokeLinker, order := (s.commands c).order }
      (fun t => if t.command = c then { files := files.getD t.source ⟨0, 0⟩ } else s.tasks t) fun t ht => if_neg ht
    simpa [arrivals] using htasks
  | preprocessingFailed t stderr =>
    obtain ⟨s₁, hs₁, rfl⟩ := steps_of_step hs
    simpa [arrivals] using (h.scanned hs₁).1.same .taskCompleted
  | cannotDistribute t => simpa [arrivals] using (h.scanned hs).1
  | connected i =>
    obtain ⟨t, node, hi, rfl⟩ := steps_of_step hs
    simpa [arrivals] using h.connected hi
  | connectionFailed i =>
    obtain ⟨t, node, hi, rfl⟩ := steps_of_step hs
    simpa [arrivals] using h.dropped i le_rfl .connection
  | message sid msg elapsed =>
    rcases steps_of_step hs with ⟨hsid, obj, hobj, rfl⟩ | ⟨-, rfl⟩
    · have hsame : SameTasks s (s.registration sid obj msg).1 := .registration
      have hreplied : FirstCome arrived (s.gotDataFromServer order sid obj msg elapsed) :=
        (h.same hsame).replied (by rw [hsame.objects, hobj, Option.map_some])
      simpa [arrivals] using hreplied
    · simpa [arrivals] using h
  | decompressed i ok elapsed =>
    obtain ⟨sid, obj, hi, hobj, rfl⟩ := steps_of_step hs
    have herased : FirstCome arrived { s with decompressing := s.decompressing.eraseIdx i } := { h with }
    have hreplied : FirstCome arrived (NodeManager.replied { s with decompressing := s.decompressing.eraseIdx i }
        order sid obj (obj.session.completeSession ok) elapsed) :=
      herased.replied (by rw [hobj, Option.map_some])
    simpa [arrivals] using hreplied
  | updateNodeInfo nodes gone =>
    obtain ⟨-, rfl⟩ := steps_of_step hs
    simpa [arrivals] using h.updateNodeInfo nodes gone

theorem run_firstCome {live : Bool} {events : List Event} (h : FirstCome arrived s)
    (hrun : run (step live order) s events = some s') : FirstCome (arrived ++ arrivals events) s' := by
  induction events generalizing arrived s with
  | nil =>
    cases hrun
    simpa [arrivals] using h
  | cons e events ih =>
    obtain ⟨s₁, hs₁, hrun⟩ := Option.bind_eq_some_iff.1 hrun
    have hall : arrivals (e :: events) = arrivals [e] ++ arrivals events := List.filterMap_append (l := [e])
    rw [hall, ← List.append_assoc]
    exact ih (step_firstCome h hs₁) hrun

end Runs

/-- In every state reached, the tasks that came from the source scanner are, in order, those that are gone from the
queue and then those that are still to be called, which are its end. Whatever stands before them in the queue has been
on a node, and unless something raised, those that are gone have been called. -/
theorem first_come_first_served (live : Bool) (order : NodeManager → List NodeId) (slots : NodeId → Option Nat)
    (orders : CommandId → DictOrder) (events : List Event) {s : NodeManager}
    (hrun : run (step live order) (.initial slots orders) events = some s) :
    ∃ gone returned waiting, arrivals events = gone ++ waiting ∧ s.unassignedTasks = returned ++ waiting ∧
      (arrivals events).Nodup ∧ (∀ t ∈ returned, Served s t) ∧ (∀ t ∈ waiting, ¬ Called s t) ∧
      (s.failures = [] → ∀ t ∈ gone, Called s t) := by
  have h := run_firstCome (FirstCome.init slots orders) hrun
  rw [List.nil_append] at h
  obtain ⟨returned, waiting, hqueue, ⟨gone, harrived⟩, hreturned, hwaiting⟩ := h.line
  refine ⟨gone, returned, waiting, harrived.symm, hqueue, h.nodup, hreturned, hwaiting, fun hnone t ht => ?_⟩
  have hnodup := h.nodup
  rw [← harrived] at hnodup
  rcases h.left hnone t (harrived ▸ List.mem_append_left _ ht) with hcalled | hwaits
  · exact hcalled
  · rw [hqueue] at hwaits
    rcases List.mem_append.1 hwaits with hback | hwaits
    · exact .inl (hreturned t hback)
    · exact absurd hwaits (List.disjoint_of_nodup_append hnodup ht)

/-- Four tasks for a node that takes two; the session of the first one fails while the others wait. -/
def overtakenEvents : List Event :=
  [.createTasks 0 [⟨0, 1⟩, ⟨0, 1⟩, ⟨0, 1⟩, ⟨0, 1⟩] false, .updateNodeInfo [7] [], .preprocessed ⟨0, 0⟩, .connected 0,
    .preprocessed ⟨0, 2⟩, .connected 0, .preprocessed ⟨0, 3⟩, .preprocessed ⟨0, 1⟩,
    .message 1 (.missingFiles false false) 0, .message 1 (.serverFailed []) 0]

theorem first_come_first_served_retried :
    ∃ s, run (step true fun _ => [7]) (.initial fun _ => some 1) overtakenEvents = some s ∧
      s.unassignedTasks = [⟨0, 0⟩, ⟨0, 1⟩] ∧
      ∃ gone returned waiting, arrivals overtakenEvents = gone ++ waiting ∧ s.unassignedTasks = returned ++ waiting ∧
        (arrivals overtakenEvents).Nodup ∧ (∀ t ∈ returned, Served s t) ∧ (∀ t ∈ waiting, ¬ Called s t) ∧
        (s.failures = [] → ∀ t ∈ gone, Called s t) := by
  have hqueue : (run (step true fun _ => [7]) (.initial fun _ => some 1) overtakenEvents).map
      (·.unassignedTasks) = some [⟨0, 0⟩, ⟨0, 1⟩] := by
    decide +kernel
  obtain ⟨s, hs, hqueue⟩ := Option.map_eq_some_iff.1 hqueue
  exact ⟨s, hs, hqueue, first_come_first_served true (fun _ => [7]) (fun _ => some 1) _ overtakenEvents hs⟩

end BuildPal.Scheduler
