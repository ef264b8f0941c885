import Mathlib.Data.List.Perm.Basic
import Mathlib.Data.List.Nodup
import BuildPal.Manager.NodeManager
/-!
# What the callbacks do

One specification for each operation of the scheduler: scheduling only moves
tasks between the queue and the connection attempts, and a session that
completes leaves every list it was in. The manager's records agree with each
other in every reachable state.
-/
open BuildPal.Lib

namespace BuildPal.Scheduler

/-! ## Queues -/

/-- The task waits in the queue or for a connection. -/
def Queued (s : NodeManager) (t : TaskId) : Prop := t ∈ s.unassignedTasks ∨ ∃ node, (t, node) ∈ s.connecting

/-- A step that only adds tasks with the property `extra` to the queue and the connection attempts, or moves them. -/
structure QueueStep (s s' : NodeManager) (extra : TaskId → Prop) : Prop where
  same : s' = { s with unassignedTasks := s'.unassignedTasks, connecting := s'.connecting }
  keeps : ∀ t, Queued s t → Queued s' t
  origin : ∀ t, Queued s' t → Queued s t ∨ extra t
  /-- Connections are made to nodes that have job slots. -/
  slotted : ∀ p ∈ s'.connecting, p ∈ s.connecting ∨ s.slotless p.2 = false

section Queues
variable {s : NodeManager} {t : TaskId} {node : NodeId}

theorem QueueStep.refl (s : NodeManager) (extra : TaskId → Prop) : QueueStep s s extra :=
  ⟨rfl, fun _ h => h, fun _ h => .inl h, fun _ h => .inl h⟩

/-- The fold of `min` keeps to the list, and finds something in every list that is not empty. -/
theorem best_of_fold (f : NodeId → NodeId → Bool) (nodes : List NodeId) (best : Option NodeId) :
    (∀ n, nodes.foldl (fun best node => match best with
        | none => some node
        | some b => if f node b then some node else best) best = some n → n ∈ nodes ∨ best = some n) ∧
      (nodes.foldl (fun best node => match best with
        | none => some node
        | some b => if f node b then some node else best) best = none → nodes = [] ∧ best = none) := by
  induction nodes generalizing best with
  | nil => exact ⟨fun n h => .inr h, fun h => ⟨rfl, h⟩⟩
  | cons node nodes ih =>
    rw [List.foldl_cons]
    constructor
    · intro n hn
      rcases (ih _).1 n hn with hmem | hbest
      · exact .inl (List.mem_cons_of_mem _ hmem)
      · cases best with
        | none =>
          cases hbest
          exact .inl List.mem_cons_self
        | some b =>
          dsimp only at hbest
          split at hbest
          · cases hbest
            exact .inl List.mem_cons_self
          · exact .inr hbest
    · intro hnone
      obtain ⟨-, hbest⟩ := (ih _).2 hnone
      cases best with
      | none => cases hbest
      | some b =>
        dsimp only at hbest
        split at hbest <;> cases hbest

theorem bestNode_mem (h : s.bestNode = some node) : node ∈ s.nodeInfo := by
  rcases (best_of_fold _ _ none).1 node h with hmem | hnone
  · exact (List.mem_filter.1 hmem).1
  · cases hnone

theorem bestNode_none (h : s.bestNode = none) : ∀ n ∈ s.nodeInfo, s.freeSlots n ≤ 0 := by
  obtain ⟨hempty, -⟩ := (best_of_fold _ _ none).2 h
  intro n hn
  by_contra hfree
  have hmem : n ∈ s.nodeInfo.filter fun node => 0 < s.freeSlots node :=
    List.mem_filter.2 ⟨hn, by simpa using hfree⟩
  rw [hempty] at hmem
  cases hmem

theorem queued_connect {ts : List TaskId} : Queued (s.connect ts node) t ↔ Queued s t ∨ t ∈ ts := by
  unfold Queued NodeManager.connect
  constructor
  · rintro (h | ⟨n, h⟩)
    · exact .inl (.inl h)
    · rcases List.mem_append.1 h with h | h
      · exact .inl (.inr ⟨n, h⟩)
      · obtain ⟨t', ht', heq⟩ := List.mem_map.1 h
        cases heq
        exact .inr ht'
  · rintro ((h | ⟨n, h⟩) | h)
    · exact .inl h
    · exact .inr ⟨n, List.mem_append_left _ h⟩
    · exact .inr ⟨node, List.mem_append_right _ (List.mem_map.2 ⟨t, h, rfl⟩)⟩

/-- The task can be scheduled: it is queued behind others, or every node can be counted. -/
def Schedulable (s : NodeManager) : Prop := s.unassignedTasks = [] → s.AllSlots

instance : Decidable (Schedulable s) := inferInstanceAs (Decidable (s.unassignedTasks = [] → s.AllSlots))

theorem scheduleTask_raises {highPriority : Bool} (h : ¬ Schedulable s) :
    s.scheduleTask t highPriority = s.raise .jobSlots := by
  unfold NodeManager.scheduleTask
  rw [if_pos (Classical.not_imp.1 h)]

theorem scheduleTask_spec {highPriority : Bool} (h : Schedulable s) :
    QueueStep s (s.scheduleTask t highPriority) (· = t) ∧ Queued (s.scheduleTask t highPriority) t := by
  unfold NodeManager.scheduleTask
  rw [if_neg fun hraises => hraises.2 (h hraises.1)]
  split
  · rename_i node hbest
    obtain ⟨hempty, hbest⟩ := Option.ite_none_right_eq_some.1 hbest
    refine ⟨⟨rfl, fun t' h => queued_connect.2 (.inl h), fun t' h => ?_, fun p hp => ?_⟩,
      queued_connect.2 (.inr (by simp))⟩
    · rcases queued_connect.1 h with h | h
      · exact .inl h
      · exact .inr (by simpa using h)
    · rcases List.mem_append.1 hp with hp | hp
      · exact .inl hp
      · obtain rfl := List.mem_singleton.1 hp
        exact .inr (h hempty node (bestNode_mem hbest))
  · refine ⟨⟨rfl, fun t' h => ?_, fun t' h => ?_, fun p hp => .inl hp⟩, .inl ?_⟩
    · refine h.imp (fun h => ?_) id
      split <;> simp [h]
    · rcases h with h | h
      · simp only at h
        split at h
        · rcases List.mem_cons.1 h with rfl | h
          · exact .inr rfl
          · exact .inl (.inl h)
        · rcases List.mem_append.1 h with h | h
          · exact .inl (.inl h)
          · exact .inr (by simpa using h)
      · exact .inl (.inr h)
    · simp only
      split <;> simp

theorem viable_subset {src tgt : NodeId} : s.tasksViableForStealing src tgt ⊆ s.tasksRunning src := by
  unfold NodeManager.tasksViableForStealing
  simp only
  split
  · simp
  · split
    · simp
    · exact List.drop_subset _ _

theorem stolen_running {order : List NodeId} {slots : Nat} (h : t ∈ s.stolenTasks order node slots) :
    ∃ n, t ∈ s.tasksRunning n := by
  obtain ⟨h, -⟩ := List.mem_filter.1 (List.mem_of_mem_take h)
  obtain ⟨src, -, h⟩ := List.mem_flatMap.1 h
  exact ⟨src, viable_subset (List.mem_reverse.1 h)⟩

theorem findWork_raises (order : NodeManager → List NodeId) (h : s.slotless node = true) :
    s.findWork order node = s.raise .jobSlots := by
  unfold NodeManager.findWork
  rw [if_pos h]

theorem findWork_spec (order : NodeManager → List NodeId) (hslots : s.slotless node = false) :
    QueueStep s (s.findWork order node) fun t => ∃ n, t ∈ s.tasksRunning n := by
  have hconnected : ∀ (old : List (TaskId × NodeId)) (ts : List TaskId), ∀ p ∈ old ++ ts.map (·, node),
      p ∈ old ∨ s.slotless p.2 = false := by
    intro old ts p hp
    refine (List.mem_append.1 hp).imp id fun hp => ?_
    obtain ⟨t', -, rfl⟩ := List.mem_map.1 hp
    exact hslots
  unfold NodeManager.findWork
  rw [if_neg (by simp [hslots])]
  simp only
  split
  · exact .refl s _
  · -- taking from the queue keeps every task waiting
    have htaken : ∀ t' slots, Queued { s.connect (s.unassignedTasks.take slots) node with
        unassignedTasks := s.unassignedTasks.drop slots } t' ↔ Queued s t' := by
      intro t' slots
      constructor
      · rintro (h | h)
        · exact .inl (List.mem_of_mem_drop h)
        · rcases queued_connect.1 (.inr h) with h | h
          · exact h
          · exact .inl (List.mem_of_mem_take h)
      · rintro (h | h)
        · rw [← List.take_append_drop slots s.unassignedTasks] at h
          rcases List.mem_append.1 h with h | h
          · exact .inr ⟨node, List.mem_append_right _ (List.mem_map.2 ⟨t', h, rfl⟩)⟩
          · exact .inl h
        · obtain ⟨n, h⟩ := h
          exact .inr ⟨n, List.mem_append_left _ h⟩
    split
    · exact ⟨rfl, fun t' h => (htaken t' _).2 h, fun t' h => .inl ((htaken t' _).1 h), hconnected _ _⟩
    · refine ⟨rfl, fun t' h => queued_connect.2 (.inl ((htaken t' _).2 h)), fun t' h => ?_, fun p hp => ?_⟩
      · rcases queued_connect.1 h with h | h
        · exact .inl ((htaken t' _).1 h)
        · exact .inr (stolen_running h)
      · exact (hconnected _ _ p hp).elim (hconnected _ _ p) .inr

theorem findWork_unassignedTasks (order : NodeManager → List NodeId) (hslots : s.slotless node = false) :
    (s.findWork order node).unassignedTasks = s.unassignedTasks.drop (s.freeSlots node).toNat := by
  unfold NodeManager.findWork
  rw [if_neg (by simp [hslots])]
  simp only
  split
  · rename_i hnone
    rw [hnone, List.drop_zero]
  · split <;> rfl

/-- Looking for work queues nothing. -/
theorem findWork_queue (order : NodeManager → List NodeId) (node : NodeId) :
    (s.findWork order node).unassignedTasks ⊆ s.unassignedTasks := by
  cases hslots : s.slotless node with
  | true =>
    rw [findWork_raises order hslots]
    exact fun _ h => h
  | false =>
    rw [findWork_unassignedTasks order hslots]
    exact List.drop_subset _ _

theorem findWorkAll_queue (order : NodeManager → List NodeId) (nodes : List NodeId) :
    (s.findWorkAll order nodes).unassignedTasks ⊆ s.unassignedTasks := by
  induction nodes generalizing s with
  | nil => exact fun _ h => h
  | cons node nodes ih =>
    unfold NodeManager.findWorkAll
    split
    · exact findWork_queue order node
    · exact List.Subset.trans ih (findWork_queue order node)

/-- Only the queue and the connection attempts change, whatever is raised. -/
structure Rearranged (s s' : NodeManager) : Prop where
  same : s' = { s with unassignedTasks := s'.unassignedTasks, connecting := s'.connecting, failures := s'.failures }
  raised : ∀ failure ∈ s'.failures, failure ∈ s.failures ∨ failure = .jobSlots

namespace Rearranged
variable {s' s'' : NodeManager}

theorem refl (s : NodeManager) : Rearranged s s := ⟨rfl, fun _ h => .inl h⟩

theorem trans (h : Rearranged s s') (h' : Rearranged s' s'') : Rearranged s s'' := by
  refine ⟨?_, fun failure hf => (h'.raised failure hf).elim (h.raised failure) .inr⟩
  rw [h'.same, h.same]

theorem raise (s : NodeManager) : Rearranged s (s.raise .jobSlots) :=
  ⟨rfl, fun _ hf => (List.mem_append.1 hf).imp id List.mem_singleton.1⟩

theorem of_queue {extra : TaskId → Prop} (h : QueueStep s s' extra) : Rearranged s s' := by
  have hfailures : s'.failures = s.failures := by rw [h.same]
  refine ⟨?_, fun failure hf => .inl (hfailures ▸ hf)⟩
  rw [hfailures]
  exact h.same

theorem scheduleTask (s : NodeManager) (t : TaskId) (highPriority : Bool) :
    Rearranged s (s.scheduleTask t highPriority) := by
  by_cases hsched : Schedulable s
  · exact of_queue (scheduleTask_spec hsched).1
  · rw [scheduleTask_raises hsched]
    exact raise s

theorem findWork (s : NodeManager) (order : NodeManager → List NodeId) (node : NodeId) :
    Rearranged s (s.findWork order node) := by
  cases hslots : s.slotless node with
  | false => exact of_queue (findWork_spec order hslots)
  | true =>
    rw [findWork_raises order hslots]
    exact raise s

theorem findWorkAll (s : NodeManager) (order : NodeManager → List NodeId) (nodes : List NodeId) :
    Rearranged s (s.findWorkAll order nodes) := by
  induction nodes generalizing s with
  | nil => exact refl s
  | cons node nodes ih =>
    unfold NodeManager.findWorkAll
    split
    · exact findWork s order node
    · exact (findWork s order node).trans (ih _)

end Rearranged

end Queues

/-! ## The end of a session -/

/-- The two records of a command have the same results and the same reply. -/
structure SameResults (c c' : Command) : Prop where
  tasks : c'.tasks = c.tasks
  completedTasks : c'.completedTasks = c.completedTasks
  replies : c'.replies = c.replies
  linker : c'.shouldInvokeLinker = c.shouldInvokeLinker
  order : c'.order = c.order

theorem SameResults.refl (c : Command) : SameResults c c := ⟨rfl, rfl, rfl, rfl, rfl⟩

/-- Recording the command does not find a session running, should this one be the last. -/
def RecordsSafely (s : NodeManager) (sid : SessionId) (t : TaskId) : Prop :=
  (s.tasks t).sessionsRunning.erase sid = [] →
    (∀ t' ∈ (s.commands t.command).tasks, t' = t ∨ t' ∈ (s.commands t.command).tasksWithSessionsDone) →
      ∀ t' ∈ (s.commands t.command).tasks, t' ≠ t → (s.tasks t').sessionsRunning = []

theorem postprocessIfDone_tasks (c : Command) : c.postprocessIfDone.tasks = c.tasks := by
  unfold Command.postprocessIfDone
  split <;> rfl

theorem postprocessIfDone_completed (c : Command) : c.postprocessIfDone.completed = c.completed := by
  unfold Command.postprocessIfDone
  split <;> rfl

section Sessions
variable {s : NodeManager} {t : TaskId} {node : NodeId} {sid : SessionId} {obj : Session} {result : SessionResult}

theorem processSessionResult_jobSlots {info info' : NodeInfo} (h : info.processSessionResult result = some info') :
    info'.jobSlots = info.jobSlots := by
  unfold NodeInfo.processSessionResult NodeInfo.tasksPendingAboutToChange at h
  split at h
  · cases h
  · cases h
    cases result <;> rfl

theorem processSessionResult_spec {info : NodeInfo} (h : info.tasksChange = true) :
    ∃ info', info.processSessionResult result = some info' ∧ info'.tasksChange = true := by
  unfold NodeInfo.processSessionResult NodeInfo.tasksPendingAboutToChange
  rw [if_neg (by simp [h])]
  exact ⟨_, rfl, by cases result <;> rfl⟩

theorem addTasksSent_spec {info info' : NodeInfo} (h : info.addTasksSent = some info') :
    info'.tasksChange = true ∧ info'.jobSlots = info.jobSlots ∧ info'.tasksCompleted = info.tasksCompleted := by
  unfold NodeInfo.addTasksSent NodeInfo.tasksPendingAboutToChange at h
  split at h
  · cases h
  · cases h
    exact ⟨rfl, rfl, rfl⟩

/-- What `create_session` does when it succeeds: the session is the last of its task, of its node and of the
manager. -/
structure Opened (s : NodeManager) (t : TaskId) (node : NodeId) (s' : NodeManager) : Prop where
  counter : s'.counter = s.counter + 1
  sessions : s'.sessions = s.sessions ++ [s.counter + 1]
  objects : ∃ session : ServerSession,
    s'.objects = Function.update s.objects (s.counter + 1) (some ⟨node, t, session⟩) ∧
      session.state = .waitForMissingFiles ∧ session.cancelled = false
  task : ∀ t', s'.tasks t' =
    { s.tasks t' with sessionsRunning := (s.tasks t').sessionsRunning ++ if t' = t then [s.counter + 1] else [] }
  tasksRunning : s'.tasksRunning = Function.update s.tasksRunning node (s.tasksRunning node ++ [t])
  nodes : ∀ n, (s'.nodes n).tasksChange = true ∨ n ≠ node ∧ s'.nodes n = s.nodes n
  jobSlots : ∀ n, (s'.nodes n).jobSlots = (s.nodes n).jobSlots
  tasksCompleted : ∀ n, (s'.nodes n).tasksCompleted = (s.nodes n).tasksCompleted
  connecting : s'.connecting = s.connecting
  queued : ∀ {t'}, Queued s' t' ↔ Queued s t'
  commands : s'.commands = s.commands
  reports : s'.reports = s.reports
  failures : s'.failures = s.failures
  decompressing : s'.decompressing = s.decompressing

/-- The object of a session that has just been made. -/
structure NewSession (t : TaskId) (node : NodeId) (obj : Session) : Prop where
  node : obj.node = node
  task : obj.task = t
  state : obj.session.state = .waitForMissingFiles
  notCancelled : obj.session.cancelled = false

namespace Opened
variable {s s' : NodeManager} {t : TaskId} {node : NodeId} {sid : SessionId} {obj : Session}

theorem object_new (ho : Opened s t node s') : ∃ obj, s'.objects (s.counter + 1) = some obj ∧ NewSession t node obj := by
  obtain ⟨session, hobjects, hstate, hnot⟩ := ho.objects
  exact ⟨⟨node, t, session⟩, by simp [hobjects], rfl, rfl, hstate, hnot⟩

theorem object_old (ho : Opened s t node s') (hne : sid ≠ s.counter + 1) : s'.objects sid = s.objects sid := by
  obtain ⟨session, hobjects, -⟩ := ho.objects
  rw [hobjects, Function.update_of_ne hne]

theorem object_kept (ho : Opened s t node s') (hle : sid ≤ s.counter) : s'.objects sid = s.objects sid :=
  ho.object_old (Nat.ne_of_lt (Nat.lt_succ_of_le hle))

theorem object_cases (ho : Opened s t node s') (hobj : s'.objects sid = some obj) :
    sid ≠ s.counter + 1 ∧ s.objects sid = some obj ∨ sid = s.counter + 1 ∧ NewSession t node obj := by
  by_cases heq : sid = s.counter + 1
  · subst heq
    obtain ⟨new, hself, hnew⟩ := ho.object_new
    obtain rfl := Option.some.inj (hself.symm.trans hobj)
    exact .inr ⟨rfl, hnew⟩
  · exact .inl ⟨heq, (ho.object_old heq).symm.trans hobj⟩

theorem session_old (ho : Opened s t node s') (hsid : sid ∈ s'.sessions) (hne : sid ≠ s.counter + 1) :
    sid ∈ s.sessions := by
  rw [ho.sessions] at hsid
  exact (List.mem_append.1 hsid).resolve_right fun hin => hne (List.mem_singleton.1 hin)

end Opened

theorem createSession_spec (s : NodeManager) (t : TaskId) (node : NodeId) :
    (∃ failure, s.createSession t node = { s with counter := s.counter + 1 }.raise failure ∧
      (failure = .uniqueId ∧ 2 ^ 32 ≤ s.counter + 1 ∨ failure = .tasksChange ∧ (s.nodes node).addTasksSent = none)) ∨
      Opened s t node (s.createSession t node) := by
  unfold NodeManager.createSession
  simp only
  split
  · rename_i hfull
    exact .inl ⟨_, rfl, .inl ⟨rfl, hfull⟩⟩
  · split
    · rename_i hnone
      exact .inl ⟨_, rfl, .inr ⟨rfl, hnone⟩⟩
    · rename_i info hinfo
      right
      constructor
      case objects => exact ⟨_, rfl, rfl, rfl⟩
      case task =>
        intro t'
        by_cases ht : t' = t
        · subst ht
          simp [Task.registerSession]
        · simp [ht]
      case nodes =>
        intro n
        by_cases heq : n = node
        · subst heq
          simp [(addTasksSent_spec hinfo).1]
        · simp [heq]
      case jobSlots =>
        intro n
        by_cases heq : n = node
        · subst heq
          simp [(addTasksSent_spec hinfo).2.1]
        · simp [heq]
      case tasksCompleted =>
        intro n
        by_cases heq : n = node
        · subst heq
          simp [(addTasksSent_spec hinfo).2.2]
        · simp [heq]
      case queued => exact Iff.rfl
      all_goals rfl

/-- `all_sessions_done` leaves the results of the command alone. -/
theorem noMoreSessions_spec (s : NodeManager) (t : TaskId) :
    ∃ c, SameResults (s.commands t.command) c ∧
      (s.noMoreSessions t).1 = { s with
        commands := Function.update s.commands t.command c
        failures := if (s.noMoreSessions t).2 then s.failures else s.failures ++ [.sessionsRunning] } := by
  unfold NodeManager.noMoreSessions
  split
  · unfold NodeManager.allSessionsDone
    simp only
    have hsame : SameResults (s.commands t.command) ((s.commands t.command).sessionsDone t) := ⟨rfl, rfl, rfl, rfl, rfl⟩
    split
    · split
      · exact ⟨{ (s.commands t.command).sessionsDone t with inserted := (s.commands t.command).inserted + 1 },
          ⟨rfl, rfl, rfl, rfl, rfl⟩, rfl⟩
      · exact ⟨_, hsame, rfl⟩
    · exact ⟨_, hsame, rfl⟩
  · exact ⟨_, .refl _, by rw [Function.update_eq_self]; rfl⟩

theorem sameElements_iff {a b : List TaskId} :
    Command.sameElements a b = true ↔ (∀ t ∈ a, t ∈ b) ∧ ∀ t ∈ b, t ∈ a := by
  simp [Command.sameElements]

/-- `all_sessions_done` returns if it does not find a session running. -/
theorem noMoreSessions_returns
    (h : (s.tasks t).sessionsRunning = [] →
      (∀ t' ∈ (s.commands t.command).tasks, t' = t ∨ t' ∈ (s.commands t.command).tasksWithSessionsDone) →
        ∀ t' ∈ (s.commands t.command).tasks, (s.tasks t').sessionsRunning = []) :
    (s.noMoreSessions t).2 = true := by
  unfold NodeManager.noMoreSessions
  split
  · rename_i hdone
    unfold NodeManager.allSessionsDone
    simp only
    split
    · rename_i hall
      rw [if_pos]
      rw [sameElements_iff] at hall
      simp only [List.all_eq_true, decide_eq_true_eq]
      refine h hdone.1 fun t' ht' => ?_
      have := hall.2 t' ht'
      unfold Command.sessionsDone at this
      simp only at this
      split at this
      · exact .inr this
      · rcases List.mem_append.1 this with h | h
        · exact .inr h
        · exact .inl (by simpa using h)
    · rfl
  · rfl

theorem taskCompleted_eq (hmem : t ∈ (s.commands t.command).tasks) (hnew : t ∉ (s.commands t.command).completed)
    (result : TaskResult) (session : Option SessionId) : s.taskCompleted t result session =
      (s.logReport t session).setCommand t.command ((s.commands t.command).addResult t result).postprocessIfDone := by
  unfold NodeManager.taskCompleted
  rw [if_neg (by simpa using hmem), if_neg hnew]

/-- What `session_completed` does with the command of a session that did not fail. -/
inductive CommandStep (s : NodeManager) (sid : SessionId) (obj : Session) (result : SessionResult) (s' : NodeManager) :
    Prop where
  /-- Nothing is reported: there is nothing to report, or recording the command raised. -/
  | kept (c : Command) (same : SameResults (s.commands obj.task.command) c)
    (commands : s'.commands = Function.update s.commands obj.task.command c) (reports : s'.reports = s.reports)
    (failures : s'.failures = s.failures ∨ s'.failures = s.failures ++ [.sessionsRunning])
    (success : result = .success → ¬ RecordsSafely s sid obj.task)
  | reported (c : Command) (same : SameResults (s.commands obj.task.command) c)
    (commands : s'.commands = Function.update s.commands obj.task.command
      (c.addResult obj.task ⟨obj.session.retcode, obj.session.stdout, obj.session.stderr⟩).postprocessIfDone)
    (reports : s'.reports = s.reports ++ [⟨obj.task, some sid, some sid, (s.tasks obj.task).scan⟩])
    (failures : s'.failures = s.failures) (success : result = .success)

/-- The task of a session that ends can be scheduled again: its node leaves some of the queue, or every node can
be counted. -/
def Reschedulable (s : NodeManager) (sid : SessionId) (obj : Session) : Prop :=
  s.unassignedTasks.length ≤ ((s.removeSession sid obj).freeSlots obj.node).toNat → s.AllSlots

instance : Decidable (Reschedulable s sid obj) :=
  inferInstanceAs (Decidable
    (s.unassignedTasks.length ≤ ((s.removeSession sid obj).freeSlots obj.node).toNat → s.AllSlots))

/-- What `session_completed` does, when the session is where it belongs. -/
structure Completed (s : NodeManager) (sid : SessionId) (obj : Session) (result : SessionResult) (s' : NodeManager) :
    Prop where
  sessions : s'.sessions = s.sessions.erase sid
  objects : s'.objects = s.objects
  tasksRunning : s'.tasksRunning =
    Function.update s.tasksRunning obj.node ((s.tasksRunning obj.node).erase obj.task)
  counter : s'.counter = s.counter
  decompressing : s'.decompressing = s.decompressing
  nodes : ∀ n, (s'.nodes n).tasksChange = true ∨ s'.nodes n = s.nodes n
  otherNodes : ∀ n, n ≠ obj.node → s'.nodes n = s.nodes n
  nodeInfo : s'.nodeInfo = s.nodeInfo
  jobSlots : ∀ n, (s'.nodes n).jobSlots = (s.nodes n).jobSlots
  slotted : ∀ p ∈ s'.connecting, p ∈ s.connecting ∨ s.slotless p.2 = false
  tasks : s'.tasks = Function.update s.tasks obj.task
    (if isServerFailure result then ((s.tasks obj.task).finish sid).dethrone sid else (s.tasks obj.task).finish sid)
  keeps : ∀ t, Queued s t → Queued s' t
  origin : ∀ t, Queued s' t → Queued s t ∨ ∃ n, t ∈ s.tasksRunning n
  rescheduled : isServerFailure result = true → (s'.tasks obj.task).completedBySession = none →
    (s'.tasks obj.task).sessionsRunning = [] → Reschedulable s sid obj → Queued s' obj.task
  command : if isServerFailure result then s'.commands = s.commands ∧ s'.reports = s.reports ∧
      (s'.failures = s.failures ∨ ¬ Reschedulable s sid obj ∧ s'.failures = s.failures ++ [.jobSlots])
    else CommandStep s sid obj result s'

namespace Completed
variable {s' : NodeManager}

theorem slotless (h : Completed s sid obj result s') (n : NodeId) : s'.slotless n = s.slotless n :=
  congrArg Option.isNone (h.jobSlots n)

theorem allSlots (h : Completed s sid obj result s') (hslots : s.AllSlots) : s'.AllSlots := by
  intro node hnode
  rw [h.nodeInfo] at hnode
  rw [h.slotless]
  exact hslots node hnode

theorem scan (h : Completed s sid obj result s') (t : TaskId) : (s'.tasks t).scan = (s.tasks t).scan := by
  rw [h.tasks]
  by_cases ht : t = obj.task
  · subst ht
    rw [Function.update_self]
    split <;> rfl
  · rw [Function.update_of_ne ht]

theorem sessionsRunning (h : Completed s sid obj result s') (t : TaskId) :
    (s'.tasks t).sessionsRunning =
      if t = obj.task then (s.tasks t).sessionsRunning.erase sid else (s.tasks t).sessionsRunning := by
  rw [h.tasks]
  by_cases ht : t = obj.task
  · subst ht
    rw [Function.update_self, if_pos rfl]
    split <;> rfl
  · rw [Function.update_of_ne ht, if_neg ht]

theorem completedBy_old (h : Completed s sid obj result s') {other : SessionId}
    (hc : (s'.tasks t).completedBySession = some other) : (s.tasks t).completedBySession = some other := by
  rw [h.tasks] at hc
  by_cases ht : t = obj.task
  · subst ht
    rw [Function.update_self] at hc
    split at hc
    · simp only [Task.dethrone, Task.finish] at hc
      by_cases hs : (s.tasks obj.task).completedBySession = some sid
      · simp [hs] at hc
      · simpa [hs] using hc
    · exact hc
  · rw [Function.update_of_ne ht] at hc
    exact hc

/-- Only the session that completes can lose its place. -/
theorem completedBy_kept (h : Completed s sid obj result s') {other : SessionId}
    (hne : other ≠ sid ∨ result = .success) (hc : (s.tasks t).completedBySession = some other) :
    (s'.tasks t).completedBySession = some other := by
  rw [h.tasks]
  by_cases ht : t = obj.task
  · subst ht
    rw [Function.update_self]
    split
    · rename_i hfail
      have hother : other ≠ sid := by
        rcases hne with hne | rfl
        · exact hne
        · cases hfail
      simp [Task.dethrone, Task.finish, hc, hother]
    · exact hc
  · rw [Function.update_of_ne ht]
    exact hc

/-- What becomes of the commands: the result is entered, if it is reported. -/
theorem commandCases (h : Completed s sid obj result s') (c : CommandId) :
    SameResults (s.commands c) (s'.commands c) ∨
      c = obj.task.command ∧ result = .success ∧ ∃ c', SameResults (s.commands c) c' ∧
        s'.commands c =
          (c'.addResult obj.task ⟨obj.session.retcode, obj.session.stdout, obj.session.stderr⟩).postprocessIfDone := by
  have hcommand := h.command
  split at hcommand
  · rw [hcommand.1]
    exact .inl (.refl _)
  · rcases hcommand with ⟨c', hsame, hcommands, -⟩ | ⟨c', hsame, hcommands, -, -, hsucc⟩
    · rw [hcommands]
      by_cases hc : c = obj.task.command
      · subst hc
        rw [Function.update_self]
        exact .inl hsame
      · rw [Function.update_of_ne hc]
        exact .inl (.refl _)
    · rw [hcommands]
      by_cases hc : c = obj.task.command
      · subst hc
        rw [Function.update_self]
        exact .inr ⟨rfl, hsucc, c', hsame, rfl⟩
      · rw [Function.update_of_ne hc]
        exact .inl (.refl _)

theorem commandTasks (h : Completed s sid obj result s') (c : CommandId) :
    (s'.commands c).tasks = (s.commands c).tasks := by
  rcases h.commandCases c with hsame | ⟨-, -, c', hsame, heq⟩
  · exact hsame.tasks
  · rw [heq, postprocessIfDone_tasks]
    exact hsame.tasks

theorem commandCompleted (h : Completed s sid obj result s') (t : TaskId)
    (ht : t ∈ (s'.commands t.command).completed) :
    t ∈ (s.commands t.command).completed ∨ t = obj.task ∧ result = .success := by
  rcases h.commandCases t.command with hsame | ⟨-, hsucc, c', hsame, heq⟩
  · left
    unfold Command.completed at ht ⊢
    rw [hsame.completedTasks] at ht
    exact ht
  · rw [heq, postprocessIfDone_completed] at ht
    unfold Command.completed Command.addResult at ht
    rw [List.map_append, hsame.completedTasks] at ht
    rcases List.mem_append.1 ht with ht | ht
    · exact .inl ht
    · exact .inr ⟨by simpa using ht, hsucc⟩

end Completed

/-- The session is where it belongs, and has a result that may be reported. -/
structure Completes (s : NodeManager) (sid : SessionId) (obj : Session) (result : SessionResult) : Prop where
  registered : sid ∈ s.sessions
  onNode : obj.task ∈ s.tasksRunning obj.node
  slotted : s.slotless obj.node = false
  hasResult : obj.session.result = some result
  running : sid ∈ (s.tasks obj.task).sessionsRunning
  change : (s.nodes obj.node).tasksChange = true
  known : obj.task ∈ (s.commands obj.task.command).tasks
  winner : result = .success → (s.tasks obj.task).completedBySession = some sid
  unreported : result = .success → obj.task ∉ (s.commands obj.task.command).completed

theorem sessionDelivered_spec {s₀ : NodeManager} (elapsed : Rat) (info : NodeInfo) (h : Completes s₀ sid obj result)
    (hcommands : s.commands = s₀.commands) (htasks : s.tasks = s₀.tasks) :
    let t := (s.setTask obj.task ((s.tasks obj.task).finish sid)).setNode obj.node info
    ∃ nodes c failures reports, (t.sessionDelivered sid obj result elapsed) =
        { t with nodes, commands := Function.update s.commands obj.task.command c, failures, reports } ∧
      (∀ n, (nodes n).tasksChange = (t.nodes n).tasksChange ∧ (nodes n).jobSlots = (t.nodes n).jobSlots ∧
        (n ≠ obj.node → nodes n = t.nodes n)) ∧
      ∃ c', SameResults (s.commands obj.task.command) c' ∧
        ((c = c' ∧ reports = s.reports ∧ (failures = s.failures ∨ failures = s.failures ++ [.sessionsRunning]) ∧
          (result = .success → ¬ RecordsSafely s₀ sid obj.task)) ∨
        (result = .success ∧ failures = s.failures ∧
          c = (c'.addResult obj.task ⟨obj.session.retcode, obj.session.stdout, obj.session.stderr⟩).postprocessIfDone ∧
          reports = s.reports ++ [⟨obj.task, some sid, some sid, (s.tasks obj.task).scan⟩])) := by
  intro t
  obtain ⟨c', hsame, heq⟩ := noMoreSessions_spec t obj.task
  have hself : t.tasks obj.task = (s₀.tasks obj.task).finish sid := by
    simp [t, NodeManager.setNode, NodeManager.setTask, htasks]
  unfold NodeManager.sessionDelivered
  by_cases hret : (t.noMoreSessions obj.task).2 = true ∧ result = .success
  · obtain ⟨hret, rfl⟩ := hret
    rw [if_pos ⟨hret, rfl⟩, heq, hret]
    have hcomp : (t.tasks obj.task).completedBySession = some sid := by rw [hself]; exact h.winner rfl
    -- What `all_sessions_done` changes in the command does not matter for the report.
    have hknown : obj.task ∈ c'.tasks := by
      rw [hsame.tasks]
      show obj.task ∈ (s.commands obj.task.command).tasks
      rw [hcommands]
      exact h.known
    have hunrep : obj.task ∉ c'.completed := by
      unfold Command.completed
      rw [hsame.completedTasks]
      show obj.task ∉ (s.commands obj.task.command).completed
      rw [hcommands]
      exact h.unreported rfl
    unfold NodeManager.reportResult
    simp only [hcomp, if_true]
    unfold NodeManager.taskCompleted
    simp only [NodeManager.setNode, Function.update_self, hknown, not_true_eq_false, if_false, hunrep,
      NodeManager.logReport, NodeManager.setCommand, Function.update_idem]
    refine ⟨_, _, _, _, rfl, fun n => ?_, c', hsame, .inr ⟨by trivial, rfl, rfl, ?_⟩⟩
    · by_cases hnode : n = obj.node
      · subst hnode
        rw [Function.update_self]
        exact ⟨rfl, rfl, fun h => absurd rfl h⟩
      · rw [Function.update_of_ne hnode]
        exact ⟨rfl, rfl, fun _ => rfl⟩
    · rw [hcomp, hself, htasks]
      rfl
  · rw [if_neg hret, heq]
    refine ⟨_, _, _, _, rfl, fun n => ⟨rfl, rfl, fun _ => rfl⟩, c', hsame, .inl ⟨rfl, rfl, ?_, ?_⟩⟩
    · split
      · exact .inl rfl
      · exact .inr rfl
    · intro hsucc hsafe
      -- `get_info` raises only if another task of the command has a session running again.
      refine hret ⟨noMoreSessions_returns fun hnone hall t' ht' => ?_, hsucc⟩
      have hcmd : t.commands = s₀.commands := hcommands
      rw [hcmd] at hall ht'
      rw [hself] at hnone
      by_cases ht : t' = obj.task
      · rw [ht, hself]
        exact hnone
      · have hother : t.tasks t' = s₀.tasks t' := by
          simp [t, NodeManager.setNode, NodeManager.setTask, ht, htasks]
        rw [hother]
        exact hsafe hnone hall t' ht' ht

theorem queued_of_same {s s' : NodeManager} (h : s' = { s with
    unassignedTasks := s'.unassignedTasks, connecting := s'.connecting }) :
    s'.sessions = s.sessions ∧ s'.objects = s.objects ∧ s'.tasksRunning = s.tasksRunning ∧ s'.counter = s.counter ∧
      s'.decompressing = s.decompressing ∧ s'.nodes = s.nodes ∧ s'.tasks = s.tasks ∧ s'.commands = s.commands ∧
      s'.reports = s.reports ∧ s'.failures = s.failures := by
  rw [h]
  exact ⟨rfl, rfl, rfl, rfl, rfl, rfl, rfl, rfl, rfl, rfl⟩

/-- The task may be put at the head of the queue, or the attempt raises. -/
structure Requeued (s s' : NodeManager) (t : TaskId) : Prop extends Rearranged s s' where
  keeps : ∀ t', Queued s t' → Queued s' t'
  origin : ∀ t', Queued s' t' → Queued s t' ∨ t' = t
  slotted : ∀ p ∈ s'.connecting, p ∈ s.connecting ∨ s.slotless p.2 = false
  failures : s'.failures = s.failures ∨ ¬ Schedulable s ∧ s'.failures = s.failures ++ [.jobSlots]

theorem Requeued.of_queue {s s' : NodeManager} {t : TaskId} (h : QueueStep s s' (· = t)) : Requeued s s' t where
  toRearranged := .of_queue h
  keeps := h.keeps
  origin := h.origin
  slotted := h.slotted
  failures := .inl (by rw [h.same])

theorem requeue_spec (s : NodeManager) (t : TaskId) (again : Prop) [Decidable again] :
    Requeued s (if again then s.scheduleTask t true else s) t ∧
      (again → Schedulable s → Queued (if again then s.scheduleTask t true else s) t) := by
  by_cases hagain : again
  · rw [if_pos hagain]
    by_cases hsched : Schedulable s
    · exact ⟨.of_queue (scheduleTask_spec hsched).1, fun _ _ => (scheduleTask_spec hsched).2⟩
    · rw [scheduleTask_raises hsched]
      exact ⟨⟨.raise s, fun _ h => h, fun _ h => .inl h, fun _ h => .inl h, .inr ⟨hsched, rfl⟩⟩,
        fun _ h => absurd h hsched⟩
  · rw [if_neg hagain]
    exact ⟨.of_queue (.refl _ _), fun h => absurd h hagain⟩

theorem update_busy {nodes : NodeId → NodeInfo} {info : NodeInfo} (h : info.tasksChange = true) (n : NodeId) :
    (Function.update nodes node info n).tasksChange = true ∨
      n ≠ node ∧ Function.update nodes node info n = nodes n := by
  by_cases heq : n = node
  · subst heq
    simp [h]
  · simp [heq]

theorem update_jobSlots {nodes : NodeId → NodeInfo} {info : NodeInfo} (h : info.jobSlots = (nodes node).jobSlots)
    (n : NodeId) : (Function.update nodes node info n).jobSlots = (nodes n).jobSlots := by
  by_cases heq : n = node
  · subst heq
    simp [h]
  · simp [heq]

theorem sessionCompleted_gone (h : sid ∉ s.sessions) (order : NodeManager → List NodeId) (elapsed : Rat) :
    s.sessionCompleted order sid obj elapsed = s.raise .sessionGone := by
  unfold NodeManager.sessionCompleted
  rw [if_pos h]

/-- `session_completed`, when the session is where it belongs: its node looks for work, then the session leaves its
task, the node counts its result, and the task is rescheduled or its command hears of the end. -/
theorem sessionCompleted_eq (order : NodeManager → List NodeId) (elapsed : Rat) (h : Completes s sid obj result) :
    ∃ info, (s.nodes obj.node).processSessionResult result = some info ∧ info.tasksChange = true ∧
      s.sessionCompleted order sid obj elapsed =
        let s₂ := (s.removeSession sid obj).findWork order obj.node
        let task := (s.tasks obj.task).finish sid
        if isServerFailure result then
          let s₃ := (s₂.setTask obj.task (task.dethrone sid)).setNode obj.node info
          if (task.dethrone sid).isCompleted = false ∧ task.sessionsRunning = [] then s₃.scheduleTask obj.task true else s₃
        else ((s₂.setTask obj.task task).setNode obj.node info).sessionDelivered sid obj result elapsed := by
  obtain ⟨hsame, -, -, -⟩ : QueueStep (s.removeSession sid obj) _ _ := findWork_spec order h.slotted
  obtain ⟨info, hinfo, hchange⟩ : ∃ info, (s.nodes obj.node).processSessionResult result = some info ∧
      info.tasksChange = true := processSessionResult_spec h.change
  refine ⟨info, hinfo, hchange, ?_⟩
  unfold NodeManager.sessionCompleted
  rw [if_neg (by simpa using h.registered), if_neg (by simpa using h.onNode)]
  dsimp only
  rw [if_neg (by simp [h.slotted])]
  generalize (s.removeSession sid obj).findWork order obj.node = s₂ at hsame
  obtain ⟨-, -, -, -, -, hnodes, htasks, -, -, -⟩ := queued_of_same hsame
  have htask : s₂.tasks obj.task = s.tasks obj.task := congrFun htasks obj.task
  have hnode : s₂.nodes obj.node = s.nodes obj.node := congrFun hnodes obj.node
  unfold NodeManager.taskSessionCompleted
  rw [h.hasResult]
  simp only [htask, hnode, hinfo, h.running, not_true_eq_false, if_false]
  split
  · simp only [Bool.not_eq_true', Bool.or_eq_false_iff, decide_eq_false_iff_not, not_not, ne_eq]
  · rfl

theorem sessionCompleted_spec (order : NodeManager → List NodeId) (elapsed : Rat) (h : Completes s sid obj result) :
    Completed s sid obj result (s.sessionCompleted order sid obj elapsed) := by
  obtain ⟨info, hinfo, hchange, heq⟩ := sessionCompleted_eq order elapsed h
  rw [heq]
  dsimp only
  obtain ⟨hsame, hkeeps, horigin, hslotted⟩ : QueueStep (s.removeSession sid obj) _ _ :=
    findWork_spec order h.slotted
  have hqueue : ((s.removeSession sid obj).findWork order obj.node).unassignedTasks =
      s.unassignedTasks.drop ((s.removeSession sid obj).freeSlots obj.node).toNat :=
    findWork_unassignedTasks order h.slotted
  generalize (s.removeSession sid obj).findWork order obj.node = s₂ at hsame hkeeps horigin hslotted hqueue
  obtain ⟨hsess, hobj, hrun, hcnt, hdec, hnodes, htasks, hcmds, hreps, hfails⟩ := queued_of_same hsame
  have htask : s₂.tasks obj.task = s.tasks obj.task := by rw [htasks]; rfl
  have hnodes' : s₂.nodes = s.nodes := hnodes
  have hset : s₂.nodeInfo = s.nodeInfo := by rw [hsame]; rfl
  have hslots := processSessionResult_jobSlots hinfo
  have horigin' : ∀ t, Queued s₂ t → Queued s t ∨ ∃ n, t ∈ s.tasksRunning n := by
    intro t ht
    refine (horigin t ht).imp id fun ⟨n, hn⟩ => ⟨n, ?_⟩
    unfold NodeManager.removeSession at hn
    by_cases hnode : n = obj.node
    · subst hnode
      simp only [Function.update_self] at hn
      exact List.mem_of_mem_erase hn
    · simpa [hnode] using hn
  by_cases hfail : isServerFailure result = true
  · simp only [hfail, if_true]
    generalize hs₃ : (s₂.setTask obj.task (((s.tasks obj.task).finish sid).dethrone sid)).setNode obj.node info = s₃
    have hsame₃ : s₃.nodes = Function.update s.nodes obj.node info ∧ s₃.unassignedTasks = s₂.unassignedTasks ∧
        s₃.nodeInfo = s.nodeInfo := by
      subst hs₃
      rw [← hnodes']
      exact ⟨rfl, rfl, hset⟩
    have hslotless : ∀ n, s₃.slotless n = s.slotless n := by
      intro n
      unfold NodeManager.slotless
      rw [hsame₃.1, update_jobSlots hslots]
    have hcan : Reschedulable s sid obj → Schedulable s₃ := by
      intro hre hnil node hnode
      rw [hsame₃.2.1, hqueue] at hnil
      rw [hsame₃.2.2] at hnode
      rw [hslotless]
      exact hre (List.drop_eq_nil_iff.1 hnil) node hnode
    -- whether or not the task is rescheduled, the rest of the state is that of `s₃`
    obtain ⟨hstep, hresched⟩ := requeue_spec s₃ obj.task
      ((((s.tasks obj.task).finish sid).dethrone sid).isCompleted = false ∧
        ((s.tasks obj.task).finish sid).sessionsRunning = [])
    generalize (if (((s.tasks obj.task).finish sid).dethrone sid).isCompleted = false ∧
      ((s.tasks obj.task).finish sid).sessionsRunning = [] then s₃.scheduleTask obj.task true else s₃) = s₄
      at hstep hresched ⊢
    obtain ⟨hsess₄, hobj₄, hrun₄, hcnt₄, hdec₄, hnodes₄, htasks₄, hcmds₄, hreps₄, hset₄⟩ :
        s₄.sessions = s₃.sessions ∧ s₄.objects = s₃.objects ∧ s₄.tasksRunning = s₃.tasksRunning ∧
          s₄.counter = s₃.counter ∧ s₄.decompressing = s₃.decompressing ∧ s₄.nodes = s₃.nodes ∧
          s₄.tasks = s₃.tasks ∧ s₄.commands = s₃.commands ∧ s₄.reports = s₃.reports ∧ s₄.nodeInfo = s₃.nodeInfo := by
      rw [hstep.same]
      exact ⟨rfl, rfl, rfl, rfl, rfl, rfl, rfl, rfl, rfl, rfl⟩
    have hfails₄ : s₄.failures = s₃.failures ∨
        ¬ Reschedulable s sid obj ∧ s₄.failures = s₃.failures ++ [.jobSlots] :=
      hstep.failures.imp_right fun ⟨hnot, hraised⟩ => ⟨fun hre => hnot (hcan hre), hraised⟩
    have hs₃connecting : s₃.connecting = s₂.connecting := by rw [← hs₃]; rfl
    have hs₃failures : s₃.failures = s.failures := by rw [← hs₃]; exact hfails
    subst hs₃
    have htasks' : s₄.tasks = Function.update s.tasks obj.task (((s.tasks obj.task).finish sid).dethrone sid) := by
      rw [htasks₄]
      show Function.update s₂.tasks obj.task _ = _
      rw [htasks]
      rfl
    refine ⟨hsess₄.trans hsess, hobj₄.trans hobj, hrun₄.trans hrun, hcnt₄.trans hcnt, hdec₄.trans hdec, ?_, ?_,
      hset₄.trans hsame₃.2.2, ?_, ?_, ?_, ?_, ?_, ?_, ?_⟩
    · intro n
      rw [hnodes₄, ← hnodes']
      exact (update_busy hchange n).imp id And.right
    · intro n hn
      rw [hnodes₄, hsame₃.1, Function.update_of_ne hn]
    · intro n
      rw [hnodes₄, hsame₃.1, update_jobSlots hslots]
    · intro p hp
      rcases hstep.slotted p hp with hp | hp
      · exact hslotted p (hs₃connecting ▸ hp)
      · exact .inr ((hslotless p.2).symm.trans hp)
    · rw [htasks', if_pos hfail]
    · exact fun t ht => hstep.keeps t (hkeeps t ht)
    · intro t ht
      rcases hstep.origin t ht with ht | rfl
      · exact horigin' t ht
      · exact .inr ⟨_, h.onNode⟩
    · intro _ hcomp hnone hre
      rw [htasks', Function.update_self] at hcomp hnone
      exact hresched ⟨by simp [Task.isCompleted, hcomp], hnone⟩ (hcan hre)
    · rw [if_pos hfail]
      rw [hs₃failures] at hfails₄
      exact ⟨hcmds₄.trans hcmds, hreps₄.trans hreps, hfails₄⟩
  · simp only [hfail, Bool.false_eq_true, if_false]
    obtain ⟨nodes, c, failures, reports, heq, hsent, c', hsame', hcase⟩ :=
      sessionDelivered_spec (s := s₂) elapsed info h hcmds htasks
    rw [htask] at heq
    rw [heq]
    refine ⟨hsess, hobj, hrun, hcnt, hdec, ?_, ?_, hset, ?_, hslotted, ?_, hkeeps, horigin',
      fun hf => absurd hf hfail, ?_⟩
    · intro n
      show (nodes n).tasksChange = true ∨ nodes n = s.nodes n
      rw [← hnodes', (hsent n).1]
      rcases update_busy hchange n with hn | ⟨hne, hn⟩
      · exact .inl hn
      · exact .inr (((hsent n).2.2 hne).trans hn)
    · intro n hn
      refine ((hsent n).2.2 hn).trans ?_
      show Function.update s₂.nodes obj.node info n = s.nodes n
      rw [Function.update_of_ne hn, hnodes']
    · intro n
      refine (hsent n).2.1.trans ?_
      show (Function.update s₂.nodes obj.node info n).jobSlots = (s.nodes n).jobSlots
      rw [hnodes', update_jobSlots hslots]
    · rw [if_neg hfail]
      show Function.update s₂.tasks obj.task _ = _
      rw [htasks]
      rfl
    · rw [if_neg hfail]
      have hcmds' : s₂.commands = s.commands := hcmds
      rw [hcmds'] at hsame'
      rcases hcase with ⟨rfl, rfl, hf, hsucc⟩ | ⟨hsucc, rfl, rfl, rfl⟩
      · refine .kept c hsame' (by rw [hcmds']) hreps ?_ hsucc
        have hfails' : s₂.failures = s.failures := hfails
        rw [hfails'] at hf
        exact hf
      · refine .reported c' hsame' (by rw [hcmds']) ?_ hfails hsucc
        show s₂.reports ++ _ = _
        rw [hreps, htask]
        rfl

end Sessions

end BuildPal.Scheduler
