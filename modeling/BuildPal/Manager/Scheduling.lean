import Mathlib.Logic.Relation
import BuildPal.Manager.Bookkeeping
/-!
# What the callbacks do to the queue

Tasks wait in `unassigned_tasks` or for a connection, or run on a node. All a
callback does to them is a sequence of few moves: a task is scheduled, or a
session ends and its node looks for work. What a move keeps, every callback
keeps.
-/
open BuildPal.Lib BuildPal.Message

namespace BuildPal.Scheduler

/-- Nothing of what scheduling depends on has changed. -/
structure SameLoad (s s' : NodeManager) : Prop where
  unassignedTasks : s'.unassignedTasks = s.unassignedTasks
  connecting : s'.connecting = s.connecting
  tasksRunning : s'.tasksRunning = s.tasksRunning
  nodeInfo : s'.nodeInfo = s.nodeInfo
  polled : s'.polled = s.polled
  jobSlots : ∀ n, (s'.nodes n).jobSlots = (s.nodes n).jobSlots

namespace SameLoad
variable {s s' s'' : NodeManager}

theorem refl (s : NodeManager) : SameLoad s s := ⟨rfl, rfl, rfl, rfl, rfl, fun _ => rfl⟩

theorem trans (h : SameLoad s s') (h' : SameLoad s' s'') : SameLoad s s'' :=
  ⟨h'.1.trans h.1, h'.2.trans h.2, h'.3.trans h.3, h'.4.trans h.4, h'.5.trans h.5,
    fun n => (h'.jobSlots n).trans (h.jobSlots n)⟩

theorem setNode {node : NodeId} {info : NodeInfo} (h : info.jobSlots = (s.nodes node).jobSlots) :
    SameLoad s (s.setNode node info) := by
  refine ⟨rfl, rfl, rfl, rfl, rfl, fun n => ?_⟩
  by_cases hn : n = node
  · subst hn
    simpa [NodeManager.setNode] using h
  · simp [NodeManager.setNode, hn]

end SameLoad

section Frame
variable {s : NodeManager} {t : TaskId} {sid : SessionId} {obj : Session} {elapsed : Rat}

theorem noMoreSessions_load : SameLoad s (s.noMoreSessions t).1 := by
  obtain ⟨c, -, heq⟩ := noMoreSessions_spec s t
  rw [heq]
  exact ⟨rfl, rfl, rfl, rfl, rfl, fun _ => rfl⟩

theorem taskCompleted_load {result : TaskResult} {session : Option SessionId} :
    SameLoad s (s.taskCompleted t result session) := by
  unfold NodeManager.taskCompleted
  repeat' split
  all_goals exact ⟨rfl, rfl, rfl, rfl, rfl, fun _ => rfl⟩

theorem sessionDelivered_load {result : SessionResult} : SameLoad s (s.sessionDelivered sid obj result elapsed) := by
  have hrecorded : SameLoad s (s.noMoreSessions obj.task).1 := noMoreSessions_load
  unfold NodeManager.sessionDelivered
  split
  · refine hrecorded.trans ?_
    unfold NodeManager.reportResult
    split
    · refine SameLoad.trans (SameLoad.setNode ?_) taskCompleted_load
      rfl
    · exact ⟨rfl, rfl, rfl, rfl, rfl, fun _ => rfl⟩
  · exact hrecorded

theorem taskSessionCompleted_load : SameLoad s (s.taskSessionCompleted sid obj elapsed).1 := by
  have hset : ∀ task, SameLoad s (s.setTask obj.task task) := fun _ => ⟨rfl, rfl, rfl, rfl, rfl, fun _ => rfl⟩
  unfold NodeManager.taskSessionCompleted
  split
  · exact ⟨rfl, rfl, rfl, rfl, rfl, fun _ => rfl⟩
  · split
    · exact ⟨rfl, rfl, rfl, rfl, rfl, fun _ => rfl⟩
    · dsimp only
      split
      · exact ⟨rfl, rfl, rfl, rfl, rfl, fun _ => rfl⟩
      · rename_i info hinfo
        have hslots := processSessionResult_jobSlots hinfo
        split
        · exact (hset _).trans (SameLoad.setNode hslots)
        · exact ((hset _).trans (SameLoad.setNode hslots)).trans sessionDelivered_load

theorem registration_load {msg : FromServer} : SameLoad s (s.registration sid obj msg).1 := by
  unfold NodeManager.registration
  split
  · unfold NodeManager.registerCompletion
    dsimp only
    split
    · exact .refl s
    · exact ⟨rfl, rfl, rfl, rfl, rfl, fun _ => rfl⟩
  · exact .refl s

theorem scanned_load {scan : Scan} {s' : NodeManager} (h : s.scanned t scan = some s') : SameLoad s s' := by
  unfold NodeManager.scanned at h
  split at h
  · cases h
    exact ⟨rfl, rfl, rfl, rfl, rfl, fun _ => rfl⟩
  · cases h

/-- A session that is made adds its task to the node; when none is made nothing changes. -/
theorem createSession_load (s : NodeManager) (t : TaskId) (node : NodeId) :
    SameLoad s (s.createSession t node) ∧ (2 ^ 32 ≤ s.counter + 1 ∨ (s.nodes node).addTasksSent = none) ∨
      SameLoad { s with tasksRunning := Function.update s.tasksRunning node (s.tasksRunning node ++ [t]) }
        (s.createSession t node) := by
  unfold NodeManager.createSession
  dsimp only
  split
  · rename_i hfull
    exact .inl ⟨⟨rfl, rfl, rfl, rfl, rfl, fun _ => rfl⟩, .inl hfull⟩
  · split
    · rename_i hnone
      exact .inl ⟨⟨rfl, rfl, rfl, rfl, rfl, fun _ => rfl⟩, .inr hnone⟩
    · rename_i info hinfo
      refine .inr ⟨rfl, rfl, rfl, rfl, rfl, fun n => ?_⟩
      by_cases hn : n = node
      · subst hn
        simpa using (addTasksSent_spec hinfo).2.1
      · simp [hn]

end Frame

/-! ## Moves -/

/-- One move. -/
inductive Scheduling (order : NodeManager → List NodeId) (s : NodeManager) : NodeManager → Prop where
  | same {s' : NodeManager} (h : SameLoad s s') : Scheduling order s s'
  | schedule (t : TaskId) (highPriority : Bool) : Scheduling order s (s.scheduleTask t highPriority)
  /-- A session ends, and its node looks for work. -/
  | freed {sid : SessionId} {obj : Session} (h : obj.task ∈ s.tasksRunning obj.node) :
    Scheduling order s ((s.removeSession sid obj).findWork order obj.node)

abbrev Schedulings (order : NodeManager → List NodeId) : NodeManager → NodeManager → Prop :=
  Relation.ReflTransGen (Scheduling order)

section Calls
variable {s s' : NodeManager} {sid : SessionId} {obj : Session} {elapsed : Rat} {order : NodeManager → List NodeId}

theorem SameLoad.schedulings (h : SameLoad s s') : Schedulings order s s' := .single (.same h)

theorem sessionCompleted_schedulings : Schedulings order s (s.sessionCompleted order sid obj elapsed) := by
  unfold NodeManager.sessionCompleted
  split
  · exact SameLoad.schedulings ⟨rfl, rfl, rfl, rfl, rfl, fun _ => rfl⟩
  · split
    · exact SameLoad.schedulings ⟨rfl, rfl, rfl, rfl, rfl, fun _ => rfl⟩
    · rename_i hmem
      have hfreed : Schedulings order s ((s.removeSession sid obj).findWork order obj.node) :=
        .single (.freed (by simpa using hmem))
      have hdone : Schedulings order s
          (((s.removeSession sid obj).findWork order obj.node).taskSessionCompleted sid obj elapsed).1 :=
        hfreed.tail (.same taskSessionCompleted_load)
      dsimp only
      split
      · exact hfreed
      · split
        · exact hdone.tail (.schedule _ _)
        · exact hdone

theorem replied_schedulings {reply : ServerSession.Reply} : Schedulings order s (s.replied order sid obj reply elapsed) := by
  have hset : Schedulings order s (s.setObject sid { obj with session := reply.session }) :=
    SameLoad.schedulings ⟨rfl, rfl, rfl, rfl, rfl, fun _ => rfl⟩
  unfold NodeManager.replied
  dsimp only
  split
  · exact hset
  · exact hset
  · exact hset.tail (.same ⟨rfl, rfl, rfl, rfl, rfl, fun _ => rfl⟩)
  · exact hset.tail (.same ⟨rfl, rfl, rfl, rfl, rfl, fun _ => rfl⟩)
  · exact hset.trans sessionCompleted_schedulings

theorem gotDataFromServer_schedulings {msg : FromServer} :
    Schedulings order s (s.gotDataFromServer order sid obj msg elapsed) :=
  registration_load.schedulings.trans replied_schedulings

end Calls

/-! ## Where connections are made -/

section Nodes
variable {s s' : NodeManager} {node : NodeId} {order : NodeManager → List NodeId}

/-- Scheduling a task connects it to a node of the set, or queues it because no node has room or others wait, or
raises. -/
theorem scheduleTask_cases (s : NodeManager) (t : TaskId) (highPriority : Bool) :
    (∃ node ∈ s.nodeInfo, s.unassignedTasks = [] ∧ s.scheduleTask t highPriority = s.connect [t] node) ∨
      (s.unassignedTasks ≠ [] ∨ ∀ n ∈ s.nodeInfo, s.freeSlots n ≤ 0) ∧
        (∃ queue, s.scheduleTask t highPriority = { s with unassignedTasks := queue }) ∨
      s.unassignedTasks = [] ∧ s.scheduleTask t highPriority = s.raise .jobSlots := by
  unfold NodeManager.scheduleTask
  by_cases hraises : s.unassignedTasks = [] ∧ ¬ s.AllSlots
  · rw [if_pos hraises]
    exact .inr (.inr ⟨hraises.1, rfl⟩)
  · rw [if_neg hraises]
    by_cases hempty : s.unassignedTasks = []
    · rw [if_pos hempty]
      cases hbest : s.bestNode with
      | some node => exact .inl ⟨node, bestNode_mem hbest, hempty, rfl⟩
      | none => exact .inr (.inl ⟨.inr (bestNode_none hbest), _, rfl⟩)
    · rw [if_neg hempty]
      exact .inr (.inl ⟨.inl hempty, _, rfl⟩)

/-- Looking for work connects tasks to the node; as long as tasks are left in the queue, to all its free slots. -/
theorem findWork_cases (s : NodeManager) (order : NodeManager → List NodeId) {node : NodeId}
    (hslots : s.slotless node = false) :
    ∃ (ts rest : List TaskId), s.findWork order node = { s with
        connecting := s.connecting ++ ts.map (·, node), unassignedTasks := rest } ∧
      (rest ≠ [] → (s.freeSlots node).toNat ≤ ts.length ∧ s.unassignedTasks ≠ []) := by
  unfold NodeManager.findWork
  rw [if_neg (by simp [hslots])]
  dsimp only
  split
  · rename_i hslots
    exact ⟨[], s.unassignedTasks, by simp, fun hne => ⟨by simp [hslots], hne⟩⟩
  · have hleft : s.unassignedTasks.drop (s.freeSlots node).toNat ≠ [] →
        (s.freeSlots node).toNat ≤ (s.unassignedTasks.take (s.freeSlots node).toNat).length ∧
          s.unassignedTasks ≠ [] := by
      intro hne
      have hlt := List.drop_eq_nil_iff.not.1 hne
      refine ⟨by rw [List.length_take]; omega, ?_⟩
      rintro hempty
      simp [hempty] at hne
    split
    · exact ⟨s.unassignedTasks.take (s.freeSlots node).toNat, _, rfl, hleft⟩
    · refine ⟨s.unassignedTasks.take (s.freeSlots node).toNat ++
        s.stolenTasks (order s) node ((s.freeSlots node).toNat - s.unassignedTasks.length),
        s.unassignedTasks.drop (s.freeSlots node).toNat, ?_, fun hne => ?_⟩
      · simp only [NodeManager.connect, List.map_append, List.append_assoc]
      · refine ⟨?_, (hleft hne).2⟩
        rw [List.length_append]
        exact (hleft hne).1.trans (Nat.le_add_right _ _)

/-- All that runs or is being connected is on a node of the set. -/
structure Sited (s : NodeManager) : Prop where
  running : ∀ n, s.tasksRunning n ≠ [] → n ∈ s.nodeInfo
  connecting : ∀ p ∈ s.connecting, p.2 ∈ s.nodeInfo

theorem Sited.scheduling (h : Sited s) (hm : Scheduling order s s') : Sited s' := by
  cases hm with
  | same hsame =>
    refine ⟨?_, ?_⟩
    · rw [hsame.tasksRunning, hsame.nodeInfo]
      exact h.running
    · rw [hsame.connecting, hsame.nodeInfo]
      exact h.connecting
  | schedule t highPriority =>
    rcases scheduleTask_cases s t highPriority with ⟨node, hnode, -, heq⟩ | ⟨-, queue, heq⟩ | ⟨-, heq⟩
    · rw [heq]
      refine ⟨h.running, fun p hp => ?_⟩
      rcases List.mem_append.1 hp with hp | hp
      · exact h.connecting p hp
      · obtain rfl := List.mem_singleton.1 hp
        exact hnode
    · rw [heq]
      exact ⟨h.running, h.connecting⟩
    · rw [heq]
      exact ⟨h.running, h.connecting⟩
  | freed hmem =>
    rename_i sid obj
    have hnode : obj.node ∈ s.nodeInfo := h.running _ (List.ne_nil_of_mem hmem)
    have hrunning : ∀ n, (s.removeSession sid obj).tasksRunning n ≠ [] → n ∈ s.nodeInfo := by
      intro n hn
      by_cases hne : n = obj.node
      · subst hne
        exact hnode
      · apply h.running n
        simpa [NodeManager.removeSession, hne] using hn
    cases hslots : (s.removeSession sid obj).slotless obj.node with
    | true =>
      rw [findWork_raises order hslots]
      exact ⟨hrunning, h.connecting⟩
    | false =>
      obtain ⟨ts, rest, heq, -⟩ := findWork_cases (s.removeSession sid obj) order hslots
      rw [heq]
      refine ⟨hrunning, fun p hp => ?_⟩
      rcases List.mem_append.1 hp with hp | hp
      · exact h.connecting p hp
      · obtain ⟨t, -, rfl⟩ := List.mem_map.1 hp
        exact hnode

/-- Connections are only added, and the set is left alone. -/
structure Connects (s s' : NodeManager) : Prop where
  added : s.connecting <+: s'.connecting
  nodeInfo : s'.nodeInfo = s.nodeInfo
  polled : s'.polled = s.polled

theorem Scheduling.connects (hm : Scheduling order s s') : Connects s s' := by
  cases hm with
  | same hsame => exact ⟨by simp [hsame.connecting], hsame.nodeInfo, hsame.polled⟩
  | schedule t highPriority =>
    rcases scheduleTask_cases s t highPriority with ⟨node, -, -, heq⟩ | ⟨-, queue, heq⟩ | ⟨-, heq⟩
    · rw [heq]
      exact ⟨List.prefix_append _ _, rfl, rfl⟩
    · rw [heq]
      exact ⟨List.prefix_rfl, rfl, rfl⟩
    · rw [heq]
      exact ⟨List.prefix_rfl, rfl, rfl⟩
  | freed hmem =>
    rename_i sid obj
    cases hslots : (s.removeSession sid obj).slotless obj.node with
    | true =>
      rw [findWork_raises order hslots]
      exact ⟨List.prefix_rfl, rfl, rfl⟩
    | false =>
      obtain ⟨ts, rest, heq, -⟩ := findWork_cases (s.removeSession sid obj) order hslots
      rw [heq]
      exact ⟨List.prefix_append _ _, rfl, rfl⟩

theorem Schedulings.connects (hm : Schedulings order s s') : Connects s s' := by
  induction hm with
  | refl => exact ⟨List.prefix_rfl, rfl, rfl⟩
  | tail _ hstep ih =>
    have hnext := hstep.connects
    exact ⟨ih.added.trans hnext.added, hnext.nodeInfo.trans ih.nodeInfo, hnext.polled.trans ih.polled⟩

theorem Sited.schedulings (h : Sited s) (hm : Schedulings order s s') : Sited s' := by
  induction hm with
  | refl => exact h
  | tail _ hstep ih => exact ih.scheduling hstep

end Nodes

/-! ## How much the nodes have to do -/

/-- The tasks that run on the node or wait for a connection to it. -/
def load (s : NodeManager) (node : NodeId) : Nat :=
  (s.tasksRunning node).length + (s.connecting.filter (·.2 = node)).length

/-- The node has at least as many tasks as it is meant to. -/
def Full (s : NodeManager) (node : NodeId) : Prop := ∀ slots ∈ (s.nodes node).jobSlots, slots + 1 ≤ load s node

/-- While tasks are queued, the nodes of the set are full, except those of `idle`. -/
def Busy (s : NodeManager) (idle : List NodeId) : Prop :=
  s.unassignedTasks ≠ [] → ∀ node ∈ s.nodeInfo, node ∉ idle → Full s node

section Load
variable {s s' : NodeManager} {node : NodeId} {idle : List NodeId} {order : NodeManager → List NodeId}

theorem SameLoad.full (h : SameLoad s s') : Full s' node ↔ Full s node := by
  unfold Full load
  rw [h.jobSlots, h.tasksRunning, h.connecting]

theorem SameLoad.busy (h : SameLoad s s') (hb : Busy s idle) : Busy s' idle := by
  intro hne n hn hout
  rw [h.unassignedTasks] at hne
  rw [h.nodeInfo] at hn
  exact h.full.2 (hb hne n hn hout)

theorem freeSlots_eq {slots : Nat} (h : slots ∈ (s.nodes node).jobSlots) :
    s.freeSlots node = slots + 1 - (s.tasksRunning node).length := by
  unfold NodeManager.freeSlots NodeManager.targetTasksPerNode NodeManager.slots
  rw [h, Option.getD_some]

/-- A node without free slots is full. -/
theorem full_of_freeSlots (h : s.freeSlots node ≤ 0) : Full s node := by
  intro slots hslots
  rw [freeSlots_eq hslots] at h
  unfold load
  omega

/-- Connecting tasks to a node takes nothing from the others. -/
theorem load_connect (s : NodeManager) (ts : List TaskId) (node n : NodeId) (queue : List TaskId) :
    load { s with connecting := s.connecting ++ ts.map (·, node), unassignedTasks := queue } n =
      load s n + if n = node then ts.length else 0 := by
  unfold load
  rw [List.filter_append, List.length_append, ← Nat.add_assoc]
  congr 1
  by_cases hn : n = node
  · subst hn
    simp [List.filter_map, Function.comp_def]
  · have hnone : (ts.map (·, node)).filter (fun p => decide (p.2 = n)) = [] := by
      apply List.filter_eq_nil_iff.2
      intro p hp
      obtain ⟨t, -, rfl⟩ := List.mem_map.1 hp
      simpa using Ne.symm hn
    simp [hn, hnone]

theorem busy_scheduleTask (hb : Busy s idle) (t : TaskId) (highPriority : Bool) :
    Busy (s.scheduleTask t highPriority) idle := by
  rcases scheduleTask_cases s t highPriority with ⟨node, -, hempty, heq⟩ | ⟨hwhy, queue, heq⟩ | ⟨hempty, heq⟩
  · rw [heq]
    exact fun hne => absurd hempty hne
  · rw [heq]
    intro _ n hn hout
    rcases hwhy with hne | hfull
    · exact hb hne n hn hout
    · exact full_of_freeSlots (hfull n hn)
  · rw [heq]
    exact fun hne => absurd hempty hne

/-- A node that has looked for work is full, unless the queue is empty. -/
theorem busy_findWork (hb : Busy s (node :: idle)) (order : NodeManager → List NodeId) :
    Busy (s.findWork order node) idle := by
  cases hslots : s.slotless node with
  | true =>
    rw [findWork_raises order hslots]
    intro hne n hn hout
    by_cases hnode : n = node
    · -- it has no job slots to be filled
      subst hnode
      intro slots hmem
      have hnone : (s.nodes n).jobSlots = none := Option.isNone_iff_eq_none.1 hslots
      rw [show ((s.raise .jobSlots).nodes n).jobSlots = none from hnone] at hmem
      cases hmem
    · exact hb hne n hn (by simp [hnode, hout])
  | false =>
    obtain ⟨ts, rest, heq, hrest⟩ := findWork_cases s order hslots
    rw [heq]
    intro hne n hn hout slots hmem
    obtain ⟨htaken, hqueue⟩ := hrest hne
    rw [load_connect]
    by_cases hnode : n = node
    · subst hnode
      have hfree : s.freeSlots n = slots + 1 - (s.tasksRunning n).length := freeSlots_eq hmem
      rw [if_pos rfl]
      unfold load
      omega
    · have hfull := hb hqueue n hn (by simp [hnode, hout]) slots hmem
      omega

theorem Scheduling.busy (hm : Scheduling order s s') (hb : Busy s idle) : Busy s' idle := by
  cases hm with
  | same hsame => exact hsame.busy hb
  | schedule t highPriority => exact busy_scheduleTask hb t highPriority
  | freed hmem =>
    rename_i sid obj
    apply busy_findWork
    intro hne n hn hout
    simp only [List.mem_cons, not_or] at hout
    have hfull := hb hne n hn hout.2
    unfold Full load at hfull ⊢
    simpa [NodeManager.removeSession, hout.1] using hfull

theorem Schedulings.busy (hm : Schedulings order s s') (hb : Busy s idle) : Busy s' idle := by
  induction hm with
  | refl => exact hb
  | tail _ hstep ih => exact hstep.busy ih

end Load

end BuildPal.Scheduler
