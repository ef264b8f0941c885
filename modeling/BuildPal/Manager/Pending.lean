import BuildPal.Manager.Ledger
import BuildPal.Manager.Scheduling
/-!
# Pending connections

A task is taken for a node when the connection to the node is asked for, and it
runs there once the connection is made. `__free_slots`, `__find_work` and the
test before a task is rescheduled look at the running tasks only. As long as no
decision is made that a pending connection would have changed, no node gets
more tasks than its slots and one, and none gets a task twice.
-/
open BuildPal.Lib BuildPal.Message

namespace BuildPal.Scheduler

namespace NodeManager
variable (s : NodeManager)

/-- The node `schedule_task` connects the task to, if it does not queue it or raise. -/
def chosenNode : Option NodeId := if s.unassignedTasks = [] ∧ s.AllSlots then s.bestNode else none

/-- The tasks `__find_work` comes to when it looks for something to steal. -/
def stealable (order : NodeManager → List NodeId) (node : NodeId) : List TaskId :=
  if s.canStealTask node then
    (((order s).filter (· ≠ node)).flatMap fun src => (s.tasksViableForStealing src node).reverse).filter fun t =>
      ¬ (s.tasks t).isCompleted ∧ t ∉ s.tasksRunning node
  else []

end NodeManager

/-- The tasks that wait for a connection to the node. -/
def pendingOn (s : NodeManager) (node : NodeId) : List TaskId := (s.connecting.filter (·.2 = node)).map (·.1)

/-! ## The calls of a callback -/

/-- The calls that decide where tasks go. -/
inductive Call where
  | scheduleTask (t : TaskId) (highPriority : Bool)
  | findWork (node : NodeId)

/-- The calls `session_completed` makes, each with the state that it finds. -/
def sessionCompletedCalls (order : NodeManager → List NodeId) (s : NodeManager) (sid : SessionId) (obj : Session)
    (elapsed : Rat) : List (NodeManager × Call) :=
  if sid ∉ s.sessions ∨ obj.task ∉ s.tasksRunning obj.node then []
  else
    let r := ((s.removeSession sid obj).findWork order obj.node).taskSessionCompleted sid obj elapsed
    (s.removeSession sid obj, .findWork obj.node) ::
      if s.slotless obj.node = false ∧ r.2 then [(r.1, .scheduleTask obj.task true)] else []

def repliedCalls (order : NodeManager → List NodeId) (s : NodeManager) (sid : SessionId) (obj : Session)
    (reply : ServerSession.Reply) (elapsed : Rat) : List (NodeManager × Call) :=
  match reply.action with
  | some (.complete _) =>
    sessionCompletedCalls order (s.setObject sid { obj with session := reply.session }) sid
      { obj with session := reply.session } elapsed
  | _ => []

def terminateSessionsCalls (order : NodeManager → List NodeId) : NodeManager → List SessionId → List (NodeManager × Call)
  | _, [] => []
  | s, sid :: rest =>
    match s.objects sid with
    | none => []
    | some obj =>
      let s' := s.replied order sid obj obj.session.terminate 0
      repliedCalls order s sid obj obj.session.terminate 0 ++
        if s'.failures.length = s.failures.length then terminateSessionsCalls order s' rest else []

def findWorkAllCalls (order : NodeManager → List NodeId) : NodeManager → List NodeId → List (NodeManager × Call)
  | _, [] => []
  | s, node :: rest =>
    (s, .findWork node) :: if s.slotless node then [] else findWorkAllCalls order (s.findWork order node) rest

def updateNodeInfoCalls (live : Bool) (order : NodeManager → List NodeId) (s : NodeManager) (nodes : List NodeId)
    (gone : List SessionId) : List (NodeManager × Call) :=
  let polled := { s with nodeInfo := nodes, polled := true }
  let s' := polled.terminateSessions order gone
  terminateSessionsCalls order polled gone ++
    if s'.failures.length = s.failures.length then
      findWorkAllCalls order s' (nodes.filter (· ∉ s.previousNodes live nodes))
    else []

/-- The calls of a callback, each with the state that it finds. -/
def calls (live : Bool) (order : NodeManager → List NodeId) (s : NodeManager) : Event → List (NodeManager × Call)
  | .preprocessed t => ((s.scanned t .scheduled).map fun s' => (s', .scheduleTask t false)).toList
  | .message sid msg elapsed =>
    if sid ∈ s.sessions then
      match s.objects sid with
      | some obj => repliedCalls order (s.registration sid obj msg).1 sid obj
        (obj.session.gotDataFromServer (s.tasks obj.task).files (s.registration sid obj msg).2 msg) elapsed
      | none => []
    else []
  | .decompressed i ok elapsed =>
    match (s.decompressing[i]?).bind fun sid => (s.objects sid).map (sid, ·) with
    | some (sid, obj) => repliedCalls order { s with decompressing := s.decompressing.eraseIdx i } sid obj
      (obj.session.completeSession ok) elapsed
    | none => []
  | .updateNodeInfo nodes gone => updateNodeInfoCalls live order s nodes gone
  | _ => []

/-! ## What a callback does to the tasks -/

/-- One thing that happens to the tasks; each decision meets `P`. -/
inductive Move (order : NodeManager → List NodeId) (P : NodeManager → Call → Prop) (s : NodeManager) :
    NodeManager → Prop where
  | same {s' : NodeManager} (h : SameLoad s s') : Move order P s s'
  | polled (nodes : List NodeId) : Move order P s { s with nodeInfo := nodes, polled := true }
  /-- A connection is made, and the task runs. -/
  | connected {s' : NodeManager} {i : Nat} {t : TaskId} {node : NodeId} (hi : s.connecting[i]? = some (t, node))
    (h : SameLoad { s with
      connecting := s.connecting.eraseIdx i
      tasksRunning := Function.update s.tasksRunning node (s.tasksRunning node ++ [t]) } s') : Move order P s s'
  | dropped (i : Nat) : Move order P s { s with connecting := s.connecting.eraseIdx i }
  /-- A task comes from the source scanner. -/
  | scheduled {t : TaskId} (hqueued : ¬ Queued s t) (hidle : ∀ n, t ∉ s.tasksRunning n)
    (h : P s (.scheduleTask t false)) : Move order P s (s.scheduleTask t false)
  | found {node : NodeId} (h : P s (.findWork node)) : Move order P s (s.findWork order node)
  /-- A session ends, and its node looks for work. -/
  | ended {sid : SessionId} {obj : Session} (hmem : obj.task ∈ s.tasksRunning obj.node)
    (h : P (s.removeSession sid obj) (.findWork obj.node)) :
    Move order P s ((s.removeSession sid obj).findWork order obj.node)
  /-- After that its task is rescheduled, which is left without a session. -/
  | rescheduled {sid : SessionId} {obj : Session} {s₁ : NodeManager} (hmem : obj.task ∈ s.tasksRunning obj.node)
    (h : P (s.removeSession sid obj) (.findWork obj.node))
    (hsame : SameLoad ((s.removeSession sid obj).findWork order obj.node) s₁) (hidle : ∀ n, obj.task ∉ s₁.tasksRunning n)
    (h' : P s₁ (.scheduleTask obj.task true)) : Move order P s (s₁.scheduleTask obj.task true)

abbrev Moves (order : NodeManager → List NodeId) (P : NodeManager → Call → Prop) : NodeManager → NodeManager → Prop :=
  Relation.ReflTransGen (Move order P)

section Calls
variable {s s' : NodeManager} {t : TaskId} {sid : SessionId} {obj : Session} {elapsed : Rat}
  {order : NodeManager → List NodeId} {P : NodeManager → Call → Prop}

/-- A task without sessions runs nowhere. -/
theorem Records.not_onNode (h : Records s) (hnone : (s.tasks t).sessionsRunning = []) (n : NodeId) :
    t ∉ s.tasksRunning n := by
  intro ht
  obtain ⟨sid, hsid, hp⟩ := List.mem_filterMap.1 ((h.onNode n).mem_iff.1 ht)
  obtain ⟨obj, hobj, hrunning⟩ := h.object sid hsid
  have htask : obj.task = t := by
    simp only [hobj, Option.map_some, Option.bind_some, Session.place] at hp
    split at hp
    · exact Option.some.inj hp
    · cases hp
  rw [htask, hnone] at hrunning
  cases hrunning

/-- A task is rescheduled when it has no session left. -/
theorem taskSessionCompleted_reschedules (h : (s.taskSessionCompleted sid obj elapsed).2 = true) :
    ((s.taskSessionCompleted sid obj elapsed).1.tasks obj.task).sessionsRunning = [] := by
  unfold NodeManager.taskSessionCompleted at h ⊢
  cases hresult : obj.session.result with
  | none => simp [hresult] at h
  | some result =>
    simp only [hresult] at h ⊢
    split at h
    · cases h
    · rename_i hrunning
      rw [if_neg hrunning]
      cases hinfo : (s.nodes obj.node).processSessionResult result with
      | none => simp [hinfo] at h
      | some info =>
        simp only [hinfo] at h ⊢
        split at h
        · rename_i hfail
          rw [if_pos hfail]
          simp only [Bool.not_eq_true', Bool.or_eq_false_iff, decide_eq_false_iff_not, ne_eq, not_not] at h
          simpa [NodeManager.setNode, NodeManager.setTask, Task.dethrone] using h.2
        · cases h

theorem sessionCompleted_moves (hrecords : Records (s.sessionCompleted order sid obj elapsed))
    (hP : ∀ c ∈ sessionCompletedCalls order s sid obj elapsed, P c.1 c.2) :
    Moves order P s (s.sessionCompleted order sid obj elapsed) := by
  unfold sessionCompletedCalls at hP
  unfold NodeManager.sessionCompleted at hrecords ⊢
  by_cases hsid : sid ∈ s.sessions
  · by_cases hmem : obj.task ∈ s.tasksRunning obj.node
    · simp only [hsid, hmem, not_true_eq_false, or_self, if_false] at hP hrecords ⊢
      have hwork := hP _ List.mem_cons_self
      have hload : SameLoad ((s.removeSession sid obj).findWork order obj.node)
          (((s.removeSession sid obj).findWork order obj.node).taskSessionCompleted sid obj elapsed).1 :=
        taskSessionCompleted_load
      have hresched : (((s.removeSession sid obj).findWork order obj.node).taskSessionCompleted sid obj elapsed).2 = true →
          ((((s.removeSession sid obj).findWork order obj.node).taskSessionCompleted sid obj elapsed).1.tasks
            obj.task).sessionsRunning = [] := taskSessionCompleted_reschedules
      -- from here on only these two facts matter of the task's own bookkeeping
      generalize ((s.removeSession sid obj).findWork order obj.node).taskSessionCompleted sid obj elapsed = r
        at hP hrecords hload hresched ⊢
      cases hslots : s.slotless obj.node with
      | true =>
        rw [if_pos rfl]
        exact .single (.ended hmem hwork)
      | false =>
        simp only [hslots, true_and, Bool.false_eq_true, if_false] at hP hrecords ⊢
        split
        · rename_i hr
          rw [if_pos hr] at hP hrecords
          have hsame := (Rearranged.scheduleTask r.1 obj.task true).same
          have hrunning : (r.1.scheduleTask obj.task true).tasksRunning = r.1.tasksRunning := by rw [hsame]
          have htasks : (r.1.scheduleTask obj.task true).tasks = r.1.tasks := by rw [hsame]
          refine .single (.rescheduled hmem hwork hload (fun n => ?_) (hP (r.1, .scheduleTask obj.task true) (by simp)))
          rw [← hrunning]
          refine hrecords.not_onNode ?_ n
          rw [htasks]
          exact hresched hr
        · exact .tail (.single (.ended hmem hwork)) (.same hload)
    · simp only [hsid, hmem, not_true_eq_false, if_false, not_false_eq_true, if_true]
      exact .single (.same ⟨rfl, rfl, rfl, rfl, rfl, fun _ => rfl⟩)
  · simp only [hsid, not_false_eq_true, if_true]
    exact .single (.same ⟨rfl, rfl, rfl, rfl, rfl, fun _ => rfl⟩)

theorem replied_moves {reply : ServerSession.Reply} (hrecords : Records (s.replied order sid obj reply elapsed))
    (hP : ∀ c ∈ repliedCalls order s sid obj reply elapsed, P c.1 c.2) :
    Moves order P s (s.replied order sid obj reply elapsed) := by
  have hset : Moves order P s (s.setObject sid { obj with session := reply.session }) :=
    .single (.same ⟨rfl, rfl, rfl, rfl, rfl, fun _ => rfl⟩)
  unfold repliedCalls at hP
  unfold NodeManager.replied at hrecords ⊢
  cases haction : reply.action with
  | none => exact hset
  | some action =>
    rw [haction] at hP hrecords
    cases action with
    | compressPch => exact hset
    | gather => exact hset.tail (.same ⟨rfl, rfl, rfl, rfl, rfl, fun _ => rfl⟩)
    | raise => exact hset.tail (.same ⟨rfl, rfl, rfl, rfl, rfl, fun _ => rfl⟩)
    | complete result => exact hset.trans (sessionCompleted_moves hrecords hP)

theorem terminateSessions_moves (h : Book s) {gone : List SessionId}
    (hP : ∀ c ∈ terminateSessionsCalls order s gone, P c.1 c.2) :
    Moves order P s (NodeManager.terminateSessions order s gone) := by
  induction gone generalizing s with
  | nil => exact .refl
  | cons sid rest ih =>
    unfold terminateSessionsCalls at hP
    unfold NodeManager.terminateSessions
    cases hobj : s.objects sid with
    | none => exact .refl
    | some obj =>
      simp only [hobj] at hP ⊢
      have hbook : Book (s.replied order sid obj obj.session.terminate 0) := h.replied hobj Book.terminate_ok
      have hmoves : Moves order P s (s.replied order sid obj obj.session.terminate 0) :=
        replied_moves hbook.toRecords fun c hc => hP c (List.mem_append_left _ hc)
      split
      · rename_i hgoes
        rw [if_pos hgoes] at hP
        exact hmoves.trans (ih hbook fun c hc => hP c (List.mem_append_right _ hc))
      · exact hmoves

theorem findWorkAll_moves {nodes : List NodeId} (hP : ∀ c ∈ findWorkAllCalls order s nodes, P c.1 c.2) :
    Moves order P s (s.findWorkAll order nodes) := by
  induction nodes generalizing s with
  | nil => exact .refl
  | cons node nodes ih =>
    unfold findWorkAllCalls at hP
    have hfound : Moves order P s (s.findWork order node) := .single (.found (hP _ List.mem_cons_self))
    unfold NodeManager.findWorkAll
    split
    · exact hfound
    · rename_i hslots
      rw [if_neg hslots] at hP
      exact hfound.trans (ih fun c hc => hP c (List.mem_cons_of_mem _ hc))

theorem updateNodeInfo_moves (h : Book s) {live : Bool} {nodes : List NodeId} {gone : List SessionId}
    (hP : ∀ c ∈ updateNodeInfoCalls live order s nodes gone, P c.1 c.2) :
    Moves order P s (s.updateNodeInfo live order nodes gone) := by
  unfold updateNodeInfoCalls at hP
  unfold NodeManager.updateNodeInfo
  dsimp only at hP ⊢
  have hpolled : Book { s with nodeInfo := nodes, polled := true } := { h with }
  have hgone : Moves order P s (NodeManager.terminateSessions order { s with nodeInfo := nodes, polled := true } gone) :=
    .head (.polled nodes) (terminateSessions_moves hpolled fun c hc => hP c (List.mem_append_left _ hc))
  split
  · rename_i hgoes
    rw [if_pos hgoes] at hP
    exact hgone.trans (findWorkAll_moves fun c hc => hP c (List.mem_append_right _ hc))
  · exact hgone

/-- All a callback does to the tasks, when each of its decisions meets `P`. -/
theorem step_moves {live : Bool} {e : Event} (h : Book s) (hs : step live order s e = some s')
    (hP : ∀ c ∈ calls live order s e, P c.1 c.2) : Moves order P s s' := by
  have hbook : Book s' := step_book h hs
  cases e with
  | createTasks c files shouldInvokeLinker =>
    obtain ⟨-, rfl⟩ := steps_of_step hs
    exact .single (.same ⟨rfl, rfl, rfl, rfl, rfl, fun _ => rfl⟩)
  | preprocessed t =>
    obtain ⟨s₁, hs₁, rfl⟩ := steps_of_step hs
    have hcall := hP (s₁, .scheduleTask t false) (by simp [calls, hs₁])
    obtain ⟨-, heq, -, hnone⟩ := h.scanned hs₁
    obtain ⟨hrunning, -, hqueued, -⟩ := h.toRecords.no_session (t := t) (by simp [hnone])
    have hidle := h.toRecords.not_onNode hrunning
    refine .tail (.single (.same (scanned_load hs₁))) (.scheduled ?_ ?_ hcall)
    · rw [heq]
      exact hqueued
    · rw [heq]
      exact hidle
  | preprocessingFailed t stderr =>
    obtain ⟨s₁, hs₁, rfl⟩ := steps_of_step hs
    exact .tail (.single (.same (scanned_load hs₁))) (.same taskCompleted_load)
  | cannotDistribute t => exact .single (.same (scanned_load hs))
  | connected i =>
    obtain ⟨t, node, hi, rfl⟩ := steps_of_step hs
    -- without a free id, or when the node's clock fails, `create_session` raises and the connection is lost
    rcases createSession_load { s with connecting := s.connecting.eraseIdx i } t node with ⟨hload, -⟩ | hload
    · exact .tail (.single (.dropped i)) (.same hload)
    · exact .single (.connected hi hload)
  | connectionFailed i =>
    obtain ⟨t, node, hi, rfl⟩ := steps_of_step hs
    exact .tail (.single (.dropped i)) (.same ⟨rfl, rfl, rfl, rfl, rfl, fun _ => rfl⟩)
  | message sid msg elapsed =>
    simp only [calls] at hP
    rcases steps_of_step hs with ⟨hsid, obj, hobj, rfl⟩ | ⟨-, rfl⟩
    · simp only [hsid, hobj, if_true] at hP
      exact .head (.same registration_load) (replied_moves hbook.toRecords hP)
    · exact .refl
  | decompressed i ok elapsed =>
    obtain ⟨sid, obj, hi, hobj, rfl⟩ := steps_of_step hs
    simp only [calls, hi, hobj, Option.bind_some, Option.map_some] at hP
    have hload : SameLoad s { s with decompressing := s.decompressing.eraseIdx i } :=
      ⟨rfl, rfl, rfl, rfl, rfl, fun _ => rfl⟩
    exact .head (.same hload) (replied_moves hbook.toRecords hP)
  | updateNodeInfo nodes gone =>
    obtain ⟨-, rfl⟩ := steps_of_step hs
    exact updateNodeInfo_moves h hP

end Calls

section Picks
variable {s s' : NodeManager} {t : TaskId} {node n : NodeId} {order : NodeManager → List NodeId}

theorem scheduleTask_eq (h : Schedulable s) (t : TaskId) (highPriority : Bool) : s.scheduleTask t highPriority =
    match s.chosenNode with
    | some node => s.connect [t] node
    | none =>
      { s with unassignedTasks := if highPriority then t :: s.unassignedTasks else s.unassignedTasks ++ [t] } := by
  have hchosen : s.chosenNode = if s.unassignedTasks = [] then s.bestNode else none := by
    unfold NodeManager.chosenNode
    by_cases hempty : s.unassignedTasks = []
    · rw [if_pos ⟨hempty, h hempty⟩, if_pos hempty]
    · rw [if_neg fun hboth => hempty hboth.1, if_neg hempty]
  unfold NodeManager.scheduleTask
  rw [← hchosen]
  exact if_neg fun hraises => hraises.2 (h hraises.1)

/-- `__find_work` fills the free slots, first with the queue and then with what can be stolen. -/
theorem findWork_eq (order : NodeManager → List NodeId) (hslots : s.slotless node = false) :
    s.findWork order node = { s with
      connecting := s.connecting ++
        ((s.unassignedTasks ++ s.stealable order node).take (s.freeSlots node).toNat).map (·, node)
      unassignedTasks := s.unassignedTasks.drop (s.freeSlots node).toNat } := by
  unfold NodeManager.findWork
  rw [if_neg (by simp [hslots])]
  dsimp only
  rw [List.take_append]
  split
  · rename_i hslots
    simp [hslots]
  · split
    · rename_i hdone
      have hnone : (s.stealable order node).take ((s.freeSlots node).toNat - s.unassignedTasks.length) = [] := by
        rcases hdone with hleft | hsteal
        · rw [hleft, List.take_zero]
        · simp [NodeManager.stealable, hsteal]
      rw [hnone, List.append_nil]
      rfl
    · rename_i hgoes
      have hsteal : s.canStealTask node = true := by
        by_contra hnot
        exact hgoes (.inr hnot)
      have hstolen : s.stolenTasks (order s) node ((s.freeSlots node).toNat - s.unassignedTasks.length) =
          (s.stealable order node).take ((s.freeSlots node).toNat - s.unassignedTasks.length) := by
        simp only [NodeManager.stealable, hsteal, if_true]
        rfl
      simp only [NodeManager.connect, hstolen, List.map_append, List.append_assoc]

/-- A connection that ends is one of those pending on its node. -/
theorem pendingOn_perm {i : Nat} (hi : s.connecting[i]? = some (t, node)) (n : NodeId) :
    (pendingOn s n).Perm ((if n = node then [t] else []) ++
      pendingOn { s with connecting := s.connecting.eraseIdx i } n) := by
  obtain ⟨hlt, hget⟩ := List.getElem?_eq_some_iff.1 hi
  have hperm := (List.getElem_cons_eraseIdx_perm hlt).symm
  rw [hget] at hperm
  refine ((hperm.filter _).map _).trans (.of_eq ?_)
  by_cases hn : n = node
  · simp [pendingOn, hn]
  · simp [pendingOn, hn, Ne.symm hn]

theorem pendingOn_sublist (s : NodeManager) (i : Nat) (n : NodeId) :
    (pendingOn { s with connecting := s.connecting.eraseIdx i } n).Sublist (pendingOn s n) :=
  ((List.eraseIdx_sublist s.connecting i).filter _).map _

theorem load_eq (s : NodeManager) (node : NodeId) :
    load s node = (s.tasksRunning node).length + (pendingOn s node).length := by
  simp [load, pendingOn]

end Picks

/-! ## Overcommitment -/

/-- The decision leaves room for the tasks whose connection is pending: the node chosen for a task has a slot left
besides these, and a node that looks for work has none pending, or slots for all of them and for all there is to do. -/
def Fits (order : NodeManager → List NodeId) (s : NodeManager) : Call → Prop
  | .scheduleTask _ _ => ∀ node ∈ s.chosenNode, load s node ≤ s.slots node
  | .findWork node => pendingOn s node = [] ∨
      (pendingOn s node ++ s.unassignedTasks ++ s.stealable order node).length ≤ (s.freeSlots node).toNat

instance (order : NodeManager → List NodeId) (s : NodeManager) : (c : Call) → Decidable (Fits order s c)
  | .scheduleTask _ _ => inferInstanceAs (Decidable (∀ node ∈ s.chosenNode, load s node ≤ s.slots node))
  | .findWork node => inferInstanceAs (Decidable (pendingOn s node = [] ∨
      (pendingOn s node ++ s.unassignedTasks ++ s.stealable order node).length ≤ (s.freeSlots node).toNat))

/-- Every node has a place for what runs there and what is being connected. -/
def Roomy (s : NodeManager) : Prop := ∀ n, load s n ≤ s.slots n + 1

section Overcommitment
variable {s s' : NodeManager} {t : TaskId} {node n : NodeId} {order : NodeManager → List NodeId}

theorem SameLoad.roomy (h : SameLoad s s') (hroom : Roomy s) : Roomy s' := by
  intro n
  have hn := hroom n
  unfold load NodeManager.slots at hn ⊢
  rw [h.jobSlots, h.tasksRunning, h.connecting]
  exact hn

theorem roomy_scheduleTask (h : Roomy s) {highPriority : Bool} (hfits : Fits order s (.scheduleTask t highPriority)) :
    Roomy (s.scheduleTask t highPriority) := by
  by_cases hsched : Schedulable s
  case neg =>
    rw [scheduleTask_raises hsched]
    exact h
  rw [scheduleTask_eq hsched]
  unfold Fits at hfits
  cases hchosen : s.chosenNode with
  | none => exact h
  | some node =>
    intro n
    have hload : load (s.connect [t] node) n = load s n + if n = node then 1 else 0 :=
      load_connect s [t] node n s.unassignedTasks
    have hn := h n
    rw [hload]
    split
    · rename_i heq
      subst heq
      have hfree := hfits n hchosen
      show _ ≤ s.slots n + 1
      omega
    · exact hn

theorem roomy_findWork (h : Roomy s) (hfits : Fits order s (.findWork node)) : Roomy (s.findWork order node) := by
  by_cases hslotless : s.slotless node = true
  case pos =>
    rw [findWork_raises order hslotless]
    exact h
  rw [findWork_eq order (Bool.not_eq_true _ ▸ hslotless)]
  intro n
  have hn := h n
  rw [load_connect]
  split
  · rename_i heq
    subst heq
    rw [load_eq] at hn ⊢
    have htaken : ((s.unassignedTasks ++ s.stealable order n).take (s.freeSlots n).toNat).length ≤
        (s.freeSlots n).toNat := List.length_take_le _ _
    have hoffered : ((s.unassignedTasks ++ s.stealable order n).take (s.freeSlots n).toNat).length ≤
        (s.unassignedTasks ++ s.stealable order n).length := List.length_take_le' _ _
    rw [List.length_append] at hoffered
    have hslots : ((s.freeSlots n).toNat : Int) =
        max ((s.slots n : Int) + 1 - (s.tasksRunning n).length) 0 :=
      Int.toNat_eq_max _
    show _ ≤ s.slots n + 1
    -- the slots taken are free, but `tasks_running` does not count those that are pending
    rcases hfits with hnone | hall
    · rw [hnone] at hn ⊢
      simp only [List.length_nil] at hn ⊢
      omega
    · simp only [List.length_append] at hall
      omega
  · exact hn

theorem roomy_removeSession (h : Roomy s) (sid : SessionId) (obj : Session) : Roomy (s.removeSession sid obj) := by
  intro n
  refine le_trans ?_ (h n)
  unfold load NodeManager.removeSession
  by_cases hn : n = obj.node
  · subst hn
    have herase := List.length_erase_le (a := obj.task) (l := s.tasksRunning obj.node)
    simp only [Function.update_self]
    omega
  · simp [hn]

/-- What fits leaves room. -/
theorem Move.roomy (hm : Move order (Fits order) s s') (h : Roomy s) : Roomy s' := by
  cases hm with
  | same hsame => exact hsame.roomy h
  | polled nodes => exact h
  | connected hi hsame =>
    rename_i i t node
    refine hsame.roomy fun n => le_trans ?_ (h n)
    -- the task runs instead of waiting for its connection
    have hlength := (pendingOn_perm hi n).length_eq
    rw [List.length_append] at hlength
    rw [load_eq, load_eq, hlength]
    by_cases hn : n = node
    · subst hn
      simp only [Function.update_self, List.length_append, List.length_singleton, if_true]
      have hsame : (pendingOn { s with
          connecting := s.connecting.eraseIdx i
          tasksRunning := Function.update s.tasksRunning n (s.tasksRunning n ++ [t]) } n).length =
        (pendingOn { s with connecting := s.connecting.eraseIdx i } n).length := rfl
      omega
    · simp only [Function.update_of_ne hn, if_neg hn, List.length_nil, Nat.zero_add]
      exact le_rfl
  | dropped i =>
    intro n
    refine le_trans ?_ (h n)
    rw [load_eq, load_eq]
    exact Nat.add_le_add_left (pendingOn_sublist s i n).length_le _
  | scheduled _ _ hfits => exact roomy_scheduleTask h hfits
  | found hfits => exact roomy_findWork h hfits
  | ended _ hfits => exact roomy_findWork (roomy_removeSession h _ _) hfits
  | rescheduled _ hfits hsame _ hfits' =>
    exact roomy_scheduleTask (hsame.roomy (roomy_findWork (roomy_removeSession h _ _) hfits)) hfits'

theorem Moves.roomy (hm : Moves order (Fits order) s s') (h : Roomy s) : Roomy s' := by
  induction hm with
  | refl => exact h
  | tail _ hstep ih => exact hstep.roomy ih

/-- **No node is overcommitted**, in every run in which each call of `schedule_task` and `__find_work` leaves room for
the tasks whose connection is pending. -/
theorem not_overcommitted (live : Bool) (order : NodeManager → List NodeId) (slots : NodeId → Option Nat)
    (orders : CommandId → DictOrder) (events : List Event) (s : NodeManager)
    (hrun : run (step live order) (.initial slots orders) events = some s)
    (hmeets : Meets (step live order) (fun s e => ∀ c ∈ calls live order s e, Fits order c.1 c.2)
      (.initial slots orders) events) (n : NodeId) :
    (∀ slots ∈ (s.nodes n).jobSlots, (tasksOn s n).length ≤ slots + 1) ∧
      ((s.nodes n).jobSlots = none → tasksOn s n = []) := by
  have hinit : Roomy (.initial slots orders) := fun n => Nat.zero_le _
  have hstep : ∀ s e s', Book s ∧ Roomy s → (∀ c ∈ calls live order s e, Fits order c.1 c.2) →
      step live order s e = some s' → Book s' ∧ Roomy s' :=
    fun s e s' h hfits hs => ⟨step_book h.1 hs, (step_moves h.1 hs hfits).roomy h.2⟩
  have h : Book s ∧ Roomy s :=
    run_inv_of_meets (step live order) hstep events _ s ⟨book_init slots orders, hinit⟩ hmeets hrun
  constructor
  · intro slots hslots
    have hroom := h.2 n
    unfold NodeManager.slots at hroom
    rw [hslots, Option.getD_some] at hroom
    rw [← (h.1.onNode n).length_eq]
    exact (Nat.le_add_right _ _).trans hroom
  · exact fun hnone => h.1.tasksOn_slotless (Option.isNone_iff_eq_none.2 hnone)

/-- Three tasks for a node with one slot; each is scheduled when the connection of the one before is made. -/
def pacedEvents : List Event :=
  [.createTasks 0 [⟨0, 1⟩, ⟨0, 1⟩, ⟨0, 1⟩] false, .updateNodeInfo [7] [], .preprocessed ⟨0, 0⟩, .connected 0,
    .preprocessed ⟨0, 1⟩, .connected 0, .preprocessed ⟨0, 2⟩]

theorem not_overcommitted_paced :
    ∃ s, run (step true fun _ => [7]) (.initial fun _ => some 1) pacedEvents = some s ∧
      s.unassignedTasks = [⟨0, 2⟩] ∧ ∀ slots ∈ (s.nodes 7).jobSlots, (tasksOn s 7).length ≤ slots + 1 := by
  have hmeets : Meets (step true fun _ => [7]) (fun s e => ∀ c ∈ calls true (fun _ => [7]) s e, Fits (fun _ => [7]) c.1 c.2)
      (.initial fun _ => some 1) pacedEvents := by
    decide +kernel
  have hqueue : (run (step true fun _ => [7]) (.initial fun _ => some 1) pacedEvents).map
      (·.unassignedTasks) = some [⟨0, 2⟩] := by
    decide +kernel
  obtain ⟨s, hs, hqueue⟩ := Option.map_eq_some_iff.1 hqueue
  exact ⟨s, hs, hqueue, (not_overcommitted true (fun _ => [7]) (fun _ => some 1) _ pacedEvents s hs hmeets 7).1⟩

/-- The same tasks in one burst: the node is tested three times before the first connection is made. -/
def burstEvents : List Event :=
  [.createTasks 0 [⟨0, 1⟩, ⟨0, 1⟩, ⟨0, 1⟩] false, .updateNodeInfo [7] [], .preprocessed ⟨0, 0⟩, .preprocessed ⟨0, 1⟩,
    .preprocessed ⟨0, 2⟩, .connected 0, .connected 0, .connected 0]

theorem overcommitted_burst :
    ∃ s, run (step true fun _ => [7]) (.initial fun _ => some 1) burstEvents = some s ∧
      ∃ slots ∈ (s.nodes 7).jobSlots, slots + 1 < (tasksOn s 7).length := by
  have hcounts : (run (step true fun _ => [7]) (.initial fun _ => some 1) burstEvents).map
      (fun s => ((s.nodes 7).jobSlots, (tasksOn s 7).length)) = some (some 1, 3) := by
    decide +kernel
  obtain ⟨s, hs, heq⟩ := Option.map_eq_some_iff.1 hcounts
  simp only [Prod.mk.injEq] at heq
  exact ⟨s, hs, 1, heq.1, by omega⟩

end Overcommitment

/-! ## Duplicates -/

/-- The decision does not double a task whose connection is pending: a task is not connected to a node twice, and not
queued while it is being connected; and what can be stolen as long as slots are free is not being connected to the
node, and cannot be stolen twice. -/
def Undoubled (order : NodeManager → List NodeId) (s : NodeManager) : Call → Prop
  | .scheduleTask t _ =>
    (∀ node ∈ s.chosenNode, t ∉ pendingOn s node) ∧
      (Schedulable s → s.chosenNode = none → ∀ p ∈ s.connecting, p.1 ≠ t)
  | .findWork node =>
    let stolen := (s.stealable order node).take ((s.freeSlots node).toNat - s.unassignedTasks.length)
    stolen.Nodup ∧ ∀ t ∈ stolen, t ∉ pendingOn s node

instance (order : NodeManager → List NodeId) (s : NodeManager) : (c : Call) → Decidable (Undoubled order s c)
  | .scheduleTask t _ => inferInstanceAs (Decidable ((∀ node ∈ s.chosenNode, t ∉ pendingOn s node) ∧
      (Schedulable s → s.chosenNode = none → ∀ p ∈ s.connecting, p.1 ≠ t)))
  | .findWork node => inferInstanceAs (Decidable (
      ((s.stealable order node).take ((s.freeSlots node).toNat - s.unassignedTasks.length)).Nodup ∧
      ∀ t ∈ (s.stealable order node).take ((s.freeSlots node).toNat - s.unassignedTasks.length), t ∉ pendingOn s node))

/-- No node has a task twice, running or being connected, and a task that is queued is nowhere else. -/
structure Distinct (s : NodeManager) : Prop where
  onNode : ∀ n, (s.tasksRunning n ++ pendingOn s n).Nodup
  queue : s.unassignedTasks.Nodup
  queuedOnly : ∀ t ∈ s.unassignedTasks, ∀ n, t ∉ s.tasksRunning n ++ pendingOn s n

section Duplicates
variable {s s' : NodeManager} {t : TaskId} {node n : NodeId} {order : NodeManager → List NodeId}

theorem pendingOn_connect (s : NodeManager) (ts : List TaskId) (node n : NodeId) (queue : List TaskId) :
    pendingOn { s with connecting := s.connecting ++ ts.map (·, node), unassignedTasks := queue } n =
      pendingOn s n ++ if n = node then ts else [] := by
  unfold pendingOn
  rw [List.filter_append, List.map_append]
  congr 1
  by_cases hn : n = node
  · subst hn
    simp [List.filter_map, Function.comp_def]
  · simp [hn, Ne.symm hn, List.filter_map, Function.comp_def]

theorem mem_pendingOn : t ∈ pendingOn s n ↔ (t, n) ∈ s.connecting := by
  simp [pendingOn]

theorem SameLoad.pendingOn_eq (h : SameLoad s s') (n : NodeId) : pendingOn s' n = pendingOn s n := by
  unfold pendingOn
  rw [h.connecting]

theorem SameLoad.distinct (h : SameLoad s s') (hu : Distinct s) : Distinct s' := by
  have hboth : ∀ n, s'.tasksRunning n ++ pendingOn s' n = s.tasksRunning n ++ pendingOn s n := by
    intro n
    rw [h.tasksRunning, h.pendingOn_eq]
  constructor
  · intro n
    rw [hboth]
    exact hu.onNode n
  · rw [h.unassignedTasks]
    exact hu.queue
  · intro t ht n
    rw [h.unassignedTasks] at ht
    rw [hboth]
    exact hu.queuedOnly t ht n

/-- Tasks leave. -/
theorem Distinct.of_fewer (h : Distinct s) (hboth : ∀ n, (s'.tasksRunning n ++ pendingOn s' n).Sublist
    (s.tasksRunning n ++ pendingOn s n)) (hqueue : s'.unassignedTasks = s.unassignedTasks) : Distinct s' where
  onNode n := (h.onNode n).sublist (hboth n)
  queue := hqueue ▸ h.queue
  queuedOnly t ht n hmem := h.queuedOnly t (hqueue ▸ ht) n ((hboth n).subset hmem)

theorem distinct_scheduleTask (h : Distinct s) (hqueue : t ∉ s.unassignedTasks) (hidle : ∀ n, t ∉ s.tasksRunning n)
    {highPriority : Bool} (hnot : Undoubled order s (.scheduleTask t highPriority)) :
    Distinct (s.scheduleTask t highPriority) := by
  by_cases hsched : Schedulable s
  case neg =>
    -- Scheduling raises before anything has changed.
    rw [scheduleTask_raises hsched]
    exact ⟨h.onNode, h.queue, h.queuedOnly⟩
  rw [scheduleTask_eq hsched]
  obtain ⟨hchosen, hnone⟩ := hnot
  cases hnode : s.chosenNode with
  | some node =>
    have hpending : ∀ n, pendingOn (s.connect [t] node) n = pendingOn s n ++ if n = node then [t] else [] :=
      fun n => pendingOn_connect s [t] node n s.unassignedTasks
    dsimp only
    refine ⟨fun n => ?_, h.queue, fun t' ht' n hmem => ?_⟩
    · rw [hpending, ← List.append_assoc]
      refine List.nodup_append.2 ⟨h.onNode n, by split <;> simp, ?_⟩
      rintro a ha b hb rfl
      split at hb
      · rename_i hn
        subst hn
        obtain rfl := List.mem_singleton.1 hb
        rcases List.mem_append.1 ha with ha | ha
        · exact hidle n ha
        · exact hchosen n hnode ha
      · cases hb
    · rw [hpending, ← List.append_assoc] at hmem
      rcases List.mem_append.1 hmem with hmem | hmem
      · exact h.queuedOnly t' ht' n hmem
      · split at hmem
        · obtain rfl := List.mem_singleton.1 hmem
          exact hqueue ht'
        · cases hmem
  | none =>
    have hfree : ∀ n, t ∉ s.tasksRunning n ++ pendingOn s n := by
      intro n hmem
      rcases List.mem_append.1 hmem with hmem | hmem
      · exact hidle n hmem
      · exact hnone hsched hnode _ (mem_pendingOn.1 hmem) rfl
    dsimp only
    refine ⟨h.onNode, ?_, fun t' ht' n => ?_⟩
    · cases highPriority with
      | true => exact List.nodup_cons.2 ⟨hqueue, h.queue⟩
      | false =>
        refine List.nodup_append.2 ⟨h.queue, by simp, ?_⟩
        rintro a ha b hb rfl
        obtain rfl := List.mem_singleton.1 hb
        exact hqueue ha
    · have hcases : t' = t ∨ t' ∈ s.unassignedTasks := by
        cases highPriority with
        | true => exact List.mem_cons.1 ht'
        | false => simpa [or_comm] using ht'
      rcases hcases with rfl | ht'
      · exact hfree n
      · exact h.queuedOnly t' ht' n

/-- What can be stolen runs on another node, and not on this one. -/
theorem stealable_running (ht : t ∈ s.stealable order node) : t ∉ s.tasksRunning node ∧ ∃ src, t ∈ s.tasksRunning src := by
  unfold NodeManager.stealable at ht
  split at ht
  · obtain ⟨hmem, hguard⟩ := List.mem_filter.1 ht
    obtain ⟨src, -, hviable⟩ := List.mem_flatMap.1 hmem
    simp only [decide_eq_true_eq] at hguard
    exact ⟨hguard.2, src, viable_subset (List.mem_reverse.1 hviable)⟩
  · cases ht

theorem distinct_findWork (h : Distinct s) (hnot : Undoubled order s (.findWork node)) :
    Distinct (s.findWork order node) := by
  obtain ⟨hstolen, hpending⟩ := hnot
  by_cases hslotless : s.slotless node = true
  case pos =>
    rw [findWork_raises order hslotless]
    exact ⟨h.onNode, h.queue, h.queuedOnly⟩
  rw [findWork_eq order (Bool.not_eq_true _ ▸ hslotless), List.take_append]
  generalize hslots : (s.freeSlots node).toNat = slots at hstolen hpending
  generalize hst : (s.stealable order node).take (slots - s.unassignedTasks.length) = stolen at hstolen hpending
  have hsteal : ∀ t ∈ stolen, t ∈ s.stealable order node := fun t ht => List.mem_of_mem_take (hst ▸ ht)
  -- what is queued does not run, so that it is not stolen
  have hapart : ∀ t ∈ s.unassignedTasks, t ∉ stolen := by
    intro t ht hmem
    obtain ⟨-, src, hrunning⟩ := stealable_running (hsteal t hmem)
    exact h.queuedOnly t ht src (List.mem_append_left _ hrunning)
  have htaken : (s.unassignedTasks.take slots ++ stolen).Nodup := by
    refine List.nodup_append.2 ⟨h.queue.sublist (List.take_sublist _ _), hstolen, ?_⟩
    rintro a ha b hb rfl
    exact hapart a (List.mem_of_mem_take ha) hb
  constructor
  · intro n
    rw [pendingOn_connect, ← List.append_assoc]
    refine List.nodup_append.2 ⟨h.onNode n, by split <;> simp [htaken], ?_⟩
    rintro a ha b hb rfl
    split at hb
    · rename_i hn
      subst hn
      rcases List.mem_append.1 hb with hb | hb
      · exact h.queuedOnly a (List.mem_of_mem_take hb) n ha
      · rcases List.mem_append.1 ha with ha | ha
        · exact (stealable_running (hsteal a hb)).1 ha
        · exact hpending a hb ha
    · cases hb
  · exact h.queue.sublist (List.drop_sublist _ _)
  · intro t ht n hmem
    have ht' := List.mem_of_mem_drop ht
    rw [pendingOn_connect, ← List.append_assoc] at hmem
    rcases List.mem_append.1 hmem with hmem | hmem
    · exact h.queuedOnly t ht' n hmem
    · split at hmem
      · rcases List.mem_append.1 hmem with hmem | hmem
        · have hsplit := h.queue
          rw [← List.take_append_drop slots s.unassignedTasks] at hsplit
          exact (List.nodup_append.1 hsplit).2.2 t hmem t ht rfl
        · exact hapart t ht' hmem
      · cases hmem

theorem distinct_removeSession (h : Distinct s) (sid : SessionId) (obj : Session) : Distinct (s.removeSession sid obj) := by
  refine h.of_fewer (fun n => List.Sublist.append ?_ (List.Sublist.refl _)) rfl
  unfold NodeManager.removeSession
  by_cases hn : n = obj.node
  · subst hn
    simp only [Function.update_self]
    exact List.erase_sublist
  · simp only [Function.update_of_ne hn]
    exact List.Sublist.refl _

/-- A decision that doubles nothing keeps everything distinct. -/
theorem Move.distinct (hm : Move order (Undoubled order) s s') (h : Distinct s) : Distinct s' := by
  cases hm with
  | same hsame => exact hsame.distinct h
  | polled nodes => exact ⟨h.onNode, h.queue, h.queuedOnly⟩
  | connected hi hsame =>
    rename_i i t node
    -- the task runs instead of waiting for its connection
    have hperm : ∀ n, (s.tasksRunning n ++ pendingOn s n).Perm
        (Function.update s.tasksRunning node (s.tasksRunning node ++ [t]) n ++
          pendingOn { s with connecting := s.connecting.eraseIdx i } n) := by
      intro n
      refine ((pendingOn_perm hi n).append_left _).trans (.of_eq ?_)
      by_cases hn : n = node
      · subst hn
        simp
      · simp [hn]
    refine hsame.distinct ⟨fun n => (hperm n).nodup_iff.1 (h.onNode n), h.queue, fun t' ht' n hmem => ?_⟩
    exact h.queuedOnly t' ht' n ((hperm n).mem_iff.2 hmem)
  | dropped i => exact h.of_fewer (fun n => (List.Sublist.refl _).append (pendingOn_sublist s i n)) rfl
  | scheduled hqueued hidle hnot => exact distinct_scheduleTask h (fun ht => hqueued (.inl ht)) hidle hnot
  | found hnot => exact distinct_findWork h hnot
  | ended _ hnot => exact distinct_findWork (distinct_removeSession h _ _) hnot
  | rescheduled hmem hnot hsame hidle hnot' =>
    rename_i sid obj s₁
    have hfound := distinct_findWork (distinct_removeSession h sid obj) hnot
    refine distinct_scheduleTask (hsame.distinct hfound) (fun hqueue => ?_) hidle hnot'
    -- the task has just been running, so that it was not queued
    rw [hsame.unassignedTasks] at hqueue
    have hqueued : obj.task ∈ (s.removeSession sid obj).unassignedTasks := findWork_queue _ _ hqueue
    exact h.queuedOnly _ hqueued obj.node (List.mem_append_left _ hmem)

theorem Moves.distinct (hm : Moves order (Undoubled order) s s') (h : Distinct s) : Distinct s' := by
  induction hm with
  | refl => exact h
  | tail _ hstep ih => exact hstep.distinct ih

/-- No node has two sessions of a task, nor is about to: what is being connected to it neither runs there nor is
connected twice. -/
structure NeverTwice (s : NodeManager) : Prop where
  running : ∀ sid ∈ s.sessions, ∀ sid' ∈ s.sessions, ∀ obj obj', s.objects sid = some obj → s.objects sid' = some obj' →
    obj.node = obj'.node → obj.task = obj'.task → sid = sid'
  pending : ∀ n, ∀ t ∈ pendingOn s n, t ∉ s.tasksRunning n
  connecting : s.connecting.Nodup

theorem Distinct.neverTwice (h : Distinct s) (hrecords : Records s) : NeverTwice s := by
  constructor
  · intro sid hsid sid' hsid' obj obj' hobj hobj' hnode htask
    by_contra hne
    have hnodup : (tasksOn s obj.node).Nodup :=
      (hrecords.onNode obj.node).nodup_iff.1 (List.nodup_append.1 (h.onNode obj.node)).1
    have hleft : sid' ∈ s.sessions.erase sid := (List.mem_erase_of_ne (Ne.symm hne)).2 hsid'
    have hperm : s.sessions.Perm (sid :: sid' :: (s.sessions.erase sid).erase sid') :=
      (List.perm_cons_erase hsid).trans ((List.perm_cons_erase hleft).cons sid)
    have htwice := (hperm.filterMap _).nodup_iff.1 hnodup
    simp [hobj, hobj', Session.place, hnode, htask] at htwice
  · intro n t ht hrunning
    exact (List.nodup_append.1 (h.onNode n)).2.2 t hrunning t ht rfl
  · apply List.nodup_iff_count_le_one.2
    rintro ⟨t, n⟩
    have hcount := List.nodup_iff_count_le_one.1 (List.nodup_append.1 (h.onNode n)).2.1 t
    refine le_trans ?_ hcount
    unfold pendingOn
    have hfilter : s.connecting.count (t, n) = (s.connecting.filter (·.2 = n)).count (t, n) := by
      rw [List.count_filter]
      simp
    rw [hfilter]
    exact List.count_le_count_map (f := Prod.fst)

/-- **A node never runs a task twice at once**, in every run in which no call of `schedule_task` and `__find_work`
doubles a task whose connection is pending. -/
theorem never_twice (live : Bool) (order : NodeManager → List NodeId) (slots : NodeId → Option Nat)
    (orders : CommandId → DictOrder) (events : List Event) (s : NodeManager)
    (hrun : run (step live order) (.initial slots orders) events = some s)
    (hmeets : Meets (step live order) (fun s e => ∀ c ∈ calls live order s e, Undoubled order c.1 c.2)
      (.initial slots orders) events) : NeverTwice s := by
  have hinit : Distinct (.initial slots orders) := by
    constructor
    · simp [pendingOn]
    · simp
    · simp
  have hstep : ∀ s e s', Book s ∧ Distinct s → (∀ c ∈ calls live order s e, Undoubled order c.1 c.2) →
      step live order s e = some s' → Book s' ∧ Distinct s' :=
    fun s e s' h hnot hs => ⟨step_book h.1 hs, (step_moves h.1 hs hnot).distinct h.2⟩
  have h : Book s ∧ Distinct s :=
    run_inv_of_meets (step live order) hstep events _ s ⟨book_init slots orders, hinit⟩ hmeets hrun
  exact h.2.neverTwice h.1.toRecords

/-- Two nodes of two slots have compiled a source each. Session 4 runs on the slower node; when session 3 ends on the
faster one its task is stolen. -/
def stealEvents : List Event :=
  [.createTasks 0 [⟨0, 1⟩, ⟨0, 1⟩, ⟨0, 1⟩, ⟨0, 1⟩, ⟨0, 1⟩] false, .updateNodeInfo [1, 2] [],
    .preprocessed ⟨0, 0⟩, .connected 0, .preprocessed ⟨0, 1⟩, .connected 0,
    .message 1 (.missingFiles false false) 0, .message 1 (.serverDone 1 [] []) 4,
    .message 2 (.missingFiles false false) 0, .message 2 (.serverDone 1 [] []) 2,
    .preprocessed ⟨0, 2⟩, .connected 0, .preprocessed ⟨0, 3⟩, .connected 0, .preprocessed ⟨0, 4⟩, .connected 0,
    .message 3 (.missingFiles false false) 0, .message 3 (.serverDone 1 [] []) 2]

/-- Session 5 ends on the faster node once the task runs there. -/
theorem never_twice_steal :
    ∃ s, run (step true fun _ => [1, 2]) (.initial fun _ => some 2) (stealEvents ++
        [.connected 0, .message 5 (.missingFiles false false) 0, .message 5 (.serverDone 1 [] []) 2]) = some s ∧
      tasksOn s 1 = [⟨0, 3⟩] ∧ tasksOn s 2 = [⟨0, 3⟩] ∧ NeverTwice s := by
  have hmeets : Meets (step true fun _ => [1, 2])
      (fun s e => ∀ c ∈ calls true (fun _ => [1, 2]) s e, Undoubled (fun _ => [1, 2]) c.1 c.2)
      (.initial fun _ => some 2) (stealEvents ++
        [.connected 0, .message 5 (.missingFiles false false) 0, .message 5 (.serverDone 1 [] []) 2]) := by
    decide +kernel
  have htasks : (run (step true fun _ => [1, 2]) (.initial fun _ => some 2) (stealEvents ++
      [.connected 0, .message 5 (.missingFiles false false) 0, .message 5 (.serverDone 1 [] []) 2])).map
        (fun s => (tasksOn s 1, tasksOn s 2)) = some ([⟨0, 3⟩], [⟨0, 3⟩]) := by
    decide +kernel
  obtain ⟨s, hs, heq⟩ := Option.map_eq_some_iff.1 htasks
  simp only [Prod.mk.injEq] at heq
  exact ⟨s, hs, heq.1, heq.2, never_twice true (fun _ => [1, 2]) (fun _ => some 2) _ _ s hs hmeets⟩

/-- Session 5 ends before the connection is made, and the task is stolen again. -/
theorem twice_steal :
    ∃ s, run (step true fun _ => [1, 2]) (.initial fun _ => some 2) (stealEvents ++
        [.message 5 (.missingFiles false false) 0, .message 5 (.serverDone 1 [] []) 2, .connected 0, .connected 0]) =
        some s ∧
      6 ∈ s.sessions ∧ 7 ∈ s.sessions ∧ (s.objects 6).map Session.place = some (2, ⟨0, 3⟩) ∧
      (s.objects 7).map Session.place = some (2, ⟨0, 3⟩) := by
  have hplaces : (run (step true fun _ => [1, 2]) (.initial fun _ => some 2) (stealEvents ++
      [.message 5 (.missingFiles false false) 0, .message 5 (.serverDone 1 [] []) 2, .connected 0, .connected 0])).map
        (fun s => decide (6 ∈ s.sessions ∧ 7 ∈ s.sessions ∧ (s.objects 6).map Session.place = some (2, ⟨0, 3⟩) ∧
          (s.objects 7).map Session.place = some (2, ⟨0, 3⟩))) = some true := by
    decide +kernel
  obtain ⟨s, hs, heq⟩ := Option.map_eq_some_iff.1 hplaces
  exact ⟨s, hs, by simpa using heq⟩

end Duplicates

end BuildPal.Scheduler
