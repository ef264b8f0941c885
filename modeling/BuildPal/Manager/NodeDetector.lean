import BuildPal.Manager.Ledger
import BuildPal.Manager.Scheduling
/-!
# The node set

The node getters (`FixedNodeList` and `NodeDetector` of `manager/__init__.py`)
and the coroutine of the manager that polls them. `NodeDetector` returns a view
of the dictionary it keeps, so from the second poll on the manager compares the
new set with itself: no session of a node that has vanished is terminated, and
no work is looked for when a node appears. We say how much of scheduling is
right all the same.
-/
open BuildPal.Lib BuildPal.Message

namespace BuildPal.Scheduler

/-! ## The detector -/

/-- `current_working_set`: for each node, how many replies in a row it has missed. -/
abbrev WorkingSet := List (NodeId × Nat)

namespace NodeDetector

def allowedMissedReplies : Nat := 2

/-- The nodes that are to be taken out, in the order in which the dictionary lists its keys. -/
def nodesDisappeared (ws : WorkingSet) (keys replies : List NodeId) : List NodeId :=
  keys.filter fun node => node ∉ replies ∧ ws.any fun p => p.1 = node ∧ allowedMissedReplies < p.2

/-- The others that have not answered have missed one reply more. -/
def noteMissed (ws : WorkingSet) (replies : List NodeId) : WorkingSet :=
  ws.map fun p => if p.1 ∉ replies ∧ p.2 ≤ allowedMissedReplies then (p.1, p.2 + 1) else p

/-- `del self.current_working_set[old_node]`, once for each node that has disappeared. `old_node` is the last key of the
loop before, so that the second time there is no such key. -/
def deleteOldNode (oldNode : NodeId) : List NodeId → WorkingSet → WorkingSet × Bool
  | [], ws => (ws, true)
  | _ :: rest, ws =>
    if oldNode ∈ ws.map (·.1) then deleteOldNode oldNode rest (ws.filter fun p => p.1 ≠ oldNode) else (ws, false)

/-- `self.current_working_set[node] = 0`. -/
def setReplied (ws : WorkingSet) (node : NodeId) : WorkingSet :=
  if node ∈ ws.map (·.1) then ws.map fun p => if p.1 = node then (node, 0) else p else ws ++ [(node, 0)]

/-- `NodeDetector.__call__`, and whether it returned; `keys` are the keys of the dictionary in its order, `replies` the
nodes that have answered. -/
def call (ws : WorkingSet) (keys replies : List NodeId) : WorkingSet × Bool :=
  match keys.getLast? with
  | none => (replies.foldl setReplied ws, true)
  | some oldNode =>
    let deleted := deleteOldNode oldNode (nodesDisappeared ws keys replies) (noteMissed ws replies)
    if deleted.2 then (replies.foldl setReplied deleted.1, true) else deleted

end NodeDetector

inductive Getter where
  | fixedNodeList (nodes : List NodeId)
  | nodeDetector (workingSet : WorkingSet)

namespace Getter

/-- The nodes that the getter has for available. -/
def nodes : Getter → List NodeId
  | .fixedNodeList nodes => nodes
  | .nodeDetector ws => ws.map (·.1)

def call (keys replies : List NodeId) : Getter → Getter × Bool
  | .fixedNodeList nodes => (.fixedNodeList nodes, true)
  | .nodeDetector ws => let r := NodeDetector.call ws keys replies; (.nodeDetector r.1, r.2)

/-- The detector returns a view of its own dictionary, and has an `update_interval`. -/
def live : Getter → Bool
  | .fixedNodeList _ => false
  | .nodeDetector _ => true

@[simp] theorem call_live (g : Getter) (keys replies : List NodeId) : (g.call keys replies).1.live = g.live := by
  cases g <;> rfl

end Getter

/-! ## The polls -/

/-- The manager and its node getter. -/
structure Polling where
  manager : NodeManager
  getter : Getter
  /-- `update_node_info_coro` is to run (again). -/
  active : Bool := true

inductive PollEvent where
  /-- `update_node_info_coro`: `replies` are the nodes that answer the detector, `keys` the keys of its dictionary before
  and `nodes` those after the call, in the order of the dictionary. -/
  | poll (replies keys nodes : List NodeId) (gone : List SessionId)
  /-- Any other callback of the manager. -/
  | callback (e : Event)

def Event.isPoll : Event → Bool
  | .updateNodeInfo _ _ => true
  | _ => false

/-- A step of the manager with its getter. An exception of the getter leaves the coroutine at once; the manager's
`node_info` follows the dictionary that it is a view of. -/
def pollStep (order : NodeManager → List NodeId) (p : Polling) : PollEvent → Option Polling
  | .poll replies keys nodes gone =>
    let r := p.getter.call keys replies
    if p.active ∧ keys.Perm p.getter.nodes ∧ nodes.Perm r.1.nodes then
      if r.2 then
        (step p.getter.live order p.manager (.updateNodeInfo nodes gone)).map fun s =>
          { manager := s, getter := r.1, active := p.getter.live && s.failures.length == p.manager.failures.length }
      else
        some { manager := if p.manager.polled then { p.manager with nodeInfo := nodes } else p.manager
               getter := r.1, active := false }
    else none
  | .callback e => if e.isPoll then none else (step p.getter.live order p.manager e).map fun s => { p with manager := s }

section Polls
variable {s s' : NodeManager} {nodes : List NodeId} {gone : List SessionId} {live : Bool}
  {order : NodeManager → List NodeId}

/-- No poll finds a session whose node has vanished: before the first one there are no nodes, and after it the detector's
set is compared with itself. -/
theorem sessionsGone_none (hfirst : s.polled = false → s.nodeInfo = []) (hlive : s.polled = true → live = true) :
    s.sessionsGone live nodes = [] := by
  apply List.filter_eq_nil_iff.2
  intro sid _ hany
  have hvanished : ∃ node, node ∈ s.previousNodes live nodes ∧ node ∉ nodes := by
    cases hobj : s.objects sid with
    | none => simp [hobj] at hany
    | some obj => exact ⟨obj.node, by simpa [hobj] using hany⟩
  obtain ⟨node, hbefore, hafter⟩ := hvanished
  unfold NodeManager.previousNodes at hbefore
  cases hpolled : s.polled with
  | false => simp [hpolled, hfirst hpolled] at hbefore
  | true =>
    rw [if_pos ⟨hlive hpolled, hpolled⟩] at hbefore
    exact hafter hbefore

/-- What a poll comes to. -/
theorem updateNodeInfo_eq (hfirst : s.polled = false → s.nodeInfo = []) (hlive : s.polled = true → live = true)
    (hs : step live order s (.updateNodeInfo nodes gone) = some s') :
    gone = [] ∧ s' = { s with nodeInfo := nodes, polled := true }.findWorkAll order
      (if s.polled then [] else nodes) := by
  simp only [step] at hs
  split at hs
  · rename_i hguard
    cases hs
    rw [sessionsGone_none hfirst hlive] at hguard
    obtain rfl : gone = [] := List.perm_nil.1 hguard.2
    refine ⟨rfl, ?_⟩
    have hnew : nodes.filter (· ∉ s.previousNodes live nodes) = if s.polled then [] else nodes := by
      unfold NodeManager.previousNodes
      cases hpolled : s.polled with
      | false => simp [hfirst hpolled]
      | true => simp [hlive hpolled]
    simp only [NodeManager.updateNodeInfo, NodeManager.terminateSessions, if_true, hnew]
  · cases hs

/-- As long as none but the last raises, all of the nodes look for work. -/
theorem findWorkAll_eq_foldl (h : ∀ node ∈ nodes.dropLast, s.slotless node = false) :
    s.findWorkAll order nodes = nodes.foldl (fun s node => s.findWork order node) s := by
  induction nodes generalizing s with
  | nil => rfl
  | cons node nodes ih =>
    unfold NodeManager.findWorkAll
    rw [List.foldl_cons]
    cases nodes with
    | nil => split <;> rfl
    | cons next rest =>
      rw [if_neg (by simp [h node (by simp)])]
      refine ih fun n hn => ?_
      have hsame : (s.findWork order node).slotless n = s.slotless n := by
        unfold NodeManager.slotless
        rw [(Rearranged.findWork s order node).same]
      rw [hsame]
      exact h n (by simp [hn])

/-- A callback that does not poll ends a connection attempt, or schedules. -/
theorem callback_cases {e : Event} (h : Records s) (hpoll : e.isPoll = false) (hs : step live order s e = some s') :
    Schedulings order s s' ∨
      ∃ i t node, s.connecting[i]? = some (t, node) ∧ (e = .connected i ∨ e = .connectionFailed i) ∧
        (SameLoad { s with connecting := s.connecting.eraseIdx i } s' ∧
            (e = .connected i → 2 ^ 32 ≤ s.counter + 1) ∨
          SameLoad { s with
            connecting := s.connecting.eraseIdx i
            tasksRunning := Function.update s.tasksRunning node (s.tasksRunning node ++ [t]) } s') := by
  cases e with
  | updateNodeInfo nodes gone => cases hpoll
  | createTasks c files shouldInvokeLinker =>
    obtain ⟨-, rfl⟩ := steps_of_step hs
    exact .inl (SameLoad.schedulings ⟨rfl, rfl, rfl, rfl, rfl, fun _ => rfl⟩)
  | preprocessed t =>
    obtain ⟨s₁, hs₁, rfl⟩ := steps_of_step hs
    exact .inl (((scanned_load hs₁).schedulings).tail (.schedule _ _))
  | preprocessingFailed t stderr =>
    obtain ⟨s₁, hs₁, rfl⟩ := steps_of_step hs
    exact .inl ((scanned_load hs₁).trans taskCompleted_load).schedulings
  | cannotDistribute t => exact .inl (scanned_load hs).schedulings
  | connected i =>
    obtain ⟨t, node, hi, rfl⟩ := steps_of_step hs
    refine .inr ⟨i, t, node, hi, .inl rfl, ?_⟩
    rcases createSession_load { s with connecting := s.connecting.eraseIdx i } t node with ⟨hsame, hfull | hnone⟩ | hmade
    · exact .inl ⟨hsame, fun _ => hfull⟩
    · exact absurd hnone h.addTasksSent_ne_none
    · exact .inr hmade
  | connectionFailed i =>
    obtain ⟨t, node, hi, rfl⟩ := steps_of_step hs
    exact .inr ⟨i, t, node, hi, .inr rfl, .inl ⟨⟨rfl, rfl, rfl, rfl, rfl, fun _ => rfl⟩, fun h => by cases h⟩⟩
  | message sid msg elapsed =>
    rcases steps_of_step hs with ⟨-, obj, hobj, rfl⟩ | ⟨-, rfl⟩
    · exact .inl gotDataFromServer_schedulings
    · exact .inl .refl
  | decompressed i ok elapsed =>
    obtain ⟨sid, obj, hi, hobj, rfl⟩ := steps_of_step hs
    have hfewer : Schedulings order s { s with decompressing := s.decompressing.eraseIdx i } :=
      SameLoad.schedulings ⟨rfl, rfl, rfl, rfl, rfl, fun _ => rfl⟩
    exact .inl (hfewer.trans replied_schedulings)

end Polls

/-! ## The scheduler follows the node set -/

/-- From the second poll on no node appears, and none vanishes on which a session runs or to which a connection is
being made; and no node but the last is without job slots at the first. -/
def Steady (p : Polling) : PollEvent → Prop
  | .poll _ _ nodes _ =>
    (p.manager.polled = true → (∀ node ∈ nodes, node ∈ p.manager.nodeInfo) ∧
      (∀ sid ∈ p.manager.sessions, ∀ obj, p.manager.objects sid = some obj → obj.node ∈ nodes) ∧
      ∀ t node, (t, node) ∈ p.manager.connecting → node ∈ nodes) ∧
    (p.manager.polled = false → ∀ node ∈ nodes.dropLast, p.manager.slotless node = false)
  | .callback _ => True

/-- After a poll every running session is on a node of the set, and `__find_work` has been called for every node that
was not in the set before; and `__schedule_task_to_specific_node` is called for nodes of the set only. -/
structure Follows (order : NodeManager → List NodeId) (p : Polling) (e : PollEvent) (p' : Polling) : Prop where
  sessions : ∀ replies keys nodes gone, e = .poll replies keys nodes gone → (p.getter.call keys replies).2 = true →
    ∀ sid ∈ p'.manager.sessions, ∀ obj, p'.manager.objects sid = some obj → obj.node ∈ nodes
  newNodes : ∀ replies keys nodes gone, e = .poll replies keys nodes gone → (p.getter.call keys replies).2 = true →
    ∃ calls : List NodeId, (∀ node ∈ nodes, node ∉ p.manager.nodeInfo → node ∈ calls) ∧
      p'.manager = calls.foldl (fun s node => s.findWork order node)
        ({ p.manager with nodeInfo := nodes, polled := true }.terminateSessions order gone)
  scheduled : ∃ kept added, p'.manager.connecting = kept ++ added ∧ (∀ q ∈ added, q.2 ∈ p'.manager.nodeInfo) ∧
    (kept = p.manager.connecting ∨ ∃ i, (e = .callback (.connected i) ∨ e = .callback (.connectionFailed i)) ∧
      kept = p.manager.connecting.eraseIdx i)

/-- The records agree, and all work is on nodes of the set. -/
structure OnSet (p : Polling) : Prop where
  book : Book p.manager
  sited : Sited p.manager
  first : p.manager.polled = false → p.manager.nodeInfo = []
  /-- Only the detector is polled again. -/
  again : p.manager.polled = true → p.active = true → p.getter.live = true

section Sets
variable {s s' : NodeManager} {p p' : Polling} {nodes : List NodeId} {order : NodeManager → List NodeId}

/-- A task that runs on a node has a session there. -/
theorem Records.session_on (h : Records s) {n : NodeId} (hn : s.tasksRunning n ≠ []) :
    ∃ sid ∈ s.sessions, ∃ obj, s.objects sid = some obj ∧ obj.node = n := by
  obtain ⟨t, ht⟩ := List.exists_mem_of_ne_nil _ hn
  obtain ⟨sid, hsid, hp⟩ := List.mem_filterMap.1 ((h.onNode n).mem_iff.1 ht)
  cases hobj : s.objects sid with
  | none => simp [hobj] at hp
  | some obj =>
    simp only [hobj, Option.map_some, Option.bind_some, Session.place] at hp
    split at hp
    · rename_i hnode
      exact ⟨sid, hsid, obj, hobj, hnode⟩
    · cases hp

theorem Sited.findWork (h : Sited s) {node : NodeId} (hnode : node ∈ s.nodeInfo) : Sited (s.findWork order node) := by
  by_cases hslots : s.slotless node = true
  case pos =>
    rw [findWork_raises order hslots]
    exact ⟨h.running, h.connecting⟩
  obtain ⟨ts, rest, heq, -⟩ := findWork_cases s order (Bool.not_eq_true _ ▸ hslots)
  rw [heq]
  refine ⟨h.running, fun q hq => ?_⟩
  rcases List.mem_append.1 hq with hq | hq
  · exact h.connecting q hq
  · obtain ⟨t, -, rfl⟩ := List.mem_map.1 hq
    exact hnode

theorem findWork_connects (s : NodeManager) (order : NodeManager → List NodeId) (node : NodeId) :
    Connects s (s.findWork order node) := by
  by_cases hslots : s.slotless node = true
  case pos =>
    rw [findWork_raises order hslots]
    exact ⟨List.prefix_rfl, rfl, rfl⟩
  obtain ⟨ts, rest, heq, -⟩ := findWork_cases s order (Bool.not_eq_true _ ▸ hslots)
  rw [heq]
  exact ⟨List.prefix_append _ _, rfl, rfl⟩

theorem findWorkAll_connects (s : NodeManager) (calls : List NodeId) : Connects s (s.findWorkAll order calls) := by
  induction calls generalizing s with
  | nil => exact ⟨List.prefix_rfl, rfl, rfl⟩
  | cons node calls ih =>
    have hfirst := findWork_connects s order node
    have hrest := ih (s.findWork order node)
    unfold NodeManager.findWorkAll
    split
    · exact hfirst
    · exact ⟨hfirst.added.trans hrest.added, hrest.nodeInfo.trans hfirst.nodeInfo, hrest.polled.trans hfirst.polled⟩

/-- The nodes look for work one after the other. -/
theorem Sited.findWorkAll (h : Sited s) {calls : List NodeId} (hcalls : ∀ node ∈ calls, node ∈ s.nodeInfo) :
    Sited (s.findWorkAll order calls) := by
  induction calls generalizing s with
  | nil => exact h
  | cons node calls ih =>
    have hfirst : Sited (s.findWork order node) := h.findWork (hcalls node List.mem_cons_self)
    unfold NodeManager.findWorkAll
    split
    · exact hfirst
    · refine ih hfirst fun n hn => ?_
      rw [(findWork_connects s order node).nodeInfo]
      exact hcalls n (List.mem_cons_of_mem _ hn)

/-- When the set changes and all work is on the new nodes, it still is. -/
theorem OnSet.resited (h : OnSet p) {polled : Bool} (hsteady : p.manager.polled = true →
      (∀ sid ∈ p.manager.sessions, ∀ obj, p.manager.objects sid = some obj → obj.node ∈ nodes) ∧
      ∀ t node, (t, node) ∈ p.manager.connecting → node ∈ nodes) :
    Sited { p.manager with nodeInfo := nodes, polled } := by
  cases hpolled : p.manager.polled with
  | false =>
    -- before the first poll nothing runs
    have hnone := h.first hpolled
    refine ⟨fun n hn => ?_, fun q hq => ?_⟩
    · have hmem := h.sited.running n hn
      rw [hnone] at hmem
      cases hmem
    · have hmem := h.sited.connecting q hq
      rw [hnone] at hmem
      cases hmem
  | true =>
    obtain ⟨hsessions, hconnecting⟩ := hsteady hpolled
    refine ⟨fun n hn => ?_, fun q hq => hconnecting q.1 q.2 hq⟩
    obtain ⟨sid, hsid, obj, hobj, rfl⟩ := h.book.toRecords.session_on hn
    exact hsessions sid hsid obj hobj

/-- The sessions are on nodes of the set. -/
theorem OnSet.session_node (h : OnSet p) {sid : SessionId} {obj : Session} (hsid : sid ∈ p.manager.sessions)
    (hobj : p.manager.objects sid = some obj) : obj.node ∈ p.manager.nodeInfo :=
  h.sited.running _ (List.ne_nil_of_mem (h.book.toRecords.task_mem hsid hobj))

theorem poll_onSet {replies keys : List NodeId} {gone : List SessionId} (h : OnSet p)
    (hcond : Steady p (.poll replies keys nodes gone))
    (hs : pollStep order p (.poll replies keys nodes gone) = some p') :
    OnSet p' ∧ Follows order p (.poll replies keys nodes gone) p' := by
  simp only [pollStep] at hs
  split at hs
  · rename_i hguard
    have hlive := fun hpolled => h.again hpolled hguard.1
    split at hs
    · obtain ⟨s', hstep, rfl⟩ := Option.map_eq_some_iff.1 hs
      have hbook : Book s' := step_book h.book hstep
      obtain ⟨rfl, heq⟩ := updateNodeInfo_eq h.first hlive hstep
      -- The new set has lost no node with a session or an attempt on it.
      have hsited : Sited { p.manager with nodeInfo := nodes, polled := true } := h.resited fun hp => (hcond.1 hp).2
      have hcalls : ∀ node ∈ (if p.manager.polled then [] else nodes), node ∈ nodes := by
        intro node hnode
        split at hnode
        · cases hnode
        · exact hnode
      have hsited' : Sited s' := by
        rw [heq]
        exact hsited.findWorkAll hcalls
      obtain ⟨hadded, hinfo, hpolled⟩ : Connects { p.manager with nodeInfo := nodes, polled := true } s' := by
        rw [heq]
        exact findWorkAll_connects _ _
      have hinfo' : s'.nodeInfo = nodes := hinfo
      have hon : OnSet
          { manager := s'
            getter := (p.getter.call keys replies).1
            active := p.getter.live && s'.failures.length == p.manager.failures.length } := by
        refine ⟨hbook, hsited', fun hp => ?_, fun _ hactive => ?_⟩
        · rw [hpolled] at hp
          cases hp
        · rw [Getter.call_live]
          exact (Bool.and_eq_true_iff.1 hactive).1
      refine ⟨hon, ?_, ?_, ?_⟩
      · rintro _ _ _ _ ⟨⟩ - sid hsid obj hobj
        have hnode := hon.session_node hsid hobj
        rw [hinfo'] at hnode
        exact hnode
      · rintro _ _ _ _ ⟨⟩ -
        refine ⟨_, fun node hnode hnew => ?_, heq.trans (findWorkAll_eq_foldl ?_)⟩
        · cases hp : p.manager.polled with
          | true => exact absurd ((hcond.1 hp).1 node hnode) hnew
          | false => exact hnode
        · intro node hnode
          cases hp : p.manager.polled with
          | true => simp [hp] at hnode
          | false =>
            rw [hp, if_neg Bool.false_ne_true] at hnode
            exact hcond.2 hp node hnode
      · obtain ⟨added, hadded⟩ := hadded
        refine ⟨_, added, hadded.symm, fun q hq => ?_, .inl rfl⟩
        apply hsited'.connecting
        rw [← hadded]
        exact List.mem_append_right _ hq
    · -- the getter raised: no set is returned, but the manager's view of it has changed
      rename_i hraised
      cases hs
      have hraised' : ∀ replies' keys' nodes' gone', PollEvent.poll replies keys nodes gone =
          .poll replies' keys' nodes' gone' → (p.getter.call keys' replies').2 ≠ true := by
        rintro _ _ _ _ ⟨⟩
        exact hraised
      refine ⟨?_, fun r k n g he hok => absurd hok (hraised' r k n g he),
        fun r k n g he hok => absurd hok (hraised' r k n g he), ?_⟩
      · cases hp : p.manager.polled with
        | false => exact ⟨h.book, h.sited, h.first, fun _ hactive => by cases hactive⟩
        | true =>
          have hsited : Sited { p.manager with nodeInfo := nodes, polled := true } := h.resited fun hp => (hcond.1 hp).2
          exact ⟨{ h.book with }, hsited, fun hp' => (by cases hp'), fun _ hactive => by cases hactive⟩
      · refine ⟨p.manager.connecting, [], ?_, by simp, .inl rfl⟩
        split <;> simp
  · cases hs

theorem callback_onSet {e : Event} (h : OnSet p) (hs : pollStep order p (.callback e) = some p') :
    OnSet p' ∧ Follows order p (.callback e) p' := by
  simp only [pollStep] at hs
  split at hs
  · cases hs
  · rename_i hpoll
    obtain ⟨s', hstep, rfl⟩ := Option.map_eq_some_iff.1 hs
    have hbook : Book s' := step_book h.book hstep
    rcases callback_cases h.book.toRecords (by simpa using hpoll) hstep with hmoves | ⟨i, t, node, hi, he, hload⟩
    · have hconnects := hmoves.connects
      have hsited := h.sited.schedulings hmoves
      refine ⟨⟨hbook, hsited, ?_, ?_⟩, fun _ _ _ _ he => (by cases he), fun _ _ _ _ he => (by cases he), ?_⟩
      · rw [hconnects.polled, hconnects.nodeInfo]
        exact h.first
      · rw [hconnects.polled]
        exact h.again
      · obtain ⟨added, hadded⟩ := hconnects.added
        refine ⟨_, added, hadded.symm, fun q hq => ?_, .inl rfl⟩
        apply hsited.connecting
        rw [← hadded]
        exact List.mem_append_right _ hq
    · have hnode : node ∈ p.manager.nodeInfo := h.sited.connecting _ (List.mem_of_getElem? hi)
      have hfewer : ∀ q ∈ p.manager.connecting.eraseIdx i, q.2 ∈ p.manager.nodeInfo :=
        fun q hq => h.sited.connecting q (List.eraseIdx_subset hq)
      obtain ⟨hconnecting, hinfo, hpolled, hrunning⟩ : s'.connecting = p.manager.connecting.eraseIdx i ∧
          s'.nodeInfo = p.manager.nodeInfo ∧ s'.polled = p.manager.polled ∧
          ∀ n, s'.tasksRunning n ≠ [] → n ∈ p.manager.nodeInfo := by
        rcases hload with ⟨hsame, -⟩ | hsame
        · exact ⟨hsame.connecting, hsame.nodeInfo, hsame.polled, by rw [hsame.tasksRunning]; exact h.sited.running⟩
        · refine ⟨hsame.connecting, hsame.nodeInfo, hsame.polled, fun n hn => ?_⟩
          rw [hsame.tasksRunning] at hn
          by_cases heq : n = node
          · subst heq
            exact hnode
          · apply h.sited.running n
            simpa [heq] using hn
      refine ⟨⟨hbook, ⟨?_, ?_⟩, ?_, ?_⟩, fun _ _ _ _ he => (by cases he), fun _ _ _ _ he => (by cases he), ?_⟩
      · rw [hinfo]
        exact hrunning
      · rw [hconnecting, hinfo]
        exact hfewer
      · rw [hpolled, hinfo]
        exact h.first
      · rw [hpolled]
        exact h.again
      · refine ⟨_, [], by simpa using hconnecting, by simp, .inr ⟨i, ?_, rfl⟩⟩
        rcases he with rfl | rfl
        · exact .inl rfl
        · exact .inr rfl

theorem step_onSet {e : PollEvent} (h : OnSet p) (hcond : Steady p e) (hs : pollStep order p e = some p') :
    OnSet p' ∧ Follows order p e p' := by
  cases e with
  | poll replies keys nodes gone => exact poll_onSet h hcond hs
  | callback e => exact callback_onSet h hs

theorem onSet_init (slots : NodeId → Option Nat) (orders : CommandId → DictOrder) (getter : Getter) :
    OnSet { manager := .initial slots orders, getter } :=
  ⟨book_init slots orders, ⟨fun n hn => absurd rfl hn, fun q hq => by cases hq⟩, fun _ => rfl, fun hp => by cases hp⟩

end Sets

/-- **The scheduler follows the node set**, with either getter, in every run in which from the second poll on no node
appears, and none vanishes on which a session runs or to which a connection is being made, and at the first none but the
last is without job slots. -/
theorem scheduler_follows_nodes (order : NodeManager → List NodeId) (slots : NodeId → Option Nat)
    (orders : CommandId → DictOrder) (getter : Getter) (events : List PollEvent) (p p' : Polling) (e : PollEvent)
    (hrun : run (pollStep order) { manager := .initial slots orders, getter } events = some p)
    (hmeets : Meets (pollStep order) Steady { manager := .initial slots orders, getter } events)
    (hcond : Steady p e) (hstep : pollStep order p e = some p') : Follows order p e p' := by
  have h : OnSet p :=
    run_inv_of_meets (pollStep order) (fun _ _ _ h hc hs => (step_onSet h hc hs).1) events _ p
      (onSet_init slots orders getter)
      hmeets hrun
  exact (step_onSet h hcond hstep).2

/-- The detector finds node 1, on which a session is then started. -/
def detectedEvents : List PollEvent :=
  [.poll [1] [] [1] [], .callback (.createTasks 0 [⟨0, 1⟩] false), .callback (.preprocessed ⟨0, 0⟩),
    .callback (.connected 0)]

/-- The node answers again. -/
theorem scheduler_follows_nodes_again :
    ∃ p p', run (pollStep fun _ => []) { manager := .initial fun _ => some 1, getter := .nodeDetector [] }
        detectedEvents = some p ∧ 1 ∈ p.manager.sessions ∧
      pollStep (fun _ => []) p (.poll [1] [1] [1] []) = some p' ∧ Follows (fun _ => []) p (.poll [1] [1] [1] []) p' := by
  have hmeets : Meets (pollStep fun _ => []) Steady
      { manager := .initial fun _ => some 1, getter := .nodeDetector [] } detectedEvents :=
    ⟨⟨nofun, fun _ _ => nofun⟩, fun _ _ => ⟨trivial, fun _ _ => ⟨trivial, fun _ _ => ⟨trivial, fun _ _ => trivial⟩⟩⟩⟩
  obtain ⟨p, hp⟩ : ∃ p, run (pollStep fun _ => [])
      { manager := .initial fun _ => some 1, getter := .nodeDetector [] } detectedEvents = some p :=
    ⟨_, rfl⟩
  have hfollows : ∀ p', Steady p (.poll [1] [1] [1] []) → pollStep (fun _ => []) p (.poll [1] [1] [1] []) = some p' →
      Follows (fun _ => []) p (.poll [1] [1] [1] []) p' := fun p' hcond hstep =>
    scheduler_follows_nodes (fun _ => []) (fun _ => some 1) _ (.nodeDetector []) detectedEvents p p' _ hp hmeets hcond
      hstep
  cases hp
  refine ⟨_, _, rfl, by decide, rfl, hfollows _ ⟨fun _ => ⟨by decide, ?_, ?_⟩, fun hp => by cases hp⟩ rfl⟩
  · intro sid hsid obj hobj
    obtain rfl : sid = 1 := List.mem_singleton.1 hsid
    cases hobj
    decide
  · intro t node hmem
    cases hmem

/-- The node no longer answers, and is taken out of the set at the fourth poll; its session is left alone. -/
theorem vanished_node_keeps_session :
    ∃ p p', run (pollStep fun _ => []) { manager := .initial fun _ => some 1, getter := .nodeDetector [] }
        (detectedEvents ++ List.replicate 3 (.poll [] [1] [1] [])) = some p ∧
      pollStep (fun _ => []) p (.poll [] [1] [] []) = some p' ∧ ¬ Follows (fun _ => []) p (.poll [] [1] [] []) p' := by
  refine ⟨_, _, rfl, rfl, fun h => ?_⟩
  have hnode := h.sessions [] [1] [] [] rfl rfl 1 (by decide) _ rfl
  cases hnode

/-! ## The scheduler is work-conserving -/

/-- When a connection attempt comes to nothing while tasks are queued, its node has enough to do without it. -/
def Dispensable (s : NodeManager) (i : Nat) : Prop :=
  s.unassignedTasks ≠ [] → ∀ t node, s.connecting[i]? = some (t, node) → node ∈ s.nodeInfo →
    Full { s with connecting := s.connecting.eraseIdx i } node

/-- What has to hold where a node could be left without work: while tasks are queued no node but the last is without job
slots at the first poll, and no node appears after it; and no connection attempt that comes to nothing is missed. -/
def Conserving (p : Polling) : PollEvent → Prop
  | .poll _ _ nodes _ => p.manager.unassignedTasks ≠ [] →
    (p.manager.polled = true → ∀ node ∈ nodes, node ∉ p.manager.nodeInfo → Full p.manager node) ∧
    (p.manager.polled = false → ∀ node ∈ nodes.dropLast, p.manager.slotless node = false)
  | .callback (.connected i) => p.manager.counter + 1 < 2 ^ 32 ∨ Dispensable p.manager i
  | .callback (.connectionFailed i) => Dispensable p.manager i
  | .callback _ => True

/-- The records agree, and no node is idle while tasks are queued. -/
structure Working (p : Polling) : Prop where
  book : Book p.manager
  busy : Busy p.manager []
  first : p.manager.polled = false → p.manager.nodeInfo = []
  again : p.manager.polled = true → p.active = true → p.getter.live = true

section Work
variable {s s' : NodeManager} {p p' : Polling} {nodes : List NodeId} {order : NodeManager → List NodeId}

/-- The nodes that look for work one after the other are all full, or the queue is empty. -/
theorem busy_findWork_all {calls : List NodeId} (hb : Busy s calls) :
    Busy (calls.foldl (fun s node => s.findWork order node) s) [] := by
  induction calls generalizing s with
  | nil => exact hb
  | cons node calls ih => exact ih (busy_findWork hb order)

/-- Ending a connection attempt takes one task from its node. -/
theorem load_eraseIdx {i : Nat} {t : TaskId} {node : NodeId} (hi : s.connecting[i]? = some (t, node)) (n : NodeId) :
    load s n = load { s with connecting := s.connecting.eraseIdx i } n + if n = node then 1 else 0 := by
  obtain ⟨hlt, hget⟩ := List.getElem?_eq_some_iff.1 hi
  have hperm := (List.getElem_cons_eraseIdx_perm hlt).filter (fun q => decide (q.2 = n))
  have hlength := hperm.length_eq
  rw [hget, List.filter_cons] at hlength
  unfold load
  by_cases hn : n = node
  · subst hn
    simp only [decide_true, if_true, List.length_cons] at hlength
    simp only [if_true]
    omega
  · have hne : node ≠ n := Ne.symm hn
    simp only [hne, decide_false, Bool.false_eq_true, if_false] at hlength
    simp only [hn, if_false]
    omega

theorem callback_busy {e : Event} (h : Working p) (hcond : Conserving p (.callback e)) (hpoll : e.isPoll = false)
    (hs : step p.getter.live order p.manager e = some s') : Busy s' [] := by
  rcases callback_cases h.book.toRecords hpoll hs with hmoves | ⟨i, t, node, hi, he, ⟨hsame, hfull⟩ | hsame⟩
  · exact hmoves.busy h.busy
  · -- the attempt came to nothing
    have hspare : Dispensable p.manager i := by
      rcases he with rfl | rfl
      · exact hcond.resolve_left (Nat.not_lt.2 (hfull rfl))
      · exact hcond
    refine hsame.busy fun hne n hn _ => ?_
    by_cases heq : n = node
    · subst heq
      exact hspare hne t n hi hn
    · have hbefore := h.busy hne n hn List.not_mem_nil
      unfold Full at hbefore ⊢
      rw [load_eraseIdx hi n, if_neg heq] at hbefore
      exact hbefore
  · -- the task now runs on the node
    refine hsame.busy fun hne n hn _ slots hslots => ?_
    have hbefore := h.busy hne n hn List.not_mem_nil slots hslots
    rw [load_eraseIdx hi n] at hbefore
    unfold load at hbefore ⊢
    dsimp only at hbefore ⊢
    by_cases heq : n = node
    · subst heq
      rw [Function.update_self, List.length_append, List.length_singleton]
      rw [if_pos rfl] at hbefore
      omega
    · rw [Function.update_of_ne heq]
      rw [if_neg heq] at hbefore
      exact hbefore

theorem step_working {e : PollEvent} (h : Working p) (hcond : Conserving p e) (hs : pollStep order p e = some p') :
    Working p' := by
  cases e with
  | poll replies keys nodes gone =>
    simp only [pollStep] at hs
    split at hs
    · rename_i hguard
      have hlive := fun hpolled => h.again hpolled hguard.1
      -- With tasks queued all old nodes are busy, and by the condition so are the new ones.
      have hset : ∀ polled, p.manager.polled = true → Busy { p.manager with nodeInfo := nodes, polled } [] := by
        intro polled hp hne n hn _
        by_cases hold : n ∈ p.manager.nodeInfo
        · exact h.busy hne n hold List.not_mem_nil
        · exact (hcond hne).1 hp n hn hold
      split at hs
      · obtain ⟨s', hstep, rfl⟩ := Option.map_eq_some_iff.1 hs
        have hbook : Book s' := step_book h.book hstep
        obtain ⟨rfl, heq⟩ := updateNodeInfo_eq h.first hlive hstep
        have hconnects : Connects { p.manager with nodeInfo := nodes, polled := true } s' := by
          rw [heq]
          exact findWorkAll_connects _ _
        refine ⟨hbook, ?_, fun hp => ?_, fun _ hactive => ?_⟩
        · dsimp only
          rw [heq]
          by_cases hempty : p.manager.unassignedTasks = []
          · intro hne
            -- Finding work takes tasks from the queue and adds none.
            have hqueue := findWorkAll_queue order (if p.manager.polled then [] else nodes)
              (s := { p.manager with nodeInfo := nodes, polled := true })
            exact absurd (List.subset_nil.1 (hempty ▸ hqueue)) hne
          · cases hp : p.manager.polled with
            | true => exact hset true hp
            | false =>
              have hslots : ∀ node ∈ nodes.dropLast,
                  { p.manager with nodeInfo := nodes, polled := true }.slotless node = false := (hcond hempty).2 hp
              rw [if_neg Bool.false_ne_true, findWorkAll_eq_foldl hslots]
              exact busy_findWork_all fun _ n hn hout => absurd hn hout
        · have hpolled : s'.polled = true := hconnects.polled
          rw [hpolled] at hp
          cases hp
        · rw [Getter.call_live]
          exact (Bool.and_eq_true_iff.1 hactive).1
      · cases hs
        cases hp : p.manager.polled with
        | false => exact ⟨h.book, h.busy, h.first, fun _ hactive => by cases hactive⟩
        | true =>
          exact ⟨{ h.book with }, hset true hp, fun hp' => (by cases hp'), fun _ hactive => by cases hactive⟩
    · cases hs
  | callback e =>
    simp only [pollStep] at hs
    split at hs
    · cases hs
    · rename_i hpoll
      obtain ⟨s', hstep, rfl⟩ := Option.map_eq_some_iff.1 hs
      have hpoll' : e.isPoll = false := by simpa using hpoll
      obtain ⟨hinfo, hpolled⟩ : s'.nodeInfo = p.manager.nodeInfo ∧ s'.polled = p.manager.polled := by
        rcases callback_cases h.book.toRecords hpoll' hstep with hmoves | ⟨_, _, _, _, _, ⟨hsame, -⟩ | hsame⟩
        · exact ⟨hmoves.connects.nodeInfo, hmoves.connects.polled⟩
        · exact ⟨hsame.nodeInfo, hsame.polled⟩
        · exact ⟨hsame.nodeInfo, hsame.polled⟩
      refine ⟨step_book h.book hstep, callback_busy h hcond hpoll' hstep, ?_, ?_⟩
      · rw [hinfo, hpolled]
        exact h.first
      · rw [hpolled]
        exact h.again

theorem working_init (slots : NodeId → Option Nat) (orders : CommandId → DictOrder) (getter : Getter) :
    Working { manager := .initial slots orders, getter } :=
  ⟨book_init slots orders, fun hne => absurd rfl hne, fun _ => rfl, fun hp => by cases hp⟩

end Work

/-- **The scheduler is work-conserving**, with either getter, in every run in which no node appears after the first poll
while tasks are queued, and no connection attempt fails that its node would need. -/
theorem scheduler_conserves_work (order : NodeManager → List NodeId) (slots : NodeId → Option Nat)
    (orders : CommandId → DictOrder) (getter : Getter) (events : List PollEvent) (p : Polling)
    (hrun : run (pollStep order) { manager := .initial slots orders, getter } events = some p)
    (hmeets : Meets (pollStep order) Conserving { manager := .initial slots orders, getter }
      events)
    (hqueue : p.manager.unassignedTasks ≠ []) {node : NodeId} (hnode : node ∈ p.manager.nodeInfo) :
    ∀ slots ∈ (p.manager.nodes node).jobSlots, slots + 1 ≤
      (p.manager.tasksRunning node).length + (p.manager.connecting.filter (·.2 = node)).length := by
  have h : Working p :=
    run_inv_of_meets (pollStep order) (fun _ _ _ h hc hs => step_working h hc hs) events _ p
      (working_init slots orders getter)
      hmeets hrun
  exact h.busy hqueue node hnode List.not_mem_nil

/-- Two tasks run on the one node, so that the third has to wait. -/
def waitingEvents : List PollEvent :=
  [.poll [1] [] [1] [], .callback (.createTasks 0 [⟨0, 1⟩, ⟨0, 1⟩, ⟨0, 1⟩] false), .callback (.preprocessed ⟨0, 0⟩),
    .callback (.connected 0), .callback (.preprocessed ⟨0, 1⟩), .callback (.connected 0),
    .callback (.preprocessed ⟨0, 2⟩)]

theorem scheduler_conserves_work_waiting :
    ∃ p, run (pollStep fun _ => []) { manager := .initial fun _ => some 1, getter := .nodeDetector [] }
        waitingEvents = some p ∧ p.manager.unassignedTasks ≠ [] ∧
      2 ≤ (p.manager.tasksRunning 1).length + (p.manager.connecting.filter (·.2 = 1)).length := by
  have hmeets : Meets (pollStep fun _ => []) Conserving
      { manager := .initial fun _ => some 1, getter := .nodeDetector [] } waitingEvents := by
    refine ⟨fun hp => absurd rfl hp, fun p₁ h₁ => ⟨trivial, fun p₂ h₂ => ⟨trivial, fun p₃ h₃ => ?_⟩⟩⟩
    cases h₁
    cases h₂
    cases h₃
    refine ⟨.inl (by decide), fun p₄ h₄ => ⟨trivial, fun p₅ h₅ => ?_⟩⟩
    cases h₄
    cases h₅
    exact ⟨.inl (by decide), fun _ _ => ⟨trivial, fun _ _ => trivial⟩⟩
  obtain ⟨p, hp⟩ : ∃ p, run (pollStep fun _ => [])
      { manager := .initial fun _ => some 1, getter := .nodeDetector [] } waitingEvents = some p :=
    ⟨_, rfl⟩
  have hfull : p.manager.unassignedTasks ≠ [] → 1 ∈ p.manager.nodeInfo → ∀ slots ∈ (p.manager.nodes 1).jobSlots,
      slots + 1 ≤ (p.manager.tasksRunning 1).length + (p.manager.connecting.filter (·.2 = 1)).length :=
    fun hqueue hnode =>
    scheduler_conserves_work (fun _ => []) (fun _ => some 1) _ (.nodeDetector []) waitingEvents p hp hmeets hqueue hnode
  cases hp
  exact ⟨_, rfl, by decide, hfull (by decide) (by decide) 1 rfl⟩

/-- The first poll finds no node; when one appears, the queued task is not given to it. -/
theorem idle_node_queued_task :
    ∃ p, run (pollStep fun _ => []) { manager := .initial fun _ => some 1, getter := .nodeDetector [] }
        [.poll [] [] [] [], .callback (.createTasks 0 [⟨0, 1⟩] false), .callback (.preprocessed ⟨0, 0⟩),
          .poll [1] [] [1] []] = some p ∧
      p.manager.unassignedTasks ≠ [] ∧ 1 ∈ p.manager.nodeInfo ∧ ∃ slots ∈ (p.manager.nodes 1).jobSlots,
      (p.manager.tasksRunning 1).length + (p.manager.connecting.filter (·.2 = 1)).length < slots + 1 :=
  ⟨_, rfl, by decide, by decide, 1, rfl, by decide⟩

end BuildPal.Scheduler
