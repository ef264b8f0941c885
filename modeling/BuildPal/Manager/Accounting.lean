import BuildPal.Manager.Ledger
import BuildPal.Manager.Scheduling
/-!
# Node accounting

What a node is believed to be doing is written down in four places: the list
`tasks_running`, the counters of its `NodeInfo`, the dictionary `sessions` and
the sets `sessions_running` of the tasks. Scheduling reads the first two,
messages are delivered through the third. They agree between any two callbacks,
and every session that ends is counted once.
-/
open BuildPal.Lib BuildPal.Message

namespace BuildPal.Scheduler

namespace NodeInfo
variable (node : NodeInfo)

/-- The counter of the sessions that ended with this result. -/
def counter : SessionResult → Nat
  | .success => node.tasksCompleted
  | .failure => node.tasksFailed
  | .cancelled => node.tasksCancelled
  | .tooLate => node.tasksTooLate
  | .timedOut => node.tasksTimedOut
  | .terminated => node.tasksTerminated

/-- Counting a result moves its own counter and no other. -/
@[simp] theorem countResult_counter (result r : SessionResult) :
    (node.countResult result).counter r = node.counter r + if r = result then 1 else 0 := by
  cases result <;> cases r <;> rfl

theorem countResult_tasksPending (result : SessionResult) :
    (node.countResult result).tasksPending = node.tasksPending - 1 := by
  cases result <;> simp only [countResult, tasksPending] <;> omega

end NodeInfo

/-- The sessions that a callback ended: they were registered before it, and are no longer. -/
def endedBetween (s s' : NodeManager) : List SessionId := s.sessions.filter (· ∉ s'.sessions)

/-- The session ran on the node, and its result is this one. -/
def endedAs (s : NodeManager) (node : NodeId) (result : SessionResult) (sid : SessionId) : Bool :=
  (s.objects sid).any fun obj => obj.node = node ∧ obj.session.result = some result

/-- The counters have moved by the sessions that ended, and by nothing else: each of these has one result, so that it
is counted in the one counter of its node that is for this result. -/
structure Counted (s s' : NodeManager) : Prop where
  result : ∀ sid ∈ endedBetween s s', ∃ obj result, s'.objects sid = some obj ∧ obj.session.result = some result
  once : ∀ n r, (s'.nodes n).counter r = (s.nodes n).counter r + ((endedBetween s s').filter (endedAs s' n r)).length

/-- The four places agree. -/
structure Accounted (s : NodeManager) : Prop where
  onNode : ∀ n, (s.tasksRunning n).Perm (tasksOn s n)
  pending : ∀ n, (s.nodes n).tasksPending = (tasksOn s n).length
  notNegative : ∀ n, 0 ≤ (s.nodes n).tasksPending
  distinct : s.sessions.Nodup
  /-- A session is registered if and only if it is running for its task, and it runs for no other. -/
  registered : ∀ sid, sid ∈ s.sessions ↔ ∃ obj, s.objects sid = some obj ∧ sid ∈ (s.tasks obj.task).sessionsRunning
  own : ∀ t, ∀ sid ∈ (s.tasks t).sessionsRunning, ∃ obj, s.objects sid = some obj ∧ obj.task = t
  /-- No duration was taken from a change that had not been noted. -/
  durations : .tasksChange ∉ s.failures

/-! ## What is counted -/

/-- The two records of a node count the same. -/
structure SameCounts (node node' : NodeInfo) : Prop where
  counter : ∀ r, node'.counter r = node.counter r
  tasksSent : node'.tasksSent = node.tasksSent

namespace SameCounts
variable {node node' node'' : NodeInfo}

theorem refl (node : NodeInfo) : SameCounts node node := ⟨fun _ => rfl, rfl⟩

theorem trans (h : SameCounts node node') (h' : SameCounts node' node'') : SameCounts node node'' :=
  ⟨fun r => (h'.counter r).trans (h.counter r), h'.tasksSent.trans h.tasksSent⟩

theorem tasksPending (h : SameCounts node node') : node'.tasksPending = node.tasksPending := by
  have h₁ : node'.tasksCompleted = node.tasksCompleted := h.counter .success
  have h₂ : node'.tasksFailed = node.tasksFailed := h.counter .failure
  have h₃ : node'.tasksCancelled = node.tasksCancelled := h.counter .cancelled
  have h₄ : node'.tasksTooLate = node.tasksTooLate := h.counter .tooLate
  have h₅ : node'.tasksTimedOut = node.tasksTimedOut := h.counter .timedOut
  have h₆ : node'.tasksTerminated = node.tasksTerminated := h.counter .terminated
  unfold NodeInfo.tasksPending
  rw [h₁, h₂, h₃, h₄, h₅, h₆, h.tasksSent]

end SameCounts

section Counts
variable {s s' : NodeManager} {t : TaskId} {node n : NodeId} {sid : SessionId} {obj : Session} {result : SessionResult}
  {elapsed : Rat}

theorem scheduleTask_nodes (s : NodeManager) (t : TaskId) (highPriority : Bool) :
    (s.scheduleTask t highPriority).nodes = s.nodes := by
  rw [(Rearranged.scheduleTask s t highPriority).same]

theorem noMoreSessions_nodes (s : NodeManager) (t : TaskId) : (s.noMoreSessions t).1.nodes = s.nodes := by
  obtain ⟨c, -, heq⟩ := noMoreSessions_spec s t
  rw [heq]

theorem taskCompleted_nodes (s : NodeManager) (t : TaskId) (result : TaskResult) (session : Option SessionId) :
    (s.taskCompleted t result session).nodes = s.nodes := by
  unfold NodeManager.taskCompleted
  repeat' split
  all_goals rfl

/-- What follows in the command adds to the time of the node, and counts nothing. -/
theorem sessionDelivered_counts (s : NodeManager) (sid : SessionId) (obj : Session) (result : SessionResult)
    (elapsed : Rat) (n : NodeId) : SameCounts (s.nodes n) ((s.sessionDelivered sid obj result elapsed).nodes n) := by
  unfold NodeManager.sessionDelivered
  split
  · unfold NodeManager.reportResult
    split
    · rw [taskCompleted_nodes]
      by_cases hn : n = obj.node
      · subst hn
        simp only [NodeManager.setNode, Function.update_self, noMoreSessions_nodes]
        exact ⟨fun r => by cases r <;> rfl, rfl⟩
      · simp only [NodeManager.setNode, Function.update_of_ne hn, noMoreSessions_nodes]
        exact .refl _
    · simp only [NodeManager.raise, noMoreSessions_nodes]
      exact .refl _
  · rw [noMoreSessions_nodes]
    exact .refl _

/-- The end of a session is counted on its node, once. -/
theorem sessionCompleted_counts (order : NodeManager → List NodeId) (elapsed : Rat) (h : Completes s sid obj result)
    (n : NodeId) : SameCounts (if n = obj.node then (s.nodes n).countResult result else s.nodes n)
      ((s.sessionCompleted order sid obj elapsed).nodes n) := by
  obtain ⟨info, hinfo, -, heq⟩ := sessionCompleted_eq order elapsed h
  have hinfo' : SameCounts ((s.nodes obj.node).countResult result) info := by
    unfold NodeInfo.processSessionResult NodeInfo.tasksPendingAboutToChange at hinfo
    rw [if_neg (by simp [h.change])] at hinfo
    cases hinfo
    constructor
    · intro r
      cases result <;> cases r <;> rfl
    · cases result <;> rfl
  have hfound := Rearranged.findWork (s.removeSession sid obj) order obj.node
  rw [heq]
  dsimp only
  generalize (s.removeSession sid obj).findWork order obj.node = s₂ at hfound
  have hnodes' : s₂.nodes = s.nodes := by rw [hfound.same]; rfl
  -- the record of the node is replaced, the others stay
  have hset : ∀ task, SameCounts (if n = obj.node then (s.nodes n).countResult result else s.nodes n)
      (((s₂.setTask obj.task task).setNode obj.node info).nodes n) := by
    intro task
    simp only [NodeManager.setNode, NodeManager.setTask, hnodes']
    by_cases hn : n = obj.node
    · subst hn
      simpa using hinfo'
    · simpa [hn] using SameCounts.refl _
  by_cases hfail : isServerFailure result = true
  · rw [if_pos hfail]
    refine (hset (((s.tasks obj.task).finish sid).dethrone sid)).trans ?_
    split
    · rw [scheduleTask_nodes]
      exact .refl _
    · exact .refl _
  · rw [if_neg hfail]
    exact (hset _).trans (sessionDelivered_counts ..)

end Counts

/-! ## What a call ends -/

/-- The sessions `ended` have ended, each of them is counted, and the node's books stay balanced. -/
structure Ends (s s' : NodeManager) (ended : List SessionId) : Prop where
  sessions : s.sessions.Perm (ended ++ s'.sessions)
  result : ∀ sid ∈ ended, ∃ obj result, s'.objects sid = some obj ∧ obj.session.result = some result
  counter : ∀ n r, (s'.nodes n).counter r = (s.nodes n).counter r + (ended.filter (endedAs s' n r)).length
  balance : ∀ n, (s'.nodes n).tasksPending - (s'.tasksRunning n).length =
    (s.nodes n).tasksPending - (s.tasksRunning n).length
  durations : .tasksChange ∈ s'.failures → .tasksChange ∈ s.failures

namespace Ends
variable {s s' s'' : NodeManager} {ended ended' : List SessionId} {sid : SessionId} {obj : Session}
  {result : SessionResult} {reply : ServerSession.Reply} {order : NodeManager → List NodeId} {elapsed : Rat}

/-- Nothing ends. -/
theorem nothing (hsessions : s'.sessions = s.sessions) (hnodes : s'.nodes = s.nodes)
    (hrunning : s'.tasksRunning = s.tasksRunning) (hfailures : .tasksChange ∈ s'.failures → .tasksChange ∈ s.failures) :
    Ends s s' [] := by
  refine ⟨by rw [hsessions]; rfl, fun _ h => (by cases h), fun n r => ?_, fun n => ?_, hfailures⟩
  · simp [hnodes]
  · rw [hnodes, hrunning]

/-- Sessions that have ended are left alone by what ends later. -/
theorem trans (h : Ends s s' ended) (h' : Ends s' s'' ended')
    (hgone : ∀ sid ∈ ended, s''.objects sid = s'.objects sid) : Ends s s'' (ended ++ ended') := by
  constructor
  case sessions =>
    rw [List.append_assoc]
    exact h.sessions.trans (h'.sessions.append_left ended)
  case result =>
    intro sid hsid
    rcases List.mem_append.1 hsid with hsid | hsid
    · rw [hgone sid hsid]
      exact h.result sid hsid
    · exact h'.result sid hsid
  case counter =>
    intro n r
    have hsame : ended.filter (endedAs s'' n r) = ended.filter (endedAs s' n r) := by
      apply List.filter_congr
      intro sid hsid
      unfold endedAs
      rw [hgone sid hsid]
    rw [h'.counter, h.counter, List.filter_append, List.length_append, hsame, Nat.add_assoc]
  case balance => exact fun n => (h'.balance n).trans (h.balance n)
  case durations => exact fun hmem => h.durations (h'.durations hmem)

theorem counted (h : Ends s s' ended) (hnodup : s.sessions.Nodup) : Counted s s' := by
  have hdisjoint := (List.nodup_append.1 (h.sessions.nodup_iff.1 hnodup)).2.2
  have hperm : (endedBetween s s').Perm ended := by
    refine (h.sessions.filter _).trans (.of_eq ?_)
    rw [List.filter_append, List.filter_eq_self.2, List.filter_eq_nil_iff.2, List.append_nil]
    · simp
    · intro sid hsid
      simpa using fun hmem => hdisjoint sid hsid sid hmem rfl
  constructor
  · exact fun sid hsid => h.result sid (hperm.mem_iff.1 hsid)
  · intro n r
    rw [h.counter, (hperm.filter _).length_eq]

/-- A session that ends leaves `sessions` and the list of its node, and is counted there. -/
theorem completed (h : Completes s sid obj result) (hobj : s.objects sid = some obj)
    (order : NodeManager → List NodeId) (elapsed : Rat) :
    Ends s (s.sessionCompleted order sid obj elapsed) [sid] := by
  have hc := sessionCompleted_spec order elapsed h
  have hcounts := sessionCompleted_counts order elapsed h
  generalize s.sessionCompleted order sid obj elapsed = s' at hc hcounts
  have hself : s'.objects sid = some obj := by rw [hc.objects, hobj]
  constructor
  case sessions =>
    rw [hc.sessions]
    exact List.perm_cons_erase h.registered
  case result =>
    intro other hother
    obtain rfl := List.mem_singleton.1 hother
    exact ⟨obj, result, hself, h.hasResult⟩
  case counter =>
    intro n r
    rw [(hcounts n).counter]
    by_cases hn : n = obj.node
    · by_cases hr : r = result
      · simp [hn, hr, endedAs, hself, h.hasResult]
      · simp [hn, hr, Ne.symm hr, endedAs, hself, h.hasResult]
    · simp [hn, Ne.symm hn, endedAs, hself]
  case balance =>
    intro n
    rw [(hcounts n).tasksPending, hc.tasksRunning]
    by_cases hn : n = obj.node
    · subst hn
      have hpos := List.length_pos_of_mem h.onNode
      rw [if_pos rfl, NodeInfo.countResult_tasksPending, Function.update_self, List.length_erase_of_mem h.onNode]
      omega
    · rw [if_neg hn, Function.update_of_ne hn]
  case durations =>
    have hcommand := hc.command
    split at hcommand
    · rcases hcommand.2.2 with heq | ⟨-, heq⟩
      · rw [heq]
        exact id
      · rw [heq]
        simp
    · rcases hcommand with ⟨-, -, -, -, heq | heq, -⟩ | ⟨-, -, -, -, heq, -⟩
      · rw [heq]
        exact id
      · rw [heq]
        simp
      · rw [heq]
        exact id

/-- A call ends the session that is called, or none. -/
theorem replied (h : Book s) (hobj : s.objects sid = some obj) (hr : Book.ReplyOk s sid obj reply)
    (order : NodeManager → List NodeId) (elapsed : Rat) :
    ∃ ended, Ends s (s.replied order sid obj reply elapsed) ended ∧ ended ⊆ [sid] ∧
      ∀ other, other ≠ sid → (s.replied order sid obj reply elapsed).objects other = s.objects other := by
  have hother : ∀ other, other ≠ sid →
      (s.setObject sid { obj with session := reply.session }).objects other = s.objects other := by
    intro other hne
    simp [NodeManager.setObject, hne]
  have hset := h.setObject hobj hr
  have hself : (s.setObject sid { obj with session := reply.session }).objects sid =
      some { obj with session := reply.session } := by simp [NodeManager.setObject]
  have hnone : ∀ failure : Failure, failure ≠ .tasksChange →
      Ends s ((s.setObject sid { obj with session := reply.session }).raise failure) [] := by
    intro failure hne
    refine nothing rfl rfl rfl fun hmem => ?_
    rcases List.mem_append.1 hmem with hmem | hmem
    · exact hmem
    · exact absurd (List.mem_singleton.1 hmem).symm hne
  unfold NodeManager.replied
  cases haction : reply.action with
  | none => exact ⟨[], nothing rfl rfl rfl id, by simp, hother⟩
  | some action =>
    cases action with
    | compressPch => exact ⟨[], nothing rfl rfl rfl id, by simp, hother⟩
    | gather => exact ⟨[], nothing rfl rfl rfl id, by simp, hother⟩
    | raise => exact ⟨[], hnone _ (by simp), by simp, hother⟩
    | complete result =>
      dsimp only
      by_cases hsid : sid ∈ s.sessions
      · obtain ⟨hresult, hwin⟩ := hr.ends result haction
        have hcompletes := hset.toRecords.completes hsid hself hresult (hwin hsid)
        have hends := completed hcompletes hself order elapsed
        have hc := sessionCompleted_spec order elapsed hcompletes
        refine ⟨[sid], ⟨hends.sessions, hends.result, hends.counter, hends.balance, hends.durations⟩, by simp, ?_⟩
        intro other hne
        rw [hc.objects]
        exact hother other hne
      · have hgone : sid ∉ (s.setObject sid { obj with session := reply.session }).sessions := hsid
        rw [sessionCompleted_gone hgone]
        exact ⟨[], hnone _ (by simp), by simp, hother⟩

/-- Sessions are ended one after the other, each once. -/
theorem terminateSessions (h : Book s) {gone : List SessionId} (hnodup : gone.Nodup)
    (order : NodeManager → List NodeId) :
    ∃ ended, Ends s (NodeManager.terminateSessions order s gone) ended ∧ ended ⊆ gone ∧
      ∀ other ∉ gone, (NodeManager.terminateSessions order s gone).objects other = s.objects other := by
  induction gone generalizing s with
  | nil => exact ⟨[], nothing rfl rfl rfl id, by simp, fun _ _ => rfl⟩
  | cons sid rest ih =>
    obtain ⟨hnotin, hrest⟩ := List.nodup_cons.1 hnodup
    unfold NodeManager.terminateSessions
    cases hobj : s.objects sid with
    | none => exact ⟨[], nothing rfl rfl rfl id, by simp, fun _ _ => rfl⟩
    | some obj =>
      dsimp only
      obtain ⟨ended, hends, hsub, hothers⟩ := replied h hobj Book.terminate_ok order 0
      have hbook : Book (s.replied order sid obj obj.session.terminate 0) := h.replied hobj Book.terminate_ok
      generalize s.replied order sid obj obj.session.terminate 0 = s₁ at hends hothers hbook
      split
      · obtain ⟨ended', hends', hsub', hothers'⟩ := ih hbook hrest
        refine ⟨ended ++ ended', hends.trans hends' ?_, ?_, ?_⟩
        · intro other hother
          obtain rfl := List.mem_singleton.1 (hsub hother)
          exact hothers' other hnotin
        · intro other hother
          rcases List.mem_append.1 hother with hother | hother
          · obtain rfl := List.mem_singleton.1 (hsub hother)
            exact List.mem_cons_self
          · exact List.mem_cons_of_mem _ (hsub' hother)
        · intro other hother
          simp only [List.mem_cons, not_or] at hother
          exact (hothers' other hother.2).trans (hothers other hother.1)
      · refine ⟨ended, hends, fun other hother => ?_, fun other hother => hothers other ?_⟩
        · obtain rfl := List.mem_singleton.1 (hsub hother)
          exact List.mem_cons_self
        · exact fun heq => hother (heq ▸ List.mem_cons_self)

/-- Scheduling ends nothing. -/
theorem of_rearranged (h : Rearranged s s') : Ends s s' [] := by
  refine nothing ?_ ?_ ?_ fun hmem => (h.raised _ hmem).resolve_right (by simp)
  all_goals rw [h.same]

theorem message (h : Book s) (hobj : s.objects sid = some obj) (msg : FromServer) (order : NodeManager → List NodeId)
    (elapsed : Rat) : ∃ ended, Ends s (s.gotDataFromServer order sid obj msg elapsed) ended := by
  obtain ⟨hbook, hself, hsessions, -⟩ := h.registration hobj msg
  have hregistered : Ends s (s.registration sid obj msg).1 [] := by
    refine nothing hsessions ?_ registration_load.tasksRunning ?_
    all_goals
      unfold NodeManager.registration NodeManager.registerCompletion
      dsimp only
      repeat' split
    · rfl
    · rfl
    · rfl
    · exact id
    · exact id
    · exact id
  obtain ⟨ended, hends, -, -⟩ := replied hbook hself (h.gotDataFromServer_ok hobj msg) order elapsed
  exact ⟨_, hregistered.trans hends (by simp)⟩

theorem updateNodeInfo (h : Book s) {live : Bool} {nodes : List NodeId} {gone : List SessionId} (hnodup : gone.Nodup)
    (order : NodeManager → List NodeId) : ∃ ended, Ends s (s.updateNodeInfo live order nodes gone) ended := by
  have hpolled : Book { s with nodeInfo := nodes, polled := true } := { h with }
  obtain ⟨ended, hends, -, -⟩ := terminateSessions hpolled hnodup order
  have hgone : Ends s (NodeManager.terminateSessions order { s with nodeInfo := nodes, polled := true } gone) ended :=
    ⟨hends.sessions, hends.result, hends.counter, hends.balance, hends.durations⟩
  unfold NodeManager.updateNodeInfo
  dsimp only
  split
  · have hfound := Rearranged.findWorkAll
      (NodeManager.terminateSessions order { s with nodeInfo := nodes, polled := true } gone) order
      (nodes.filter (· ∉ NodeManager.previousNodes live s nodes))
    exact ⟨_, hgone.trans (of_rearranged hfound) fun sid _ => by rw [hfound.same]⟩
  · exact ⟨ended, hgone⟩

end Ends

/-! ## Runs -/

/-- What a callback does to the books: every end is counted, and they stay balanced. -/
structure Settled (s s' : NodeManager) : Prop where
  counted : Counted s s'
  balance : ∀ n, (s'.nodes n).tasksPending - (s'.tasksRunning n).length =
    (s.nodes n).tasksPending - (s.tasksRunning n).length
  durations : .tasksChange ∈ s'.failures → .tasksChange ∈ s.failures

section Runs
variable {s s' : NodeManager} {t : TaskId} {node : NodeId}

theorem Ends.settled {ended : List SessionId} (h : Ends s s' ended) (hnodup : s.sessions.Nodup) : Settled s s' :=
  ⟨h.counted hnodup, h.balance, h.durations⟩

/-- A session that is made is sent to its node, and ends no other. -/
theorem createSession_settled (h : Records s) (t : TaskId) (node : NodeId) : Settled s (s.createSession t node) := by
  unfold NodeManager.createSession
  dsimp only
  split
  · refine Ends.settled (.nothing rfl rfl rfl fun hmem => ?_) h.nodup
    simpa [NodeManager.raise] using hmem
  · cases hinfo : (s.nodes node).addTasksSent with
    | none => exact absurd hinfo h.addTasksSent_ne_none
    | some info =>
      have hended : ∀ s' : NodeManager, s'.sessions = s.sessions ++ [s.counter + 1] → endedBetween s s' = [] := by
        intro s' hsessions
        apply List.filter_eq_nil_iff.2
        intro sid hsid
        simp [hsessions, hsid]
      have hinfo' : (∀ r, info.counter r = (s.nodes node).counter r) ∧
          info.tasksPending = (s.nodes node).tasksPending + 1 := by
        unfold NodeInfo.addTasksSent NodeInfo.tasksPendingAboutToChange at hinfo
        split at hinfo
        · cases hinfo
        · cases hinfo
          refine ⟨fun r => by cases r <;> rfl, ?_⟩
          simp only [NodeInfo.tasksPending]
          omega
      refine ⟨⟨fun sid hsid => ?_, fun n r => ?_⟩, fun n => ?_, id⟩
      · rw [hended _ rfl] at hsid
        cases hsid
      · rw [hended _ rfl]
        by_cases hn : n = node
        · subst hn
          simpa using hinfo'.1 r
        · simp [hn]
      · dsimp only
        by_cases hn : n = node
        · subst hn
          simp only [Function.update_self, hinfo'.2, List.length_append, List.length_singleton]
          omega
        · simp only [Function.update_of_ne hn]

/-- Every callback counts what it ends. -/
theorem step_settled {live : Bool} {order : NodeManager → List NodeId} {e : Event} (h : Book s)
    (hs : step live order s e = some s') : Settled s s' := by
  have hscanned : ∀ {t : TaskId} {scan : Scan} {s₁ : NodeManager}, s.scanned t scan = some s₁ → Ends s s₁ [] := by
    intro t scan s₁ hs₁
    obtain ⟨-, rfl, -, -⟩ := h.scanned hs₁
    exact .nothing rfl rfl rfl id
  cases e with
  | createTasks c files shouldInvokeLinker =>
    obtain ⟨-, rfl⟩ := steps_of_step hs
    exact Ends.settled (.nothing rfl rfl rfl id) h.nodup
  | preprocessed t =>
    obtain ⟨s₁, hs₁, rfl⟩ := steps_of_step hs
    exact ((hscanned hs₁).trans (.of_rearranged (.scheduleTask _ _ _)) (by simp)).settled h.nodup
  | preprocessingFailed t stderr =>
    obtain ⟨s₁, hs₁, rfl⟩ := steps_of_step hs
    obtain ⟨-, heq, hmem, hnone⟩ := h.scanned hs₁
    have hunrep := h.unreported hnone
    rw [taskCompleted_eq (by rw [heq]; exact hmem) (by rw [heq]; exact hunrep)]
    subst heq
    exact Ends.settled (.nothing rfl rfl rfl id) h.nodup
  | cannotDistribute t => exact (hscanned hs).settled h.nodup
  | connected i =>
    obtain ⟨t, node, hi, rfl⟩ := steps_of_step hs
    have hfewer : Records { s with connecting := s.connecting.eraseIdx i } :=
      h.toRecords.of_fewer (List.eraseIdx_subset (l := s.connecting) (k := i))
    have hsettled := createSession_settled hfewer t node
    exact ⟨⟨hsettled.counted.result, hsettled.counted.once⟩, hsettled.balance, hsettled.durations⟩
  | connectionFailed i =>
    obtain ⟨t, node, hi, rfl⟩ := steps_of_step hs
    refine Ends.settled (.nothing rfl rfl rfl fun hmem => ?_) h.nodup
    simpa [NodeManager.raise] using hmem
  | message sid msg elapsed =>
    rcases steps_of_step hs with ⟨-, obj, hobj, rfl⟩ | ⟨-, rfl⟩
    · obtain ⟨ended, hends⟩ := Ends.message h hobj msg order elapsed
      exact hends.settled h.nodup
    · exact Ends.settled (.nothing rfl rfl rfl id) h.nodup
  | decompressed i ok elapsed =>
    obtain ⟨sid, obj, hi, hobj, rfl⟩ := steps_of_step hs
    have hfewer : Book { s with decompressing := s.decompressing.eraseIdx i } :=
      { h with gathering := fun sid hsid => h.gathering sid (List.eraseIdx_subset hsid) }
    obtain ⟨ended, hends, -, -⟩ := Ends.replied hfewer hobj
      (hfewer.completeSession_ok hobj ok (h.gathering_state (List.mem_of_getElem? hi) hobj)) order elapsed
    have hsettled := hends.settled h.nodup
    exact ⟨⟨hsettled.counted.result, hsettled.counted.once⟩, hsettled.balance, hsettled.durations⟩
  | updateNodeInfo nodes gone =>
    obtain ⟨hguard, rfl⟩ := steps_of_step hs
    obtain ⟨ended, hends⟩ := Ends.updateNodeInfo h (hguard.2.nodup_iff.2 (h.nodup.filter _)) order
    exact hends.settled h.nodup

/-- The books are kept, and balanced. -/
structure Balanced (s : NodeManager) : Prop where
  book : Book s
  balance : ∀ n, (s.nodes n).tasksPending = (s.tasksRunning n).length
  durations : .tasksChange ∉ s.failures

theorem step_balanced {live : Bool} {order : NodeManager → List NodeId} {e : Event} (h : Balanced s)
    (hs : step live order s e = some s') : Balanced s' := by
  have hsettled := step_settled h.book hs
  refine ⟨step_book h.book hs, fun n => ?_, fun hmem => h.durations (hsettled.durations hmem)⟩
  have hbalance := hsettled.balance n
  have hbefore := h.balance n
  omega

theorem Balanced.accounted (h : Balanced s) : Accounted s := by
  have hpending : ∀ n, (s.nodes n).tasksPending = (tasksOn s n).length := by
    intro n
    rw [h.balance n, (h.book.onNode n).length_eq]
  constructor
  case onNode => exact h.book.onNode
  case pending => exact hpending
  case notNegative =>
    intro n
    rw [hpending n]
    omega
  case distinct => exact h.book.nodup
  case registered =>
    intro sid
    constructor
    · exact h.book.object sid
    · rintro ⟨obj, -, hrunning⟩
      exact (h.book.running obj.task sid hrunning).1
  case own => exact fun t sid hsid => (h.book.running t sid hsid).2
  case durations => exact h.durations

end Runs

/-- **Node accounting is exact.** After every run the four places agree, and whatever callback comes next counts each
session that it ends, once. -/
theorem accounting_exact (live : Bool) (order : NodeManager → List NodeId) (slots : NodeId → Option Nat)
    (orders : CommandId → DictOrder) (events : List Event)
    (s : NodeManager) (hrun : run (step live order) (.initial slots orders) events = some s) :
    Accounted s ∧ ∀ e s', step live order s e = some s' → Counted s s' := by
  have hinit : Balanced (.initial slots orders) := ⟨book_init slots orders, fun n => rfl, by simp⟩
  have h : Balanced s := run_inv (step live order) (fun _ _ _ h hs => step_balanced h hs) hinit hrun
  exact ⟨h.accounted, fun e s' hs => (step_settled h.book hs).counted⟩

/-- The session that failed and the one after it: each in its own counter, and the node is idle again. -/
theorem accounting_exact_retry :
    ∃ s, run (step true fun _ => []) (.initial fun _ => some 2) retryEvents = some s ∧
      (s.nodes 7).tasksSent = 2 ∧ (s.nodes 7).tasksFailed = 1 ∧ (s.nodes 7).tasksCompleted = 1 ∧
      (s.nodes 7).tasksPending = (tasksOn s 7).length := by
  have hcounts : (run (step true fun _ => []) (.initial fun _ => some 2) retryEvents).map
      (fun s => ((s.nodes 7).tasksSent, (s.nodes 7).tasksFailed, (s.nodes 7).tasksCompleted)) = some (2, 1, 1) := rfl
  obtain ⟨s, hs, heq⟩ := Option.map_eq_some_iff.1 hcounts
  simp only [Prod.mk.injEq] at heq
  exact ⟨s, hs, heq.1, heq.2.1, heq.2.2,
    (accounting_exact true (fun _ => []) (fun _ => some 2) _ retryEvents s hs).1.pending 7⟩

end BuildPal.Scheduler
