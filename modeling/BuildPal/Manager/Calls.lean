import BuildPal.Manager.Answers
import BuildPal.Manager.Cancelled
/-!
# The manager calls its sessions

What a callback of the manager does to its sessions: each is called once at
most, with what the callback has for it, and is otherwise left alone.
-/
open BuildPal.Lib BuildPal.Message

namespace BuildPal.Scheduler

/-! ## What a callback does to the sessions -/

/-- The session as a call leaves it, if it is called. -/
def afterCall (reply : Option ServerSession.Reply) (session : ServerSession) : ServerSession :=
  (reply.map ServerSession.Reply.session).getD session

/-- The call completes the session. -/
def CallEnds (reply : Option ServerSession.Reply) : Prop :=
  ∃ r result, reply = some r ∧ r.action = some (.complete result)

/-- The sessions are called with these replies, and nothing else happens to them. -/
structure Calls (s s' : NodeManager) (replies : SessionId → Option ServerSession.Reply) : Prop where
  objects : ∀ sid, (s'.objects sid).map Session.session =
    ((s.objects sid).map Session.session).map (afterCall (replies sid))
  sessions : ∀ sid, sid ∈ s'.sessions ↔ sid ∈ s.sessions ∧ ¬ CallEnds (replies sid)
  decompressing : ∀ sid, s'.decompressing.count sid = s.decompressing.count sid +
    if (replies sid).any (·.action = some .gather) then 1 else 0
  files : ∀ t, (s'.tasks t).files = (s.tasks t).files
  commands : ∀ c, (s'.commands c).tasks = (s.commands c).tasks
  failures : (∀ sid reply, replies sid = some reply → reply.action ≠ some .raise) → .session ∈ s'.failures →
    .session ∈ s.failures

namespace Calls
variable {s s' s'' : NodeManager} {t : TaskId} {node : NodeId} {sid : SessionId} {obj : Session}
  {reply : ServerSession.Reply} {replies replies' : SessionId → Option ServerSession.Reply}
  {order : NodeManager → List NodeId} {elapsed : Rat}

theorem not_callEnds_none : ¬ CallEnds none := by
  rintro ⟨r, result, hr, -⟩
  cases hr

/-- No session is called. -/
theorem nothing (hobjects : ∀ sid, (s'.objects sid).map Session.session = (s.objects sid).map Session.session)
    (hsessions : s'.sessions = s.sessions) (hdecompressing : s'.decompressing = s.decompressing)
    (hfiles : ∀ t, (s'.tasks t).files = (s.tasks t).files)
    (hcommands : ∀ c, (s'.commands c).tasks = (s.commands c).tasks)
    (hfailures : .session ∈ s'.failures → .session ∈ s.failures) : Calls s s' fun _ => none where
  objects sid := by
    rw [hobjects]
    exact (congrFun Option.map_id _).symm
  sessions sid := by
    rw [hsessions]
    exact ⟨fun hmem => ⟨hmem, not_callEnds_none⟩, fun h => h.1⟩
  decompressing sid := by
    rw [hdecompressing]
    rfl
  files := hfiles
  commands := hcommands
  failures _ := hfailures

/-- No session is made. -/
theorem made (h : Calls s s' replies) (sid : SessionId) : s'.objects sid = none ↔ s.objects sid = none := by
  have hobject := congrArg Option.isNone (h.objects sid)
  simp only [Option.isNone_map] at hobject
  rw [← Option.isNone_iff_eq_none, ← Option.isNone_iff_eq_none, hobject]

/-- First some sessions are called, then others. -/
theorem trans (h : Calls s s' replies) (h' : Calls s' s'' replies')
    (hother : ∀ sid, replies sid = none ∨ replies' sid = none) :
    Calls s s'' fun sid => (replies sid).or (replies' sid) where
  objects sid := by
    rw [h'.objects, h.objects]
    rcases hother sid with hnone | hnone
    · rw [hnone]
      exact congrArg _ (congrFun Option.map_id _)
    · rw [hnone, Option.or_none]
      exact congrFun Option.map_id _
  sessions sid := by
    rw [h'.sessions, h.sessions]
    rcases hother sid with hnone | hnone
    · rw [hnone, Option.none_or]
      exact and_congr_left fun _ => and_iff_left not_callEnds_none
    · rw [hnone, Option.or_none]
      exact and_iff_left not_callEnds_none
  decompressing sid := by
    rw [h'.decompressing, h.decompressing]
    rcases hother sid with hnone | hnone
    · rw [hnone, Option.none_or]
      rfl
    · rw [hnone, Option.or_none]
      rfl
  files t := (h'.files t).trans (h.files t)
  commands c := (h'.commands c).trans (h.commands c)
  failures hraise hmem := by
    apply h.failures (fun sid reply hreply => hraise sid reply (by simp [hreply]))
    apply h'.failures _ hmem
    intro sid reply hreply
    apply hraise sid reply
    rw [(hother sid).resolve_right (by simp [hreply]), Option.none_or, hreply]

theorem then_nothing (h : Calls s s' replies) (h' : Calls s' s'' fun _ => none) : Calls s s'' replies := by
  have hboth := h.trans h' fun _ => .inr rfl
  simpa only [Option.or_none] using hboth

theorem raise {failure : Failure} (hfailure : failure ≠ .session) : Calls s (s.raise failure) fun _ => none := by
  refine nothing (fun _ => rfl) rfl rfl (fun _ => rfl) (fun _ => rfl) fun hmem => ?_
  rcases List.mem_append.1 hmem with hmem | hmem
  · exact hmem
  · exact absurd (List.mem_singleton.1 hmem).symm hfailure

theorem of_rearranged (hr : Rearranged s s') : Calls s s' fun _ => none := by
  have hraised : .session ∈ s'.failures → .session ∈ s.failures :=
    fun hmem => (hr.raised _ hmem).resolve_right (by simp)
  have hsame := hr.same
  generalize s'.unassignedTasks = unassigned, s'.connecting = connecting, s'.failures = failures at hsame hraised
  subst hsame
  exact nothing (fun _ => rfl) rfl rfl (fun _ => rfl) (fun _ => rfl) hraised

/-- Only this session is called. -/
def only (sid : SessionId) (reply : ServerSession.Reply) (other : SessionId) : Option ServerSession.Reply :=
  if other = sid then some reply else none

theorem ends_only {other : SessionId} : CallEnds (only sid reply other) ↔
    other = sid ∧ ∃ result, reply.action = some (.complete result) := by
  unfold CallEnds only
  constructor
  · rintro ⟨r, result, hr, haction⟩
    obtain ⟨heq, hr⟩ := Option.ite_none_right_eq_some.1 hr
    exact ⟨heq, result, by rw [Option.some.inj hr]; exact haction⟩
  · rintro ⟨heq, result, haction⟩
    exact ⟨reply, result, if_pos heq, haction⟩

theorem gathers_only {other : SessionId} : (only sid reply other).any (·.action = some .gather) =
    decide (other = sid ∧ reply.action = some .gather) := by
  by_cases heq : other = sid
  · simp [only, heq]
  · simp [only, heq]

theorem setObject (hobj : s.objects sid = some obj) (other : SessionId) :
    ((s.setObject sid { obj with session := reply.session }).objects other).map Session.session =
      ((s.objects other).map Session.session).map (afterCall (only sid reply other)) := by
  by_cases heq : other = sid
  · subst heq
    simp [NodeManager.setObject, only, afterCall, hobj]
  · simp only [NodeManager.setObject, Function.update_of_ne heq, only, if_neg heq]
    exact (congrFun Option.map_id _).symm

/-- A session is called that goes on. -/
theorem goes_on (hobj : s.objects sid = some obj)
    (hobjects : s'.objects = (s.setObject sid { obj with session := reply.session }).objects)
    (hsessions : s'.sessions = s.sessions) (hgoes : ∀ result, reply.action ≠ some (.complete result))
    (hdecompressing : s'.decompressing = s.decompressing ++ if reply.action = some .gather then [sid] else [])
    (htasks : s'.tasks = s.tasks) (hcommands : s'.commands = s.commands)
    (hfailures : reply.action ≠ some .raise → .session ∈ s'.failures → .session ∈ s.failures) :
    Calls s s' (only sid reply) where
  objects other := by
    rw [hobjects]
    exact setObject hobj other
  sessions other := by
    rw [hsessions, ends_only]
    refine ⟨fun hmem => ⟨hmem, ?_⟩, fun hmem => hmem.1⟩
    rintro ⟨-, result, haction⟩
    exact hgoes result haction
  decompressing other := by
    rw [hdecompressing, List.count_append, gathers_only]
    by_cases hgather : reply.action = some .gather
    · by_cases heq : other = sid
      · simp [hgather, heq]
      · have hne : ¬ sid = other := fun h => heq h.symm
        simp [hgather, heq, hne]
    · simp [hgather]
  files t := by rw [htasks]
  commands c := by rw [hcommands]
  failures hraise := hfailures (hraise sid reply (if_pos rfl))

theorem completed {result : SessionResult} (h : Book s) (hc : Completed s sid obj result s') :
    (∀ other, other ∈ s'.sessions ↔ other ∈ s.sessions ∧ other ≠ sid) ∧ s'.objects = s.objects ∧
      s'.decompressing = s.decompressing ∧ (∀ t, (s'.tasks t).files = (s.tasks t).files) ∧
      (∀ c, (s'.commands c).tasks = (s.commands c).tasks) ∧ (.session ∈ s'.failures → .session ∈ s.failures) := by
  refine ⟨fun other => ?_, hc.objects, hc.decompressing, fun t => ?_, hc.commandTasks, fun hmem => ?_⟩
  · rw [hc.sessions, h.nodup.mem_erase_iff, and_comm]
  · rw [hc.tasks]
    by_cases ht : t = obj.task
    · subst ht
      rw [Function.update_self]
      split <;> rfl
    · rw [Function.update_of_ne ht]
  · have hcommand := hc.command
    split at hcommand
    · rcases hcommand.2.2 with hfailures | ⟨-, hfailures⟩
      · rwa [hfailures] at hmem
      · rw [hfailures] at hmem
        exact (List.mem_append.1 hmem).resolve_right (by simp)
    · rcases hcommand with ⟨-, -, -, -, hfailures | hfailures, -⟩ | ⟨-, -, -, -, hfailures, -⟩
      · rwa [hfailures] at hmem
      · rw [hfailures] at hmem
        exact (List.mem_append.1 hmem).resolve_right (by simp)
      · rwa [hfailures] at hmem

/-- A session that is called ends, or the manager goes on with it. -/
theorem replied (h : Book s) (hobj : s.objects sid = some obj) (hr : Book.ReplyOk s sid obj reply) :
    Calls s (s.replied order sid obj reply elapsed) (only sid reply) := by
  unfold NodeManager.replied
  cases haction : reply.action with
  | none =>
    exact goes_on hobj rfl rfl (by simp [haction]) (by simp [haction, NodeManager.setObject]) rfl rfl fun _ => id
  | some action =>
    cases action with
    | compressPch =>
      exact goes_on hobj rfl rfl (by simp [haction]) (by simp [haction, NodeManager.setObject]) rfl rfl fun _ => id
    | gather =>
      exact goes_on hobj rfl rfl (by simp [haction]) (by simp [haction, NodeManager.setObject]) rfl rfl fun _ => id
    | raise =>
      refine goes_on hobj rfl rfl (by simp [haction]) ?_ rfl rfl fun hne => absurd haction hne
      simp [haction, NodeManager.setObject, NodeManager.raise]
    | complete result =>
      have hbook := h.setObject hobj hr
      have hself : (s.setObject sid { obj with session := reply.session }).objects sid =
          some { obj with session := reply.session } := by simp [NodeManager.setObject]
      obtain ⟨hresult, hwin⟩ := hr.ends result haction
      have hends : ∀ other, CallEnds (only sid reply other) ↔ other = sid := by
        intro other
        rw [ends_only]
        exact ⟨fun h => h.1, fun h => ⟨h, result, haction⟩⟩
      have hgathers : ∀ other, (only sid reply other).any (·.action = some .gather) = false := by
        intro other
        simp [gathers_only, haction]
      dsimp only
      by_cases hsid : sid ∈ s.sessions
      · obtain ⟨hsessions, hobjects, hdecompressing, hfiles, hcommands, hfailures⟩ := completed hbook
          (sessionCompleted_spec order elapsed (hbook.toRecords.completes hsid hself hresult (hwin hsid)))
        refine ⟨fun other => ?_, fun other => ?_, fun other => ?_, hfiles, hcommands, fun _ => hfailures⟩
        · rw [hobjects]
          exact setObject hobj other
        · rw [hsessions, hends]
          rfl
        · rw [hdecompressing, hgathers]
          rfl
      · have hgone : sid ∉ (s.setObject sid { obj with session := reply.session }).sessions := hsid
        rw [sessionCompleted_gone hgone]
        refine ⟨setObject hobj, fun other => ?_, fun other => ?_, fun _ => rfl, fun _ => rfl, fun _ hmem => ?_⟩
        · rw [hends]
          refine ⟨fun hmem => ⟨hmem, ?_⟩, fun hmem => hmem.1⟩
          rintro rfl
          exact hsid hmem
        · rw [hgathers]
          rfl
        · exact (List.mem_append.1 hmem).resolve_right (by simp)

end Calls

/-! ## The callbacks -/

/-- The session that completes its task has the others cancelled. -/
def cancelled (s : NodeManager) (sid : SessionId) (obj : Session) (msg : FromServer) (other : SessionId) :
    Option ServerSession.Reply :=
  if (s.registration sid obj msg).2 ∧ other ∈ (s.tasks obj.task).sessionsRunning ∧ other ≠ sid then
    (s.objects other).map (·.session.cancel)
  else none

/-- These sessions are terminated. -/
def terminated (s : NodeManager) (gone : List SessionId) (other : SessionId) : Option ServerSession.Reply :=
  if other ∈ gone then (s.objects other).map (·.session.terminate) else none

/-- How the sessions are called in a callback; in a poll, if nothing raises. -/
def called (s : NodeManager) : Event → SessionId → Option ServerSession.Reply
  | .message sid msg _, other =>
    if sid ∈ s.sessions then
      (s.objects sid).bind fun obj => (cancelled s sid obj msg other).or (Calls.only sid
        (obj.session.gotDataFromServer (s.tasks obj.task).files (s.registration sid obj msg).2 msg) other)
    else none
  | .decompressed i ok _, other =>
    (s.decompressing[i]?).bind fun sid =>
      (s.objects sid).bind fun obj => Calls.only sid (obj.session.completeSession ok) other
  | .updateNodeInfo _ gone, other => terminated s gone other
  | _, _ => none

section Callbacks
variable {s s' : NodeManager} {t : TaskId} {node : NodeId} {sid : SessionId} {obj : Session} {msg : FromServer}
  {order : NodeManager → List NodeId} {elapsed : Rat}

/-- A session that is told of the end of the compilation completes the task, unless another one has. -/
theorem registration_cases (s : NodeManager) (sid : SessionId) (obj : Session) (msg : FromServer) :
    s.registration sid obj msg = (s, false) ∨ s.registration sid obj msg = ({ s with
      tasks := Function.update s.tasks obj.task { s.tasks obj.task with completedBySession := some sid }
      objects := fun other =>
        if other ∈ (s.tasks obj.task).sessionsRunning ∧ other ≠ sid then
          (s.objects other).map fun obj => { obj with session := obj.session.cancel.session }
        else s.objects other }, true) := by
  unfold NodeManager.registration
  split
  · unfold NodeManager.registerCompletion
    dsimp only
    split
    · exact .inl rfl
    · exact .inr rfl
  · exact .inl rfl

theorem cancel_not_ends {reply : ServerSession.Reply} {other : SessionId}
    (hreply : cancelled s sid obj msg other = some reply) : reply.action = none := by
  unfold cancelled at hreply
  obtain ⟨-, hreply⟩ := Option.ite_none_right_eq_some.1 hreply
  obtain ⟨o, -, rfl⟩ := Option.map_eq_some_iff.1 hreply
  rfl

theorem registration_calls : Calls s (s.registration sid obj msg).1 (cancelled s sid obj msg) := by
  have hends : ∀ other, ¬ CallEnds (cancelled s sid obj msg other) := by
    rintro other ⟨reply, result, hreply, haction⟩
    rw [cancel_not_ends hreply] at haction
    cases haction
  have hgathers : ∀ other, (cancelled s sid obj msg other).any (·.action = some .gather) = false := by
    intro other
    cases hreply : cancelled s sid obj msg other with
    | none => rfl
    | some reply => simp [cancel_not_ends hreply]
  rcases registration_cases s sid obj msg with heq | heq
  · have hnone : cancelled s sid obj msg = fun _ => none := by
      funext other
      simp [cancelled, heq]
    rw [hnone, heq]
    exact .nothing (fun _ => rfl) rfl rfl (fun _ => rfl) (fun _ => rfl) id
  · refine ⟨fun other => ?_, fun other => ?_, fun other => ?_, fun t => ?_, fun c => by rw [heq], fun _ hmem => ?_⟩
    · rw [heq]
      unfold cancelled
      rw [heq]
      dsimp only
      by_cases hother : other ∈ (s.tasks obj.task).sessionsRunning ∧ other ≠ sid
      · rw [if_pos hother, if_pos ⟨rfl, hother⟩]
        cases s.objects other with
        | none => rfl
        | some o => rfl
      · rw [if_neg hother, if_neg fun h => hother h.2]
        exact (congrFun Option.map_id _).symm
    · rw [heq]
      exact ⟨fun hmem => ⟨hmem, hends other⟩, fun hmem => hmem.1⟩
    · rw [heq, hgathers]
      rfl
    · rw [heq]
      dsimp only
      by_cases ht : t = obj.task
      · subst ht
        rw [Function.update_self]
      · rw [Function.update_of_ne ht]
    · rwa [heq] at hmem

theorem message_calls (h : Book s) (hobj : s.objects sid = some obj) :
    Calls s (s.gotDataFromServer order sid obj msg elapsed) fun other => (cancelled s sid obj msg other).or
      (Calls.only sid (obj.session.gotDataFromServer (s.tasks obj.task).files (s.registration sid obj msg).2 msg)
        other) := by
  obtain ⟨hbook, hself, -, -⟩ := h.registration hobj msg
  apply registration_calls.trans (Calls.replied hbook hself (h.gotDataFromServer_ok hobj msg))
  intro other
  by_cases heq : other = sid
  · exact .inl (if_neg fun h => h.2.2 heq)
  · exact .inr (if_neg heq)

variable (order) in
/-- The sessions of nodes that have gone are ended one after the other, until a call raises. -/
theorem terminateSessions_calls (h : Book s) {gone : List SessionId} (hnodup : gone.Nodup)
    (hgone : ∀ sid ∈ gone, sid ∈ s.sessions) :
    ∃ told, told <+: gone ∧ Calls s (NodeManager.terminateSessions order s gone) (terminated s told) := by
  induction gone generalizing s with
  | nil => exact ⟨[], List.nil_prefix, .nothing (fun _ => rfl) rfl rfl (fun _ => rfl) (fun _ => rfl) id⟩
  | cons sid rest ih =>
    have hsid := hgone sid List.mem_cons_self
    obtain ⟨obj, hobj, -⟩ := h.object sid hsid
    have hcompleted : Completed _ sid _ .terminated (s.replied order sid obj obj.session.terminate 0) :=
      Tended.replied_completed h hobj hsid Book.terminate_ok rfl order 0
    have hcalls : Calls s (s.replied order sid obj obj.session.terminate 0) (Calls.only sid obj.session.terminate) :=
      .replied h hobj Book.terminate_ok
    have hbook : Book (s.replied order sid obj obj.session.terminate 0) := h.replied hobj Book.terminate_ok
    have hfresh : ∀ other ∈ rest, other ≠ sid := fun other hother heq => (List.nodup_cons.1 hnodup).1 (heq ▸ hother)
    have hrest : ∀ other ∈ rest, other ∈ (s.replied order sid obj obj.session.terminate 0).sessions := by
      intro other hother
      rw [hcompleted.sessions]
      exact (List.mem_erase_of_ne (hfresh other hother)).2 (hgone other (List.mem_cons_of_mem _ hother))
    unfold NodeManager.terminateSessions
    simp only [hobj]
    split
    · obtain ⟨told, hbegins, hlater⟩ := ih hbook (List.nodup_cons.1 hnodup).2 hrest
      have htold : ∀ other ∈ told, other ≠ sid := fun other hother => hfresh other (hbegins.subset hother)
      refine ⟨sid :: told, (List.prefix_cons_inj sid).2 hbegins, ?_⟩
      have hboth := hcalls.trans hlater fun other => by
        by_cases heq : other = sid
        · exact .inr (if_neg fun hother => htold other hother heq)
        · exact .inl (if_neg heq)
      convert hboth using 1
      funext other
      by_cases heq : other = sid
      · subst heq
        simp [terminated, Calls.only, hobj]
      · have hsame : (s.replied order sid obj obj.session.terminate 0).objects other = s.objects other := by
          rw [hcompleted.objects]
          simp [NodeManager.setObject, heq]
        simp [terminated, Calls.only, heq, hsame]
    · refine ⟨[sid], (List.prefix_cons_inj sid).2 List.nil_prefix, ?_⟩
      convert hcalls using 1
      funext other
      by_cases heq : other = sid
      · subst heq
        simp [terminated, Calls.only, hobj]
      · simp [terminated, Calls.only, heq]

variable (order) in
theorem updateNodeInfo_calls (h : Book s) {live : Bool} {nodes : List NodeId} {gone : List SessionId}
    (hperm : gone.Perm (s.sessionsGone live nodes)) :
    ∃ told, told <+: gone ∧ Calls s (s.updateNodeInfo live order nodes gone) (terminated s told) := by
  have hpolled : Book { s with nodeInfo := nodes, polled := true } := { h with }
  have hgone : ∀ sid ∈ gone, sid ∈ s.sessions := fun sid hsid => List.mem_of_mem_filter (hperm.subset hsid)
  have hnodup : gone.Nodup := hperm.nodup_iff.2 (h.nodup.filter _)
  obtain ⟨told, hbegins, hends⟩ := terminateSessions_calls order hpolled hnodup hgone
  have hcalls : Calls s (NodeManager.terminateSessions order { s with nodeInfo := nodes, polled := true } gone)
      (terminated s told) :=
    ⟨hends.objects, hends.sessions, hends.decompressing, hends.files, hends.commands, hends.failures⟩
  refine ⟨told, hbegins, ?_⟩
  unfold NodeManager.updateNodeInfo
  dsimp only
  split
  · exact hcalls.then_nothing (.of_rearranged (Rearranged.findWorkAll _ _ _))
  · exact hcalls

theorem taskCompleted_calls {result : TaskResult} {session : Option SessionId} :
    Calls s (s.taskCompleted t result session) fun _ => none := by
  have hlogged : Calls s (s.logReport t session) fun _ => none :=
    .nothing (fun _ => rfl) rfl rfl (fun _ => rfl) (fun _ => rfl) id
  unfold NodeManager.taskCompleted
  split
  · exact hlogged.then_nothing (.raise (by simp))
  · split
    · exact hlogged.then_nothing (.raise (by simp))
    · refine hlogged.then_nothing (.nothing (fun _ => rfl) rfl rfl (fun _ => rfl) (fun c => ?_) id)
      by_cases hc : c = t.command
      · subst hc
        simp [NodeManager.setCommand, postprocessIfDone_tasks, Command.addResult, NodeManager.logReport]
      · simp [NodeManager.setCommand, hc]

theorem scanned_calls {scan : Scan} (hs : s.scanned t scan = some s') : Calls s s' fun _ => none := by
  unfold NodeManager.scanned at hs
  split at hs
  · cases hs
    refine .nothing (fun _ => rfl) rfl rfl (fun t' => ?_) (fun _ => rfl) id
    by_cases ht : t' = t
    · subst ht
      simp [NodeManager.setTask]
    · simp [NodeManager.setTask, ht]
  · cases hs

/-- A callback calls sessions, unless it makes tasks or a session, is the end of a decompression or a poll. -/
theorem step_calls {live : Bool} {e : Event} (h : Book s) (hs : step live order s e = some s') :
    (∃ c files linker, e = .createTasks c files linker) ∨ (∃ i, e = .connected i) ∨
      (∃ i ok elapsed, e = .decompressed i ok elapsed) ∨ (∃ nodes gone, e = .updateNodeInfo nodes gone) ∨
      Calls s s' (called s e) := by
  cases e with
  | createTasks c files linker => exact .inl ⟨c, files, linker, rfl⟩
  | connected i => exact .inr (.inl ⟨i, rfl⟩)
  | decompressed i ok elapsed => exact .inr (.inr (.inl ⟨i, ok, elapsed, rfl⟩))
  | preprocessed t =>
    obtain ⟨s₁, hs₁, rfl⟩ := steps_of_step hs
    exact .inr (.inr (.inr
      (.inr ((scanned_calls hs₁).then_nothing (.of_rearranged (Rearranged.scheduleTask _ t false))))))
  | preprocessingFailed t stderr =>
    obtain ⟨s₁, hs₁, rfl⟩ := steps_of_step hs
    exact .inr (.inr (.inr (.inr ((scanned_calls hs₁).then_nothing taskCompleted_calls))))
  | cannotDistribute t => exact .inr (.inr (.inr (.inr (scanned_calls hs))))
  | connectionFailed i =>
    obtain ⟨t, node, -, rfl⟩ := steps_of_step hs
    refine .inr (.inr (.inr (.inr (.nothing (fun _ => rfl) rfl rfl (fun _ => rfl) (fun _ => rfl) fun hmem => ?_))))
    exact (List.mem_append.1 hmem).resolve_right (by simp)
  | message sid msg elapsed =>
    refine .inr (.inr (.inr (.inr ?_)))
    rcases steps_of_step hs with ⟨hsid, obj, hobj, rfl⟩ | ⟨hsid, rfl⟩
    · have hcalls : Calls s (s.gotDataFromServer order sid obj msg elapsed) _ := message_calls h hobj
      convert hcalls using 1
      funext other
      simp [called, hsid, hobj]
    · have hcalled : called s (.message sid msg elapsed) = fun _ => none := by
        funext other
        simp [called, hsid]
      rw [hcalled]
      exact .nothing (fun _ => rfl) rfl rfl (fun _ => rfl) (fun _ => rfl) id
  | updateNodeInfo nodes gone => exact .inr (.inr (.inr (.inl ⟨nodes, gone, rfl⟩)))

/-- A decompression is over. -/
theorem decompressed_calls {i : Nat} {ok : Bool} (h : Book s) (hi : s.decompressing[i]? = some sid)
    (hobj : s.objects sid = some obj) :
    Calls { s with decompressing := s.decompressing.eraseIdx i }
      (NodeManager.replied { s with decompressing := s.decompressing.eraseIdx i } order sid obj
        (obj.session.completeSession ok) elapsed) (Calls.only sid (obj.session.completeSession ok)) := by
  have hfewer : Book { s with decompressing := s.decompressing.eraseIdx i } :=
    { h with gathering := fun sid hsid => h.gathering sid (List.eraseIdx_subset hsid) }
  exact .replied hfewer hobj (hfewer.completeSession_ok hobj ok (h.gathering_state (List.mem_of_getElem? hi) hobj))

theorem called_decompressed {i : Nat} {ok : Bool} (hi : s.decompressing[i]? = some sid)
    (hobj : s.objects sid = some obj) :
    called s (.decompressed i ok elapsed) = Calls.only sid (obj.session.completeSession ok) := by
  funext other
  simp [called, hi, hobj]

/-- What a callback keeps that makes no tasks: the tasks' files, and that no session has failed. -/
structure Kept (s s' : NodeManager) (replies : SessionId → Option ServerSession.Reply) : Prop where
  files : ∀ t, (s'.tasks t).files = (s.tasks t).files
  commands : ∀ c, (s'.commands c).tasks = (s.commands c).tasks
  failures : (∀ sid reply, replies sid = some reply → reply.action ≠ some .raise) → .session ∈ s'.failures →
    .session ∈ s.failures

theorem step_kept {live : Bool} {e : Event} (h : Book s) (hs : step live order s e = some s')
    (hnew : ∀ c files linker, e ≠ .createTasks c files linker) : Kept s s' (called s e) := by
  rcases step_calls h hs with ⟨c, files, linker, rfl⟩ | ⟨i, rfl⟩ | ⟨i, ok, elapsed, rfl⟩ |
    ⟨nodes, gone, rfl⟩ | hcalls
  · exact absurd rfl (hnew c files linker)
  · obtain ⟨t, node, -, rfl⟩ := steps_of_step hs
    rcases createSession_spec { s with connecting := s.connecting.eraseIdx i } t node with ⟨failure, heq, hwhich⟩ | ho
    · rw [heq]
      refine ⟨fun _ => rfl, fun _ => rfl, fun _ hmem => ?_⟩
      apply (List.mem_append.1 hmem).resolve_right
      rcases hwhich with ⟨rfl, -⟩ | ⟨rfl, -⟩ <;> simp
    · exact ⟨fun t => by rw [ho.task], fun c => by rw [ho.commands], fun _ hmem => by rwa [ho.failures] at hmem⟩
  · obtain ⟨sid, obj, hi, hobj, rfl⟩ := steps_of_step hs
    have hcalls : Calls _ (NodeManager.replied _ order sid obj (obj.session.completeSession ok) elapsed) _ :=
      decompressed_calls h hi hobj
    rw [called_decompressed hi hobj]
    exact ⟨hcalls.files, hcalls.commands, hcalls.failures⟩
  · obtain ⟨⟨-, hperm⟩, rfl⟩ := steps_of_step hs
    obtain ⟨told, hbegins, hcalls⟩ := updateNodeInfo_calls order h hperm
    refine ⟨hcalls.files, hcalls.commands, fun hraise => hcalls.failures fun sid reply hreply => ?_⟩
    obtain ⟨htold, hreply⟩ := Option.ite_none_right_eq_some.1 hreply
    exact hraise sid reply ((if_pos (hbegins.subset htold)).trans hreply)
  · exact ⟨hcalls.files, hcalls.commands, hcalls.failures⟩

end Callbacks

end BuildPal.Scheduler
