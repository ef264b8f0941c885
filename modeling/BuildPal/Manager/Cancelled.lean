import BuildPal.Manager.NoTaskLost
/-!
# Cancelled sessions

A session that is to complete its task cancels the others of the task, and a
session that was cancelled must not come to complete it. It does not, as long
as the session that is to complete a task does not fail while one that it
cancelled is still running: the task is then open again, and the answer of the
cancelled session may already be on its way.
-/
open BuildPal.Lib BuildPal.Message

namespace BuildPal.Scheduler

/-- The sessions that fail in a callback. -/
def fails (s : NodeManager) : Event → List SessionId
  | .message sid (.serverFailed _) _ => [sid]
  | .message sid .timedOut _ => [sid]
  | .decompressed i false _ => (s.decompressing[i]?).toList
  | .updateNodeInfo _ gone => gone
  | _ => []

/-- All of them fail: in a poll the first to be scheduled again raises where a node has no number of job slots. -/
def FailTogether (s : NodeManager) : Event → Prop
  | .updateNodeInfo nodes _ => ∀ node ∈ nodes, s.slotless node = false
  | _ => True

/-- If a session fails that is to complete its task, the other sessions of the task were not cancelled, or fail too. -/
def FailsAlone (s : NodeManager) (e : Event) : Prop :=
  ∀ sid ∈ fails s e, ∀ obj, s.objects sid = some obj → (s.tasks obj.task).completedBySession = some sid →
    ∀ other ∈ (s.tasks obj.task).sessionsRunning, other ≠ sid → other ∈ fails s e ∧ FailTogether s e ∨ Live s other

/-- Another session completes the task of each session that was cancelled; the sessions in `gone` are about to fail. -/
structure Overruled (s : NodeManager) (gone : List SessionId) : Prop where
  book : Book s
  going : ∀ sid ∈ s.sessions, ∀ obj, s.objects sid = some obj → obj.session.state ≠ .finish
  overruled : ∀ sid ∈ s.sessions, sid ∉ gone → ∀ obj, s.objects sid = some obj → obj.session.cancelled = true →
    ∃ w, w ≠ sid ∧ (s.tasks obj.task).completedBySession = some w

namespace Overruled
variable {s s' : NodeManager} {t : TaskId} {sid : SessionId} {obj : Session} {result : SessionResult}
  {gone gone' : List SessionId} {reply : ServerSession.Reply} {order : NodeManager → List NodeId} {elapsed : Rat}

/-- Only a session that fails takes its claim to the task with it. -/
theorem dethroned (hc : Completed s sid obj result s') {w : SessionId} (hw : (s.tasks t).completedBySession = some w) :
    (s'.tasks t).completedBySession = some w ∨ t = obj.task ∧ w = sid ∧ isServerFailure result = true := by
  by_cases hfail : isServerFailure result = true
  · by_cases heq : w = sid
    · by_cases ht : t = obj.task
      · exact .inr ⟨ht, heq, hfail⟩
      · rw [hc.others ht]
        exact .inl hw
    · exact .inl (hc.completedBy_kept (.inl heq) hw)
  · left
    rw [hc.tasks, if_neg hfail]
    by_cases ht : t = obj.task
    · subst ht
      rw [Function.update_self]
      exact hw
    · rw [Function.update_of_ne ht]
      exact hw

/-- A session ends. -/
theorem ends (h : Overruled s gone) (hobj : s.objects sid = some obj) (hsid : sid ∈ s.sessions)
    (hr : Book.ReplyOk s sid obj reply) (haction : reply.action = some (.complete result))
    (hgone : ∀ other ∈ gone, other ≠ sid → other ∈ gone')
    (hcond : isServerFailure result = true → (s.tasks obj.task).completedBySession = some sid →
      ∀ other ∈ (s.tasks obj.task).sessionsRunning, other ≠ sid → other ∈ gone' ∨ Live s other) :
    Overruled (s.replied order sid obj reply elapsed) gone' := by
  have hc := Tended.replied_completed h.book hobj hsid hr haction order elapsed
  have hbook : Book (s.replied order sid obj reply elapsed) := h.book.replied hobj hr
  generalize s.replied order sid obj reply elapsed = s' at hc hbook
  -- of the sessions that are left nothing has changed
  have hleft : ∀ other ∈ s'.sessions, other ∈ s.sessions ∧ other ≠ sid ∧ s'.objects other = s.objects other := by
    intro other hother
    rw [hc.sessions] at hother
    have hne : other ≠ sid := by
      rintro rfl
      exact h.book.nodup.not_mem_erase hother
    refine ⟨List.mem_of_mem_erase hother, hne, ?_⟩
    rw [hc.objects]
    simp [NodeManager.setObject, hne]
  refine ⟨hbook, fun other hother o ho => ?_, fun other hother hout o ho hcancelled => ?_⟩
  · obtain ⟨hmem, -, hsame⟩ := hleft other hother
    exact h.going other hmem o (hsame ▸ ho)
  · obtain ⟨hmem, hne, hsame⟩ := hleft other hother
    rw [hsame] at ho
    obtain ⟨w, hw, hcomp⟩ := h.overruled other hmem (fun hin => hout (hgone other hin hne)) o ho hcancelled
    rcases dethroned hc hcomp with hkept | ⟨htask, rfl, hfail⟩
    · exact ⟨w, hw, hkept⟩
    · -- the session it was cancelled for is the one that fails
      have htask' : o.task = obj.task := htask
      have hrun := h.book.running_of_object hmem ho
      rw [htask'] at hcomp hrun
      rcases hcond hfail hcomp other hrun hne with hin | ⟨o', ho', hnot⟩
      · exact absurd hin hout
      · rw [ho] at ho'
        cases ho'
        rw [hcancelled] at hnot
        cases hnot

/-- A call after which the session goes on, or that comes too late for the manager. -/
theorem goesOn (h : Overruled s gone) (hobj : s.objects sid = some obj) (hr : Book.ReplyOk s sid obj reply)
    (hgo : sid ∈ s.sessions → (∀ result, reply.action ≠ some (.complete result)) ∧ reply.session.state ≠ .finish ∧
      reply.session.cancelled = obj.session.cancelled) :
    Overruled (s.replied order sid obj reply elapsed) gone := by
  have hbook : Book (s.replied order sid obj reply elapsed) := h.book.replied hobj hr
  obtain ⟨hobjects, hsessions, htasks⟩ : (s.replied order sid obj reply elapsed).objects =
        (s.setObject sid { obj with session := reply.session }).objects ∧
      (s.replied order sid obj reply elapsed).sessions = s.sessions ∧
      (s.replied order sid obj reply elapsed).tasks = s.tasks := by
    unfold NodeManager.replied
    cases haction : reply.action with
    | none => exact ⟨rfl, rfl, rfl⟩
    | some action =>
      cases action with
      | complete result =>
        have hsid : sid ∉ (s.setObject sid { obj with session := reply.session }).sessions :=
          fun hsid => (hgo hsid).1 result haction
        dsimp only
        rw [sessionCompleted_gone hsid]
        exact ⟨rfl, rfl, rfl⟩
      | compressPch => exact ⟨rfl, rfl, rfl⟩
      | gather => exact ⟨rfl, rfl, rfl⟩
      | raise => exact ⟨rfl, rfl, rfl⟩
  -- the session itself matters only while it is registered
  have hold : ∀ other ∈ s.sessions, ∀ o, (s.replied order sid obj reply elapsed).objects other = some o →
      o.session.state ≠ .finish ∧
        ∃ o', s.objects other = some o' ∧ o'.task = o.task ∧ o'.session.cancelled = o.session.cancelled := by
    intro other hother o ho
    rw [hobjects] at ho
    by_cases heq : other = sid
    · subst heq
      simp only [NodeManager.setObject, Function.update_self, Option.some.injEq] at ho
      subst ho
      exact ⟨(hgo hother).2.1, obj, hobj, rfl, (hgo hother).2.2.symm⟩
    · simp only [NodeManager.setObject, Function.update_of_ne heq] at ho
      exact ⟨h.going other hother o ho, o, ho, rfl, rfl⟩
  refine ⟨hbook, fun other hother o ho => ?_, fun other hother hout o ho hc => ?_⟩
  · rw [hsessions] at hother
    exact (hold other hother o ho).1
  · rw [hsessions] at hother
    obtain ⟨-, o', ho', htask, hsame⟩ := hold other hother o ho
    rw [htasks, ← htask]
    exact h.overruled other hother hout o' ho' (hsame.trans hc)

/-- Of the sessions of a task, only one that was not cancelled is registered as its completion. -/
theorem registration (h : Overruled s []) (hobj : s.objects sid = some obj) (msg : FromServer) :
    Overruled (s.registration sid obj msg).1 [] := by
  obtain ⟨hbook, -, -, -⟩ := h.book.registration hobj msg
  revert hbook
  unfold NodeManager.registration
  split
  · intro hbook
    unfold NodeManager.registerCompletion at hbook ⊢
    dsimp only at hbook ⊢
    split
    · exact h
    · rename_i hopen
      have hnone : (s.tasks obj.task).completedBySession = none := by simpa [Task.isCompleted] using hopen
      rw [if_neg hopen] at hbook
      refine ⟨hbook, fun other hother o ho => ?_, fun other hother hout o ho hcancelled => ?_⟩
      · dsimp only at ho
        split at ho
        · obtain ⟨o', ho', rfl⟩ := Option.map_eq_some_iff.1 ho
          exact h.going other hother o' ho'
        · exact h.going other hother o ho
      · dsimp only at ho ⊢
        split at ho
        · rename_i hrival
          obtain ⟨o', ho', rfl⟩ := Option.map_eq_some_iff.1 ho
          obtain ⟨-, o'', ho'', htask⟩ := h.book.running _ other hrival.1
          rw [ho'] at ho''
          cases ho''
          refine ⟨sid, hrival.2.symm, ?_⟩
          rw [htask, Function.update_self]
        · obtain ⟨w, hw, hcomp⟩ := h.overruled other hother hout o ho hcancelled
          have hne : o.task ≠ obj.task := by
            intro heq
            rw [heq, hnone] at hcomp
            cases hcomp
          exact ⟨w, hw, by rw [Function.update_of_ne hne]; exact hcomp⟩
  · intro _
    exact h

/-! ## The callbacks -/

theorem message (h : Overruled s []) (hobj : s.objects sid = some obj) (hsid : sid ∈ s.sessions) {msg : FromServer}
    (hcond : FailsAlone s (.message sid msg elapsed)) : Overruled (s.gotDataFromServer order sid obj msg elapsed) [] := by
  have hreg := h.registration hobj msg
  obtain ⟨-, hself, hsessions, -⟩ := h.book.registration hobj msg
  have hreply := h.book.gotDataFromServer_ok hobj msg
  have hok : ServerSession.ActionOk obj.session _ _ (obj.session.gotDataFromServer (s.tasks obj.task).files
      (s.registration sid obj msg).2 msg) := ServerSession.gotDataFromServer_ok
  have hcancelled : (obj.session.gotDataFromServer (s.tasks obj.task).files
      (s.registration sid obj msg).2 msg).session.cancelled = obj.session.cancelled :=
    ServerSession.gotDataFromServer_cancelled
  unfold NodeManager.gotDataFromServer
  by_cases hend : ∃ result, (obj.session.gotDataFromServer (s.tasks obj.task).files
      (s.registration sid obj msg).2 msg).action = some (.complete result)
  · obtain ⟨result, haction⟩ := hend
    refine hreg.ends hself (hsessions ▸ hsid) hreply haction (fun _ hin => absurd hin List.not_mem_nil) ?_
    intro hfail hcomp other hother hne
    -- a session that fails was not registered by the same message
    obtain ⟨hsame, hfails⟩ : (s.registration sid obj msg).1 = s ∧ fails s (.message sid msg elapsed) = [sid] := by
      obtain ⟨-, -, hcause⟩ := hok.ends result haction
      rcases hcause with ⟨-, -, traceback, rfl⟩ | ⟨-, rfl⟩ | ⟨rfl, -⟩ | ⟨-, r, o, e, -, ⟨rfl, -⟩ | ⟨rfl, -⟩⟩
      · exact ⟨by unfold NodeManager.registration; split <;> first | rfl | contradiction, rfl⟩
      · exact ⟨by unfold NodeManager.registration; split <;> first | rfl | contradiction, rfl⟩
      · cases hfail
      · cases hfail
      · cases hfail
    rw [hsame] at hcomp hother ⊢
    rcases hcond sid (by simp [hfails]) obj hobj hcomp other hother hne with ⟨hin, -⟩ | hlive
    · rw [hfails] at hin
      exact absurd (List.mem_singleton.1 hin) hne
    · exact .inr hlive
  · have hgo : ∀ result, (obj.session.gotDataFromServer (s.tasks obj.task).files
        (s.registration sid obj msg).2 msg).action ≠ some (.complete result) := fun result hr => hend ⟨result, hr⟩
    refine hreg.goesOn hself hreply fun _ => ⟨hgo, fun hfinish => ?_, hcancelled⟩
    rcases hok.finishes hfinish with hover | ⟨result, hr⟩
    · exact h.going sid hsid obj hobj hover
    · exact hgo result hr

theorem decompressed (h : Overruled s []) (hobj : s.objects sid = some obj) {ok : Bool}
    (hgathered : obj.session.state = .receiveObjectFile ∨ obj.session.state = .finish)
    (hcond : ok = false → (s.tasks obj.task).completedBySession = some sid →
      ∀ other ∈ (s.tasks obj.task).sessionsRunning, other ≠ sid → Live s other) :
    Overruled (s.replied order sid obj (obj.session.completeSession ok) elapsed) [] := by
  have hreply := h.book.completeSession_ok hobj ok hgathered
  by_cases hsid : sid ∈ s.sessions
  · have hgoing := h.going sid hsid obj hobj
    cases ok with
    | true =>
      have haction : (obj.session.completeSession true).action = some (.complete .success) := by
        simp [ServerSession.completeSession, hgoing, ServerSession.complete]
      exact h.ends hobj hsid hreply haction (fun _ hin => absurd hin List.not_mem_nil) fun hfail => by cases hfail
    | false =>
      have haction : (obj.session.completeSession false).action = some (.complete .failure) := by
        simp [ServerSession.completeSession, hgoing, ServerSession.complete]
      exact h.ends hobj hsid hreply haction (fun _ hin => absurd hin List.not_mem_nil)
        fun _ hcomp other hother hne => .inr (hcond rfl hcomp other hother hne)
  · -- the session was terminated, or timed out, while its files were decompressed
    exact h.goesOn hobj hreply fun hmem => absurd hmem hsid

/-- What is left of another session and of the others of its task after a session ended was there before. -/
theorem left_of_completed (h : Overruled s gone) (hobj : s.objects sid = some obj)
    (hc : Completed (s.setObject sid { obj with session := reply.session }) sid
      { obj with session := reply.session } result s')
    {w other : SessionId} {o : Session} (hw : w ≠ sid) (ho : s'.objects w = some o)
    (hcomp : (s'.tasks o.task).completedBySession = some w) (hrun : other ∈ (s'.tasks o.task).sessionsRunning) :
    s.objects w = some o ∧ (s.tasks o.task).completedBySession = some w ∧
      other ∈ (s.tasks o.task).sessionsRunning ∧ other ≠ sid ∧ s'.objects other = s.objects other := by
  have hother : ∀ v, v ≠ sid → s'.objects v = s.objects v := by
    intro v hv
    rw [hc.objects]
    simp [NodeManager.setObject, hv]
  have hold : other ∈ (s.tasks o.task).sessionsRunning ∧ other ≠ sid := by
    rw [hc.sessionsRunning] at hrun
    split at hrun
    · refine ⟨List.mem_of_mem_erase hrun, ?_⟩
      rintro rfl
      exact (h.book.runningNodup _).not_mem_erase hrun
    · rename_i htask
      refine ⟨hrun, ?_⟩
      rintro rfl
      exact h.book.toRecords.not_running hobj htask hrun
  exact ⟨hother w hw ▸ ho, hc.completedBy_old hcomp, hold.1, hold.2, hother other hold.2⟩

/-- Every session of `gone` is terminated, as nothing raises where all nodes have job slots. -/
theorem terminateSessions (h : Overruled s gone) (hslots : s.AllSlots) (hnodup : gone.Nodup)
    (hmem : ∀ sid ∈ gone, sid ∈ s.sessions)
    (hcond : ∀ sid ∈ gone, ∀ obj, s.objects sid = some obj → (s.tasks obj.task).completedBySession = some sid →
      ∀ other ∈ (s.tasks obj.task).sessionsRunning, other ≠ sid → other ∈ gone ∨ Live s other) :
    Overruled (NodeManager.terminateSessions order s gone) [] := by
  induction gone generalizing s with
  | nil => exact h
  | cons sid rest ih =>
    have hsid := hmem sid List.mem_cons_self
    obtain ⟨obj, hobj, -⟩ := h.book.object sid hsid
    have hc := Tended.replied_completed h.book hobj hsid Book.terminate_ok rfl order 0
    have hnext : Overruled (s.replied order sid obj obj.session.terminate 0) rest := by
      refine h.ends hobj hsid Book.terminate_ok rfl (fun other hin hne => ?_) fun _ hcomp other hother hne => ?_
      · exact (List.mem_cons.1 hin).resolve_left hne
      · refine (hcond sid List.mem_cons_self obj hobj hcomp other hother hne).imp (fun hin => ?_) id
        exact (List.mem_cons.1 hin).resolve_left hne
    have hfailures : (s.replied order sid obj obj.session.terminate 0).failures = s.failures :=
      hc.command.2.2.resolve_right fun hraised => hraised.1 fun _ => hslots
    unfold NodeManager.terminateSessions
    simp only [hobj, hfailures, if_true]
    have hne : ∀ other ∈ rest, other ≠ sid := fun other hin heq => (List.nodup_cons.1 hnodup).1 (heq ▸ hin)
    refine ih hnext (hc.allSlots hslots) (List.nodup_cons.1 hnodup).2 (fun other hin => ?_)
      fun w hw o ho hcomp other hrun hother => ?_
    · rw [hc.sessions]
      exact (List.mem_erase_of_ne (hne other hin)).2 (hmem other (List.mem_cons_of_mem _ hin))
    · obtain ⟨hold, hcomp', hrun', hleft, hsame⟩ := h.left_of_completed hobj hc (hne w hw) ho hcomp hrun
      rcases hcond w (List.mem_cons_of_mem _ hw) o hold hcomp' other hrun' hother with hin | ⟨o', ho', hnot⟩
      · exact .inl ((List.mem_cons.1 hin).resolve_left hleft)
      · exact .inr ⟨o', hsame.trans ho', hnot⟩

/-- However many of the sessions are terminated before a call raises, no cancelled one lost the session it was cancelled
for. -/
theorem terminateSessions_raising (h : Overruled s []) (hnodup : gone.Nodup) (hmem : ∀ sid ∈ gone, sid ∈ s.sessions)
    (hcond : ∀ sid ∈ gone, ∀ obj, s.objects sid = some obj → (s.tasks obj.task).completedBySession = some sid →
      ∀ other ∈ (s.tasks obj.task).sessionsRunning, other ≠ sid → Live s other) :
    Overruled (NodeManager.terminateSessions order s gone) [] := by
  induction gone generalizing s with
  | nil => exact h
  | cons sid rest ih =>
    have hsid := hmem sid List.mem_cons_self
    obtain ⟨obj, hobj, -⟩ := h.book.object sid hsid
    have hc := Tended.replied_completed h.book hobj hsid Book.terminate_ok rfl order 0
    have hnext : Overruled (s.replied order sid obj obj.session.terminate 0) [] := by
      refine h.ends hobj hsid Book.terminate_ok rfl (fun _ hin => absurd hin List.not_mem_nil) ?_
      exact fun _ hcomp other hother hne => .inr (hcond sid List.mem_cons_self obj hobj hcomp other hother hne)
    unfold NodeManager.terminateSessions
    simp only [hobj]
    split
    · have hne : ∀ other ∈ rest, other ≠ sid := fun other hin heq => (List.nodup_cons.1 hnodup).1 (heq ▸ hin)
      refine ih hnext (List.nodup_cons.1 hnodup).2 (fun other hin => ?_) fun w hw o ho hcomp other hrun hother => ?_
      · rw [hc.sessions]
        exact (List.mem_erase_of_ne (hne other hin)).2 (hmem other (List.mem_cons_of_mem _ hin))
      · obtain ⟨hold, hcomp', hrun', -, hsame⟩ := h.left_of_completed hobj hc (hne w hw) ho hcomp hrun
        obtain ⟨o', ho', hnot⟩ := hcond w (List.mem_cons_of_mem _ hw) o hold hcomp' other hrun' hother
        exact ⟨o', hsame.trans ho', hnot⟩
    · exact hnext

/-- Nothing happens to the sessions or to who completes the tasks. -/
theorem of_tasks (h : Overruled s []) (hbook : Book s') (hobjects : s'.objects = s.objects)
    (hsessions : s'.sessions = s.sessions)
    (htasks : ∀ t, (s'.tasks t).completedBySession = (s.tasks t).completedBySession) : Overruled s' [] := by
  refine ⟨hbook, ?_, ?_⟩
  · rw [hsessions, hobjects]
    exact h.going
  · rw [hsessions, hobjects]
    intro sid hsid hout obj hobj hcancelled
    rw [htasks]
    exact h.overruled sid hsid hout obj hobj hcancelled

/-- Only the queues of the tasks change. -/
theorem of_rearranged (h : Overruled s []) (hbook : Book s') (hr : Rearranged s s') : Overruled s' [] := by
  have hsame := hr.same
  generalize s'.unassignedTasks = unassigned, s'.connecting = connecting, s'.failures = failures at hsame
  subst hsame
  exact h.of_tasks hbook rfl rfl fun _ => rfl

theorem updateNodeInfo (h : Overruled s []) {live : Bool} {nodes : List NodeId}
    (hperm : gone.Perm (s.sessionsGone live nodes)) (hcond : FailsAlone s (.updateNodeInfo nodes gone)) :
    Overruled (s.updateNodeInfo live order nodes gone) [] := by
  have hnodup : gone.Nodup := hperm.nodup_iff.2 (h.book.nodup.filter _)
  have hmem : ∀ sid ∈ gone, sid ∈ s.sessions := fun sid hsid => (List.mem_filter.1 (hperm.mem_iff.1 hsid)).1
  have hpolled : Overruled { s with nodeInfo := nodes, polled := true } [] :=
    ⟨{ h.book with }, h.going, h.overruled⟩
  have hends : Overruled (NodeManager.terminateSessions order { s with nodeInfo := nodes, polled := true } gone)
    [] := by
    by_cases hslots : ∀ node ∈ nodes, s.slotless node = false
    · have hexposed : Overruled { s with nodeInfo := nodes, polled := true } gone :=
        ⟨hpolled.book, h.going, fun sid hsid _ => h.overruled sid hsid List.not_mem_nil⟩
      refine hexposed.terminateSessions hslots hnodup hmem fun sid hsid obj hobj hcomp other hrun hne => ?_
      exact (hcond sid hsid obj hobj hcomp other hrun hne).imp And.left id
    · refine hpolled.terminateSessions_raising hnodup hmem fun sid hsid obj hobj hcomp other hrun hne => ?_
      exact (hcond sid hsid obj hobj hcomp other hrun hne).resolve_left fun hboth => hslots hboth.2
  unfold NodeManager.updateNodeInfo
  dsimp only
  split
  · exact hends.of_rearranged (hends.book.findWorkAll _) (Rearranged.findWorkAll _ _ _)
  · exact hends

/-- A session is made; it has not been cancelled. -/
theorem opened (h : Overruled s []) {i : Nat} {node : NodeId} (hbook : Book s')
    (ho : Opened { s with connecting := s.connecting.eraseIdx i } t node s') : Overruled s' [] := by
  refine ⟨hbook, fun sid hsid obj hobj => ?_, fun sid hsid hout obj hobj hcancelled => ?_⟩
  · rcases ho.object_cases hobj with ⟨hne, hobj'⟩ | ⟨rfl, hnew⟩
    · exact h.going sid (ho.session_old hsid hne) obj hobj'
    · simp [hnew.state]
  · rcases ho.object_cases hobj with ⟨hne, hobj'⟩ | ⟨rfl, hnew⟩
    · rw [ho.task]
      exact h.overruled sid (ho.session_old hsid hne) hout obj hobj' hcancelled
    · rw [hnew.notCancelled] at hcancelled
      cases hcancelled

end Overruled

/-! ## Runs -/

theorem overruled_init (slots : NodeId → Option Nat) (orders : CommandId → DictOrder) :
    Overruled (.initial slots orders) [] :=
  ⟨book_init slots orders, fun sid h => (by cases h), fun sid h => (by cases h)⟩

theorem step_overruled {live : Bool} {order : NodeManager → List NodeId} {s s' : NodeManager} {e : Event}
    (h : Overruled s []) (hcond : FailsAlone s e) (hs : step live order s e = some s') : Overruled s' [] := by
  have hbook : Book s' := step_book h.book hs
  have hscanned : ∀ {t : TaskId} {scan : Scan} (t' : TaskId),
      ((s.setTask t { s.tasks t with scan := some scan }).tasks t').completedBySession =
        (s.tasks t').completedBySession := by
    intro t scan t'
    by_cases ht : t' = t
    · subst ht
      simp [NodeManager.setTask]
    · simp [NodeManager.setTask, ht]
  cases e with
  | createTasks c files shouldInvokeLinker =>
    obtain ⟨hguard, rfl⟩ := steps_of_step hs
    refine h.of_tasks hbook rfl rfl fun t => ?_
    dsimp only
    split
    · rename_i ht
      -- a command without tasks has no task that was scheduled
      have hscan : (s.tasks t).scan = none := by
        by_contra hne
        have hknown := h.book.known t hne
        rw [ht, hguard.1] at hknown
        cases hknown
      exact (h.book.no_session (t := t) (by simp [hscan])).2.1.symm
    · rfl
  | preprocessed t =>
    obtain ⟨s₁, hs₁, rfl⟩ := steps_of_step hs
    obtain ⟨hbook₁, rfl, -, -⟩ := h.book.scanned hs₁
    have hmarked : Overruled (s.setTask t { s.tasks t with scan := some .scheduled }) [] :=
      h.of_tasks hbook₁ rfl rfl hscanned
    exact hmarked.of_rearranged hbook (Rearranged.scheduleTask _ t false)
  | preprocessingFailed t stderr =>
    obtain ⟨s₁, hs₁, rfl⟩ := steps_of_step hs
    obtain ⟨-, heq, hmem, hnone⟩ := h.book.scanned hs₁
    have hunrep := h.book.unreported hnone
    rw [taskCompleted_eq (by rw [heq]; exact hmem) (by rw [heq]; exact hunrep)] at hbook ⊢
    subst heq
    exact h.of_tasks hbook rfl rfl hscanned
  | cannotDistribute t =>
    obtain ⟨-, rfl, -, -⟩ := h.book.scanned hs
    exact h.of_tasks hbook rfl rfl hscanned
  | connected i =>
    obtain ⟨t, node, hi, rfl⟩ := steps_of_step hs
    rcases createSession_spec { s with connecting := s.connecting.eraseIdx i } t node with ⟨failure, heq, -⟩ | ho
    · rw [heq] at hbook ⊢
      exact h.of_tasks hbook rfl rfl fun _ => rfl
    · exact h.opened hbook ho
  | connectionFailed i =>
    obtain ⟨t, node, hi, rfl⟩ := steps_of_step hs
    exact h.of_tasks hbook rfl rfl fun _ => rfl
  | message sid msg elapsed =>
    rcases steps_of_step hs with ⟨hsid, obj, hobj, rfl⟩ | ⟨-, rfl⟩
    · exact h.message hobj hsid hcond
    · exact h
  | decompressed i ok elapsed =>
    obtain ⟨sid, obj, hi, hobj, rfl⟩ := steps_of_step hs
    have hfewer : Overruled { s with decompressing := s.decompressing.eraseIdx i } [] :=
      ⟨{ h.book with gathering := fun sid hsid => h.book.gathering sid (List.eraseIdx_subset hsid) }, h.going,
        h.overruled⟩
    refine hfewer.decompressed hobj (h.book.gathering_state (List.mem_of_getElem? hi) hobj) ?_
    rintro rfl hcomp other hother hne
    have hfails : fails s (.decompressed i false elapsed) = [sid] := by simp [fails, hi]
    rcases hcond sid (by simp [hfails]) obj hobj hcomp other hother hne with ⟨hin, -⟩ | hlive
    · rw [hfails] at hin
      exact absurd (List.mem_singleton.1 hin) hne
    · exact hlive
  | updateNodeInfo nodes gone =>
    obtain ⟨hguard, rfl⟩ := steps_of_step hs
    exact h.updateNodeInfo hguard.2 hcond

/-- **A cancelled session never becomes the one to complete its task.** In every run in which no session that is to
complete its task fails while a session that it cancelled is still running, `register_completion` returns `False` for
every registered session that was cancelled, and none of these is receiving a result. -/
theorem cancelled_never_completes (live : Bool) (order : NodeManager → List NodeId) (slots : NodeId → Option Nat)
    (orders : CommandId → DictOrder) (events : List Event) (s : NodeManager)
    (hrun : run (step live order) (.initial slots orders) events = some s)
    (hmeets : Meets (step live order) FailsAlone (.initial slots orders) events)
    {sid : SessionId} {obj : Session} (hsid : sid ∈ s.sessions) (hobj : s.objects sid = some obj)
    (hcancelled : obj.session.cancelled = true) :
    (s.registerCompletion sid obj.task).2 = false ∧ obj.session.state ≠ .receiveObjectFile := by
  have h : Overruled s [] :=
    run_inv_of_meets (step live order) (fun _ _ _ h hcond hs => step_overruled h hcond hs) events _ s
      (overruled_init slots orders) hmeets hrun
  obtain ⟨w, hw, hcomp⟩ := h.overruled sid hsid List.not_mem_nil obj hobj hcancelled
  constructor
  · simp [NodeManager.registerCompletion, Task.isCompleted, hcomp]
  · intro hstate
    have hself := h.book.winner sid obj hsid hobj hstate
    rw [hcomp] at hself
    exact hw (Option.some.inj hself)

/-- Two nodes have compiled a source each; the task of session 4 is stolen by the faster node, which makes session 5 for
it. Session 4 is the first to be done. -/
def stolenEvents : List Event :=
  [.createTasks 0 [⟨0, 1⟩, ⟨0, 1⟩, ⟨0, 1⟩, ⟨0, 1⟩] false, .updateNodeInfo [1, 2] [],
    .preprocessed ⟨0, 0⟩, .connected 0, .preprocessed ⟨0, 1⟩, .connected 0,
    .message 1 (.missingFiles false false) 0, .message 1 (.serverDone 1 [] []) 4,
    .message 2 (.missingFiles false false) 0, .message 2 (.serverDone 1 [] []) 2,
    .preprocessed ⟨0, 2⟩, .connected 0, .preprocessed ⟨0, 3⟩, .connected 0,
    .message 3 (.missingFiles false false) 0, .message 3 (.serverDone 1 [] []) 2, .connected 0,
    .message 4 (.missingFiles false false) 0, .message 5 (.missingFiles false false) 0,
    .message 4 (.serverDone 0 [] []) 0]

theorem cancelled_never_completes_stolen :
    ∃ s obj, run (step true fun _ => [1, 2]) (.initial fun _ => some 1) stolenEvents = some s ∧
      5 ∈ s.sessions ∧ s.objects 5 = some obj ∧ obj.session.cancelled = true ∧
      (s.registerCompletion 5 obj.task).2 = false := by
  have hmeets : Meets (step true fun _ => [1, 2]) FailsAlone (.initial fun _ => some 1) stolenEvents := by
    refine meets_of_forall _ fun s e he sid hsid => ?_
    have hnone : fails s e = [] := by
      simp only [stolenEvents, List.mem_cons, List.not_mem_nil, or_false] at he
      rcases he with rfl | rfl | rfl | rfl | rfl | rfl | rfl | rfl | rfl | rfl | rfl | rfl | rfl | rfl | rfl | rfl | rfl |
        rfl | rfl | rfl <;> rfl
    rw [hnone] at hsid
    cases hsid
  have hrun : (run (step true fun _ => [1, 2]) (.initial fun _ => some 1) stolenEvents).map (fun s =>
      (decide (5 ∈ s.sessions), (s.objects 5).map (·.session.cancelled))) = some (true, some true) := by
    decide +kernel
  obtain ⟨s, hs, hstate⟩ := Option.map_eq_some_iff.1 hrun
  simp only [Prod.mk.injEq, decide_eq_true_eq, Option.map_eq_some_iff] at hstate
  obtain ⟨hsid, obj, hobj, hcancelled⟩ := hstate
  exact ⟨s, obj, hs, hsid, hobj, hcancelled,
    (cancelled_never_completes true (fun _ => [1, 2])
      (fun _ => some 1) _ stolenEvents s hs hmeets hsid hobj hcancelled).1⟩

/-- Session 4 then times out, and the answer of session 5 was on its way when it was cancelled. -/
theorem cancelled_completes_timeout :
    ∃ s obj, run (step true fun _ => [1, 2]) (.initial fun _ => some 1)
        (stolenEvents ++ [.message 4 .timedOut 0]) = some s ∧
      5 ∈ s.sessions ∧ s.objects 5 = some obj ∧ obj.session.cancelled = true ∧
      obj.session.state = .waitForServerResponse ∧ (s.registerCompletion 5 obj.task).2 = true ∧
      (s.gotDataFromServer (fun _ => [1, 2]) 5 obj (.serverDone 0 [] []) 0).failures = s.failures ++ [.session] := by
  have hrun : (run (step true fun _ => [1, 2]) (.initial fun _ => some 1)
      (stolenEvents ++ [.message 4 .timedOut 0])).map (fun s =>
        (decide (5 ∈ s.sessions), (s.objects 5).map fun obj => (obj.session.cancelled, obj.session.state,
          (s.registerCompletion 5 obj.task).2,
          decide ((s.gotDataFromServer (fun _ => [1, 2]) 5 obj (.serverDone 0 [] []) 0).failures =
            s.failures ++ [.session])))) = some (true, some (true, .waitForServerResponse, true, true)) := by
    decide +kernel
  obtain ⟨s, hs, hstate⟩ := Option.map_eq_some_iff.1 hrun
  simp only [Prod.mk.injEq, decide_eq_true_eq, Option.map_eq_some_iff] at hstate
  obtain ⟨hsid, obj, hobj, hcancelled, hwaits, hregisters, hraises⟩ := hstate
  exact ⟨s, obj, hs, hsid, hobj, hcancelled, hwaits, hregisters, hraises⟩

end BuildPal.Scheduler
