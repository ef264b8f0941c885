import BuildPal.Manager.Ledger
/-!
# No task is lost

A scheduled task that has not reported waits in the queue or for a connection,
or has a session that may still deliver its result. The scheduler keeps this
as long as no connection attempt is the last hope of its task, no session fails
leaving only cancelled ones behind, no cancelled session is asked to complete
its task, recording a command does not keep a result from being reported, and
no task is to be placed when the set has a node without job slots.
-/
open BuildPal.Lib BuildPal.Message

namespace BuildPal.Scheduler

def Reported (s : NodeManager) (t : TaskId) : Prop := t ∈ s.reports.map (·.task)

/-- The session has not been cancelled. -/
def Live (s : NodeManager) (sid : SessionId) : Prop :=
  ∃ obj, s.objects sid = some obj ∧ obj.session.cancelled = false

/-- Every task that was scheduled and has not reported is queued, waits for a connection, or has a session
that was not cancelled. -/
def NoTaskLost (s : NodeManager) : Prop :=
  ∀ t, (s.tasks t).scan = some .scheduled → ¬ Reported s t →
    t ∈ s.unassignedTasks ∨ (∃ node, (t, node) ∈ s.connecting) ∨ ∃ sid ∈ (s.tasks t).sessionsRunning, Live s sid

/-- The task outlives the sessions in `gone`, should they all fail: it has reported, it is queued, it has a
session left that was not cancelled, or it has no session left at all, in which case it is rescheduled, and can be
(`again`). -/
def Outlives (s : NodeManager) (t : TaskId) (gone : List SessionId) (again : Prop) : Prop :=
  Reported s t ∨ Queued s t ∨
    ((s.tasks t).sessionsRunning ≠ [] ∧ (∀ sid ∈ (s.tasks t).sessionsRunning, sid ∈ gone) ∧ again) ∨
    ∃ sid ∈ (s.tasks t).sessionsRunning, sid ∉ gone ∧ Live s sid

/-- What has to hold where a callback could lose a task. -/
def KeepsTasks (s : NodeManager) : Event → Prop
  | .preprocessed _ => Schedulable s
  | .connected i => ∀ t node, s.connecting[i]? = some (t, node) →
    s.counter + 1 < 2 ^ 32 ∨ Outlives { s with connecting := s.connecting.eraseIdx i } t [] False
  | .connectionFailed i => ∀ t node, s.connecting[i]? = some (t, node) →
    Outlives { s with connecting := s.connecting.eraseIdx i } t [] False
  | .message sid (.serverDone retcode _ _) _ => ∀ obj, sid ∈ s.sessions → s.objects sid = some obj →
    obj.session.state = .waitForServerResponse → (s.tasks obj.task).completedBySession = none →
      obj.session.cancelled = false ∧ (retcode ≠ 0 → RecordsSafely s sid obj.task)
  | .message sid (.serverFailed _) _ => ∀ obj, sid ∈ s.sessions → s.objects sid = some obj →
    obj.session.state = .waitForServerResponse → Outlives s obj.task [sid] (Reschedulable s sid obj)
  | .message sid .timedOut _ => ∀ obj, sid ∈ s.sessions → s.objects sid = some obj →
    Outlives s obj.task [sid] (Reschedulable s sid obj)
  | .decompressed i ok _ => ∀ sid obj, s.decompressing[i]? = some sid → s.objects sid = some obj →
    sid ∈ s.sessions → if ok then RecordsSafely s sid obj.task else Outlives s obj.task [sid] (Reschedulable s sid obj)
  | .updateNodeInfo nodes gone => (gone = [] ∨ ∀ node ∈ nodes, s.slotless node = false) ∧
    ∀ sid ∈ gone, ∀ obj, s.objects sid = some obj → Outlives s obj.task gone True
  | _ => True

/-- The sessions in `gone` are about to fail, and the session `ended` has ended but is still registered. -/
structure Tended (s : NodeManager) (gone : List SessionId) (again : Prop) (ended : Option SessionId) : Prop where
  book : Book s
  outlives : ∀ t, (s.tasks t).scan = some .scheduled → Outlives s t gone again
  /-- The session that completes a task delivers the result, or has. -/
  delivers : ∀ t sid, (s.tasks t).completedBySession = some sid → Reported s t ∨ some sid = ended ∨
    sid ∈ (s.tasks t).sessionsRunning ∧ ∃ obj, s.objects sid = some obj ∧ obj.session.cancelled = false ∧
      obj.session.state = .receiveObjectFile
  going : ∀ sid ∈ s.sessions, some sid ≠ ended → ∀ obj, s.objects sid = some obj → obj.session.state ≠ .finish

theorem Tended.noTaskLost {s : NodeManager} (h : Tended s [] False none) : NoTaskLost s := by
  intro t ht hrep
  rcases h.outlives t ht with hr | hq | ⟨-, -, hno⟩ | ⟨sid, hsid, -, hlive⟩
  · exact absurd hr hrep
  · exact hq.imp id .inl
  · exact hno.elim
  · exact .inr (.inr ⟨sid, hsid, hlive⟩)

section Ends
variable {s s' : NodeManager} {t : TaskId} {sid : SessionId} {obj : Session} {result : SessionResult}
  {gone : List SessionId} {again : Prop} {ended : Option SessionId} {reply : ServerSession.Reply}

theorem Completed.live (hc : Completed s sid obj result s') {other : SessionId} (h : Live s other) : Live s' other := by
  unfold Live
  rw [hc.objects]
  exact h

theorem Completed.reports_subset (hc : Completed s sid obj result s') : s.reports ⊆ s'.reports := by
  have hcommand := hc.command
  split at hcommand
  · rw [hcommand.2.1]
    exact fun _ h => h
  · rcases hcommand with ⟨-, -, -, hreports, -⟩ | ⟨-, -, -, hreports, -⟩
    · rw [hreports]
      exact fun _ h => h
    · rw [hreports]
      exact List.subset_append_left _ _

theorem Completed.reported (hc : Completed s sid obj result s') (h : Reported s t) : Reported s' t := by
  obtain ⟨report, hmem, rfl⟩ := List.mem_map.1 h
  exact List.mem_map_of_mem (hc.reports_subset hmem)

/-- The sessions of the other tasks are not touched. -/
theorem Completed.others (hc : Completed s sid obj result s') {t : TaskId} (ht : t ≠ obj.task) : s'.tasks t = s.tasks t := by
  rw [hc.tasks, Function.update_of_ne ht]

theorem Records.not_running (h : Records s) (hobj : s.objects sid = some obj) (ht : t ≠ obj.task) :
    sid ∉ (s.tasks t).sessionsRunning := by
  intro hmem
  obtain ⟨-, o, ho, hot⟩ := h.running t sid hmem
  rw [hobj] at ho
  cases ho
  exact ht hot.symm

/-- The end of a session does not concern the other tasks. -/
theorem Outlives.other {gone' : List SessionId} (h : Outlives s t gone' again)
    (hgone : ∀ x, x ≠ sid → (x ∈ gone' ↔ x ∈ gone))
    (hc : Completed s sid obj result s') (hbook : Records s) (hobj : s.objects sid = some obj) (ht : t ≠ obj.task) :
    Outlives s' t gone again := by
  have hnot := hbook.not_running hobj ht
  unfold Outlives
  rw [hc.others ht]
  rcases h with hr | hq | ⟨hne, hall, hagain⟩ | ⟨other, hother, hout, hlive⟩
  · exact .inl (hc.reported hr)
  · exact .inr (.inl (hc.keeps t hq))
  · refine .inr (.inr (.inl ⟨hne, fun other hother => ?_, hagain⟩))
    exact (hgone other fun heq => hnot (heq ▸ hother)).1 (hall other hother)
  · refine .inr (.inr (.inr ⟨other, hother, fun hmem => hout ?_, hc.live hlive⟩))
    exact (hgone other fun heq => hnot (heq ▸ hother)).2 hmem

namespace Tended

/-- No session is about to fail. -/
theorem settled (h : Tended s [] again ended) : Tended s [] False ended := by
  refine ⟨h.book, fun t ht => ?_, h.delivers, h.going⟩
  rcases h.outlives t ht with hr | hq | ⟨hne, hall, -⟩ | hlive
  · exact .inl hr
  · exact .inr (.inl hq)
  · obtain ⟨sid, hsid⟩ := List.exists_mem_of_ne_nil _ hne
    exact absurd (hall sid hsid) List.not_mem_nil
  · exact .inr (.inr (.inr hlive))

/-- A session that has ended is taken out. -/
theorem ends {gone' : List SessionId} (h : Tended s gone' again (some sid))
    (hgone : ∀ x, x ≠ sid → (x ∈ gone' ↔ x ∈ gone))
    (hsid : sid ∈ s.sessions) (hobj : s.objects sid = some obj)
    (hwin : result = .success → (s.tasks obj.task).completedBySession = some sid)
    (hc : Completed s sid obj result s') (hself : (s'.tasks obj.task).completedBySession = some sid → Reported s' obj.task)
    (hout : Outlives s' obj.task gone again) : Tended s' gone again none := by
  have hbook : Book s' := h.book.completed hsid hobj hwin hc
  refine ⟨hbook, fun t ht => ?_, fun t other hcomp => ?_, fun other hother _ o ho => ?_⟩
  · by_cases heq : t = obj.task
    · subst heq
      exact hout
    · rw [hc.others heq] at ht
      exact (h.outlives t ht).other hgone hc h.book.toRecords hobj heq
  · obtain ⟨o, ho, htask⟩ := h.book.completedBy t other (hc.completedBy_old hcomp)
    by_cases heq : other = sid
    · subst heq
      rw [hobj] at ho
      cases ho
      subst htask
      exact .inl (hself hcomp)
    · rcases h.delivers t other (hc.completedBy_old hcomp) with hrep | hended | ⟨hrun, o', ho', hdel⟩
      · exact .inl (hc.reported hrep)
      · exact absurd (Option.some.inj hended) heq
      · refine .inr (.inr ⟨?_, o', by rw [hc.objects]; exact ho', hdel⟩)
        rw [hc.sessionsRunning]
        split
        · exact (List.mem_erase_of_ne heq).2 hrun
        · exact hrun
  · rw [hc.sessions] at hother
    rw [hc.objects] at ho
    have hne : other ≠ sid := by
      rintro rfl
      exact h.book.nodup.not_mem_erase hother
    exact h.going other (List.mem_of_mem_erase hother) (fun heq => hne (Option.some.inj heq)) o ho

/-- A session fails. If it was the last one, the task is rescheduled. -/
theorem failed (h : Tended s (sid :: gone) again (some sid)) (hsid : sid ∈ s.sessions) (hobj : s.objects sid = some obj)
    (hc : Completed s sid obj result s') (hfail : isServerFailure result = true)
    (hagain : again → Reschedulable s sid obj) : Tended s' gone again none := by
  have hwin : result = .success → (s.tasks obj.task).completedBySession = some sid := by
    rintro rfl
    cases hfail
  have hdethroned : (s'.tasks obj.task).completedBySession ≠ some sid := by
    rw [hc.tasks, Function.update_self, if_pos hfail]
    simp only [Task.dethrone, Task.finish]
    by_cases heq : (s.tasks obj.task).completedBySession = some sid
    · simp [heq]
    · simp [heq]
  have hrunning : (s'.tasks obj.task).sessionsRunning = (s.tasks obj.task).sessionsRunning.erase sid := by
    rw [hc.sessionsRunning, if_pos rfl]
  refine h.ends (fun x hx => by simp [hx]) hsid hobj hwin hc (fun hcomp => absurd hcomp hdethroned) ?_
  unfold Outlives
  rw [hrunning]
  rcases h.outlives _ (h.book.made sid obj hobj) with hr | hq | ⟨-, hall, hcan⟩ | ⟨other, hother, hout, hlive⟩
  · exact .inl (hc.reported hr)
  · exact .inr (.inl (hc.keeps _ hq))
  · by_cases hlast : (s.tasks obj.task).sessionsRunning.erase sid = []
    · cases hcomp : (s'.tasks obj.task).completedBySession with
      | none => exact .inr (.inl (hc.rescheduled hfail hcomp (hrunning.trans hlast) (hagain hcan)))
      | some w =>
        -- the task could only be completed by a session that is still running
        have hne : w ≠ sid := fun heq => hdethroned (heq ▸ hcomp)
        rcases h.delivers _ w (hc.completedBy_old hcomp) with hrep | hended | ⟨hrun, -⟩
        · exact .inl (hc.reported hrep)
        · exact absurd (Option.some.inj hended) hne
        · have := (List.mem_erase_of_ne hne).2 hrun
          rw [hlast] at this
          cases this
    · refine .inr (.inr (.inl ⟨hlast, fun other hother => ?_, hcan⟩))
      rcases List.mem_cons.1 (hall other (List.mem_of_mem_erase hother)) with rfl | hmem
      · exact absurd hother (h.book.runningNodup _).not_mem_erase
      · exact hmem
  · have hne : other ≠ sid := fun heq => hout (heq ▸ List.mem_cons_self)
    exact .inr (.inr (.inr ⟨other, (List.mem_erase_of_ne hne).2 hother, fun hmem => hout (List.mem_cons_of_mem _ hmem),
      hc.live hlive⟩))

/-- A session delivers the result of its task. -/
theorem succeeded (h : Tended s [] False (some sid)) (hsid : sid ∈ s.sessions) (hobj : s.objects sid = some obj)
    (hwin : (s.tasks obj.task).completedBySession = some sid) (hsafe : RecordsSafely s sid obj.task)
    (hc : Completed s sid obj .success s') : Tended s' [] False none := by
  have hreported : Reported s' obj.task := by
    rcases hc.command with ⟨-, -, -, -, -, hbad⟩ | ⟨-, -, -, hreports, -⟩
    · exact absurd hsafe (hbad rfl)
    · unfold Reported
      rw [hreports]
      simp
  exact h.ends (fun _ _ => Iff.rfl) hsid hobj (fun _ => hwin) hc (fun _ => hreported) (.inl hreported)

/-- A session whose result nobody waits for ends. -/
theorem withdrawn (h : Tended s [] False (some sid)) (hsid : sid ∈ s.sessions) (hobj : s.objects sid = some obj)
    (hc : Completed s sid obj result s') (hne : result ≠ .success)
    (hlost : (s.tasks obj.task).completedBySession ≠ some sid)
    (hidle : (s.tasks obj.task).completedBySession ≠ none ∨ obj.session.cancelled = true) :
    Tended s' [] False none := by
  refine h.ends (fun _ _ => Iff.rfl) hsid hobj (fun hs => absurd hs hne) hc
    (fun hcomp => absurd (hc.completedBy_old hcomp) hlost) ?_
  have hleft : ∀ other ∈ (s.tasks obj.task).sessionsRunning, other ≠ sid → Live s other →
      Outlives s' obj.task [] False := by
    intro other hother hne hlive
    refine .inr (.inr (.inr ⟨other, ?_, List.not_mem_nil, hc.live hlive⟩))
    rw [hc.sessionsRunning, if_pos rfl]
    exact (List.mem_erase_of_ne hne).2 hother
  -- the winner is there, or what the task was covered by is not this session
  cases hcomp : (s.tasks obj.task).completedBySession with
  | some w =>
    have hw : w ≠ sid := fun heq => hlost (heq ▸ hcomp)
    rcases h.delivers _ w hcomp with hrep | hended | ⟨hrun, o, ho, hnot, -⟩
    · exact .inl (hc.reported hrep)
    · exact absurd (Option.some.inj hended) hw
    · exact hleft w hrun hw ⟨o, ho, hnot⟩
  | none =>
    have hcancelled := hidle.resolve_left (fun h => h hcomp)
    rcases h.outlives _ (h.book.made sid obj hobj) with hr | hq | ⟨-, -, hno⟩ | ⟨other, hother, -, hlive⟩
    · exact .inl (hc.reported hr)
    · exact .inr (.inl (hc.keeps _ hq))
    · exact hno.elim
    · refine hleft other hother ?_ hlive
      rintro rfl
      obtain ⟨o, ho, hnot⟩ := hlive
      rw [hobj] at ho
      cases ho
      rw [hcancelled] at hnot
      cases hnot

/-! ## The calls of a session -/

/-- A session changes inside, and may end with it. -/
theorem setObject (h : Tended s gone again ended) (hended : ended = none ∨ ended = some sid)
    (hobj : s.objects sid = some obj)
    {session : ServerSession} (hcancelled : session.cancelled = obj.session.cancelled)
    (hbook : Book (s.setObject sid { obj with session := session })) {ended' : Option SessionId}
    (hstate : ended' = some sid ∨ ended' = none ∧ (sid ∈ s.sessions → session.state ≠ .finish) ∧
      ((s.tasks obj.task).completedBySession = some sid → Reported s obj.task ∨
        sid ∈ (s.tasks obj.task).sessionsRunning ∧ session.cancelled = false ∧ session.state = .receiveObjectFile)) :
    Tended (s.setObject sid { obj with session := session }) gone again ended' := by
  have hother : ∀ other, other ≠ sid →
      (s.setObject sid { obj with session := session }).objects other = s.objects other := by
    intro other hne
    simp [NodeManager.setObject, hne]
  have hself : (s.setObject sid { obj with session := session }).objects sid = some { obj with session := session } := by
    simp [NodeManager.setObject]
  have hlive : ∀ other, Live s other → Live (s.setObject sid { obj with session := session }) other := by
    rintro other ⟨o, ho, hnot⟩
    by_cases heq : other = sid
    · subst heq
      rw [hobj] at ho
      cases ho
      exact ⟨_, hself, hcancelled.trans hnot⟩
    · exact ⟨o, (hother other heq).trans ho, hnot⟩
  have hnotEnded : ∀ other, other ≠ sid → some other ≠ ended := by
    rintro other hne heq
    rcases hended with rfl | rfl
    · cases heq
    · exact hne (Option.some.inj heq)
  refine ⟨hbook, fun t ht => ?_, fun t other hcomp => ?_, fun other hmem hne o ho => ?_⟩
  · rcases h.outlives t ht with hr | hq | hall | ⟨other, hrun, hout, hl⟩
    · exact .inl hr
    · exact .inr (.inl hq)
    · exact .inr (.inr (.inl hall))
    · exact .inr (.inr (.inr ⟨other, hrun, hout, hlive other hl⟩))
  · by_cases heq : other = sid
    · subst heq
      obtain ⟨o, ho, htask⟩ := h.book.completedBy t other hcomp
      rw [hobj] at ho
      cases ho
      subst htask
      rcases hstate with rfl | ⟨rfl, -, hdel⟩
      · exact .inr (.inl rfl)
      · rcases hdel hcomp with hrep | ⟨hrun, hnot, hrecv⟩
        · exact .inl hrep
        · exact .inr (.inr ⟨hrun, _, hself, hnot, hrecv⟩)
    · rcases h.delivers t other hcomp with hrep | hend | ⟨hrun, o, ho, hdel⟩
      · exact .inl hrep
      · exact absurd hend (hnotEnded other heq)
      · exact .inr (.inr ⟨hrun, o, (hother other heq).trans ho, hdel⟩)
  · by_cases heq : other = sid
    · subst heq
      rw [hself] at ho
      cases ho
      rcases hstate with rfl | ⟨-, hgoing, -⟩
      · exact absurd rfl hne
      · exact hgoing hmem
    · rw [hother other heq] at ho
      exact h.going other hmem (hnotEnded other heq) o ho

/-- A session that was not cancelled completes its task, so that the others may be cancelled. -/
theorem registered (h : Tended s [] False none) (hobj : s.objects sid = some obj)
    (hrun : sid ∈ (s.tasks obj.task).sessionsRunning) (hnone : (s.tasks obj.task).completedBySession = none)
    (hnot : obj.session.cancelled = false) (hbook : Book (s.registerCompletion sid obj.task).1) :
    Tended (s.registerCompletion sid obj.task).1 [] False (some sid) := by
  -- only sessions of this task are touched
  have hother : ∀ other o, s.objects other = some o → o.task ≠ obj.task →
      (s.registerCompletion sid obj.task).1.objects other = some o := by
    intro other o ho hne
    have hout : other ∉ (s.tasks obj.task).sessionsRunning := by
      intro hmem
      obtain ⟨-, o', ho', htask⟩ := h.book.running _ other hmem
      rw [ho] at ho'
      cases ho'
      exact hne htask
    simp [NodeManager.registerCompletion, Task.isCompleted, hnone, hout, ho]
  have hself : (s.registerCompletion sid obj.task).1.objects sid = some obj := by
    simp [NodeManager.registerCompletion, Task.isCompleted, hnone, hobj]
  have htask : ∀ t, t ≠ obj.task → (s.registerCompletion sid obj.task).1.tasks t = s.tasks t := by
    intro t ht
    simp [NodeManager.registerCompletion, Task.isCompleted, hnone, ht]
  have hthis : (s.registerCompletion sid obj.task).1.tasks obj.task =
      { s.tasks obj.task with completedBySession := some sid } := by
    simp [NodeManager.registerCompletion, Task.isCompleted, hnone]
  have hrest : (s.registerCompletion sid obj.task).1 = { s with
      tasks := (s.registerCompletion sid obj.task).1.tasks
      objects := (s.registerCompletion sid obj.task).1.objects } := by
    simp [NodeManager.registerCompletion, Task.isCompleted, hnone]
  -- cancelling does not end a session
  have hstate : ∀ other o, (s.registerCompletion sid obj.task).1.objects other = some o →
      ∃ o', s.objects other = some o' ∧ o'.session.state = o.session.state := by
    intro other o ho
    simp only [NodeManager.registerCompletion, Task.isCompleted, hnone, Option.isSome_none, Bool.false_eq_true,
      if_false] at ho
    split at ho
    · obtain ⟨o', ho', rfl⟩ := Option.map_eq_some_iff.1 ho
      exact ⟨o', ho', rfl⟩
    · exact ⟨o, ho, rfl⟩
  generalize (s.registerCompletion sid obj.task).1 = s₁ at *
  refine ⟨hbook, fun t ht => ?_, fun t other hcomp => ?_, fun other hmem hne o ho => ?_⟩
  · by_cases heq : t = obj.task
    · subst heq
      refine .inr (.inr (.inr ⟨sid, ?_, List.not_mem_nil, obj, hself, hnot⟩))
      rw [hthis]
      exact hrun
    · rw [htask t heq] at ht
      unfold Outlives
      rw [htask t heq]
      rcases h.outlives t ht with hr | hq | hall | ⟨other, hrun', hout, o, ho, hl⟩
      · exact .inl (by rw [hrest]; exact hr)
      · exact .inr (.inl (by rw [hrest]; exact hq))
      · exact .inr (.inr (.inl hall))
      · obtain ⟨-, o', ho', hot⟩ := h.book.running t other hrun'
        rw [ho] at ho'
        cases ho'
        exact .inr (.inr (.inr ⟨other, hrun', hout, o, hother other o ho (hot ▸ heq), hl⟩))
  · by_cases heq : t = obj.task
    · subst heq
      rw [hthis] at hcomp
      exact .inr (.inl hcomp.symm)
    · rw [htask t heq] at hcomp ⊢
      rcases h.delivers t other hcomp with hrep | hend | ⟨hrun', o, ho, hdel⟩
      · exact .inl (by rw [hrest]; exact hrep)
      · cases hend
      · obtain ⟨o', ho', hot⟩ := h.book.completedBy t other hcomp
        rw [ho] at ho'
        cases ho'
        exact .inr (.inr ⟨hrun', o, hother other o ho (hot ▸ heq), hdel⟩)
  · rw [hrest] at hmem
    obtain ⟨o', ho', heq⟩ := hstate other o ho
    rw [← heq]
    exact h.going other hmem (by simp) o' ho'

/-- A call that completes its session ends in `session_completed`. -/
theorem replied_completed (hbook : Book s) (hobj : s.objects sid = some obj) (hsid : sid ∈ s.sessions)
    (hr : Book.ReplyOk s sid obj reply) (haction : reply.action = some (.complete result))
    (order : NodeManager → List NodeId) (elapsed : Rat) :
    Completed (s.setObject sid { obj with session := reply.session }) sid { obj with session := reply.session } result
      (s.replied order sid obj reply elapsed) := by
  have hset := hbook.setObject hobj hr
  have hcompletes : Completes (s.setObject sid { obj with session := reply.session }) sid
      { obj with session := reply.session } result :=
    hset.toRecords.completes hsid (by simp [NodeManager.setObject]) (hr.ends result haction).1
      ((hr.ends result haction).2 hsid)
  have heq : s.replied order sid obj reply elapsed =
      (s.setObject sid { obj with session := reply.session }).sessionCompleted order sid
        { obj with session := reply.session } elapsed := by
    unfold NodeManager.replied
    rw [haction]
  rw [heq]
  exact sessionCompleted_spec order elapsed hcompletes

theorem replied_failed (h : Tended s (sid :: gone) again none) (hobj : s.objects sid = some obj)
    (hsid : sid ∈ s.sessions)
    (hr : Book.ReplyOk s sid obj reply) (haction : reply.action = some (.complete result))
    (hcancelled : reply.session.cancelled = obj.session.cancelled) (hfail : isServerFailure result = true)
    (hagain : again → Reschedulable s sid obj) (order : NodeManager → List NodeId) (elapsed : Rat) :
    Tended (s.replied order sid obj reply elapsed) gone again none := by
  have hset : Tended (s.setObject sid { obj with session := reply.session }) (sid :: gone) again (some sid) :=
    h.setObject (.inl rfl) hobj hcancelled (h.book.setObject hobj hr) (.inl rfl)
  exact hset.failed hsid (by simp [NodeManager.setObject]) (replied_completed h.book hobj hsid hr haction order elapsed)
    hfail hagain

/-- A call that does not complete its session changes nothing else. -/
theorem replied_goesOn (h : Tended (s.setObject sid { obj with session := reply.session }) gone again none)
    (hgo : ∀ result, reply.action ≠ some (.complete result))
    (order : NodeManager → List NodeId) (elapsed : Rat) (hbook : Book (s.replied order sid obj reply elapsed)) :
    Tended (s.replied order sid obj reply elapsed) gone again none := by
  obtain ⟨decompressing, failures, heq⟩ : ∃ decompressing failures, s.replied order sid obj reply elapsed =
      { s.setObject sid { obj with session := reply.session } with decompressing, failures } := by
    unfold NodeManager.replied
    cases haction : reply.action with
    | none => exact ⟨_, _, rfl⟩
    | some action =>
      cases action with
      | complete result => exact absurd haction (hgo result)
      | compressPch => exact ⟨_, _, rfl⟩
      | gather => exact ⟨_, _, rfl⟩
      | raise => exact ⟨_, _, rfl⟩
  rw [heq] at hbook ⊢
  exact ⟨hbook, h.outlives, h.delivers, h.going⟩

/-- A registered session that completes its task has not reported. -/
theorem unreported (h : Tended s gone again ended) (hsid : sid ∈ s.sessions)
    (hcomp : (s.tasks t).completedBySession = some sid) : ¬ Reported s t := by
  intro hrep
  obtain ⟨obj, hobj, rfl⟩ := h.book.completedBy t sid hcomp
  rcases h.book.reported _ ((h.book.reports _).1 hrep) with hf | ⟨sid', hc, hgone⟩
  · rw [h.book.made sid obj hobj] at hf
    cases hf
  · rw [hcomp] at hc
    cases hc
    exact hgone hsid

/-- A registered session that completes its task is receiving the result. -/
theorem receiving (h : Tended s gone again none) (hsid : sid ∈ s.sessions) (hobj : s.objects sid = some obj)
    (hcomp : (s.tasks obj.task).completedBySession = some sid) :
    obj.session.cancelled = false ∧ obj.session.state = .receiveObjectFile := by
  rcases h.delivers _ sid hcomp with hrep | hend | ⟨-, o, ho, hdel⟩
  · exact absurd hrep (h.unreported hsid hcomp)
  · cases hend
  · rw [hobj] at ho
    cases ho
    exact hdel

/-- Sessions are about to fail whose tasks outlive them. -/
theorem expose (h : Tended s [] False none)
    (hout : ∀ sid ∈ gone, ∀ obj, s.objects sid = some obj → Outlives s obj.task gone again) :
    Tended s gone again none := by
  refine ⟨h.book, fun t ht => ?_, h.delivers, h.going⟩
  by_cases hany : ∃ sid ∈ (s.tasks t).sessionsRunning, sid ∈ gone
  · obtain ⟨sid, hrun, hmem⟩ := hany
    obtain ⟨-, obj, hobj, rfl⟩ := h.book.running t sid hrun
    exact hout sid hmem obj hobj
  · rcases h.outlives t ht with hr | hq | ⟨-, -, hno⟩ | ⟨sid, hrun, -, hlive⟩
    · exact .inl hr
    · exact .inr (.inl hq)
    · exact hno.elim
    · exact .inr (.inr (.inr ⟨sid, hrun, fun hmem => hany ⟨sid, hrun, hmem⟩, hlive⟩))

/-! ## Messages -/

/-- The session is told of the end of the compilation, and is the one to complete its task. -/
theorem serverDone (h : Tended s [] False none) (hobj : s.objects sid = some obj) (hsid : sid ∈ s.sessions)
    {r : Retcode}
    {o e : Bytes} (hstate : obj.session.state = .waitForServerResponse)
    (hnone : (s.tasks obj.task).completedBySession = none) (hnot : obj.session.cancelled = false)
    (hsafe : r ≠ 0 → RecordsSafely s sid obj.task) (order : NodeManager → List NodeId) (elapsed : Rat) :
    Tended (s.gotDataFromServer order sid obj (.serverDone r o e) elapsed) [] False none := by
  have hbook : Book (s.gotDataFromServer order sid obj (.serverDone r o e) elapsed) := h.book.gotDataFromServer hobj _
  obtain ⟨hbook₀, hself, hsessions, hentered⟩ := h.book.registration hobj (.serverDone r o e)
  have hreply := h.book.gotDataFromServer_ok hobj (.serverDone r o e)
  have hok : ServerSession.ActionOk obj.session _ _ (obj.session.gotDataFromServer (s.tasks obj.task).files
      (s.registration sid obj (.serverDone r o e)).2 (.serverDone r o e)) := ServerSession.gotDataFromServer_ok
  have hcancelled : (obj.session.gotDataFromServer (s.tasks obj.task).files
      (s.registration sid obj (.serverDone r o e)).2 (.serverDone r o e)).session.cancelled = obj.session.cancelled :=
    ServerSession.gotDataFromServer_cancelled
  unfold NodeManager.gotDataFromServer at hbook ⊢
  have hreg : s.registration sid obj (.serverDone r o e) = s.registerCompletion sid obj.task := by
    unfold NodeManager.registration
    rw [hstate]
  have htrue : (s.registration sid obj (.serverDone r o e)).2 = true := by
    rw [hreg]
    simp [NodeManager.registerCompletion, Task.isCompleted, hnone]
  have htended : Tended (s.registration sid obj (.serverDone r o e)).1 [] False (some sid) := by
    rw [hreg] at hbook₀ ⊢
    exact h.registered hobj (h.book.toRecords.running_of_object hsid hobj) hnone hnot hbook₀
  have hsame : ∀ t, ((s.registration sid obj (.serverDone r o e)).1.tasks t).sessionsRunning =
      (s.tasks t).sessionsRunning := by
    intro t
    rw [hreg]
    by_cases ht : t = obj.task
    · subst ht
      simp [NodeManager.registerCompletion, Task.isCompleted, hnone]
    · simp [NodeManager.registerCompletion, Task.isCompleted, hnone, ht]
  have hcommands : (s.registration sid obj (.serverDone r o e)).1.commands = s.commands := by
    rw [hreg]
    simp [NodeManager.registerCompletion, Task.isCompleted, hnone]
  have hsafe₀ : r ≠ 0 → RecordsSafely (s.registration sid obj (.serverDone r o e)).1 sid obj.task := by
    intro hr
    have := hsafe hr
    unfold RecordsSafely at this ⊢
    simp only [hsame, hcommands]
    exact this
  rw [← hsessions] at hsid
  generalize obj.session.gotDataFromServer (s.tasks obj.task).files (s.registration sid obj (.serverDone r o e)).2
    (.serverDone r o e) = reply at *
  generalize (s.registration sid obj (.serverDone r o e)).1 = s₀ at *
  by_cases hend : ∃ result, reply.action = some (.complete result)
  · obtain ⟨result, haction⟩ := hend
    -- the session was registered, so it can only have been successful
    obtain ⟨rfl, hr⟩ : result = .success ∧ r ≠ 0 := by
      obtain ⟨-, -, hcause⟩ := hok.ends result haction
      rcases hcause with ⟨-, -, _, hm⟩ | ⟨-, hm⟩ | ⟨-, hm, -⟩ | ⟨-, r', o', e', hm, ⟨-, hf⟩ | ⟨hs, -, -, hr⟩⟩
      · cases hm
      · cases hm
      · cases hm
      · rw [htrue] at hf
        cases hf
      · cases hm
        exact ⟨hs, hr⟩
    have hset := htended.setObject (.inr rfl) hself hcancelled (hbook₀.setObject hself hreply) (.inl rfl)
    have hself' : (s₀.setObject sid { obj with session := reply.session }).objects sid =
        some { obj with session := reply.session } := by simp [NodeManager.setObject]
    exact hset.succeeded hsid hself' (hentered htrue) (hsafe₀ hr)
      (replied_completed hbook₀ hself hsid hreply haction order elapsed)
  · have hgo : ∀ result, reply.action ≠ some (.complete result) := fun result haction => hend ⟨result, haction⟩
    have hrecv : reply.session.state = .receiveObjectFile :=
      (hok.goesOn hgo).2 hstate hnot htrue ⟨r, o, e, rfl⟩
    refine replied_goesOn ?_ hgo order elapsed hbook
    refine htended.setObject (.inr rfl) hself hcancelled (hbook₀.setObject hself hreply)
      (.inr ⟨rfl, fun _ => (by simp [hrecv]), fun _ => .inr ⟨?_, hcancelled.trans hnot, hrecv⟩⟩)
    exact hbook₀.toRecords.running_of_object hsid hself

/-- A message that does not make its session complete the task. -/
theorem answered (h : Tended s [] False none) (hobj : s.objects sid = some obj) (hsid : sid ∈ s.sessions)
    {msg : FromServer}
    (hreg : s.registration sid obj msg = (s, false))
    (hlate : (∃ r o e, msg = .serverDone r o e) → obj.session.state = .waitForServerResponse →
      (s.tasks obj.task).completedBySession ≠ none)
    (hfailed : msg = .timedOut ∨ obj.session.state = .waitForServerResponse ∧ (∃ traceback, msg = .serverFailed traceback) →
      Outlives s obj.task [sid] (Reschedulable s sid obj)) (order : NodeManager → List NodeId) (elapsed : Rat) :
    Tended (s.gotDataFromServer order sid obj msg elapsed) [] False none := by
  have hbook : Book (s.gotDataFromServer order sid obj msg elapsed) := h.book.gotDataFromServer hobj msg
  have hreply := h.book.gotDataFromServer_ok hobj msg
  unfold NodeManager.gotDataFromServer at hbook ⊢
  rw [hreg] at hbook hreply ⊢
  have hok : ServerSession.ActionOk obj.session _ _
      (obj.session.gotDataFromServer (s.tasks obj.task).files false msg) := ServerSession.gotDataFromServer_ok
  have hcancelled : (obj.session.gotDataFromServer (s.tasks obj.task).files false msg).session.cancelled =
      obj.session.cancelled := ServerSession.gotDataFromServer_cancelled
  generalize obj.session.gotDataFromServer (s.tasks obj.task).files false msg = reply at *
  by_cases hend : ∃ result, reply.action = some (.complete result)
  · obtain ⟨result, haction⟩ := hend
    have hexposed : Outlives s obj.task [sid] (Reschedulable s sid obj) →
        Tended s [sid] (Reschedulable s sid obj) none := by
      intro hout
      refine h.expose fun other hother o ho => ?_
      obtain rfl := List.mem_singleton.1 hother
      rw [hobj] at ho
      cases ho
      exact hout
    have hset := h.setObject (.inl rfl) hobj hcancelled (h.book.setObject hobj hreply) (.inl rfl)
    have hcompleted := replied_completed h.book hobj hsid hreply haction order elapsed
    have hself : (s.setObject sid { obj with session := reply.session }).objects sid =
        some { obj with session := reply.session } := by simp [NodeManager.setObject]
    obtain ⟨-, -, hcause⟩ := hok.ends result haction
    rcases hcause with ⟨rfl, hst, hm⟩ | ⟨rfl, hm⟩ | ⟨rfl, -, hc⟩ | ⟨hst, r, o, e, hm, ⟨rfl, -⟩ | ⟨-, hf, -⟩⟩
    · exact ((hexposed (hfailed (.inr ⟨hst, hm⟩))).replied_failed hobj hsid hreply haction hcancelled rfl id order
        elapsed).settled
    · exact ((hexposed (hfailed (.inl hm))).replied_failed hobj hsid hreply haction hcancelled rfl id order
        elapsed).settled
    · refine hset.withdrawn hsid hself hcompleted (by simp) (fun hcomp => ?_) (.inr (hcancelled.trans hc))
      have := (h.receiving hsid hobj hcomp).1
      rw [hc] at this
      cases this
    · refine hset.withdrawn hsid hself hcompleted (by simp) (fun hcomp => ?_) (.inl (hlate ⟨r, o, e, hm⟩ hst))
      have := (h.receiving hsid hobj hcomp).2
      rw [hst] at this
      cases this
    · cases hf
  · have hgo : ∀ result, reply.action ≠ some (.complete result) := fun result haction => hend ⟨result, haction⟩
    refine replied_goesOn ?_ hgo order elapsed hbook
    refine h.setObject (.inl rfl) hobj hcancelled (h.book.setObject hobj hreply)
      (.inr ⟨rfl, fun _ hfin => ?_, fun hcomp => .inr ⟨?_, ?_, ?_⟩⟩)
    · rcases hok.finishes hfin with hover | ⟨result, haction⟩
      · exact h.going sid hsid (by simp) obj hobj hover
      · exact hgo result haction
    · exact h.book.toRecords.running_of_object hsid hobj
    · exact hcancelled.trans (h.receiving hsid hobj hcomp).1
    · exact (hok.goesOn hgo).1 (h.receiving hsid hobj hcomp).2

theorem message (h : Tended s [] False none) (hobj : s.objects sid = some obj) (hsid : sid ∈ s.sessions)
    {msg : FromServer}
    {elapsed : Rat} (hcond : KeepsTasks s (.message sid msg elapsed)) (order : NodeManager → List NodeId) :
    Tended (s.gotDataFromServer order sid obj msg elapsed) [] False none := by
  by_cases hdone : obj.session.state = .waitForServerResponse ∧ ∃ r o e, msg = .serverDone r o e
  · obtain ⟨hstate, r, o, e, rfl⟩ := hdone
    cases hcomp : (s.tasks obj.task).completedBySession with
    | none =>
      obtain ⟨hnot, hsafe⟩ := hcond obj hsid hobj hstate hcomp
      exact h.serverDone hobj hsid hstate hcomp hnot hsafe order elapsed
    | some w =>
      refine h.answered hobj hsid ?_ (fun _ _ => by simp [hcomp]) ?_ order elapsed
      · unfold NodeManager.registration
        rw [hstate]
        simp [NodeManager.registerCompletion, Task.isCompleted, hcomp]
      · rintro (hm | ⟨-, _, hm⟩)
        · cases hm
        · cases hm
  · refine h.answered hobj hsid ?_ (fun hm hst => absurd ⟨hst, hm⟩ hdone) ?_ order elapsed
    · unfold NodeManager.registration
      split
      · rename_i hst
        exact absurd ⟨hst, _, _, _, rfl⟩ hdone
      · rfl
    · rintro (rfl | ⟨hst, _, rfl⟩)
      · exact hcond obj hsid hobj
      · exact hcond obj hsid hobj hst

/-! ## Decompressions and polls -/

theorem decompressed (h : Tended s [] False none) (hobj : s.objects sid = some obj)
    (hgathered : obj.session.state = .receiveObjectFile ∨ obj.session.state = .finish) {ok : Bool}
    (hcond : sid ∈ s.sessions → if ok then RecordsSafely s sid obj.task
      else Outlives s obj.task [sid] (Reschedulable s sid obj))
    (order : NodeManager → List NodeId) (elapsed : Rat) :
    Tended (s.replied order sid obj (obj.session.completeSession ok) elapsed) [] False none := by
  have hreply := h.book.completeSession_ok hobj ok hgathered
  have hbook : Book (s.replied order sid obj (obj.session.completeSession ok) elapsed) := h.book.replied hobj hreply
  have hcancelled : (obj.session.completeSession ok).session.cancelled = obj.session.cancelled := by
    unfold ServerSession.completeSession
    repeat' split
    all_goals rfl
  by_cases hsid : sid ∈ s.sessions
  · have hgoing : obj.session.state ≠ .finish := h.going sid hsid (by simp) obj hobj
    cases ok with
    | true =>
      have haction : (obj.session.completeSession true).action = some (.complete .success) := by
        simp [ServerSession.completeSession, hgoing, ServerSession.complete]
      have hset := h.setObject (.inl rfl) hobj hcancelled (h.book.setObject hobj hreply) (.inl rfl)
      have hself : (s.setObject sid { obj with session := (obj.session.completeSession true).session }).objects sid =
          some { obj with session := (obj.session.completeSession true).session } := by simp [NodeManager.setObject]
      exact hset.succeeded hsid hself (h.book.winner sid obj hsid hobj (hgathered.resolve_right hgoing)) (hcond hsid)
        (replied_completed h.book hobj hsid hreply haction order elapsed)
    | false =>
      have haction : (obj.session.completeSession false).action = some (.complete .failure) := by
        simp [ServerSession.completeSession, hgoing, ServerSession.complete]
      have hexposed : Tended s [sid] (Reschedulable s sid obj) none := by
        refine h.expose fun other hother o ho => ?_
        obtain rfl := List.mem_singleton.1 hother
        rw [hobj] at ho
        cases ho
        exact hcond hsid
      exact (hexposed.replied_failed hobj hsid hreply haction hcancelled rfl id order elapsed).settled
  · -- the session is not registered any more: whatever it does, `session_completed` raises
    have hset : Tended (s.setObject sid { obj with session := (obj.session.completeSession ok).session })
      [] False none := by
      refine h.setObject (.inl rfl) hobj hcancelled (h.book.setObject hobj hreply)
        (.inr ⟨rfl, fun hmem => absurd hmem hsid, fun hcomp => ?_⟩)
      rcases h.delivers _ sid hcomp with hrep | hend | ⟨hrun, -⟩
      · exact .inl hrep
      · cases hend
      · exact absurd (h.book.running _ sid hrun).1 hsid
    obtain ⟨decompressing, failures, heq⟩ : ∃ decompressing failures,
        s.replied order sid obj (obj.session.completeSession ok) elapsed =
          { s.setObject sid { obj with session := (obj.session.completeSession ok).session } with
            decompressing, failures } := by
      unfold NodeManager.replied
      cases (obj.session.completeSession ok).action with
      | none => exact ⟨_, _, rfl⟩
      | some action =>
        cases action with
        | complete result =>
          dsimp only
          rw [sessionCompleted_gone]
          · exact ⟨_, _, rfl⟩
          · exact hsid
        | compressPch => exact ⟨_, _, rfl⟩
        | gather => exact ⟨_, _, rfl⟩
        | raise => exact ⟨_, _, rfl⟩
    rw [heq] at hbook ⊢
    exact ⟨hbook, hset.outlives, hset.delivers, hset.going⟩

/-- The sessions of vanished nodes are terminated one after the other. -/
theorem terminateSessions (h : Tended s gone True none) (hslots : s.AllSlots) (hnodup : gone.Nodup)
    (hmem : ∀ sid ∈ gone, sid ∈ s.sessions) (order : NodeManager → List NodeId) :
    Tended (NodeManager.terminateSessions order s gone) [] False none ∧
      (NodeManager.terminateSessions order s gone).failures = s.failures := by
  induction gone generalizing s with
  | nil => exact ⟨h.settled, rfl⟩
  | cons sid rest ih =>
    have hsid := hmem sid List.mem_cons_self
    obtain ⟨obj, hobj, -⟩ := h.book.object sid hsid
    have hcompleted : Completed _ sid _ .terminated (s.replied order sid obj obj.session.terminate 0) :=
      replied_completed h.book hobj hsid Book.terminate_ok rfl order 0
    have hnext : Tended (s.replied order sid obj obj.session.terminate 0) rest True none :=
      h.replied_failed hobj hsid Book.terminate_ok rfl rfl rfl (fun _ _ => hslots) order 0
    have hfailures : (s.replied order sid obj obj.session.terminate 0).failures = s.failures :=
      hcompleted.command.2.2.resolve_right fun hraised => hraised.1 fun _ => hslots
    have hrest : ∀ other ∈ rest, other ∈ (s.replied order sid obj obj.session.terminate 0).sessions := by
      intro other hother
      rw [hcompleted.sessions]
      have hne : other ≠ sid := fun heq => (List.nodup_cons.1 hnodup).1 (heq ▸ hother)
      exact (List.mem_erase_of_ne hne).2 (hmem other (List.mem_cons_of_mem _ hother))
    obtain ⟨htended, hfails⟩ := ih hnext (hcompleted.allSlots hslots) (List.nodup_cons.1 hnodup).2 hrest
    unfold NodeManager.terminateSessions
    simp only [hobj, hfailures, if_true]
    exact ⟨htended, hfails.trans hfailures⟩

/-- Nothing happens to the sessions, and no task that was queued is forgotten. -/
theorem of_tasks (h : Tended s [] False none) (hbook : Book s') (hobjects : s'.objects = s.objects)
    (hsessions : s'.sessions = s.sessions) (hreports : s.reports ⊆ s'.reports)
    (hqueued : ∀ t, Queued s t → Outlives s' t [] False)
    (htasks : ∀ t, s'.tasks t = s.tasks t ∨ (s'.tasks t).completedBySession = none ∧
      ((s'.tasks t).scan = some .scheduled → Queued s' t)) : Tended s' [] False none := by
  have hreported : ∀ t, Reported s t → Reported s' t := by
    intro t hrep
    obtain ⟨report, hmem, rfl⟩ := List.mem_map.1 hrep
    exact List.mem_map_of_mem (hreports hmem)
  refine ⟨hbook, fun t ht => ?_, fun t other hcomp => ?_, fun other hother hne o ho => ?_⟩
  · rcases htasks t with heq | ⟨-, hsched⟩
    · rw [heq] at ht
      rcases h.outlives t ht with hr | hq | hall | ⟨sid, hrun, hout, hlive⟩
      · exact .inl (hreported t hr)
      · exact hqueued t hq
      · exact .inr (.inr (.inl (heq ▸ hall)))
      · refine .inr (.inr (.inr ⟨sid, heq ▸ hrun, hout, ?_⟩))
        unfold Live
        rw [hobjects]
        exact hlive
    · exact .inr (.inl (hsched ht))
  · rcases htasks t with heq | ⟨hnone, -⟩
    · rw [heq] at hcomp ⊢
      rw [hobjects]
      exact (h.delivers t other hcomp).imp (hreported t) id
    · rw [hnone] at hcomp
      cases hcomp
  · rw [hsessions] at hother
    rw [hobjects] at ho
    exact h.going other hother hne o ho

theorem findWork (h : Tended s [] False none) (order : NodeManager → List NodeId) (node : NodeId) :
    Tended (s.findWork order node) [] False none := by
  have hbook : Book (s.findWork order node) := h.book.findWork
  cases hslots : s.slotless node with
  | true =>
    rw [findWork_raises order hslots] at hbook ⊢
    exact ⟨hbook, h.outlives, h.delivers, h.going⟩
  | false =>
    obtain ⟨hsame, hkeeps, -, -⟩ : QueueStep s (s.findWork order node) _ := findWork_spec order hslots
    obtain ⟨hsessions, hobjects, -, -, -, -, htasks, -, hreports, -⟩ := queued_of_same hsame
    exact h.of_tasks hbook hobjects hsessions (by rw [hreports]; exact fun _ h => h)
      (fun t ht => .inr (.inl (hkeeps t ht))) (fun t => .inl (by rw [htasks]))

theorem findWorkAll (h : Tended s [] False none) (order : NodeManager → List NodeId) (nodes : List NodeId) :
    Tended (s.findWorkAll order nodes) [] False none := by
  induction nodes generalizing s with
  | nil => exact h
  | cons node nodes ih =>
    unfold NodeManager.findWorkAll
    split
    · exact h.findWork order node
    · exact ih (h.findWork order node)

theorem updateNodeInfo (h : Tended s [] False none) {live : Bool} {nodes : List NodeId}
    (hperm : gone.Perm (s.sessionsGone live nodes))
    (hslots : gone = [] ∨ ∀ node ∈ nodes, s.slotless node = false)
    (hcond : ∀ sid ∈ gone, ∀ obj, s.objects sid = some obj → Outlives s obj.task gone True)
    (order : NodeManager → List NodeId) : Tended (s.updateNodeInfo live order nodes gone) [] False none := by
  have hnodup : gone.Nodup := hperm.nodup_iff.2 (h.book.nodup.filter _)
  have hmem : ∀ sid ∈ gone, sid ∈ s.sessions := fun sid hsid => (List.mem_filter.1 (hperm.mem_iff.1 hsid)).1
  have hexposed : Tended { s with nodeInfo := nodes, polled := true } gone True none := by
    have := h.expose hcond
    exact ⟨{ this.book with }, this.outlives, this.delivers, this.going⟩
  obtain ⟨htended, hfailures⟩ : Tended (NodeManager.terminateSessions order
        { s with nodeInfo := nodes, polled := true } gone) [] False none ∧
      (NodeManager.terminateSessions order { s with nodeInfo := nodes, polled := true } gone).failures =
        s.failures := by
    rcases hslots with rfl | hslots
    · exact ⟨hexposed.settled, rfl⟩
    · exact hexposed.terminateSessions hslots hnodup hmem order
  unfold NodeManager.updateNodeInfo
  dsimp only
  rw [if_pos (by rw [hfailures])]
  generalize nodes.filter (· ∉ NodeManager.previousNodes live s nodes) = newNodes
  generalize NodeManager.terminateSessions order { s with nodeInfo := nodes, polled := true } gone = s' at htended
  exact htended.findWorkAll order newNodes

/-! ## Connections -/

/-- Of the queued tasks, only the one whose connection attempt ends can lose its place. -/
theorem queued_eraseIdx {i : Nat} {node : NodeId} {t' : TaskId} (hi : s.connecting[i]? = some (t, node)) (ht : t' ≠ t)
    (h : Queued s t') : Queued { s with connecting := s.connecting.eraseIdx i } t' := by
  rcases h with h | ⟨n, h⟩
  · exact .inl h
  · refine .inr ⟨n, ?_⟩
    obtain ⟨k, hk⟩ := List.mem_iff_getElem?.1 h
    refine List.mem_eraseIdx_iff_getElem?.2 ⟨k, ?_, hk⟩
    rintro rfl
    rw [hi] at hk
    cases hk
    exact ht rfl

theorem connectionFailed (h : Tended s [] False none) {i : Nat} {node : NodeId} {failure : Failure} {counter : Nat}
    (hi : s.connecting[i]? = some (t, node))
    (hout : Outlives { s with connecting := s.connecting.eraseIdx i } t [] False)
    (hbook : Book ({ s with connecting := s.connecting.eraseIdx i, counter }.raise failure)) :
    Tended ({ s with connecting := s.connecting.eraseIdx i, counter }.raise failure) [] False none := by
  refine h.of_tasks hbook rfl rfl (fun _ h => h) (fun t' ht' => ?_) (fun t' => .inl rfl)
  by_cases heq : t' = t
  · subst heq
    exact hout
  · exact .inr (.inl (queued_eraseIdx hi heq ht'))

/-- A session is made for the task that waited for the connection. -/
theorem opened (h : Tended s [] False none) {i : Nat} {node : NodeId} (hi : s.connecting[i]? = some (t, node))
    (hbook : Book s') (ho : Opened { s with connecting := s.connecting.eraseIdx i } t node s') :
    Tended s' [] False none := by
  have hold : ∀ sid obj, s.objects sid = some obj → s'.objects sid = some obj :=
    fun sid obj hobj => (ho.object_kept (h.book.fresh sid obj hobj)).trans hobj
  obtain ⟨new, hself, hnew⟩ := ho.object_new
  have hreported : ∀ t, Reported s t → Reported s' t := by
    intro t hrep
    unfold Reported
    rw [ho.reports]
    exact hrep
  refine ⟨hbook, fun t' ht' => ?_, fun t' other hcomp => ?_, fun other hother hne o hobj => ?_⟩
  · rw [ho.task] at ht'
    unfold Outlives
    by_cases heq : t' = t
    · subst heq
      exact .inr (.inr (.inr ⟨s.counter + 1, by simp [ho.task], List.not_mem_nil, new, hself, hnew.notCancelled⟩))
    · have hrunning : (s'.tasks t').sessionsRunning = (s.tasks t').sessionsRunning := by simp [ho.task, heq]
      rw [hrunning]
      rcases h.outlives t' ht' with hr | hq | hall | ⟨sid, hrun, hout, obj, hobj, hl⟩
      · exact .inl (hreported t' hr)
      · exact .inr (.inl (ho.queued.2 (queued_eraseIdx hi heq hq)))
      · exact .inr (.inr (.inl hall))
      · exact .inr (.inr (.inr ⟨sid, hrun, hout, obj, hold sid obj hobj, hl⟩))
  · rw [ho.task] at hcomp ⊢
    rcases h.delivers t' other hcomp with hrep | hend | ⟨hrun, o, hobj, hdel⟩
    · exact .inl (hreported t' hrep)
    · cases hend
    · exact .inr (.inr ⟨List.mem_append_left _ hrun, o, hold other o hobj, hdel⟩)
  · rw [ho.sessions] at hother
    rcases List.mem_append.1 hother with hother | hother
    · obtain ⟨o', ho', -⟩ := h.book.object other hother
      rw [hold other o' ho'] at hobj
      cases hobj
      exact h.going other hother hne o ho'
    · obtain rfl := List.mem_singleton.1 hother
      obtain rfl := Option.some.inj (hself.symm.trans hobj)
      simp [hnew.state]

end Tended

end Ends

/-! ## Runs -/

theorem tended_init (slots : NodeId → Option Nat) (orders : CommandId → DictOrder) :
    Tended (.initial slots orders) [] False none :=
  ⟨book_init slots orders, fun t ht => (by cases ht), fun t sid h => (by cases h), fun sid h => (by cases h)⟩

theorem step_tended {live : Bool} {order : NodeManager → List NodeId} {s s' : NodeManager} {e : Event}
    (h : Tended s [] False none) (hcond : KeepsTasks s e) (hs : step live order s e = some s') :
    Tended s' [] False none := by
  have hbook : Book s' := step_book h.book hs
  cases e with
  | createTasks c files shouldInvokeLinker =>
    obtain ⟨-, rfl⟩ := steps_of_step hs
    refine h.of_tasks hbook rfl rfl (fun _ h => h) (fun t ht => .inr (.inl ht)) fun t => ?_
    dsimp only
    split
    · exact .inr ⟨rfl, fun hscan => by cases hscan⟩
    · exact .inl rfl
  | preprocessed t =>
    obtain ⟨s₁, hs₁, rfl⟩ := steps_of_step hs
    obtain ⟨-, heq, -, hnone⟩ := h.book.scanned hs₁
    -- A task that was not scanned before has no session.
    have hfree := (h.book.no_session (t := t) (by simp [hnone])).2.1
    have hsched : Schedulable s₁ := by
      rw [heq]
      exact hcond
    obtain ⟨⟨hsame, hkeeps, -, -⟩, hqueued⟩ : QueueStep s₁ (s₁.scheduleTask t false) (· = t) ∧ _ :=
      scheduleTask_spec hsched
    obtain ⟨hsessions, hobjects, -, -, -, -, htasks, -, hreports, -⟩ := queued_of_same hsame
    subst heq
    refine h.of_tasks hbook hobjects hsessions (by rw [hreports]; exact fun _ h => h)
      (fun t' ht' => .inr (.inl (hkeeps t' ht'))) fun t' => ?_
    rw [htasks]
    by_cases ht : t' = t
    · subst ht
      exact .inr ⟨by simp [NodeManager.setTask, hfree], fun _ => hqueued⟩
    · exact .inl (by simp [NodeManager.setTask, ht])
  | preprocessingFailed t stderr =>
    obtain ⟨s₁, hs₁, rfl⟩ := steps_of_step hs
    obtain ⟨-, heq, hmem, hnone⟩ := h.book.scanned hs₁
    have hfree := (h.book.no_session (t := t) (by simp [hnone])).2.1
    have hunrep := h.book.unreported hnone
    -- The task is one of its command and was not reported, so that nothing raises.
    rw [taskCompleted_eq (by rw [heq]; exact hmem) (by rw [heq]; exact hunrep)] at hbook ⊢
    subst heq
    refine h.of_tasks hbook rfl rfl (List.subset_append_left _ _) (fun t ht => .inr (.inl ht)) fun t' => ?_
    by_cases ht : t' = t
    · subst ht
      exact .inr (by simp [NodeManager.setCommand, NodeManager.logReport, NodeManager.setTask, hfree])
    · exact .inl (by simp [NodeManager.setCommand, NodeManager.logReport, NodeManager.setTask, ht])
  | cannotDistribute t =>
    obtain ⟨-, rfl, -, hnone⟩ := h.book.scanned hs
    have hfree := (h.book.no_session (t := t) (by simp [hnone])).2.1
    refine h.of_tasks hbook rfl rfl (fun _ h => h) (fun t ht => .inr (.inl ht)) fun t' => ?_
    by_cases ht : t' = t
    · subst ht
      exact .inr (by simp [NodeManager.setTask, hfree])
    · exact .inl (by simp [NodeManager.setTask, ht])
  | connected i =>
    obtain ⟨t, node, hi, rfl⟩ := steps_of_step hs
    have hrecords := h.book.toRecords.of_fewer (List.eraseIdx_subset (l := s.connecting) (k := i))
    -- Without an id for the session the connection is as good as failed.
    rcases createSession_spec { s with connecting := s.connecting.eraseIdx i } t node with ⟨failure, heq, hfailure⟩ | ho
    · rcases hcond t node hi with hid | hout
      · exact h.opened hi hbook (hrecords.createSession_opened hid)
      · rw [heq] at hbook ⊢
        exact h.connectionFailed hi hout hbook
    · exact h.opened hi hbook ho
  | connectionFailed i =>
    obtain ⟨t, node, hi, rfl⟩ := steps_of_step hs
    exact h.connectionFailed hi (hcond t node hi) hbook
  | message sid msg elapsed =>
    rcases steps_of_step hs with ⟨hsid, obj, hobj, rfl⟩ | ⟨-, rfl⟩
    · exact h.message hobj hsid hcond order
    · exact h
  | decompressed i ok elapsed =>
    obtain ⟨sid, obj, hi, hobj, rfl⟩ := steps_of_step hs
    have hfewer : Tended { s with decompressing := s.decompressing.eraseIdx i } [] False none :=
      ⟨{ h.book with gathering := fun sid hsid => h.book.gathering sid (List.eraseIdx_subset hsid) },
        h.outlives, h.delivers, h.going⟩
    exact hfewer.decompressed hobj (h.book.gathering_state (List.mem_of_getElem? hi) hobj)
      (fun hsid => hcond sid obj hi hobj hsid) order elapsed
  | updateNodeInfo nodes gone =>
    obtain ⟨hguard, rfl⟩ := steps_of_step hs
    exact h.updateNodeInfo hguard.2 hcond.1 hcond.2 order

/-- In every run whose callbacks all keep the tasks, no task is lost. -/
theorem no_task_lost (live : Bool) (order : NodeManager → List NodeId) (slots : NodeId → Option Nat)
    (orders : CommandId → DictOrder) (events : List Event) (s : NodeManager)
    (hrun : run (step live order) (.initial slots orders) events = some s)
    (hmeets : Meets (step live order) KeepsTasks (.initial slots orders) events) : NoTaskLost s := by
  have htended : Tended s [] False none :=
    run_inv_of_meets (step live order) (fun _ _ _ h hcond hs => step_tended h hcond hs) events _ s
      (tended_init slots orders)
      hmeets hrun
  exact htended.noTaskLost

/-- The first session fails, and the task, having no other, is rescheduled. -/
theorem no_task_lost_retry : ∃ s, run (step true fun _ => []) (.initial fun _ => some 2) retryEvents = some s ∧
    NoTaskLost s := by
  have hrun : (run (step true fun _ => []) (.initial fun _ => some 2) retryEvents).isSome = true := rfl
  obtain ⟨s, hs⟩ := Option.isSome_iff_exists.1 hrun
  refine ⟨s, hs, no_task_lost true (fun _ => []) (fun _ => some 2) _ retryEvents s hs ?_⟩
  refine ⟨trivial, ?_⟩
  rintro s₁ ⟨⟩
  refine ⟨⟨.inl rfl, fun _ h => (by cases h)⟩, ?_⟩
  rintro s₂ ⟨⟩
  refine ⟨fun _ _ _ => rfl, ?_⟩
  rintro s₃ ⟨⟩
  refine ⟨fun t node _ => .inl (by decide), ?_⟩
  rintro s₄ ⟨⟩
  refine ⟨trivial, ?_⟩
  rintro s₅ ⟨⟩
  refine ⟨?_, ?_⟩
  · rintro obj - ⟨⟩ -
    exact .inr (.inr (.inl ⟨by decide, by decide, fun _ => by decide⟩))
  rintro s₆ ⟨⟩
  refine ⟨fun t node _ => .inl (by decide), ?_⟩
  rintro s₇ ⟨⟩
  refine ⟨trivial, ?_⟩
  rintro s₈ ⟨⟩
  refine ⟨?_, fun s₉ _ => trivial⟩
  rintro obj - ⟨⟩ - -
  refine ⟨rfl, fun _ _ _ t' ht' hne => absurd ?_ hne⟩
  exact List.mem_singleton.1 ht'

/-- A task that comes from the source scanner when it cannot be scheduled is lost at once. -/
theorem unschedulable_lost {live : Bool} {order : NodeManager → List NodeId} {s s' : NodeManager} {t : TaskId}
    (h : Book s) (hnot : ¬ Schedulable s) (hs : step live order s (.preprocessed t) = some s') : ¬ NoTaskLost s' := by
  obtain ⟨s₁, hs₁, rfl⟩ := steps_of_step hs
  obtain ⟨-, rfl, -, hnone⟩ := h.scanned hs₁
  obtain ⟨hrunning, -, hqueued, -⟩ := h.no_session (t := t) (by simp [hnone])
  have hunreported : ¬ Reported s t := fun hrep => h.unreported hnone ((h.reports t).1 hrep)
  have hnot' : ¬ Schedulable (s.setTask t { s.tasks t with scan := some .scheduled }) := hnot
  rw [scheduleTask_raises hnot']
  intro hall
  rcases hall t (by simp [NodeManager.raise, NodeManager.setTask]) hunreported with hq | hq | ⟨sid, hsid, -⟩
  · exact hqueued (.inl hq)
  · exact hqueued (.inr hq)
  · have hsid' : sid ∈ (s.tasks t).sessionsRunning := by simpa [NodeManager.raise, NodeManager.setTask] using hsid
    rw [hrunning] at hsid'
    cases hsid'

/-- A connection that cannot be made is not tried again: the exception of its future ends `create_session`. -/
def refusedEvents : List Event :=
  [.createTasks 0 [⟨0, 1⟩] false, .updateNodeInfo [7] [], .preprocessed ⟨0, 0⟩, .connectionFailed 0]

theorem task_lost_refused : ∃ s, run (step true fun _ => []) (.initial fun _ => some 2) refusedEvents = some s ∧
    ¬ NoTaskLost s := by
  have hrun : (run (step true fun _ => []) (.initial fun _ => some 2) refusedEvents).map (fun s =>
      ((s.tasks ⟨0, 0⟩).scan, s.reports, s.unassignedTasks, s.connecting, (s.tasks ⟨0, 0⟩).sessionsRunning)) =
        some (some .scheduled, [], [], [], []) := rfl
  obtain ⟨s, hs, hstate⟩ := Option.map_eq_some_iff.1 hrun
  obtain ⟨hscan, hreports, hqueue, hconnecting, hrunning⟩ : (s.tasks ⟨0, 0⟩).scan = some .scheduled ∧ s.reports = [] ∧
      s.unassignedTasks = [] ∧ s.connecting = [] ∧ (s.tasks ⟨0, 0⟩).sessionsRunning = [] := by
    simpa using hstate
  refine ⟨s, hs, fun hall => ?_⟩
  rcases hall ⟨0, 0⟩ hscan (by simp [Reported, hreports]) with h | ⟨node, h⟩ | ⟨sid, h, -⟩
  · rw [hqueue] at h
    cases h
  · rw [hconnecting] at h
    cases h
  · rw [hrunning] at h
    cases h

end BuildPal.Scheduler
