import BuildPal.Manager.NoTaskLost
/-!
# Commands are recorded once

A command goes to the database when the last session of its last task has
ended: `Task.session_completed` tells the command when a completed task has no
session left, and the command counts these tasks. That is the moment it is
meant to be, unless a session that fails is the last one of a task that another
session has completed, or a task gets a session when it has been counted.
-/
open BuildPal.Lib BuildPal.Message

namespace BuildPal.Scheduler

/-! ## What is recorded -/

/-- The two records of a command agree on what has been counted and recorded. -/
structure SameRecord (c c' : Command) : Prop where
  tasks : c'.tasks = c.tasks
  done : c'.tasksWithSessionsDone = c.tasksWithSessionsDone
  inserted : c'.inserted = c.inserted

theorem SameRecord.refl (c : Command) : SameRecord c c := ⟨rfl, rfl, rfl⟩

theorem SameRecord.trans {c c' c'' : Command} (h : SameRecord c c') (h' : SameRecord c' c'') : SameRecord c c'' :=
  ⟨h'.tasks.trans h.tasks, h'.done.trans h.done, h'.inserted.trans h.inserted⟩

/-- A task is counted, and the command is recorded if it was the last. -/
def Command.close (command : Command) (t : TaskId) : Command :=
  if sameElements (command.sessionsDone t).tasksWithSessionsDone command.tasks then
    { command.sessionsDone t with inserted := command.inserted + 1 }
  else command.sessionsDone t

theorem Command.close_results (command : Command) (t : TaskId) : SameResults command (command.close t) := by
  unfold close
  split
  · exact ⟨rfl, rfl, rfl, rfl, rfl⟩
  · exact ⟨rfl, rfl, rfl, rfl, rfl⟩

theorem Command.close_done (command : Command) (t : TaskId) :
    (command.close t).tasksWithSessionsDone = (command.sessionsDone t).tasksWithSessionsDone := by
  unfold close
  split
  · rfl
  · rfl

theorem Command.mem_sessionsDone {command : Command} {t t' : TaskId} :
    t' ∈ (command.sessionsDone t).tasksWithSessionsDone ↔ t' ∈ command.tasksWithSessionsDone ∨ t' = t := by
  unfold sessionsDone
  dsimp only
  split
  · rename_i hmem
    constructor
    · exact .inl
    · rintro (h | rfl)
      · exact h
      · exact hmem
  · simp

/-- A command is recorded when the task is the only one that was not counted. -/
theorem Command.close_inserted {command : Command} {t : TaskId}
    (hknown : ∀ t' ∈ command.tasksWithSessionsDone, t' ∈ command.tasks) (ht : t ∈ command.tasks) :
    (command.close t).inserted = command.inserted +
      if ∀ t' ∈ command.tasks, t' ∈ command.tasksWithSessionsDone ∨ t' = t then 1 else 0 := by
  have hsame : sameElements (command.sessionsDone t).tasksWithSessionsDone command.tasks = true ↔
      ∀ t' ∈ command.tasks, t' ∈ command.tasksWithSessionsDone ∨ t' = t := by
    rw [sameElements_iff]
    constructor
    · rintro ⟨-, hall⟩ t' ht'
      exact mem_sessionsDone.1 (hall t' ht')
    · intro hall
      refine ⟨fun t' ht' => ?_, fun t' ht' => mem_sessionsDone.2 (hall t' ht')⟩
      rcases mem_sessionsDone.1 ht' with ht' | rfl
      · exact hknown t' ht'
      · exact ht
  unfold close
  by_cases hall : ∀ t' ∈ command.tasks, t' ∈ command.tasksWithSessionsDone ∨ t' = t
  · rw [if_pos (hsame.2 hall), if_pos hall]
  · rw [if_neg fun h => hall (hsame.1 h), if_neg hall]
    rfl

theorem postprocessIfDone_record (c : Command) : SameRecord c c.postprocessIfDone := by
  unfold Command.postprocessIfDone
  split
  · exact ⟨rfl, rfl, rfl⟩
  · exact .refl c

section Calls
variable {s : NodeManager} {t : TaskId} {sid : SessionId} {obj : Session} {result : SessionResult}

/-- What `session_completed` tells the command of a task without sessions, if it does not find a session running. -/
theorem noMoreSessions_eq
    (h : (s.tasks t).sessionsRunning = [] →
      (∀ t' ∈ (s.commands t.command).tasks, t' = t ∨ t' ∈ (s.commands t.command).tasksWithSessionsDone) →
        ∀ t' ∈ (s.commands t.command).tasks, (s.tasks t').sessionsRunning = []) :
    s.noMoreSessions t = (s.setCommand t.command
      (if (s.tasks t).sessionsRunning = [] ∧ (s.tasks t).isCompleted then (s.commands t.command).close t
        else s.commands t.command), true) := by
  have hreturns := noMoreSessions_returns h
  unfold NodeManager.noMoreSessions at hreturns ⊢
  split
  · rename_i hdone
    rw [if_pos hdone] at hreturns
    unfold NodeManager.allSessionsDone Command.close at *
    dsimp only at hreturns ⊢
    have htasks : ((s.commands t.command).sessionsDone t).tasks = (s.commands t.command).tasks := rfl
    rw [htasks] at hreturns ⊢
    split
    · rename_i hall
      rw [if_pos hall] at hreturns
      split
      · rfl
      · rename_i hrunning
        rw [if_neg hrunning] at hreturns
        cases hreturns
    · rfl
  · unfold NodeManager.setCommand
    rw [Function.update_eq_self]

theorem taskCompleted_record (s : NodeManager) (t : TaskId) (r : TaskResult) (session : Option SessionId) (c : CommandId) :
    SameRecord (s.commands c) ((s.taskCompleted t r session).commands c) := by
  unfold NodeManager.taskCompleted
  split
  · exact .refl _
  · split
    · exact .refl _
    · by_cases hc : c = t.command
      · subst hc
        simp only [NodeManager.setCommand, Function.update_self]
        have hpost := postprocessIfDone_record ((s.commands t.command).addResult t r)
        exact ⟨hpost.tasks, hpost.done, hpost.inserted⟩
      · simp only [NodeManager.setCommand, Function.update_of_ne hc]
        exact .refl _

/-- `s'` is what becomes of `s` when the session leaves the task: the command may count the task. -/
theorem noMoreSessions_record {s' : NodeManager} (hcommands : s'.commands = s.commands)
    (hself : s'.tasks t = (s.tasks t).finish sid) (hothers : ∀ t', t' ≠ t → s'.tasks t' = s.tasks t')
    (hsafe : RecordsSafely s sid t) :
    (s'.noMoreSessions t).1.failures = s'.failures ∧ (s'.noMoreSessions t).1.tasks = s'.tasks ∧
      ∀ c, (s'.noMoreSessions t).1.commands c =
        if c = t.command ∧ (s.tasks t).sessionsRunning.erase sid = [] ∧ (s.tasks t).isCompleted then
          (s.commands c).close t
        else s.commands c := by
  have hclosed := noMoreSessions_eq (s := s') (t := t) (fun hnone hall t' ht' => by
    rw [hcommands] at hall ht'
    rw [hself] at hnone
    by_cases ht : t' = t
    · rw [ht, hself]
      exact hnone
    · rw [hothers t' ht]
      exact hsafe hnone hall t' ht' ht)
  rw [hself, hcommands] at hclosed
  rw [hclosed]
  refine ⟨rfl, rfl, fun c => ?_⟩
  by_cases hc : c = t.command
  · subst hc
    simp only [NodeManager.setCommand, Function.update_self, true_and]
    rfl
  · simp [NodeManager.setCommand, hc, hcommands]

/-- To report the result after that changes nothing of what is recorded. -/
theorem sessionDelivered_record {s' : NodeManager} (elapsed : Rat) (h : Completes s sid obj result)
    (hcommands : s'.commands = s.commands) (hself : s'.tasks obj.task = (s.tasks obj.task).finish sid)
    (hothers : ∀ t, t ≠ obj.task → s'.tasks t = s.tasks t) (hsafe : RecordsSafely s sid obj.task) :
    (s'.sessionDelivered sid obj result elapsed).failures = s'.failures ∧
      ∀ c, SameRecord
        (if c = obj.task.command ∧ (s.tasks obj.task).sessionsRunning.erase sid = [] ∧ (s.tasks obj.task).isCompleted then
          (s.commands c).close obj.task
        else s.commands c) ((s'.sessionDelivered sid obj result elapsed).commands c) := by
  obtain ⟨hfailures, htasks, hcount⟩ := noMoreSessions_record hcommands hself hothers hsafe
  unfold NodeManager.sessionDelivered
  split
  · rename_i hsuccess
    obtain ⟨-, rfl⟩ := hsuccess
    have hwinner : ((s'.noMoreSessions obj.task).1.tasks obj.task).completedBySession = some sid := by
      rw [htasks, hself]
      exact h.winner rfl
    have hresults : SameResults (s.commands obj.task.command)
        ((s'.noMoreSessions obj.task).1.commands obj.task.command) := by
      rw [hcount]
      split
      · exact Command.close_results _ _
      · exact .refl _
    unfold NodeManager.reportResult
    rw [if_pos hwinner]
    refine ⟨?_, fun c => ?_⟩
    · rw [taskCompleted_eq]
      · exact hfailures
      · exact hresults.tasks ▸ h.known
      · intro hmem
        apply h.unreported rfl
        unfold Command.completed at hmem ⊢
        rw [← hresults.completedTasks]
        exact hmem
    · refine SameRecord.trans ?_ (taskCompleted_record ..)
      rw [← hcount]
      exact .refl _
  · refine ⟨hfailures, fun c => ?_⟩
    rw [hcount]
    exact .refl _

/-- The end of a session that did not fail: its task is counted if this was the last session of a completed task. -/
theorem sessionCompleted_record (order : NodeManager → List NodeId) (elapsed : Rat) (h : Completes s sid obj result)
    (hfail : isServerFailure result = false) (hsafe : RecordsSafely s sid obj.task) :
    (s.sessionCompleted order sid obj elapsed).failures = s.failures ∧
      ∀ c, SameRecord
        (if c = obj.task.command ∧ (s.tasks obj.task).sessionsRunning.erase sid = [] ∧ (s.tasks obj.task).isCompleted then
          (s.commands c).close obj.task
        else s.commands c) ((s.sessionCompleted order sid obj elapsed).commands c) := by
  obtain ⟨info, -, -, heq⟩ := sessionCompleted_eq order elapsed h
  rw [heq]
  obtain ⟨hsame, -, -, -⟩ : QueueStep (s.removeSession sid obj) _ _ := findWork_spec order h.slotted
  dsimp only
  rw [if_neg (by simp [hfail])]
  generalize (s.removeSession sid obj).findWork order obj.node = s₂ at hsame
  obtain ⟨-, -, -, -, -, -, htasks, hcommands, -, hfailures⟩ := queued_of_same hsame
  have htasks' : s₂.tasks = s.tasks := htasks
  have hcommands' : ((s₂.setTask obj.task ((s.tasks obj.task).finish sid)).setNode obj.node info).commands =
      s.commands := hcommands
  have hself : ((s₂.setTask obj.task ((s.tasks obj.task).finish sid)).setNode obj.node info).tasks obj.task =
      (s.tasks obj.task).finish sid := by
    simp [NodeManager.setNode, NodeManager.setTask]
  have hothers : ∀ t, t ≠ obj.task →
      ((s₂.setTask obj.task ((s.tasks obj.task).finish sid)).setNode obj.node info).tasks t = s.tasks t := by
    intro t ht
    simp [NodeManager.setNode, NodeManager.setTask, ht, htasks']
  obtain ⟨hfailures', hrecord⟩ := sessionDelivered_record elapsed h hcommands' hself hothers hsafe
  exact ⟨hfailures'.trans hfailures, hrecord⟩

end Calls

/-! ## The invariant -/

/-- The sessions that end with a failure in a callback. -/
def endsFailed (s : NodeManager) : Event → List SessionId
  | .message sid (.serverFailed _) _ =>
    if (s.objects sid).any (·.session.state = .waitForServerResponse) then [sid] else []
  | .message sid .timedOut _ => [sid]
  | .decompressed i false _ => (s.decompressing[i]?).toList
  | .updateNodeInfo _ gone => gone
  | _ => []

/-- The task that gets a session in a callback. -/
def getsSession (s : NodeManager) : Event → Option TaskId
  | .connected i => (s.connecting[i]?).map (·.1)
  | _ => none

/-- The sessions in `gone` leave a session behind if their task has been completed: the one that completed it, or
another one. -/
def NotLast (s : NodeManager) (gone : List SessionId) : Prop :=
  ∀ sid ∈ gone, sid ∈ s.sessions → ∀ obj ∈ s.objects sid, ∀ w ∈ (s.tasks obj.task).completedBySession,
    w ∈ (s.tasks obj.task).sessionsRunning ∨ ∃ other ∈ (s.tasks obj.task).sessionsRunning, other ∉ gone

/-- No task that has been counted gets a session, and of a completed task the last sessions do not fail. -/
def ClosesOnce (s : NodeManager) (e : Event) : Prop :=
  (∀ t ∈ getsSession s e, t ∉ (s.commands t.command).tasksWithSessionsDone) ∧ NotLast s (endsFailed s e)

instance (s : NodeManager) (gone : List SessionId) : Decidable (NotLast s gone) :=
  inferInstanceAs (Decidable (∀ sid ∈ gone, sid ∈ s.sessions → ∀ obj ∈ s.objects sid,
    ∀ w ∈ (s.tasks obj.task).completedBySession,
      w ∈ (s.tasks obj.task).sessionsRunning ∨ ∃ other ∈ (s.tasks obj.task).sessionsRunning, other ∉ gone))

instance (s : NodeManager) (e : Event) : Decidable (ClosesOnce s e) := inferInstanceAs (Decidable (_ ∧ _))

/-- The registered sessions have not ended. -/
def Going (s : NodeManager) : Prop :=
  ∀ sid ∈ s.sessions, ∀ obj, s.objects sid = some obj → obj.session.state ≠ .finish

/-- The counted tasks are the completed ones without sessions, and a command is recorded when it has no others. -/
structure Recording (s : NodeManager) : Prop where
  book : Book s
  known : ∀ c, ∀ t ∈ (s.commands c).tasksWithSessionsDone, t ∈ (s.commands c).tasks
  counted : ∀ t, t ∈ (s.commands t.command).tasksWithSessionsDone →
    (s.tasks t).isCompleted = true ∧ (s.tasks t).sessionsRunning = []
  counts : ∀ t, (s.tasks t).isCompleted = true → (s.tasks t).sessionsRunning = [] →
    t ∈ (s.commands t.command).tasksWithSessionsDone
  inserted : ∀ c, (s.commands c).inserted =
    if (s.commands c).tasks ≠ [] ∧ ∀ t ∈ (s.commands c).tasks, t ∈ (s.commands c).tasksWithSessionsDone then 1 else 0
  quiet : .sessionsRunning ∉ s.failures

/-- Whoever fails is not the last session of a task that another one has completed. -/
theorem NotLast.erase_ne_nil {s : NodeManager} {gone : List SessionId} {sid w : SessionId} {obj : Session}
    (h : NotLast s gone) (hin : sid ∈ gone) (hsid : sid ∈ s.sessions) (hobj : s.objects sid = some obj)
    (hw : (s.tasks obj.task).completedBySession = some w) (hne : w ≠ sid) :
    (s.tasks obj.task).sessionsRunning.erase sid ≠ [] := by
  obtain ⟨other, hother, hne'⟩ : ∃ other ∈ (s.tasks obj.task).sessionsRunning, other ≠ sid := by
    rcases h sid hin hsid obj hobj w hw with hrunning | ⟨other, hrunning, hout⟩
    · exact ⟨w, hrunning, hne⟩
    · exact ⟨other, hrunning, fun heq => hout (heq ▸ hin)⟩
  exact List.ne_nil_of_mem ((List.mem_erase_of_ne hne').2 hother)

/-- When one of the sessions has been terminated, the others still leave one behind. -/
theorem NotLast.terminated {s : NodeManager} {sid : SessionId} {obj : Session} {rest : List SessionId}
    {order : NodeManager → List NodeId} (h : NotLast s (sid :: rest)) (hbook : Book s) (hobj : s.objects sid = some obj)
    (hnotin : sid ∉ rest) : NotLast (s.replied order sid obj obj.session.terminate 0) rest := by
  have hset : ∀ x, x ≠ sid →
      (s.setObject sid { obj with session := obj.session.terminate.session }).objects x = s.objects x := by
    intro x hne
    simp [NodeManager.setObject, hne]
  intro x hx hxs o ho w hw
  have hne : x ≠ sid := fun heq => hnotin (heq ▸ hx)
  by_cases hsid : sid ∈ s.sessions
  · have hc : Completed _ sid _ .terminated (s.replied order sid obj obj.session.terminate 0) :=
      Tended.replied_completed hbook hobj hsid Book.terminate_ok rfl order 0
    generalize s.replied order sid obj obj.session.terminate 0 = s₁ at hc hxs ho hw ⊢
    rw [hc.sessions] at hxs
    rw [hc.objects, hset x hne] at ho
    -- a session that was to complete the task and is terminated gives it up
    have hw' : w ≠ sid ∨ o.task ≠ obj.task := by
      by_contra hboth
      simp only [ne_eq, not_or, not_not] at hboth
      obtain ⟨rfl, htask⟩ := hboth
      rw [htask, hc.tasks, Function.update_self] at hw
      simp [isServerFailure, Task.dethrone] at hw
    have hkeep : ∀ other ∈ (s.tasks o.task).sessionsRunning, other ≠ sid ∨ o.task ≠ obj.task →
        other ∈ (s₁.tasks o.task).sessionsRunning := by
      intro other hrunning hother
      rw [hc.sessionsRunning]
      split
      · rename_i htask
        exact (List.mem_erase_of_ne (hother.resolve_right fun hne => hne htask)).2 hrunning
      · exact hrunning
    rcases h x (List.mem_cons_of_mem _ hx) (List.mem_of_mem_erase hxs) o ho w (hc.completedBy_old hw) with
      hrunning | ⟨other, hrunning, hout⟩
    · exact .inl (hkeep w hrunning hw')
    · simp only [List.mem_cons, not_or] at hout
      exact .inr ⟨other, hkeep other hrunning (.inl hout.1), hout.2⟩
  · have hgone : sid ∉ (s.setObject sid { obj with session := obj.session.terminate.session }).sessions := hsid
    have heq : s.replied order sid obj obj.session.terminate 0 =
        (s.setObject sid { obj with session := obj.session.terminate.session }).raise .sessionGone :=
      sessionCompleted_gone hgone order 0
    rw [heq] at hxs ho hw ⊢
    have ho' : s.objects x = some o := (hset x hne).symm.trans ho
    rcases h x (List.mem_cons_of_mem _ hx) hxs o ho' w hw with hrunning | ⟨other, hrunning, hout⟩
    · exact .inl hrunning
    · simp only [List.mem_cons, not_or] at hout
      exact .inr ⟨other, hrunning, hout.2⟩

namespace Recording
variable {s s' : NodeManager} {t : TaskId} {sid : SessionId} {obj : Session} {result : SessionResult}
  {gone : List SessionId} {reply : ServerSession.Reply} {order : NodeManager → List NodeId} {elapsed : Rat}

theorem of_same (h : Recording s) (hbook : Book s') (hcommands : ∀ c, SameRecord (s.commands c) (s'.commands c))
    (htasks : ∀ t, (s'.tasks t).isCompleted = (s.tasks t).isCompleted ∧
      (s'.tasks t).sessionsRunning = (s.tasks t).sessionsRunning)
    (hquiet : .sessionsRunning ∈ s'.failures → .sessionsRunning ∈ s.failures) : Recording s' := by
  constructor
  case book => exact hbook
  case known =>
    intro c t ht
    rw [(hcommands c).done] at ht
    rw [(hcommands c).tasks]
    exact h.known c t ht
  case counted =>
    intro t ht
    rw [(hcommands _).done] at ht
    rw [(htasks t).1, (htasks t).2]
    exact h.counted t ht
  case counts =>
    intro t hcompleted hnone
    rw [(htasks t).1] at hcompleted
    rw [(htasks t).2] at hnone
    rw [(hcommands _).done]
    exact h.counts t hcompleted hnone
  case inserted =>
    intro c
    rw [(hcommands c).inserted, (hcommands c).tasks, (hcommands c).done]
    exact h.inserted c
  case quiet => exact fun hmem => h.quiet (hquiet hmem)

/-- A task with a session has not been counted. -/
theorem not_counted (h : Recording s) (hrunning : sid ∈ (s.tasks t).sessionsRunning) :
    t ∉ (s.commands t.command).tasksWithSessionsDone := by
  intro ht
  rw [(h.counted t ht).2] at hrunning
  cases hrunning

/-- The command of a task finds no session running when it counts its last one. -/
theorem recordsSafely (h : Recording s) (sid : SessionId) (t : TaskId) : RecordsSafely s sid t := by
  intro _ hall t' ht' hne
  have hcommand : t'.command = t.command := h.book.own _ t' ht'
  refine (h.counted t' ?_).2
  rw [hcommand]
  exact (hall t' ht').resolve_left hne

/-- A session ends that does not fail. -/
theorem ended (h : Recording s) (hcompletes : Completes s sid obj result) (hfail : isServerFailure result = false)
    (hbook : Book (s.sessionCompleted order sid obj elapsed)) : Recording (s.sessionCompleted order sid obj elapsed) := by
  have hc := sessionCompleted_spec order elapsed hcompletes
  obtain ⟨hfailures, hrecord⟩ := sessionCompleted_record order elapsed hcompletes hfail (h.recordsSafely sid obj.task)
  generalize s.sessionCompleted order sid obj elapsed = s' at hc hbook hfailures hrecord
  have hnew := h.not_counted hcompletes.running
  have htask : s'.tasks obj.task = (s.tasks obj.task).finish sid := by
    rw [hc.tasks, if_neg (by simp [hfail]), Function.update_self]
  have hother : ∀ t, t ≠ obj.task → s'.tasks t = s.tasks t := by
    intro t ht
    rw [hc.tasks, Function.update_of_ne ht]
  have hcompleted : (s'.tasks obj.task).isCompleted = (s.tasks obj.task).isCompleted := by
    rw [htask]
    rfl
  have hrunning : (s'.tasks obj.task).sessionsRunning = (s.tasks obj.task).sessionsRunning.erase sid := by
    rw [htask]
    rfl
  have hdone : ∀ c, (s'.commands c).tasks = (s.commands c).tasks ∧ ∀ t, t ∈ (s'.commands c).tasksWithSessionsDone ↔
      t ∈ (s.commands c).tasksWithSessionsDone ∨ t = obj.task ∧ c = obj.task.command ∧
        (s.tasks obj.task).sessionsRunning.erase sid = [] ∧ (s.tasks obj.task).isCompleted = true := by
    intro c
    have hc' := hrecord c
    split at hc'
    · rename_i hlast
      refine ⟨hc'.tasks.trans (Command.close_results _ _).tasks, fun t => ?_⟩
      rw [hc'.done, Command.close_done, Command.mem_sessionsDone]
      simp [hlast]
    · rename_i hlast
      refine ⟨hc'.tasks, fun t => ?_⟩
      rw [hc'.done]
      constructor
      · exact .inl
      · rintro (ht | ⟨-, hlast'⟩)
        · exact ht
        · exact absurd hlast' hlast
  constructor
  case book => exact hbook
  case known =>
    intro c t ht
    rw [(hdone c).1]
    rcases ((hdone c).2 t).1 ht with ht | ⟨rfl, rfl, -⟩
    · exact h.known c t ht
    · exact hcompletes.known
  case counted =>
    intro t ht
    rcases ((hdone _).2 t).1 ht with ht | ⟨rfl, -, hnone, hdone'⟩
    · have hne : t ≠ obj.task := by
        rintro rfl
        exact hnew ht
      rw [hother t hne]
      exact h.counted t ht
    · rw [hcompleted, hrunning]
      exact ⟨hdone', hnone⟩
  case counts =>
    intro t hcomp hnone
    rw [(hdone _).2]
    by_cases ht : t = obj.task
    · subst ht
      rw [hcompleted] at hcomp
      rw [hrunning] at hnone
      exact .inr ⟨rfl, rfl, hnone, hcomp⟩
    · rw [hother t ht] at hcomp hnone
      exact .inl (h.counts t hcomp hnone)
  case inserted =>
    intro c
    have hc' := hrecord c
    have hbefore := h.inserted c
    simp only [(hdone c).1, (hdone c).2]
    by_cases hlast : c = obj.task.command ∧ (s.tasks obj.task).sessionsRunning.erase sid = [] ∧
        (s.tasks obj.task).isCompleted = true
    · rw [if_pos hlast] at hc'
      obtain ⟨rfl, hnone, hcomp⟩ := hlast
      -- the command has a task that was not counted, so that it was not recorded
      rw [if_neg fun hall => hnew (hall.2 _ hcompletes.known)] at hbefore
      rw [hc'.inserted, Command.close_inserted (h.known _) hcompletes.known, hbefore]
      have hne : (s.commands obj.task.command).tasks ≠ [] := List.ne_nil_of_mem hcompletes.known
      simp [hne, hnone, hcomp]
    · rw [if_neg hlast] at hc'
      rw [hc'.inserted, hbefore]
      have hiff : ∀ t, (t ∈ (s.commands c).tasksWithSessionsDone ∨ t = obj.task ∧ c = obj.task.command ∧
          (s.tasks obj.task).sessionsRunning.erase sid = [] ∧ (s.tasks obj.task).isCompleted = true) ↔
          t ∈ (s.commands c).tasksWithSessionsDone := by
        intro t
        constructor
        · rintro (ht | ⟨-, hlast'⟩)
          · exact ht
          · exact absurd hlast' hlast
        · exact .inl
      simp only [hiff]
  case quiet =>
    rw [hfailures]
    exact h.quiet

/-- A session fails, and is not the last of a completed task. -/
theorem failed (h : Recording s) (hcompletes : Completes s sid obj result) (hfail : isServerFailure result = true)
    (hbook : Book (s.sessionCompleted order sid obj elapsed))
    (hlast : ∀ w, (s.tasks obj.task).completedBySession = some w → w ≠ sid →
      (s.tasks obj.task).sessionsRunning.erase sid ≠ []) :
    Recording (s.sessionCompleted order sid obj elapsed) := by
  have hc := sessionCompleted_spec order elapsed hcompletes
  generalize s.sessionCompleted order sid obj elapsed = s' at hc hbook
  have hnew := h.not_counted hcompletes.running
  have hcommand := hc.command
  rw [if_pos hfail] at hcommand
  obtain ⟨hcommands, -, hfailures⟩ := hcommand
  have hother : ∀ t, t ≠ obj.task → s'.tasks t = s.tasks t := by
    intro t ht
    rw [hc.tasks, Function.update_of_ne ht]
  constructor
  case book => exact hbook
  case known =>
    rw [hcommands]
    exact h.known
  case counted =>
    intro t ht
    rw [hcommands] at ht
    have hne : t ≠ obj.task := by
      rintro rfl
      exact hnew ht
    rw [hother t hne]
    exact h.counted t ht
  case counts =>
    intro t hcomp hnone
    rw [hcommands]
    by_cases ht : t = obj.task
    · subst ht
      -- the session was not the one to complete the task, which is open otherwise
      rw [hc.tasks, if_pos hfail, Function.update_self] at hcomp hnone
      obtain ⟨w, hw⟩ := Option.isSome_iff_exists.1 hcomp
      have hdethroned : (if (s.tasks obj.task).completedBySession = some sid then none
          else (s.tasks obj.task).completedBySession) = some w := hw
      split at hdethroned
      · cases hdethroned
      · rename_i hne
        exact absurd hnone (hlast w hdethroned fun heq => hne (heq ▸ hdethroned))
    · rw [hother t ht] at hcomp hnone
      exact h.counts t hcomp hnone
  case inserted =>
    rw [hcommands]
    exact h.inserted
  case quiet =>
    rcases hfailures with heq | ⟨-, heq⟩
    · rw [heq]
      exact h.quiet
    · rw [heq]
      simp [h.quiet]

/-- A call of a session: it may fail only if it leaves another session behind. -/
theorem replied (h : Recording s) (hobj : s.objects sid = some obj) (hr : Book.ReplyOk s sid obj reply)
    (hlast : sid ∈ s.sessions → ∀ result, reply.action = some (.complete result) → isServerFailure result = true →
      ∀ w, (s.tasks obj.task).completedBySession = some w → w ≠ sid →
        (s.tasks obj.task).sessionsRunning.erase sid ≠ []) :
    Recording (s.replied order sid obj reply elapsed) := by
  have hset := h.book.setObject hobj hr
  have hsame : Recording (s.setObject sid { obj with session := reply.session }) :=
    h.of_same hset (fun c => .refl _) (fun t => ⟨rfl, rfl⟩) id
  have hself : (s.setObject sid { obj with session := reply.session }).objects sid =
      some { obj with session := reply.session } := by simp [NodeManager.setObject]
  have hbook : Book (s.replied order sid obj reply elapsed) := h.book.replied hobj hr
  unfold NodeManager.replied at hbook ⊢
  cases haction : reply.action with
  | none => exact hsame
  | some action =>
    rw [haction] at hbook
    cases action with
    | compressPch => exact hsame
    | gather => exact hsame.of_same hbook (fun c => .refl _) (fun t => ⟨rfl, rfl⟩) id
    | raise =>
      refine hsame.of_same hbook (fun c => .refl _) (fun t => ⟨rfl, rfl⟩) fun hmem => ?_
      simpa [NodeManager.raise] using hmem
    | complete result =>
      dsimp only at hbook ⊢
      by_cases hsid : sid ∈ s.sessions
      · obtain ⟨hresult, hwin⟩ := hr.ends result haction
        have hcompletes := hset.toRecords.completes hsid hself hresult (hwin hsid)
        by_cases hfail : isServerFailure result = true
        · exact hsame.failed hcompletes hfail hbook (hlast hsid result haction hfail)
        · exact hsame.ended hcompletes (by simpa using hfail) hbook
      · have hgone : sid ∉ (s.setObject sid { obj with session := reply.session }).sessions := hsid
        rw [sessionCompleted_gone hgone] at hbook ⊢
        refine hsame.of_same hbook (fun c => .refl _) (fun t => ⟨rfl, rfl⟩) fun hmem => ?_
        simpa [NodeManager.raise] using hmem

/-- A command that has just been made has counted nothing. -/
theorem createTasks (h : Recording s) {c : CommandId} {tasks : List TaskId} {shouldInvokeLinker : Bool}
    {order : DictOrder} {fresh : TaskId → Task} (hbook : Book { s.setCommand c { tasks, shouldInvokeLinker, order } with
      tasks := fun t => if t.command = c then fresh t else s.tasks t })
    (hfresh : ∀ t, (fresh t).isCompleted = false) :
    Recording { s.setCommand c { tasks, shouldInvokeLinker, order } with
      tasks := fun t => if t.command = c then fresh t else s.tasks t } := by
  have hother : ∀ c', c' ≠ c → (s.setCommand c { tasks, shouldInvokeLinker, order }).commands c' = s.commands c' := by
    intro c' hc'
    simp [NodeManager.setCommand, hc']
  have hself : (s.setCommand c { tasks, shouldInvokeLinker, order }).commands c =
    { tasks, shouldInvokeLinker, order } := by
    simp [NodeManager.setCommand]
  constructor
  case book => exact hbook
  case known =>
    intro c' t ht
    dsimp only at ht ⊢
    by_cases hc : c' = c
    · rw [hc, hself] at ht
      cases ht
    · rw [hother c' hc] at ht ⊢
      exact h.known c' t ht
  case counted =>
    intro t ht
    dsimp only at ht ⊢
    by_cases hc : t.command = c
    · rw [hc, hself] at ht
      cases ht
    · rw [hother _ hc] at ht
      rw [if_neg hc]
      exact h.counted t ht
  case counts =>
    intro t hcomp hnone
    dsimp only at hcomp hnone ⊢
    by_cases hc : t.command = c
    · rw [if_pos hc, hfresh] at hcomp
      cases hcomp
    · rw [if_neg hc] at hcomp hnone
      rw [hother _ hc]
      exact h.counts t hcomp hnone
  case inserted =>
    intro c'
    dsimp only
    by_cases hc : c' = c
    · subst hc
      rw [hself, if_neg]
      rintro ⟨hne, hall⟩
      obtain ⟨t, ht⟩ := List.exists_mem_of_ne_nil _ hne
      cases hall t ht
    · rw [hother c' hc]
      exact h.inserted c'
  case quiet => exact h.quiet

/-- Sessions are terminated one after the other, none as the last one of a completed task. -/
theorem terminateSessions (h : Recording s) (hnodup : gone.Nodup) (hcond : NotLast s gone) :
    Recording (NodeManager.terminateSessions order s gone) := by
  induction gone generalizing s with
  | nil => exact h
  | cons sid rest ih =>
    obtain ⟨hnotin, hrest⟩ := List.nodup_cons.1 hnodup
    unfold NodeManager.terminateSessions
    cases hobj : s.objects sid with
    | none => exact h
    | some obj =>
      dsimp only
      have hnext : Recording (s.replied order sid obj obj.session.terminate 0) :=
        h.replied hobj Book.terminate_ok fun hsid _ _ _ _ hw hne =>
          hcond.erase_ne_nil List.mem_cons_self hsid hobj hw hne
      split
      · exact ih hnext hrest (hcond.terminated h.book hobj hnotin)
      · exact hnext

/-- Nothing of what is recorded depends on the queue. -/
theorem of_rearranged (h : Recording s) (hr : Rearranged s s') (hbook : Book s') : Recording s' := by
  refine h.of_same hbook (fun c => ?_) (fun t => ?_) fun hmem => (hr.raised _ hmem).resolve_right (by simp)
  · rw [hr.same]
    exact .refl _
  · rw [hr.same]
    exact ⟨rfl, rfl⟩

theorem updateNodeInfo (h : Recording s) {live : Bool} {nodes : List NodeId} (hnodup : gone.Nodup)
    (hcond : NotLast s gone) : Recording (s.updateNodeInfo live order nodes gone) := by
  have hpolled : Recording { s with nodeInfo := nodes, polled := true } :=
    h.of_same { h.book with } (fun c => .refl _) (fun t => ⟨rfl, rfl⟩) id
  have hgone : Recording (NodeManager.terminateSessions order { s with nodeInfo := nodes, polled := true } gone) :=
    hpolled.terminateSessions hnodup hcond
  unfold NodeManager.updateNodeInfo
  dsimp only
  split
  · exact hgone.of_rearranged (.findWorkAll _ _ _) (hgone.book.findWorkAll _)
  · exact hgone

/-- A session is made for a task that has not been counted. -/
theorem opened {node : NodeId} (h : Recording s) (hbook : Book s') (hnew : t ∉ (s.commands t.command).tasksWithSessionsDone)
    (ho : Opened s t node s') : Recording s' := by
  have hcompleted : ∀ t', (s'.tasks t').isCompleted = (s.tasks t').isCompleted := by
    intro t'
    rw [ho.task]
    rfl
  have hother : ∀ t', t' ≠ t → (s'.tasks t').sessionsRunning = (s.tasks t').sessionsRunning := by
    intro t' ht'
    rw [ho.task]
    simp [ht']
  constructor
  case book => exact hbook
  case known =>
    rw [ho.commands]
    exact h.known
  case counted =>
    intro t' ht'
    rw [ho.commands] at ht'
    have hne : t' ≠ t := by
      rintro rfl
      exact hnew ht'
    rw [hcompleted, hother t' hne]
    exact h.counted t' ht'
  case counts =>
    intro t' hcomp hnone
    rw [ho.commands]
    rw [hcompleted] at hcomp
    by_cases ht' : t' = t
    · subst ht'
      rw [ho.task] at hnone
      simp at hnone
    · rw [hother t' ht'] at hnone
      exact h.counts t' hcomp hnone
  case inserted =>
    rw [ho.commands]
    exact h.inserted
  case quiet =>
    rw [ho.failures]
    exact h.quiet

theorem createSession {node : NodeId} (h : Recording s) (hbook : Book (s.createSession t node))
    (hnew : t ∉ (s.commands t.command).tasksWithSessionsDone) : Recording (s.createSession t node) := by
  rcases createSession_spec s t node with ⟨failure, heq, hwhy⟩ | ho
  · rw [heq] at hbook ⊢
    refine h.of_same hbook (fun c => .refl _) (fun t => ⟨rfl, rfl⟩) fun hmem => ?_
    rcases List.mem_append.1 hmem with hmem | hmem
    · exact hmem
    · obtain rfl := List.mem_singleton.1 hmem
      rcases hwhy with ⟨hne, -⟩ | ⟨hne, -⟩
      · cases hne
      · cases hne
  · exact h.opened hbook hnew ho

/-- A session that is to complete its task is running, so that the task is not counted yet. -/
theorem registration (h : Recording s) (hsid : sid ∈ s.sessions) (hobj : s.objects sid = some obj) (msg : FromServer) :
    Recording (s.registration sid obj msg).1 := by
  obtain ⟨hbook, -, -, -⟩ := h.book.registration hobj msg
  have hrunning := h.book.running_of_object hsid hobj
  have hnew := h.not_counted hrunning
  unfold NodeManager.registration at hbook ⊢
  split at hbook
  · unfold NodeManager.registerCompletion at hbook ⊢
    dsimp only at hbook ⊢
    split at hbook
    · rename_i hcompleted
      rw [if_pos hcompleted]
      exact h
    · rename_i hcompleted
      rw [if_neg hcompleted]
      have hother : ∀ t, t ≠ obj.task → Function.update s.tasks obj.task
          { s.tasks obj.task with completedBySession := some sid } t = s.tasks t :=
        fun t ht => Function.update_of_ne ht ..
      refine ⟨hbook, h.known, fun t ht => ?_, fun t hcomp hnone => ?_, h.inserted, h.quiet⟩
      · have hne : t ≠ obj.task := by
          rintro rfl
          exact hnew ht
        dsimp only
        rw [hother t hne]
        exact h.counted t ht
      · dsimp only at hcomp hnone
        by_cases ht : t = obj.task
        · subst ht
          rw [Function.update_self] at hnone
          dsimp only at hnone
          rw [hnone] at hrunning
          cases hrunning
        · rw [hother t ht] at hcomp hnone
          exact h.counts t hcomp hnone
  · exact h

/-- A session that ends with a failure ends in one of three ways. -/
theorem message (h : Recording s) (hsid : sid ∈ s.sessions) (hobj : s.objects sid = some obj) {msg : FromServer}
    (hcond : NotLast s (endsFailed s (.message sid msg elapsed))) :
    Recording (s.gotDataFromServer order sid obj msg elapsed) := by
  obtain ⟨-, hself, -, -⟩ := h.book.registration hobj msg
  refine (h.registration hsid hobj msg).replied hself (h.book.gotDataFromServer_ok hobj msg) ?_
  intro _ result haction hfail w hw hne
  have hok : ServerSession.ActionOk obj.session _ _ (obj.session.gotDataFromServer (s.tasks obj.task).files
      (s.registration sid obj msg).2 msg) := ServerSession.gotDataFromServer_ok
  obtain ⟨hfails, hsame⟩ : endsFailed s (.message sid msg elapsed) = [sid] ∧ (s.registration sid obj msg).1 = s := by
    rcases (hok.ends result haction).2.2 with ⟨-, hstate, traceback, rfl⟩ | ⟨-, rfl⟩ | ⟨rfl, -, -⟩ |
      ⟨-, r, o, e, -, ⟨rfl, -⟩ | ⟨rfl, -⟩⟩
    · simp [endsFailed, hobj, hstate, NodeManager.registration]
    · simp [endsFailed, NodeManager.registration]
    · cases hfail
    · cases hfail
    · cases hfail
  rw [hsame] at hw ⊢
  exact hcond.erase_ne_nil (by simp [hfails]) hsid hobj hw hne

end Recording

/-! ## The sessions that have not ended -/

namespace Going
variable {s s' : NodeManager} {t : TaskId} {sid : SessionId} {obj : Session} {gone : List SessionId}
  {reply : ServerSession.Reply} {order : NodeManager → List NodeId} {elapsed : Rat}

theorem of_same (h : Going s) (hsessions : s'.sessions = s.sessions) (hobjects : s'.objects = s.objects) : Going s' := by
  unfold Going
  rw [hsessions, hobjects]
  exact h

theorem of_rearranged (h : Going s) (hr : Rearranged s s') : Going s' :=
  h.of_same (by rw [hr.same]) (by rw [hr.same])

theorem completeSession (h : Going s) (hsid : sid ∈ s.sessions) (hobj : s.objects sid = some obj) (ok : Bool) :
    obj.session.completeSession ok = obj.session.complete (if ok then .success else .failure) [] := by
  unfold ServerSession.completeSession
  rw [if_neg (h sid hsid obj hobj)]
  cases ok with
  | true => rfl
  | false => rfl

/-- A session that is over has left. -/
theorem replied (h : Going s) (hbook : Book s) (hobj : s.objects sid = some obj) (hr : Book.ReplyOk s sid obj reply)
    (hgo : sid ∈ s.sessions → reply.session.state = .finish → ∃ result, reply.action = some (.complete result)) :
    Going (s.replied order sid obj reply elapsed) := by
  intro other hother o ho
  by_cases hends : sid ∈ s.sessions ∧ ∃ result, reply.action = some (.complete result)
  · obtain ⟨hsid, result, haction⟩ := hends
    have hc := Tended.replied_completed hbook hobj hsid hr haction order elapsed
    generalize s.replied order sid obj reply elapsed = s' at hc hother ho
    rw [hc.sessions] at hother
    have hne : other ≠ sid := by
      rintro rfl
      exact hbook.nodup.not_mem_erase hother
    rw [hc.objects] at ho
    simp only [NodeManager.setObject, Function.update_of_ne hne] at ho
    exact h other (List.mem_of_mem_erase hother) o ho
  · obtain ⟨hobjects, hsessions⟩ : (s.replied order sid obj reply elapsed).objects =
          (s.setObject sid { obj with session := reply.session }).objects ∧
        (s.replied order sid obj reply elapsed).sessions = s.sessions := by
      unfold NodeManager.replied
      cases haction : reply.action with
      | none => exact ⟨rfl, rfl⟩
      | some action =>
        cases action with
        | complete result =>
          have hgone : sid ∉ (s.setObject sid { obj with session := reply.session }).sessions :=
            fun hsid => hends ⟨hsid, result, haction⟩
          dsimp only
          rw [sessionCompleted_gone hgone]
          exact ⟨rfl, rfl⟩
        | compressPch => exact ⟨rfl, rfl⟩
        | gather => exact ⟨rfl, rfl⟩
        | raise => exact ⟨rfl, rfl⟩
    rw [hsessions] at hother
    rw [hobjects] at ho
    by_cases heq : other = sid
    · subst heq
      simp only [NodeManager.setObject, Function.update_self, Option.some.injEq] at ho
      subst ho
      exact fun hfinish => hends ⟨hother, hgo hother hfinish⟩
    · simp only [NodeManager.setObject, Function.update_of_ne heq] at ho
      exact h other hother o ho

theorem terminateSessions (h : Going s) (hbook : Book s) : Going (NodeManager.terminateSessions order s gone) := by
  induction gone generalizing s with
  | nil => exact h
  | cons sid rest ih =>
    unfold NodeManager.terminateSessions
    cases hobj : s.objects sid with
    | none => exact h
    | some obj =>
      have hnext : Going (s.replied order sid obj obj.session.terminate 0) :=
        h.replied hbook hobj Book.terminate_ok fun _ _ => ⟨_, rfl⟩
      dsimp only
      split
      · exact ih hnext (hbook.replied hobj Book.terminate_ok)
      · exact hnext

theorem updateNodeInfo (h : Going s) (hbook : Book s) {live : Bool} {nodes : List NodeId} :
    Going (s.updateNodeInfo live order nodes gone) := by
  have hpolled : Going { s with nodeInfo := nodes, polled := true } := h
  have hgone : Going (NodeManager.terminateSessions order { s with nodeInfo := nodes, polled := true } gone) :=
    hpolled.terminateSessions { hbook with }
  unfold NodeManager.updateNodeInfo
  dsimp only
  split
  · exact hgone.of_rearranged (.findWorkAll _ _ _)
  · exact hgone

theorem opened {node : NodeId} (h : Going s) (ho : Opened s t node s') : Going s' := by
  intro sid hsid obj hobj
  rcases ho.object_cases hobj with ⟨hne, hobj'⟩ | ⟨rfl, hnew⟩
  · exact h sid (ho.session_old hsid hne) obj hobj'
  · simp [hnew.state]

theorem createSession {node : NodeId} (h : Going s) : Going (s.createSession t node) := by
  rcases createSession_spec s t node with ⟨failure, heq, -⟩ | ho
  · rw [heq]
    exact h
  · exact h.opened ho

theorem registration (h : Going s) (msg : FromServer) : Going (s.registration sid obj msg).1 := by
  unfold NodeManager.registration
  split
  · unfold NodeManager.registerCompletion
    dsimp only
    split
    · exact h
    · intro other hother o ho
      dsimp only at ho
      split at ho
      · obtain ⟨o', ho', rfl⟩ := Option.map_eq_some_iff.1 ho
        exact h other hother o' ho'
      · exact h other hother o ho
  · exact h

theorem message (h : Going s) (hbook : Book s) (hsid : sid ∈ s.sessions) (hobj : s.objects sid = some obj)
    (msg : FromServer) : Going (s.gotDataFromServer order sid obj msg elapsed) := by
  obtain ⟨hbook', hself, -, -⟩ := hbook.registration hobj msg
  refine (h.registration msg).replied hbook' hself (hbook.gotDataFromServer_ok hobj msg) fun _ hfinish => ?_
  have hok : ServerSession.ActionOk obj.session _ _ (obj.session.gotDataFromServer (s.tasks obj.task).files
      (s.registration sid obj msg).2 msg) := ServerSession.gotDataFromServer_ok
  exact (hok.finishes hfinish).resolve_left (h sid hsid obj hobj)

end Going

/-! ## Runs -/

theorem recording_init (slots : NodeId → Option Nat) (orders : CommandId → DictOrder) :
    Recording (.initial slots orders) := by
  constructor
  case book => exact book_init slots orders
  all_goals simp [Task.isCompleted]

/-- Every callback that meets the condition keeps the record. -/
theorem step_recording {live : Bool} {order : NodeManager → List NodeId} {s s' : NodeManager} {e : Event}
    (h : Recording s) (hgoing : Going s) (hcond : ClosesOnce s e) (hs : step live order s e = some s') :
    Recording s' ∧ Going s' := by
  have hbook : Book s' := step_book h.book hs
  have hscanned : ∀ {t : TaskId} {scan : Scan} {s₁ : NodeManager}, s.scanned t scan = some s₁ →
      Recording s₁ ∧ Going s₁ := by
    intro t scan s₁ hs₁
    obtain ⟨hbook₁, rfl, -, -⟩ := h.book.scanned hs₁
    refine ⟨h.of_same hbook₁ (fun c => .refl _) (fun t' => ?_) id, hgoing⟩
    by_cases ht : t' = t
    · subst ht
      simp [NodeManager.setTask, Task.isCompleted]
    · simp [NodeManager.setTask, ht]
  cases e with
  | createTasks c files shouldInvokeLinker =>
    obtain ⟨hguard, rfl⟩ := steps_of_step hs
    exact ⟨h.createTasks hbook fun t => rfl, hgoing⟩
  | preprocessed t =>
    obtain ⟨s₁, hs₁, rfl⟩ := steps_of_step hs
    obtain ⟨hrecording, hgoing₁⟩ := hscanned hs₁
    have hscheduled := Rearranged.scheduleTask s₁ t false
    exact ⟨hrecording.of_rearranged hscheduled hbook, hgoing₁.of_rearranged hscheduled⟩
  | preprocessingFailed t stderr =>
    obtain ⟨s₁, hs₁, rfl⟩ := steps_of_step hs
    obtain ⟨hrecording, hgoing₁⟩ := hscanned hs₁
    obtain ⟨-, heq, hmem, hnone⟩ := h.book.scanned hs₁
    have hunrep := h.book.unreported hnone
    have hrecord := taskCompleted_record s₁ t { retcode := UInt32.ofInt (-1), stderr } none
    rw [taskCompleted_eq (by rw [heq]; exact hmem) (by rw [heq]; exact hunrep)] at hbook hrecord ⊢
    exact ⟨hrecording.of_same hbook hrecord (fun t' => ⟨rfl, rfl⟩) id, hgoing₁⟩
  | cannotDistribute t => exact hscanned hs
  | connected i =>
    obtain ⟨t, node, hi, rfl⟩ := steps_of_step hs
    have hnew := hcond.1 t (by simp [getsSession, hi])
    have hfewer : Recording { s with connecting := s.connecting.eraseIdx i } :=
      h.of_same { h.book.toRecords.of_fewer (List.eraseIdx_subset (l := s.connecting) (k := i)), h.book with }
        (fun c => .refl _) (fun t => ⟨rfl, rfl⟩) id
    have hgoing' : Going { s with connecting := s.connecting.eraseIdx i } := hgoing
    exact ⟨hfewer.createSession hbook hnew, hgoing'.createSession⟩
  | connectionFailed i =>
    obtain ⟨t, node, hi, rfl⟩ := steps_of_step hs
    refine ⟨h.of_same hbook (fun c => .refl _) (fun t => ⟨rfl, rfl⟩) fun hmem => ?_, hgoing⟩
    simpa [NodeManager.raise] using hmem
  | message sid msg elapsed =>
    rcases steps_of_step hs with ⟨hsid, obj, hobj, rfl⟩ | ⟨-, rfl⟩
    · exact ⟨h.message hsid hobj hcond.2, hgoing.message h.book hsid hobj msg⟩
    · exact ⟨h, hgoing⟩
  | decompressed i ok elapsed =>
    obtain ⟨sid, obj, hi, hobj, rfl⟩ := steps_of_step hs
    have hbook' : Book { s with decompressing := s.decompressing.eraseIdx i } :=
      { h.book with gathering := fun sid hsid => h.book.gathering sid (List.eraseIdx_subset hsid) }
    have hfewer : Recording { s with decompressing := s.decompressing.eraseIdx i } :=
      h.of_same hbook' (fun c => .refl _) (fun t => ⟨rfl, rfl⟩) id
    have hgoing' : Going { s with decompressing := s.decompressing.eraseIdx i } := hgoing
    have hreply := hbook'.completeSession_ok hobj ok (h.book.gathering_state (List.mem_of_getElem? hi) hobj)
    refine ⟨hfewer.replied hobj hreply fun hsid result haction hfail w hw hne => ?_,
      hgoing'.replied hbook' hobj hreply fun hsid _ => ?_⟩
    · rw [hgoing.completeSession hsid hobj] at haction
      cases haction
      cases ok with
      | true => cases hfail
      | false => exact hcond.2.erase_ne_nil (by simp [endsFailed, hi]) hsid hobj hw hne
    · rw [hgoing.completeSession hsid hobj]
      exact ⟨_, rfl⟩
  | updateNodeInfo nodes gone =>
    obtain ⟨hguard, rfl⟩ := steps_of_step hs
    have hnodup : gone.Nodup := hguard.2.nodup_iff.2 (h.book.nodup.filter _)
    exact ⟨h.updateNodeInfo hnodup hcond.2, hgoing.updateNodeInfo h.book⟩

/-- No command is recorded twice, no session of a task is running when its command is, and a command all of whose
tasks are completed, without sessions and without pending connections, is recorded. -/
structure RecordedOnce (s : NodeManager) : Prop where
  atMostOnce : ∀ c, (s.commands c).inserted ≤ 1
  nothingRunning : .sessionsRunning ∉ s.failures
  recorded : ∀ c, (s.commands c).tasks ≠ [] →
    (∀ t ∈ (s.commands c).tasks, (s.tasks t).isCompleted = true ∧ (s.tasks t).sessionsRunning = [] ∧
      ∀ node, (t, node) ∉ s.connecting) → (s.commands c).inserted = 1

theorem Recording.recordedOnce {s : NodeManager} (h : Recording s) : RecordedOnce s where
  atMostOnce c := by
    rw [h.inserted c]
    split
    · exact le_rfl
    · exact Nat.zero_le 1
  nothingRunning := h.quiet
  recorded c hne hall := by
    rw [h.inserted c, if_pos]
    refine ⟨hne, fun t ht => ?_⟩
    obtain ⟨hcompleted, hnone, -⟩ := hall t ht
    have hcounted := h.counts t hcompleted hnone
    rw [h.book.own c t ht] at hcounted
    exact hcounted

/-- **Each command is recorded once**, in every run in which no connection is made for a task that has been counted,
and no session that fails is the last one of a task that another session has completed. -/
theorem commands_recorded_once (live : Bool) (order : NodeManager → List NodeId) (slots : NodeId → Option Nat)
    (orders : CommandId → DictOrder) (events : List Event) (s : NodeManager)
    (hrun : run (step live order) (.initial slots orders) events = some s)
    (hmeets : Meets (step live order) ClosesOnce (.initial slots orders) events) :
    RecordedOnce s := by
  have hstep : ∀ s e s', Recording s ∧ Going s → ClosesOnce s e → step live order s e = some s' →
      Recording s' ∧ Going s' := fun s e s' h hcond hs => step_recording h.1 h.2 hcond hs
  have hgoing : Going (.initial slots orders) := fun sid hsid => by cases hsid
  exact (run_inv_of_meets (step live order) hstep events _ s ⟨recording_init slots orders, hgoing⟩ hmeets
    hrun).1.recordedOnce

/-- Two nodes have compiled the other sources of a command, and the last one was stolen from session 4. -/
def stolenLast : List Event :=
  [.createTasks 0 [⟨0, 1⟩, ⟨0, 1⟩, ⟨0, 1⟩, ⟨0, 1⟩] false, .updateNodeInfo [1, 2] [],
    .preprocessed ⟨0, 0⟩, .connected 0, .preprocessed ⟨0, 1⟩, .connected 0,
    .message 1 (.missingFiles false false) 0, .message 1 (.serverDone 1 [] []) 4,
    .message 2 (.missingFiles false false) 0, .message 2 (.serverDone 1 [] []) 2,
    .preprocessed ⟨0, 2⟩, .connected 0, .preprocessed ⟨0, 3⟩, .connected 0,
    .message 3 (.missingFiles false false) 0, .message 3 (.serverDone 1 [] []) 2,
    .message 4 (.missingFiles false false) 0]

/-- Session 4 completes the task, and session 5 obeys when it is cancelled. -/
theorem commands_recorded_once_stolen :
    ∃ s, run (step true fun _ => [1, 2]) (.initial fun _ => some 1) (stolenLast ++
        [.connected 0, .message 5 (.missingFiles false false) 0, .message 4 (.serverDone 1 [] []) 0,
          .message 5 .sessionCancelled 0]) = some s ∧
      (s.commands 0).inserted = 1 ∧ RecordedOnce s := by
  have hmeets : Meets (step true fun _ => [1, 2]) ClosesOnce (.initial fun _ => some 1) (stolenLast ++
      [.connected 0, .message 5 (.missingFiles false false) 0, .message 4 (.serverDone 1 [] []) 0,
        .message 5 .sessionCancelled 0]) := by
    decide +kernel
  have hinserted : (run (step true fun _ => [1, 2]) (.initial fun _ => some 1) (stolenLast ++
      [.connected 0, .message 5 (.missingFiles false false) 0, .message 4 (.serverDone 1 [] []) 0,
        .message 5 .sessionCancelled 0])).map (fun s => (s.commands 0).inserted) = some 1 := by
    decide +kernel
  obtain ⟨s, hs, heq⟩ := Option.map_eq_some_iff.1 hinserted
  exact ⟨s, hs, heq, commands_recorded_once true (fun _ => [1, 2]) (fun _ => some 1) _ _ s hs hmeets⟩

/-- What can go wrong. Session 5 times out instead: all tasks are completed, nothing runs or is being connected, and
nothing is recorded. Or it is made after session 4 has ended: the command is recorded when session 4 ends and again when
session 5 does; and if another task is left when it is made, `get_info` finds it running. -/
theorem recorded_not_once :
    (∃ s, run (step true fun _ => [1, 2]) (.initial fun _ => some 1) (stolenLast ++
        [.connected 0, .message 5 (.missingFiles false false) 0, .message 4 (.serverDone 1 [] []) 0,
          .message 5 .timedOut 0]) = some s ∧
      s.sessions = [] ∧ s.connecting = [] ∧ (s.commands 0).tasks ≠ [] ∧
      (∀ t ∈ (s.commands 0).tasks, (s.tasks t).isCompleted = true ∧ (s.tasks t).sessionsRunning = []) ∧
      (s.commands 0).inserted = 0) ∧
    (∃ s, run (step true fun _ => [1, 2]) (.initial fun _ => some 1) (stolenLast ++
        [.message 4 (.serverDone 1 [] []) 0, .connected 0, .message 5 (.missingFiles false false) 0,
          .message 5 (.serverDone 1 [] []) 0]) = some s ∧
      (s.commands 0).inserted = 2) ∧
    ∃ s, run (step true fun _ => [1, 2]) (.initial fun _ => some 1)
        (.createTasks 0 [⟨0, 1⟩, ⟨0, 1⟩, ⟨0, 1⟩, ⟨0, 1⟩, ⟨0, 1⟩] false :: stolenLast.tail ++
          [.message 4 (.serverDone 1 [] []) 0, .preprocessed ⟨0, 4⟩, .connected 0, .connected 0,
            .message 6 (.missingFiles false false) 0, .message 6 (.serverDone 1 [] []) 0]) = some s ∧
      .sessionsRunning ∈ s.failures := by
  have hnever : (run (step true fun _ => [1, 2]) (.initial fun _ => some 1) (stolenLast ++
      [.connected 0, .message 5 (.missingFiles false false) 0, .message 4 (.serverDone 1 [] []) 0,
        .message 5 .timedOut 0])).map (fun s => decide (s.sessions = [] ∧ s.connecting = [] ∧ (s.commands 0).tasks ≠ [] ∧
          (∀ t ∈ (s.commands 0).tasks, (s.tasks t).isCompleted = true ∧ (s.tasks t).sessionsRunning = []) ∧
          (s.commands 0).inserted = 0)) = some true := by
    decide +kernel
  have htwice : (run (step true fun _ => [1, 2]) (.initial fun _ => some 1) (stolenLast ++
      [.message 4 (.serverDone 1 [] []) 0, .connected 0, .message 5 (.missingFiles false false) 0,
        .message 5 (.serverDone 1 [] []) 0])).map (fun s => (s.commands 0).inserted) = some 2 := by
    decide +kernel
  have hraised : (run (step true fun _ => [1, 2]) (.initial fun _ => some 1)
      (.createTasks 0 [⟨0, 1⟩, ⟨0, 1⟩, ⟨0, 1⟩, ⟨0, 1⟩, ⟨0, 1⟩] false :: stolenLast.tail ++
        [.message 4 (.serverDone 1 [] []) 0, .preprocessed ⟨0, 4⟩, .connected 0, .connected 0,
          .message 6 (.missingFiles false false) 0, .message 6 (.serverDone 1 [] []) 0])).map
        (fun s => decide (.sessionsRunning ∈ s.failures)) = some true := by
    decide +kernel
  obtain ⟨s, hs, heq⟩ := Option.map_eq_some_iff.1 hnever
  obtain ⟨s', hs', heq'⟩ := Option.map_eq_some_iff.1 hraised
  exact ⟨⟨s, hs, by simpa using heq⟩, Option.map_eq_some_iff.1 htwice, s', hs', by simpa using heq'⟩

end BuildPal.Scheduler
