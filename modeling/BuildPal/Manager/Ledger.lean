import BuildPal.Manager.Records
/-!
# Every result is reported once

The ledger of a command: which of its tasks have reported, and what the client
was told. A task's result comes from the session that completes the task, and
only once; the client is answered when every task has reported, and not again.
-/
open BuildPal.Lib BuildPal.Message

namespace BuildPal.Scheduler

/-! ## One command -/

namespace Command
variable {command command' : Command} {t : TaskId}

/-- What the client has to be told when every task has reported. -/
def answer (command : Command) : ClientReply :=
  if command.exitErrorCode ≠ 0 then .exit command.exitErrorCode command.stdout command.stderr
  else if command.shouldInvokeLinker then .executeAndExit
  else .exit 0 command.stdout command.stderr

theorem exitErrorCode_ne_zero : command.exitErrorCode ≠ 0 ↔ ∃ p ∈ command.completedTasks, p.2.retcode ≠ 0 := by
  -- a code that is not zero is only ever replaced by another one
  have hfold : ∀ (results : List (TaskId × TaskResult)) (code : Retcode),
      results.foldl (fun code p => if p.2.retcode ≠ 0 then p.2.retcode else code) code ≠ 0 ↔
        code ≠ 0 ∨ ∃ p ∈ results, p.2.retcode ≠ 0 := by
    intro results
    induction results with
    | nil => simp
    | cons p results ih =>
      intro code
      rw [List.foldl_cons, ih]
      by_cases hp : p.2.retcode = 0
      · simp [hp]
      · simp [hp]
  exact (hfold _ _).trans (by simp [items, (command.order.perm _).mem_iff])

theorem addResult_completed (command : Command) (t : TaskId) (result : TaskResult) :
    (command.addResult t result).completed = command.completed ++ [t] := by
  simp [completed, addResult]

/-- The tasks report once, and the client is answered once, when all have reported. -/
structure Ok (command : Command) : Prop where
  listed : ∀ t ∈ command.completed, t ∈ command.tasks
  once : command.completed.Nodup
  answered : command.replies =
    if command.completed ≠ [] ∧ ∀ t ∈ command.tasks, t ∈ command.completed then [command.answer] else []

theorem Ok.of_same (h : Ok command) (hsame : SameResults command command') : Ok command' := by
  have hcompleted : command'.completed = command.completed := by
    unfold completed
    rw [hsame.completedTasks]
  have hanswer : command'.answer = command.answer := by
    unfold answer exitErrorCode stdout stderr items
    rw [hsame.completedTasks, hsame.linker, hsame.order]
  constructor
  · rw [hcompleted, hsame.tasks]
    exact h.listed
  · rw [hcompleted]
    exact h.once
  · rw [hsame.replies, hcompleted, hsame.tasks, hanswer]
    exact h.answered

theorem Ok.addResult (h : Ok command) (hmem : t ∈ command.tasks) (hnew : t ∉ command.completed) (result : TaskResult) :
    Ok (command.addResult t result).postprocessIfDone := by
  have hcompleted : (command.addResult t result).completed = command.completed ++ [t] := addResult_completed ..
  have hbefore : command.replies = [] := by
    rw [h.answered, if_neg]
    exact fun hall => hnew (hall.2 t hmem)
  have hlisted : ∀ t' ∈ (command.addResult t result).completed, t' ∈ command.tasks := by
    rw [hcompleted]
    intro t' ht'
    rcases List.mem_append.1 ht' with ht' | ht'
    · exact h.listed t' ht'
    · obtain rfl := List.mem_singleton.1 ht'
      exact hmem
  have hdone : Command.sameElements (command.addResult t result).tasks (command.addResult t result).completed = true ↔
      (command.addResult t result).completed ≠ [] ∧
        ∀ t' ∈ (command.addResult t result).tasks, t' ∈ (command.addResult t result).completed := by
    rw [sameElements_iff]
    exact ⟨fun hall => ⟨by simp [hcompleted], hall.1⟩, fun hall => ⟨hall.2, hlisted⟩⟩
  constructor
  · rw [postprocessIfDone_completed, postprocessIfDone_tasks]
    exact hlisted
  · rw [postprocessIfDone_completed, hcompleted]
    refine List.nodup_append.2 ⟨h.once, by simp, ?_⟩
    rintro a ha b hb rfl
    obtain rfl := List.mem_singleton.1 hb
    exact hnew ha
  · rw [postprocessIfDone_completed, postprocessIfDone_tasks]
    unfold postprocessIfDone
    split
    · rename_i hall
      rw [if_pos (hdone.1 hall)]
      show command.replies ++ [_] = [_]
      rw [hbefore]
      rfl
    · rename_i hall
      rw [if_neg (fun h => hall (hdone.2 h))]
      exact hbefore

end Command

/-! ## All commands -/

/-- The assertions of `Task.session_completed` and `CommandProcessor.task_completed`. -/
def Failure.inReport : Failure → Bool
  | .noResult | .sessionNotRunning | .notCompletedBySession | .unknownTask | .completedTwice => true
  | _ => false

/-- The result came from the session that completes the task, or the task was never scheduled. -/
def TaskReport.Legitimate (report : TaskReport) : Prop :=
  (∃ sid, report.session = some sid ∧ report.completedBy = some sid) ∨
    report.session = none ∧ report.scan = some .failed

structure Ledger (s : NodeManager) : Prop where
  own : ∀ c, ∀ t ∈ (s.commands c).tasks, t.command = c
  commands : ∀ c, (s.commands c).Ok
  reports : ∀ t, t ∈ s.reports.map (·.task) ↔ t ∈ (s.commands t.command).completed
  reportedOnce : (s.reports.map (·.task)).Nodup
  legitimate : ∀ report ∈ s.reports, report.Legitimate
  failures : ∀ failure ∈ s.failures, failure.inReport = false

namespace Ledger
variable {s s' : NodeManager} {t : TaskId}

theorem congr (h : Ledger s) (hcommands : ∀ c, SameResults (s.commands c) (s'.commands c))
    (hreports : s'.reports = s.reports)
    (hfailures : ∀ failure ∈ s'.failures, failure ∈ s.failures ∨ failure.inReport = false) :
    Ledger s' where
  own c t ht := h.own c t ((hcommands c).tasks ▸ ht)
  commands c := (h.commands c).of_same (hcommands c)
  reports t := by
    rw [hreports, h.reports t]
    unfold Command.completed
    rw [(hcommands t.command).completedTasks]
  reportedOnce := by
    rw [hreports]
    exact h.reportedOnce
  legitimate := by
    rw [hreports]
    exact h.legitimate
  failures failure hf := by
    rcases hfailures failure hf with hf | hf
    · exact h.failures failure hf
    · exact hf

/-- A result is entered. -/
theorem report (h : Ledger s) {command : Command} {result : TaskResult} {r : TaskReport}
    (hmem : t ∈ (s.commands t.command).tasks) (hnew : t ∉ (s.commands t.command).completed)
    (hsame : SameResults (s.commands t.command) command)
    (hcommands : s'.commands = Function.update s.commands t.command (command.addResult t result).postprocessIfDone)
    (hreports : s'.reports = s.reports ++ [r]) (htask : r.task = t) (hr : r.Legitimate)
    (hfailures : s'.failures = s.failures) : Ledger s' := by
  have hcompleted : ∀ c, (s'.commands c).completed =
      (s.commands c).completed ++ if c = t.command then [t] else [] := by
    intro c
    rw [hcommands]
    by_cases hc : c = t.command
    · subst hc
      rw [Function.update_self, postprocessIfDone_completed, if_pos rfl]
      unfold Command.completed Command.addResult
      rw [hsame.completedTasks]
      simp
    · rw [Function.update_of_ne hc, if_neg hc, List.append_nil]
  constructor
  · intro c t' ht'
    rw [hcommands] at ht'
    by_cases hc : c = t.command
    · subst hc
      rw [Function.update_self, postprocessIfDone_tasks] at ht'
      exact h.own _ t' (hsame.tasks ▸ ht')
    · rw [Function.update_of_ne hc] at ht'
      exact h.own c t' ht'
  · intro c
    rw [hcommands]
    by_cases hc : c = t.command
    · subst hc
      rw [Function.update_self]
      refine ((h.commands _).of_same hsame).addResult (hsame.tasks ▸ hmem) ?_ result
      unfold Command.completed at hnew ⊢
      rw [hsame.completedTasks]
      exact hnew
    · rw [Function.update_of_ne hc]
      exact h.commands c
  -- The new report is the one of the task that has just completed.
  · intro t'
    rw [hreports, hcompleted, List.map_append, List.mem_append, List.mem_append, h.reports t']
    apply or_congr_right
    simp only [List.map_cons, List.map_nil, List.mem_singleton, htask]
    constructor
    · rintro rfl
      simp
    · intro hmem'
      split at hmem'
      · exact List.mem_singleton.1 hmem'
      · cases hmem'
  · rw [hreports, List.map_append]
    refine List.nodup_append.2 ⟨h.reportedOnce, by simp, ?_⟩
    rintro a ha b hb rfl
    simp only [List.map_cons, List.map_nil, List.mem_singleton] at hb
    rw [htask] at hb
    subst hb
    exact hnew ((h.reports a).1 ha)
  · rw [hreports]
    intro r' hr'
    rcases List.mem_append.1 hr' with hr' | hr'
    · exact h.legitimate r' hr'
    · obtain rfl := List.mem_singleton.1 hr'
      exact hr
  · rw [hfailures]
    exact h.failures

end Ledger

/-! ## The book -/

/-- Everything the manager's callbacks keep. -/
structure Book (s : NodeManager) : Prop extends Records s, Ledger s where
  gathering : ∀ sid ∈ s.decompressing, ∃ obj, s.objects sid = some obj ∧
    (obj.session.state = .receiveObjectFile ∨ obj.session.state = .finish)

namespace Book
variable {s s' : NodeManager} {t : TaskId} {node : NodeId} {sid : SessionId} {obj : Session} {result : SessionResult}
  {order : NodeManager → List NodeId} {elapsed : Rat}

theorem gathering_state (h : Book s) (hmem : sid ∈ s.decompressing) (hobj : s.objects sid = some obj) :
    obj.session.state = .receiveObjectFile ∨ obj.session.state = .finish := by
  obtain ⟨obj', hobj', hstate⟩ := h.gathering sid hmem
  rw [hobj] at hobj'
  cases hobj'
  exact hstate

theorem raise (h : Book s) {failure : Failure} (hf : failure.inReport = false) : Book (s.raise failure) := by
  have hledger : Ledger (s.raise failure) := by
    refine h.toLedger.congr (fun c => .refl _) rfl fun f hmem => ?_
    rcases List.mem_append.1 hmem with hmem | hmem
    · exact .inl hmem
    · obtain rfl := List.mem_singleton.1 hmem
      exact .inr hf
  exact { h with failures := hledger.failures }

theorem of_queue {extra : TaskId → Prop} (h : Book s) (hq : QueueStep s s' extra)
    (hextra : ∀ t, extra t → (s.tasks t).scan = some .scheduled) : Book s' := by
  have hrecords := h.toRecords.of_queue hq hextra
  rw [hq.same] at hrecords ⊢
  exact { hrecords, h with }

theorem findWork (h : Book s) : Book (s.findWork order node) := by
  cases hslots : s.slotless node with
  | false => exact h.of_queue (findWork_spec order hslots) fun _ ⟨_, ht⟩ => h.tasksRunning_scheduled ht
  | true =>
    rw [findWork_raises order hslots]
    exact h.raise rfl

theorem scheduleTask (h : Book s) (hscan : (s.tasks t).scan = some .scheduled) (highPriority : Bool) :
    Book (s.scheduleTask t highPriority) := by
  by_cases hsched : Schedulable s
  · refine h.of_queue (scheduleTask_spec hsched).1 ?_
    rintro t' rfl
    exact hscan
  · rw [scheduleTask_raises hsched]
    exact h.raise rfl

theorem completed (h : Book s) (hsid : sid ∈ s.sessions) (hobj : s.objects sid = some obj)
    (hwin : result = .success → (s.tasks obj.task).completedBySession = some sid)
    (hc : Completed s sid obj result s') : Book s' := by
  have hrecords := h.toRecords.completed hsid hobj hwin hc
  have hledger : Ledger s' := by
    have hcommand := hc.command
    split at hcommand
    · obtain ⟨hcommands, hreports, hfailures⟩ := hcommand
      refine h.toLedger.congr (fun c => by rw [hcommands]; exact .refl _) hreports fun f hf => ?_
      rcases hfailures with heq | ⟨-, heq⟩
      · exact .inl (heq ▸ hf)
      · rw [heq] at hf
        rcases List.mem_append.1 hf with hf | hf
        · exact .inl hf
        · obtain rfl := List.mem_singleton.1 hf
          exact .inr rfl
    · have hmem := h.known obj.task (by simp [h.made sid obj hobj])
      rcases hcommand with ⟨c', hsame, hcommands, hreports, hfailures, -⟩ | ⟨c', hsame, hcommands, hreports, hfailures, rfl⟩
      · refine h.toLedger.congr (fun c => ?_) hreports fun f hf => ?_
        · rw [hcommands]
          by_cases hcmd : c = obj.task.command
          · subst hcmd
            rw [Function.update_self]
            exact hsame
          · rw [Function.update_of_ne hcmd]
            exact .refl _
        · rcases hfailures with heq | heq
          · exact .inl (heq ▸ hf)
          · rw [heq] at hf
            rcases List.mem_append.1 hf with hf | hf
            · exact .inl hf
            · obtain rfl := List.mem_singleton.1 hf
              exact .inr rfl
      · have hnew : obj.task ∉ (s.commands obj.task.command).completed := by
          intro hrep
          rcases h.reported _ hrep with hf | ⟨sid', hc', hgone⟩
          · rw [h.made sid obj hobj] at hf
            cases hf
          · rw [hwin rfl] at hc'
            cases hc'
            exact hgone hsid
        exact h.toLedger.report hmem hnew hsame hcommands hreports rfl (.inl ⟨sid, rfl, rfl⟩) hfailures
  refine { hrecords, hledger with gathering := ?_ }
  rw [hc.decompressing, hc.objects]
  exact h.gathering

theorem sessionCompleted (h : Book s) (hobj : s.objects sid = some obj) (hresult : obj.session.result = some result)
    (hwin : sid ∈ s.sessions → result = .success → (s.tasks obj.task).completedBySession = some sid) :
    Book (s.sessionCompleted order sid obj elapsed) := by
  by_cases hsid : sid ∈ s.sessions
  · exact h.completed hsid hobj (hwin hsid)
      (sessionCompleted_spec order elapsed (h.toRecords.completes hsid hobj hresult (hwin hsid)))
  · rw [sessionCompleted_gone hsid]
    exact h.raise rfl

/-- What a reply has to say for the book to be kept. -/
structure ReplyOk (s : NodeManager) (sid : SessionId) (obj : Session) (reply : ServerSession.Reply) : Prop where
  receives : sid ∈ s.sessions → reply.session.state = .receiveObjectFile →
    (s.tasks obj.task).completedBySession = some sid
  ends : ∀ result, reply.action = some (.complete result) → reply.session.result = some result ∧
    (sid ∈ s.sessions → result = .success → (s.tasks obj.task).completedBySession = some sid)
  gathers : reply.action = some .gather → reply.session.state = .receiveObjectFile
  gathering : sid ∈ s.decompressing → reply.session.state = .receiveObjectFile ∨ reply.session.state = .finish

theorem setObject (h : Book s) (hobj : s.objects sid = some obj) {reply : ServerSession.Reply}
    (hr : ReplyOk s sid obj reply) : Book (s.setObject sid { obj with session := reply.session }) := by
  have hrecords : Records (s.setObject sid { obj with session := reply.session }) :=
    h.toRecords.setObject hobj rfl hr.receives
  refine { hrecords, h with gathering := ?_ }
  intro other hother
  by_cases heq : other = sid
  · subst heq
    exact ⟨{ obj with session := reply.session }, by simp [NodeManager.setObject], hr.gathering hother⟩
  · obtain ⟨o, ho, hstate⟩ := h.gathering other hother
    exact ⟨o, by simp [NodeManager.setObject, heq, ho], hstate⟩

theorem replied (h : Book s) (hobj : s.objects sid = some obj) {reply : ServerSession.Reply}
    (hr : ReplyOk s sid obj reply) : Book (s.replied order sid obj reply elapsed) := by
  have hset := h.setObject hobj hr
  have hself : (s.setObject sid { obj with session := reply.session }).objects sid =
      some { obj with session := reply.session } := by simp [NodeManager.setObject]
  unfold NodeManager.replied
  cases haction : reply.action with
  | none => exact hset
  | some action =>
    cases action with
    | compressPch => exact hset
    | raise => exact hset.raise rfl
    | gather =>
      refine { hset with gathering := ?_ }
      intro other hother
      rcases List.mem_append.1 hother with hother | hother
      · exact hset.gathering other hother
      · obtain rfl := List.mem_singleton.1 hother
        exact ⟨_, hself, .inl (hr.gathers haction)⟩
    | complete result =>
      exact hset.sessionCompleted hself (hr.ends result haction).1 (hr.ends result haction).2

/-! ## The callbacks -/

/-- What the registration of a completion leaves alone, and what it says. -/
theorem registration (h : Book s) (hobj : s.objects sid = some obj) (msg : FromServer) :
    Book (s.registration sid obj msg).1 ∧ (s.registration sid obj msg).1.objects sid = some obj ∧
      (s.registration sid obj msg).1.sessions = s.sessions ∧
      ((s.registration sid obj msg).2 = true →
        ((s.registration sid obj msg).1.tasks obj.task).completedBySession = some sid) := by
  unfold NodeManager.registration
  split
  · have hrecords := h.toRecords.registerCompletion hobj
    unfold NodeManager.registerCompletion at hrecords ⊢
    simp only at hrecords ⊢
    split
    · exact ⟨h, hobj, rfl, fun hf => by cases hf⟩
    · rename_i hcompleted
      rw [if_neg hcompleted] at hrecords
      refine ⟨{ hrecords, h with gathering := ?_ }, by simpa using hobj, rfl, by simp⟩
      intro other hother
      obtain ⟨o, ho, hstate⟩ := h.gathering other hother
      dsimp only
      split
      · exact ⟨{ o with session := o.session.cancel.session }, by rw [ho, Option.map_some], hstate⟩
      · exact ⟨o, ho, hstate⟩
  · exact ⟨h, hobj, rfl, fun hf => by cases hf⟩

theorem gotDataFromServer_ok (h : Book s) (hobj : s.objects sid = some obj) (msg : FromServer) :
    ReplyOk (s.registration sid obj msg).1 sid obj
      (obj.session.gotDataFromServer (s.tasks obj.task).files (s.registration sid obj msg).2 msg) := by
  obtain ⟨hbook, hself, -, hentered⟩ := h.registration hobj msg
  have hok : ServerSession.ActionOk obj.session _ _ (obj.session.gotDataFromServer (s.tasks obj.task).files
      (s.registration sid obj msg).2 msg) := ServerSession.gotDataFromServer_ok
  refine ⟨?_, ?_, hok.gathers, ?_⟩
  · intro hsid hstate
    rcases hok.receives hstate with hrecv | ⟨-, hreg, -⟩
    · exact hbook.winner sid obj hsid hself hrecv
    · exact hentered hreg
  · intro result hend
    obtain ⟨-, hresult, hcause⟩ := hok.ends result hend
    refine ⟨hresult, fun _ hsucc => hentered ?_⟩
    subst hsucc
    rcases hcause with ⟨hne, -⟩ | ⟨hne, -⟩ | ⟨hne, -⟩ | ⟨-, r, o, e, -, ⟨hne, -⟩ | ⟨-, hreg, -⟩⟩
    · cases hne
    · cases hne
    · cases hne
    · cases hne
    · exact hreg
  · intro hmem
    rcases hbook.gathering_state hmem hself with hstate | hstate
    · by_cases hend : ∃ result, ((obj.session.gotDataFromServer (s.tasks obj.task).files
          (s.registration sid obj msg).2 msg).action = some (.complete result))
      · obtain ⟨result, hend⟩ := hend
        exact .inr (hok.ends result hend).1
      · exact .inl ((hok.goesOn fun result hr => hend ⟨result, hr⟩).1 hstate)
    · exact .inr (hok.ended hstate)

theorem gotDataFromServer (h : Book s) (hobj : s.objects sid = some obj) (msg : FromServer) :
    Book (s.gotDataFromServer order sid obj msg elapsed) := by
  obtain ⟨hbook, hself, -, -⟩ := h.registration hobj msg
  exact hbook.replied hself (h.gotDataFromServer_ok hobj msg)

theorem terminate_ok : ReplyOk s sid obj obj.session.terminate := by
  refine ⟨fun _ hstate => ?_, fun result hend => ?_, fun hg => ?_, fun _ => .inr rfl⟩
  · cases hstate
  · cases hend
    exact ⟨rfl, fun _ hs => by cases hs⟩
  · cases hg

theorem terminateSessions (h : Book s) (gone : List SessionId) : Book (NodeManager.terminateSessions order s gone) := by
  induction gone generalizing s with
  | nil => exact h
  | cons sid rest ih =>
    unfold NodeManager.terminateSessions
    cases hobj : s.objects sid with
    | none => exact h
    | some obj =>
      dsimp only
      split
      · exact ih (h.replied hobj terminate_ok)
      · exact h.replied hobj terminate_ok

theorem completeSession_ok (h : Book s) (hobj : s.objects sid = some obj) (ok : Bool)
    (hgathered : obj.session.state = .receiveObjectFile ∨ obj.session.state = .finish) :
    ReplyOk s sid obj (obj.session.completeSession ok) := by
  have hfailed : ∀ session : ServerSession, ReplyOk s sid obj (session.complete .failure []) := by
    refine fun session => ⟨fun _ hstate => (by cases hstate), fun result hend => ?_, fun hg => (by cases hg),
      fun _ => .inr rfl⟩
    cases hend
    exact ⟨rfl, fun _ hs => by cases hs⟩
  unfold ServerSession.completeSession
  split
  · rename_i hfinish
    split
    · refine ⟨fun _ hstate => ?_, fun result hend => (by cases hend), fun hg => (by cases hg), fun _ => .inr hfinish⟩
      rw [hfinish] at hstate
      cases hstate
    · exact hfailed _
  · rename_i hgoing
    split
    · -- the files were gathered for the session that receives the result
      have hstate : obj.session.state = .receiveObjectFile := hgathered.resolve_right hgoing
      refine ⟨fun _ hst => (by cases hst), fun result hend => ?_, fun hg => (by cases hg), fun _ => .inr rfl⟩
      cases hend
      exact ⟨rfl, fun hsid _ => h.winner sid obj hsid hobj hstate⟩
    · exact hfailed _

theorem createSession (h : Book s) (hscan : (s.tasks t).scan = some .scheduled) (hslots : s.slotless node = false) :
    Book (s.createSession t node) := by
  have hrecords : Records (s.createSession t node) := h.toRecords.createSession hscan hslots
  rcases createSession_spec s t node with ⟨failure, heq, hfailure⟩ | ho
  · rw [heq] at hrecords ⊢
    have hbook : Book { s with counter := s.counter + 1 } := { h with fresh := hrecords.fresh }
    apply hbook.raise
    rcases hfailure with ⟨rfl, -⟩ | ⟨rfl, -⟩
    · rfl
    · rfl
  · have hledger : Ledger (s.createSession t node) := by
      refine h.toLedger.congr (fun c => ?_) ho.reports fun f hf => .inl (ho.failures ▸ hf)
      rw [ho.commands]
      exact .refl _
    refine { hrecords, hledger with gathering := ?_ }
    intro sid hsid
    rw [ho.decompressing] at hsid
    obtain ⟨obj, hobj, hstate⟩ := h.gathering sid hsid
    exact ⟨obj, (ho.object_kept (h.fresh sid obj hobj)).trans hobj, hstate⟩

/-- A command's tasks are created. Their records were not in use: the command had none. -/
theorem createTasks (h : Book s) (c : CommandId) (hnone : (s.commands c).tasks = []) (tasks : List TaskId)
    (htasks : ∀ t ∈ tasks, t.command = c) (shouldInvokeLinker : Bool) (order : DictOrder)
    (fresh : TaskId → Task) (hfresh : ∀ t, fresh t = { files := (fresh t).files }) :
    Book { s.setCommand c { tasks, shouldInvokeLinker, order } with
      tasks := fun t => if t.command = c then fresh t else s.tasks t } := by
  -- Of a command without tasks none was scanned, and none has completed.
  have hunknown : ∀ t, t.command = c → (s.tasks t).scan = none := by
    rintro t rfl
    by_contra hscan
    have := h.known t hscan
    rw [hnone] at this
    cases this
  have hempty : (s.commands c).completed = [] := by
    apply List.eq_nil_iff_forall_not_mem.2
    intro t ht
    have := (h.commands c).listed t ht
    rw [hnone] at this
    cases this
  have hnew : (s.setCommand c { tasks, shouldInvokeLinker, order }).commands c =
    { tasks, shouldInvokeLinker, order } := by
    simp [NodeManager.setCommand]
  have hold : ∀ c', c' ≠ c → (s.setCommand c { tasks, shouldInvokeLinker, order }).commands c' = s.commands c' := by
    intro c' hc'
    simp [NodeManager.setCommand, hc']
  have hrecords : Records { s.setCommand c { tasks, shouldInvokeLinker, order } with
      tasks := fun t => if t.command = c then fresh t else s.tasks t } := by
    refine h.toRecords.of_tasks (fun t => ?_) (fun t ht => ?_) (fun t ht => ?_)
    · split
      · rename_i hc
        rw [hfresh]
        exact .inr ⟨hunknown t hc, rfl, rfl⟩
      · exact .inl rfl
    · split at ht
      · rw [hfresh] at ht
        exact absurd rfl ht
      · rename_i hc
        rw [hold _ hc]
        exact h.known t ht
    · by_cases hc : t.command = c
      · rw [hc, hnew] at ht
        cases ht
      · rw [hold _ hc] at ht
        exact .inr ⟨if_neg hc, ht⟩
  refine { hrecords, h with own := ?_, commands := ?_, reports := ?_ }
  · intro c' t ht
    by_cases hc : c' = c
    · subst hc
      rw [hnew] at ht
      exact htasks t ht
    · rw [hold c' hc] at ht
      exact h.own c' t ht
  · intro c'
    by_cases hc : c' = c
    · subst hc
      rw [hnew]
      exact ⟨fun t ht => (by cases ht), List.nodup_nil, rfl⟩
    · rw [hold c' hc]
      exact h.commands c'
  · intro t
    dsimp only
    by_cases hc : t.command = c
    · rw [hc, hnew]
      have := h.reports t
      rw [hc, hempty] at this
      exact this
    · rw [hold _ hc]
      exact h.reports t

/-- The source scanner is done with a task. -/
theorem scanned (h : Book s) {scan : Scan} (hs : s.scanned t scan = some s') :
    Book s' ∧ s' = s.setTask t { s.tasks t with scan := some scan } ∧ t ∈ (s.commands t.command).tasks ∧
      (s.tasks t).scan = none := by
  unfold NodeManager.scanned at hs
  split at hs
  · rename_i hguard
    cases hs
    refine ⟨?_, rfl, hguard⟩
    obtain ⟨hrun, hcomp, -, -⟩ := h.toRecords.no_session (t := t) (by simp [hguard.2])
    have hrecords : Records (s.setTask t { s.tasks t with scan := some scan }) := by
      refine h.toRecords.of_tasks (fun t' => ?_) (fun t' ht' => ?_) (fun t' ht' => ?_)
      · by_cases ht : t' = t
        · subst ht
          rw [Function.update_self]
          exact .inr ⟨hguard.2, hrun, hcomp⟩
        · exact .inl (Function.update_of_ne ht ..)
      · by_cases ht : t' = t
        · subst ht
          exact hguard.1
        · rw [Function.update_of_ne ht] at ht'
          exact h.known t' ht'
      · have ht : t' ≠ t := by
          rintro rfl
          exact h.toRecords.unreported hguard.2 ht'
        exact .inr ⟨Function.update_of_ne ht .., ht'⟩
    exact { hrecords, h with }
  · cases hs

/-- A task that could not be preprocessed reports the error. -/
theorem preprocessingFailed (h : Book s) (hmem : t ∈ (s.commands t.command).tasks)
    (hunrep : t ∉ (s.commands t.command).completed) (hscan : (s.tasks t).scan = some .failed) (result : TaskResult) :
    Book (s.taskCompleted t result none) := by
  rw [taskCompleted_eq hmem hunrep]
  have hledger : Ledger ((s.logReport t none).setCommand t.command
      ((s.commands t.command).addResult t result).postprocessIfDone) :=
    h.toLedger.report hmem hunrep (.refl _) rfl rfl rfl (.inr ⟨rfl, hscan⟩) rfl
  have hrecords : Records ((s.logReport t none).setCommand t.command
      ((s.commands t.command).addResult t result).postprocessIfDone) := by
    have hupdated : Records { s with
        tasks := s.tasks
        commands := Function.update s.commands t.command
          ((s.commands t.command).addResult t result).postprocessIfDone } := by
      refine h.toRecords.of_tasks (fun t' => .inl rfl) (fun t' ht' => ?_) (fun t' ht' => ?_)
      · by_cases hc : t'.command = t.command
        · rw [hc, Function.update_self, postprocessIfDone_tasks, ← hc]
          exact h.known t' ht'
        · rw [Function.update_of_ne hc]
          exact h.known t' ht'
      · by_cases hc : t'.command = t.command
        · rw [hc, Function.update_self, postprocessIfDone_completed] at ht'
          rw [Command.addResult_completed] at ht'
          rcases List.mem_append.1 ht' with ht' | ht'
          · exact .inr ⟨rfl, hc ▸ ht'⟩
          · obtain rfl := List.mem_singleton.1 ht'
            exact .inl hscan
        · rw [Function.update_of_ne hc] at ht'
          exact .inr ⟨rfl, ht'⟩
    exact { hupdated with }
  exact { hrecords, hledger, h with }

theorem findWorkAll (h : Book s) (nodes : List NodeId) : Book (s.findWorkAll order nodes) := by
  induction nodes generalizing s with
  | nil => exact h
  | cons node nodes ih =>
    unfold NodeManager.findWorkAll
    split
    · exact h.findWork
    · exact ih h.findWork

theorem updateNodeInfo (h : Book s) {live : Bool} (nodes : List NodeId) (gone : List SessionId) :
    Book (NodeManager.updateNodeInfo live order s nodes gone) := by
  unfold NodeManager.updateNodeInfo
  have hpolled : Book { s with nodeInfo := nodes, polled := true } := { h with }
  have hgone : Book (NodeManager.terminateSessions order _ gone) := hpolled.terminateSessions gone
  dsimp only
  split
  · generalize nodes.filter (· ∉ NodeManager.previousNodes live s nodes) = newNodes
    generalize NodeManager.terminateSessions order { s with nodeInfo := nodes, polled := true } gone = s' at hgone
    exact hgone.findWorkAll newNodes
  · exact hgone

end Book

theorem book_init (slots : NodeId → Option Nat) (orders : CommandId → DictOrder) : Book (.initial slots orders) := by
  have hqueued : ∀ t, ¬ Queued (.initial slots orders) t := by simp [Queued]
  constructor
  case toRecords =>
    constructor
    case queued => exact fun t ht => absurd ht (hqueued t)
    all_goals simp [tasksOn, Command.completed]
  case toLedger =>
    constructor
    case commands => exact fun c => ⟨fun t ht => (by cases ht), List.nodup_nil, rfl⟩
    all_goals simp [Command.completed]
  case gathering => simp

/-- Every callback keeps the book. -/
theorem step_book {live : Bool} {order : NodeManager → List NodeId} {s s' : NodeManager} {e : Event} (h : Book s)
    (hs : step live order s e = some s') : Book s' := by
  cases e with
  | createTasks c files shouldInvokeLinker =>
    obtain ⟨hguard, rfl⟩ := steps_of_step hs
    refine h.createTasks c hguard.1 _ ?_ shouldInvokeLinker _ _ fun _ => rfl
    simp
  | preprocessed t =>
    obtain ⟨s₁, hs₁, rfl⟩ := steps_of_step hs
    obtain ⟨hbook, heq, -, -⟩ := h.scanned hs₁
    exact hbook.scheduleTask (by simp [heq, NodeManager.setTask]) false
  | preprocessingFailed t stderr =>
    obtain ⟨s₁, hs₁, rfl⟩ := steps_of_step hs
    obtain ⟨hbook, heq, hmem, hnone⟩ := h.scanned hs₁
    have hunrep := h.unreported hnone
    subst heq
    exact hbook.preprocessingFailed hmem hunrep (by simp [NodeManager.setTask]) _
  | cannotDistribute t => exact (h.scanned hs).1
  | connected i =>
    obtain ⟨t, node, hi, rfl⟩ := steps_of_step hs
    have hscan := h.queued t (.inr ⟨node, List.mem_of_getElem? hi⟩)
    have hfewer : Book { s with connecting := s.connecting.eraseIdx i } :=
      { h.toRecords.of_fewer (List.eraseIdx_subset (l := s.connecting) (k := i)), h with }
    exact hfewer.createSession hscan (h.connectingSlotted _ (List.mem_of_getElem? hi))
  | connectionFailed i =>
    obtain ⟨t, node, hi, rfl⟩ := steps_of_step hs
    have hfewer : Book { s with connecting := s.connecting.eraseIdx i } :=
      { h.toRecords.of_fewer (List.eraseIdx_subset (l := s.connecting) (k := i)), h with }
    exact hfewer.raise rfl
  | message sid msg elapsed =>
    rcases steps_of_step hs with ⟨-, obj, hobj, rfl⟩ | ⟨-, rfl⟩
    · exact h.gotDataFromServer hobj msg
    · exact h
  | decompressed i ok elapsed =>
    obtain ⟨sid, obj, hi, hobj, rfl⟩ := steps_of_step hs
    have hfewer : Book { s with decompressing := s.decompressing.eraseIdx i } :=
      { h with gathering := fun sid hsid => h.gathering sid (List.eraseIdx_subset hsid) }
    exact hfewer.replied hobj (hfewer.completeSession_ok hobj ok (h.gathering_state (List.mem_of_getElem? hi) hobj))
  | updateNodeInfo nodes gone =>
    obtain ⟨-, rfl⟩ := steps_of_step hs
    exact h.updateNodeInfo nodes gone


/-! ## What the client is told -/

/-- Results are reported once, by the session that completes the task; the assertions on the way hold; and a
client is answered once, when all results of its command are in. -/
structure ReportedOnce (s : NodeManager) : Prop where
  atMostOnce : (s.reports.map (·.task)).Nodup
  legitimate : ∀ report ∈ s.reports, report.Legitimate
  assertions : ∀ failure ∈ s.failures, failure.inReport = false
  answered : ∀ c, (s.commands c).replies = [] ∨ ∃ reply, (s.commands c).replies = [reply] ∧
    (s.commands c).tasks ≠ [] ∧ (∀ t ∈ (s.commands c).tasks, t ∈ s.reports.map (·.task)) ∧
    (∀ t, t ∈ (s.commands c).completed ↔ t ∈ (s.commands c).tasks) ∧
    ((∃ code stdout stderr, reply = .exit code stdout stderr ∧ code ≠ 0) ↔
      ∃ result ∈ (s.commands c).completedTasks.map (·.2), result.retcode ≠ 0)

theorem Command.answer_error {command : Command} :
    (∃ code stdout stderr, command.answer = .exit code stdout stderr ∧ code ≠ 0) ↔
      ∃ result ∈ command.completedTasks.map (·.2), result.retcode ≠ 0 := by
  have hcode : command.exitErrorCode ≠ 0 ↔ ∃ result ∈ command.completedTasks.map (·.2), result.retcode ≠ 0 := by
    rw [exitErrorCode_ne_zero]
    constructor
    · rintro ⟨p, hp, hne⟩
      exact ⟨p.2, List.mem_map_of_mem hp, hne⟩
    · rintro ⟨result, hresult, hne⟩
      obtain ⟨p, hp, rfl⟩ := List.mem_map.1 hresult
      exact ⟨p, hp, hne⟩
  rw [← hcode]
  unfold answer
  constructor
  · rintro ⟨code, stdout, stderr, heq, hne⟩
    split at heq
    · assumption
    · split at heq
      · cases heq
      · cases heq
        exact absurd rfl hne
  · intro hne
    rw [if_pos hne]
    exact ⟨_, _, _, rfl, hne⟩

theorem Book.reports_ok {s : NodeManager} (h : Book s) : ReportedOnce s where
  atMostOnce := h.reportedOnce
  legitimate := h.legitimate
  assertions := h.failures
  answered c := by
    have hok := h.commands c
    rw [hok.answered]
    split
    · rename_i hall
      refine .inr ⟨_, rfl, ?_, ?_, ?_, Command.answer_error⟩
      · intro hnone
        apply hall.1
        apply List.eq_nil_iff_forall_not_mem.2
        intro t ht
        have := hok.listed t ht
        rw [hnone] at this
        cases this
      · intro t ht
        rw [h.reports t, h.own c t ht]
        exact hall.2 t ht
      · exact fun t => ⟨hok.listed t, hall.2 t⟩
    · exact .inl rfl

/-- For every run of the manager. -/
theorem results_reported_once (live : Bool) (order : NodeManager → List NodeId) (slots : NodeId → Option Nat)
    (orders : CommandId → DictOrder) (events : List Event) (s : NodeManager)
    (hrun : run (step live order) (.initial slots orders) events = some s) : ReportedOnce s :=
  (run_inv (step live order) (fun _ _ _ h hs => step_book h hs) (book_init slots orders) hrun).reports_ok

/-- A session fails, so the task is rescheduled; the next one reports an error of the compiler. -/
def retryEvents : List Event :=
  [.createTasks 0 [⟨0, 1⟩] false, .updateNodeInfo [7] [], .preprocessed ⟨0, 0⟩, .connected 0,
    .message 1 (.missingFiles false false) 0, .message 1 (.serverFailed []) 0, .connected 0,
    .message 2 (.missingFiles false false) 0, .message 2 (.serverDone 2 [] []) 5]

theorem results_reported_once_retry :
    ∃ s, run (step true fun _ => []) (.initial fun _ => some 2) retryEvents = some s ∧
      (s.commands 0).replies = [.exit 2 [] []] ∧ ReportedOnce s := by
  have hreplies : (run (step true fun _ => []) (.initial fun _ => some 2) retryEvents).map
      (fun s => (s.commands 0).replies) = some [.exit 2 [] []] := rfl
  obtain ⟨s, hs, heq⟩ := Option.map_eq_some_iff.1 hreplies
  exact ⟨s, hs, heq, results_reported_once true (fun _ => []) (fun _ => some 2) _ retryEvents s hs⟩

end BuildPal.Scheduler
