import BuildPal.Manager.Ledger
/-!
# Where answers come from

The manager makes up no result. What a task is said to have ended with is what
a server's `SERVER_DONE` said to a session of this task, or the error of the
source scanner; and what a client is told at the end is put together from the
results of all of its command's tasks.
-/
open BuildPal.Lib BuildPal.Message

namespace BuildPal.Scheduler

/-! ## One session -/

/-- What a session reports if it is successful. -/
def outcome (session : ServerSession) : TaskResult := ⟨session.retcode, session.stdout, session.stderr⟩

/-- The session has a result to report. -/
def HasOutcome (session : ServerSession) : Prop :=
  session.state = .receiveObjectFile ∨ session.result = some .success

/-- The message says how the compiler ended. -/
def Tells (msg : FromServer) (result : TaskResult) : Prop :=
  msg = .serverDone result.retcode result.stdout result.stderr

section OneSession
variable {task : SessionTask} {session : ServerSession} {registers : Bool} {msg : FromServer}

/-- A call that leaves the session with its old result, or with none. -/
def Keeps (session session' : ServerSession) : Prop :=
  HasOutcome session' → HasOutcome session ∧ outcome session' = outcome session

theorem raised_keeps : Keeps session session.raised.session := fun h => ⟨h, rfl⟩

theorem complete_keeps {session' : ServerSession} {result : SessionResult} {sent : List ToServer}
    (h : result ≠ .success) : Keeps session (session'.complete result sent).session := by
  rintro (hstate | hresult)
  · cases hstate
  · exact absurd (Option.some.inj hresult) h

theorem receiveObjectFile_keeps (hstate : session.state = .receiveObjectFile) :
    Keeps session (session.receiveObjectFile task msg).session := by
  unfold ServerSession.receiveObjectFile
  repeat' split
  all_goals exact fun _ => ⟨.inl hstate, rfl⟩

theorem serverDone_outcome {r : Retcode} {o e : Bytes} :
    outcome (({ session with retcode := r, stdout := o, stderr := e } : ServerSession).serverDone registers).session =
      ⟨r, o, e⟩ := by
  unfold ServerSession.serverDone
  repeat' split
  all_goals rfl

/-- A session gets a result to report by being told it. -/
theorem gotDataFromServer_tells : Tells msg (outcome (session.gotDataFromServer task registers msg).session) ∨
    Keeps session (session.gotDataFromServer task registers msg).session := by
  unfold ServerSession.gotDataFromServer
  split
  · split
    · exact .inr (complete_keeps (by simp))
    · exact .inr raised_keeps
  · exact .inr (complete_keeps (by simp))
  · split
    · split
      · split
        · exact .inr raised_keeps
        · rename_i hstate _ _ _ _ _
          refine .inr fun h => ?_
          rcases h with hstate' | hresult
          · cases hstate'
          · exact ⟨.inr hresult, rfl⟩
      · exact .inr raised_keeps
    · split
      · exact .inr (complete_keeps (by simp))
      · refine .inl ?_
        rw [serverDone_outcome]
        rfl
      · exact .inr raised_keeps
    · rename_i hstate
      exact .inr (receiveObjectFile_keeps hstate)
    · exact .inr raised_keeps
    · exact .inr raised_keeps

theorem completeSession_keeps (hstate : session.state = .receiveObjectFile ∨ session.state = .finish) (ok : Bool) :
    Keeps session (session.completeSession ok).session := by
  unfold ServerSession.completeSession
  split
  · split
    · exact fun h => ⟨h, rfl⟩
    · exact complete_keeps (by simp)
  · rename_i hgoing
    split
    · exact fun _ => ⟨.inl (hstate.resolve_right hgoing), rfl⟩
    · exact complete_keeps (by simp)

end OneSession

/-! ## Where results come from -/

/-- The session was told this result by its server. -/
def Said (heard : List Event) (sid : SessionId) (result : TaskResult) : Prop :=
  ∃ msg elapsed, Event.message sid msg elapsed ∈ heard ∧ Tells msg result

/-- Where a result comes from. -/
inductive Source (heard : List Event) (s : NodeManager) (t : TaskId) (result : TaskResult) : Prop where
  /-- From the server of the session that reported for the task. -/
  | server (sid : SessionId) (task : (s.objects sid).map Session.task = some t)
    (reported : ∃ r ∈ s.reports, r.task = t ∧ r.session = some sid) (said : Said heard sid result)
  | scanner (failed : .preprocessingFailed t result.stderr ∈ heard) (retcode : result.retcode = UInt32.ofInt (-1))
    (stdout : result.stdout = [])

/-- Who has a result to report was told it, and so was who has reported. -/
structure Sourced (heard : List Event) (s : NodeManager) : Prop where
  told : ∀ sid obj, s.objects sid = some obj → HasOutcome obj.session → Said heard sid (outcome obj.session)
  results : ∀ c, ∀ p ∈ (s.commands c).completedTasks, Source heard s p.1 p.2

/-- The sessions have the results they had, and nothing is reported. -/
structure SameOutcomes (s s' : NodeManager) : Prop where
  objects : ∀ sid obj', s'.objects sid = some obj' →
    ∃ obj, s.objects sid = some obj ∧ Keeps obj.session obj'.session
  tasks : ∀ sid, (s'.objects sid).map Session.task = (s.objects sid).map Session.task
  completed : ∀ c, (s'.commands c).completedTasks = (s.commands c).completedTasks
  reports : s'.reports = s.reports

namespace Sourced
variable {heard heard' : List Event} {s s' : NodeManager} {t : TaskId} {node : NodeId} {sid : SessionId} {obj : Session}
  {elapsed : Rat} {order : NodeManager → List NodeId}

theorem source_mono {result : TaskResult} (h : Source heard s t result) (hsub : heard ⊆ heard')
    (htasks : ∀ sid t, (s.objects sid).map Session.task = some t → (s'.objects sid).map Session.task = some t)
    (hreports : s.reports ⊆ s'.reports) : Source heard' s' t result := by
  cases h with
  | server sid htask hreported hsaid =>
    obtain ⟨r, hr, hsession⟩ := hreported
    obtain ⟨msg, elapsed, hmem, htells⟩ := hsaid
    exact .server sid (htasks sid t htask) ⟨r, hreports hr, hsession⟩ ⟨msg, elapsed, hsub hmem, htells⟩
  | scanner hfailed hretcode hstdout => exact .scanner (hsub hfailed) hretcode hstdout

theorem init (slots : NodeId → Option Nat) (orders : CommandId → DictOrder) : Sourced [] (.initial slots orders) where
  told sid obj hobj := by cases hobj
  results c p hp := by cases hp

theorem heard_more (h : Sourced heard s) (hsub : heard ⊆ heard') : Sourced heard' s where
  told sid obj hobj hhas := by
    obtain ⟨msg, elapsed, hmem, htells⟩ := h.told sid obj hobj hhas
    exact ⟨msg, elapsed, hsub hmem, htells⟩
  results c p hp := source_mono (h.results c p hp) hsub (fun _ _ => id) fun _ => id

theorem same (h : Sourced heard s) (hs : SameOutcomes s s') : Sourced heard s' where
  told sid obj' hobj' hhas := by
    obtain ⟨obj, hobj, hkeeps⟩ := hs.objects sid obj' hobj'
    obtain ⟨hhas', houtcome⟩ := hkeeps hhas
    rw [houtcome]
    exact h.told sid obj hobj hhas'
  results c p hp := by
    rw [hs.completed] at hp
    refine source_mono (h.results c p hp) (fun _ => id) (fun sid t ht => ?_) ?_
    · rwa [hs.tasks]
    · rw [hs.reports]
      exact fun _ => id

/-! ### Changes -/

/-- The sessions, the results and the reports are what they were. -/
theorem untouched (h : Sourced heard s) (hobjects : s'.objects = s.objects) (hcommands : s'.commands = s.commands)
    (hreports : s'.reports = s.reports) : Sourced heard s' := by
  refine h.same ⟨fun sid obj' hobj' => ?_, fun sid => by rw [hobjects], fun c => by rw [hcommands], hreports⟩
  rw [hobjects] at hobj'
  exact ⟨obj', hobj', fun hhas => ⟨hhas, rfl⟩⟩

theorem raise (h : Sourced heard s) {failure : Failure} : Sourced heard (s.raise failure) := h.untouched rfl rfl rfl

theorem of_rearranged (h : Sourced heard s) (hr : Rearranged s s') : Sourced heard s' := by
  rw [hr.same]
  exact h.untouched rfl rfl rfl

/-- A cancelled session has the result it had. -/
theorem registration (h : Sourced heard s) (msg : FromServer) : Sourced heard (s.registration sid obj msg).1 := by
  unfold NodeManager.registration
  split
  · unfold NodeManager.registerCompletion
    dsimp only
    split
    · exact h
    · refine h.same ⟨fun other obj' hobj' => ?_, fun other => ?_, fun _ => rfl, rfl⟩
      · dsimp only at hobj'
        split at hobj'
        · obtain ⟨old, hold, rfl⟩ := Option.map_eq_some_iff.1 hobj'
          exact ⟨old, hold, fun hhas => ⟨hhas, rfl⟩⟩
        · exact ⟨obj', hobj', fun hhas => ⟨hhas, rfl⟩⟩
      · dsimp only
        split
        · rw [Option.map_map]
          rfl
        · rfl
  · exact h

theorem setObject (h : Sourced heard s) (hobj : s.objects sid = some obj) {session : ServerSession}
    (htold : HasOutcome session → Said heard sid (outcome session)) :
    Sourced heard (s.setObject sid { obj with session }) where
  told other obj' hobj' hhas := by
    by_cases heq : other = sid
    · subst heq
      simp only [NodeManager.setObject, Function.update_self, Option.some.injEq] at hobj'
      subst hobj'
      exact htold hhas
    · simp only [NodeManager.setObject, Function.update_of_ne heq] at hobj'
      exact h.told other obj' hobj' hhas
  results c p hp := by
    have htask : ∀ other t, (s.objects other).map Session.task = some t →
        ((s.setObject sid { obj with session }).objects other).map Session.task = some t := by
      intro other t ht
      by_cases heq : other = sid
      · subst heq
        simpa [NodeManager.setObject, hobj] using ht
      · simpa [NodeManager.setObject, Function.update_of_ne heq] using ht
    exact source_mono (h.results c p hp) (fun _ => id) htask fun _ => id

/-- A result is entered. -/
theorem report (h : Sourced heard s) {command : Command} {result : TaskResult} {c : CommandId}
    (hobjects : s'.objects = s.objects) (hreports : s.reports ⊆ s'.reports)
    (hsame : command.completedTasks = (s.commands c).completedTasks)
    (hcommands : s'.commands = Function.update s.commands c (command.addResult t result).postprocessIfDone)
    (hsource : Source heard s' t result) : Sourced heard s' where
  told sid obj hobj := h.told sid obj (hobjects ▸ hobj)
  results c' p hp := by
    have hkept : ∀ p : TaskId × TaskResult, Source heard s p.1 p.2 → Source heard s' p.1 p.2 :=
      fun p hp => source_mono hp (fun _ => id) (fun sid t ht => by rwa [hobjects]) hreports
    rw [hcommands] at hp
    by_cases hc : c' = c
    · subst hc
      rw [Function.update_self] at hp
      have hentered : p ∈ command.completedTasks ++ [(t, result)] := by
        unfold Command.postprocessIfDone at hp
        split at hp <;> exact hp
      rcases List.mem_append.1 hentered with hp | hp
      · rw [hsame] at hp
        exact hkept p (h.results c' p hp)
      · rw [List.mem_singleton.1 hp]
        exact hsource
    · rw [Function.update_of_ne hc] at hp
      exact hkept p (h.results c' p hp)

theorem completed {result : SessionResult} (h : Sourced heard s) (hobj : s.objects sid = some obj)
    (hresult : obj.session.result = some result) (hc : Completed s sid obj result s') : Sourced heard s' := by
  have hcommand := hc.command
  split at hcommand
  · obtain ⟨hcommands, hreports, -⟩ := hcommand
    exact h.untouched hc.objects hcommands hreports
  · rcases hcommand with ⟨c', hsame, hcommands, hreports, -, -⟩ | ⟨c', hsame, hcommands, hreports, -, rfl⟩
    · refine h.same ⟨fun other obj' hobj' => ?_, fun other => by rw [hc.objects], fun c => ?_, hreports⟩
      · rw [hc.objects] at hobj'
        exact ⟨obj', hobj', fun hhas => ⟨hhas, rfl⟩⟩
      · rw [hcommands]
        by_cases heq : c = obj.task.command
        · subst heq
          rw [Function.update_self]
          exact hsame.completedTasks
        · rw [Function.update_of_ne heq]
    · refine h.report hc.objects ?_ hsame.completedTasks hcommands ?_
      · rw [hreports]
        exact List.subset_append_left _ _
      · refine .server sid ?_ ⟨⟨obj.task, some sid, some sid, (s.tasks obj.task).scan⟩, ?_, rfl, rfl⟩ ?_
        · rw [hc.objects, hobj, Option.map_some]
        · rw [hreports]
          exact List.mem_append_right _ (List.mem_singleton.2 rfl)
        · exact h.told sid obj hobj (.inr hresult)

theorem replied (hbook : Book s) (h : Sourced heard s) (hobj : s.objects sid = some obj) {reply : ServerSession.Reply}
    (hr : Book.ReplyOk s sid obj reply) (htold : HasOutcome reply.session → Said heard sid (outcome reply.session)) :
    Sourced heard (s.replied order sid obj reply elapsed) := by
  have hset := h.setObject hobj htold
  have hself : (s.setObject sid { obj with session := reply.session }).objects sid =
      some { obj with session := reply.session } := by simp [NodeManager.setObject]
  unfold NodeManager.replied
  cases haction : reply.action with
  | none => exact hset
  | some action =>
    cases action with
    | compressPch => exact hset
    | raise => exact hset.raise
    | gather => exact hset.untouched rfl rfl rfl
    | complete result =>
      obtain ⟨hresult, hwin⟩ := hr.ends result haction
      have hbook' := hbook.setObject hobj hr
      dsimp only
      by_cases hsid : sid ∈ s.sessions
      · exact hset.completed hself hresult
          (sessionCompleted_spec order elapsed (hbook'.toRecords.completes hsid hself hresult (hwin hsid)))
      · have hgone : sid ∉ (s.setObject sid { obj with session := reply.session }).sessions := hsid
        rw [sessionCompleted_gone hgone]
        exact hset.raise

/-! ### The callbacks -/

theorem gotDataFromServer (hbook : Book s) (h : Sourced heard s) (hobj : s.objects sid = some obj) (msg : FromServer)
    (hheard : .message sid msg elapsed ∈ heard) : Sourced heard (s.gotDataFromServer order sid obj msg elapsed) := by
  obtain ⟨hbook', hself, -, -⟩ := hbook.registration hobj msg
  refine replied hbook' (h.registration msg) hself (hbook.gotDataFromServer_ok hobj msg) fun hhas => ?_
  rcases gotDataFromServer_tells with htells | hkeeps
  · exact ⟨msg, elapsed, hheard, htells⟩
  · obtain ⟨hhad, houtcome⟩ := hkeeps hhas
    rw [houtcome]
    exact h.told sid obj hobj hhad

theorem terminateSessions (hbook : Book s) (h : Sourced heard s) (gone : List SessionId) :
    Sourced heard (NodeManager.terminateSessions order s gone) := by
  induction gone generalizing s with
  | nil => exact h
  | cons sid rest ih =>
    unfold NodeManager.terminateSessions
    cases hobj : s.objects sid with
    | none => exact h
    | some obj =>
      have hended : HasOutcome obj.session.terminate.session →
          Said heard sid (outcome obj.session.terminate.session) := by
        rintro (hstate | hresult)
        · cases hstate
        · cases hresult
      have hreplied : Sourced heard (s.replied order sid obj obj.session.terminate 0) :=
        replied hbook h hobj Book.terminate_ok hended
      dsimp only
      split
      · exact ih (hbook.replied hobj Book.terminate_ok) hreplied
      · exact hreplied

theorem updateNodeInfo (hbook : Book s) (h : Sourced heard s) {live : Bool} (nodes : List NodeId)
    (gone : List SessionId) : Sourced heard (NodeManager.updateNodeInfo live order s nodes gone) := by
  have hpolled : Book { s with nodeInfo := nodes, polled := true } := { hbook with }
  have hgone : Sourced heard (NodeManager.terminateSessions order { s with nodeInfo := nodes, polled := true } gone) :=
    terminateSessions hpolled (h.untouched rfl rfl rfl) gone
  unfold NodeManager.updateNodeInfo
  dsimp only
  split
  · exact hgone.of_rearranged (.findWorkAll _ _ _)
  · exact hgone

/-- A session that has just been made has no result. -/
theorem createSession (h : Sourced heard s) (hfresh : s.objects (s.counter + 1) = none) :
    Sourced heard (s.createSession t node) := by
  have hcounted : Sourced heard { s with counter := s.counter + 1 } := h.untouched rfl rfl rfl
  unfold NodeManager.createSession
  dsimp only
  split
  · exact hcounted.raise
  · split
    · exact hcounted.raise
    · refine ⟨fun sid obj hobj hhas => ?_, fun c p hp => ?_⟩
      · by_cases heq : sid = s.counter + 1
        · subst heq
          simp only [Function.update_self, Option.some.injEq] at hobj
          subst hobj
          rcases hhas with hstate | hresult
          · cases hstate
          · cases hresult
        · simp only [Function.update_of_ne heq] at hobj
          exact h.told sid obj hobj hhas
      · refine source_mono (h.results c p hp) (fun _ => id) (fun sid t' ht' => ?_) fun _ => id
        have hne : sid ≠ s.counter + 1 := by
          rintro rfl
          rw [hfresh] at ht'
          cases ht'
        simpa [Function.update_of_ne hne] using ht'

theorem createTasks (h : Sourced heard s) {c : CommandId} {command : Command} (hnone : command.completedTasks = [])
    (tasks : TaskId → Task) : Sourced heard { s.setCommand c command with tasks } where
  told := h.told
  results c' p hp := by
    by_cases hc : c' = c
    · subst hc
      simp only [NodeManager.setCommand, Function.update_self, hnone] at hp
      cases hp
    · simp only [NodeManager.setCommand, Function.update_of_ne hc] at hp
      exact source_mono (h.results c' p hp) (fun _ => id) (fun _ _ => id) fun _ => id

theorem scanned (h : Sourced heard s) {scan : Scan} (hs : s.scanned t scan = some s') : Sourced heard s' := by
  unfold NodeManager.scanned at hs
  split at hs
  · cases hs
    exact h.untouched rfl rfl rfl
  · cases hs

theorem preprocessingFailed (h : Sourced heard s) {stderr : Bytes}
    (hheard : .preprocessingFailed t stderr ∈ heard) :
    Sourced heard (s.taskCompleted t { retcode := UInt32.ofInt (-1), stderr } none) := by
  have hlogged : Sourced heard (s.logReport t none) := by
    refine ⟨h.told, fun c p hp => source_mono (h.results c p hp) (fun _ => id) (fun _ _ => id) ?_⟩
    exact List.subset_append_left _ _
  unfold NodeManager.taskCompleted
  split
  · exact hlogged.raise
  · split
    · exact hlogged.raise
    · exact hlogged.report rfl (fun _ => id) rfl rfl (.scanner hheard rfl rfl)

end Sourced

section Runs
variable {heard : List Event} {s s' : NodeManager} {order : NodeManager → List NodeId}

theorem step_sourced {live : Bool} {e : Event} (hbook : Book s) (h : Sourced heard s) (hheard : e ∈ heard)
    (hs : step live order s e = some s') : Sourced heard s' := by
  cases e with
  | createTasks c files shouldInvokeLinker =>
    obtain ⟨-, rfl⟩ := steps_of_step hs
    exact h.createTasks rfl _
  | preprocessed t =>
    obtain ⟨s₁, hs₁, rfl⟩ := steps_of_step hs
    exact (h.scanned hs₁).of_rearranged (.scheduleTask _ _ _)
  | preprocessingFailed t stderr =>
    obtain ⟨s₁, hs₁, rfl⟩ := steps_of_step hs
    exact (h.scanned hs₁).preprocessingFailed hheard
  | cannotDistribute t => exact h.scanned hs
  | connected i =>
    obtain ⟨t, node, hi, rfl⟩ := steps_of_step hs
    have hfewer : Sourced heard { s with connecting := s.connecting.eraseIdx i } := h.untouched rfl rfl rfl
    apply hfewer.createSession
    apply Option.eq_none_iff_forall_ne_some.2
    intro obj hobj
    exact absurd (hbook.fresh (s.counter + 1) obj hobj) (Nat.not_succ_le_self _)
  | connectionFailed i =>
    obtain ⟨t, node, hi, rfl⟩ := steps_of_step hs
    have hfewer : Sourced heard { s with connecting := s.connecting.eraseIdx i } := h.untouched rfl rfl rfl
    exact hfewer.raise
  | message sid msg elapsed =>
    rcases steps_of_step hs with ⟨-, obj, hobj, rfl⟩ | ⟨-, rfl⟩
    · exact h.gotDataFromServer hbook hobj msg hheard
    · exact h
  | decompressed i ok elapsed =>
    obtain ⟨sid, obj, hi, hobj, rfl⟩ := steps_of_step hs
    have hstate := hbook.gathering_state (List.mem_of_getElem? hi) hobj
    have hfewer : Book { s with decompressing := s.decompressing.eraseIdx i } :=
      { hbook with gathering := fun sid hsid => hbook.gathering sid (List.eraseIdx_subset hsid) }
    have hkept : Sourced heard { s with decompressing := s.decompressing.eraseIdx i } := h.untouched rfl rfl rfl
    refine hkept.replied hfewer hobj (hfewer.completeSession_ok hobj ok hstate) fun hhas => ?_
    obtain ⟨hhad, houtcome⟩ := completeSession_keeps hstate ok hhas
    rw [houtcome]
    exact h.told sid obj hobj hhad
  | updateNodeInfo nodes gone =>
    obtain ⟨-, rfl⟩ := steps_of_step hs
    exact h.updateNodeInfo hbook nodes gone

theorem run_sourced {live : Bool} {events : List Event} (hbook : Book s) (h : Sourced heard s)
    (hrun : run (step live order) s events = some s') : Book s' ∧ Sourced (heard ++ events) s' := by
  induction events generalizing heard s with
  | nil =>
    cases hrun
    rw [List.append_nil]
    exact ⟨hbook, h⟩
  | cons e events ih =>
    obtain ⟨s₁, hs₁, hrun⟩ := Option.bind_eq_some_iff.1 hrun
    have hmore : Sourced (heard ++ [e]) s := h.heard_more (List.subset_append_left _ _)
    rw [List.append_cons]
    exact ih (step_book hbook hs₁) (step_sourced hbook hmore (by simp) hs₁) hrun

end Runs

/-! ## What the client is told -/

/-- The return code of the last task listed that failed. -/
def lastError (results : List (TaskId × TaskResult)) : Retcode :=
  ((results.map fun p => p.2.retcode).filter (· ≠ 0)).getLastD 0

theorem exitErrorCode_eq (command : Command) : command.exitErrorCode = lastError command.items := by
  have hfold : ∀ (results : List (TaskId × TaskResult)) (code : Retcode),
      results.foldl (fun code p => if p.2.retcode ≠ 0 then p.2.retcode else code) code =
        ((results.map fun p => p.2.retcode).filter (· ≠ 0)).getLastD code := by
    intro results
    induction results with
    | nil => exact fun _ => rfl
    | cons p results ih =>
      intro code
      rw [List.foldl_cons, ih, List.map_cons]
      by_cases hp : p.2.retcode = 0
      · simp [hp]
      · rw [List.filter_cons_of_pos (by simpa using hp), List.getLastD_cons, if_pos hp]
  exact hfold _ _

/-- The answer is put together from these results. -/
def AnswerOf (linker : Bool) (results : List (TaskId × TaskResult)) : ClientReply → Prop
  | .exit code stdout stderr => code = lastError results ∧ stdout = results.flatMap (·.2.stdout) ∧
      stderr = results.flatMap (·.2.stderr) ∧ (code = 0 → linker = false)
  | .executeAndExit => linker = true ∧ ∀ p ∈ results, p.2.retcode = 0

theorem answer_of (command : Command) :
    AnswerOf command.shouldInvokeLinker command.items command.answer := by
  have herror := exitErrorCode_eq command
  unfold Command.answer
  split
  · rename_i hcode
    exact ⟨herror, rfl, rfl, fun hzero => absurd hzero hcode⟩
  · rename_i hcode
    rw [ne_eq, not_not] at hcode
    split
    · rename_i hlinker
      refine ⟨hlinker, fun p hp => ?_⟩
      have hnone := mt Command.exitErrorCode_ne_zero.2 (not_not.2 hcode)
      by_contra hne
      exact hnone ⟨p, (command.order.perm _).mem_iff.1 hp, hne⟩
    · rename_i hlinker
      exact ⟨hcode.symm.trans herror, rfl, rfl, fun _ => by simpa using hlinker⟩

/-- **The client is told what the servers said.** Whatever a client is told at its command's end is put together from
one result for each of the command's tasks, in the order in which the dictionary lists them: the return codes, and what
was printed. And each of these results is what a server said to the session of the task that reported it, or the error
of the source scanner. -/
theorem answers_from_servers (live : Bool) (order : NodeManager → List NodeId) (slots : NodeId → Option Nat)
    (orders : CommandId → DictOrder) (events : List Event) {s : NodeManager}
    (hrun : run (step live order) (.initial slots orders) events = some s) (c : CommandId) :
    (∀ p ∈ (s.commands c).completedTasks, Source events s p.1 p.2) ∧
    ∀ reply ∈ (s.commands c).replies, ((s.commands c).completedTasks.map (·.1)).Nodup ∧
      (∀ t, t ∈ (s.commands c).completedTasks.map (·.1) ↔ t ∈ (s.commands c).tasks) ∧
      (s.commands c).items.Perm (s.commands c).completedTasks ∧
      AnswerOf (s.commands c).shouldInvokeLinker (s.commands c).items reply := by
  obtain ⟨hbook, hsourced⟩ := run_sourced (book_init slots orders) (Sourced.init slots orders) hrun
  refine ⟨hsourced.results c, fun reply hreply => ?_⟩
  have hok := hbook.commands c
  rw [hok.answered] at hreply
  split at hreply
  · rename_i hall
    rw [List.mem_singleton.1 hreply]
    exact ⟨hok.once, fun t => ⟨hok.listed t, hall.2 t⟩, (s.commands c).order.perm _, answer_of _⟩
  · cases hreply

/-- Two tasks: one cannot be preprocessed, the other one is retried and then compiled with warnings. -/
def answeredEvents : List Event :=
  [.createTasks 0 [⟨0, 1⟩, ⟨0, 1⟩] false, .updateNodeInfo [7] [], .preprocessingFailed ⟨0, 1⟩ [9], .preprocessed ⟨0, 0⟩,
    .connected 0, .message 1 (.missingFiles false false) 0, .message 1 (.serverFailed [1]) 0, .connected 0,
    .message 2 (.missingFiles false false) 0, .message 2 (.serverDone 0 [5] [6]) 0, .message 2 (.chunk true) 0,
    .decompressed 0 true 3]

/-- The dictionary lists last what was entered first. -/
theorem answers_from_servers_retried :
    ∃ s, run (step true fun _ => []) (.initial (fun _ => some 2) fun _ => ⟨List.reverse, List.reverse_perm⟩)
        answeredEvents = some s ∧
      (s.commands 0).replies = [.exit (UInt32.ofInt (-1)) [5] [6, 9]] ∧
      (∀ p ∈ (s.commands 0).completedTasks, Source answeredEvents s p.1 p.2) ∧
      AnswerOf (s.commands 0).shouldInvokeLinker (s.commands 0).items (.exit (UInt32.ofInt (-1)) [5] [6, 9]) := by
  have hreplies : (run (step true fun _ => [])
      (.initial (fun _ => some 2) fun _ => ⟨List.reverse, List.reverse_perm⟩) answeredEvents).map
      (fun s => (s.commands 0).replies) = some [.exit (UInt32.ofInt (-1)) [5] [6, 9]] := rfl
  obtain ⟨s, hs, hreply⟩ := Option.map_eq_some_iff.1 hreplies
  obtain ⟨hsources, hanswers⟩ := answers_from_servers true (fun _ => []) (fun _ => some 2)
    (fun _ => ⟨List.reverse, List.reverse_perm⟩) answeredEvents hs 0
  refine ⟨s, hs, hreply, hsources, (hanswers _ ?_).2.2.2⟩
  rw [hreply]
  exact List.mem_singleton.2 rfl

end BuildPal.Scheduler
