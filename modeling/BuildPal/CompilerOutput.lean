import BuildPal.WholeSystem
/-!
# From the compiler to the client

What a client is told at the end was printed by compilers: a `SERVER_DONE`
says what the compiler of this very session ended with, the manager takes it
for the session's task, and the client's answer is put together from it.
-/
open BuildPal.Lib BuildPal.Message

namespace BuildPal.SessionProtocol

/-! ## At the server -/

section AtServer
variable {task : SessionTask} {t t' : System} {c : CompileSession} {retcode : Retcode} {stdout stderr : Bytes}

/-- The result does not say how the compiler ended. -/
def NotTold (result : CompileSession.Result) : Prop :=
  ∀ {retcode stdout stderr}, FromServer.serverDone retcode stdout stderr ∉ result.2

theorem cancelSession_notTold (c : CompileSession) : NotTold c.cancelSession := by
  intro retcode stdout stderr
  unfold CompileSession.cancelSession
  split <;> simp [CompileSession.sessionDone]

theorem stateProcessMsg_notTold {needs : Bool × Bool} {handling : CompileSession.Handling} {msg : ToServer}
    {result : CompileSession.Result} (hresult : c.stateProcessMsg needs handling msg = some result) :
    NotTold result := by
  intro retcode stdout stderr
  by_cases hcompiler : c.state = .downloadingCompiler
  · obtain ⟨-, rfl | hunpack⟩ := CompileSession.downloadingCompiler_cases hcompiler hresult
    · exact List.not_mem_nil
    · rcases CompileSession.unpack_cases hunpack with ⟨-, rfl⟩ | ⟨-, rfl⟩ <;> exact List.not_mem_nil
  · unfold CompileSession.stateProcessMsg at hresult
    repeat' split at hresult
    all_goals first
      | contradiction
      | (cases hresult; simp [CompileSession.sessionDone])
      | (obtain ⟨last, -, rfl⟩ := Option.map_eq_some_iff.1 hresult; simp)

theorem processMsg_notTold {needs : Bool × Bool} {handling : CompileSession.Handling} {msg : ToServer} :
    NotTold ((c.processMsg needs handling msg).getD (c, [])) := by
  intro retcode stdout stderr
  cases hresult : c.processMsg needs handling msg with
  | none => exact List.not_mem_nil
  | some result =>
    unfold CompileSession.processMsg at hresult
    split at hresult
    · split at hresult
      · cases hresult
        exact cancelSession_notTold c
      · cases hresult
        exact List.not_mem_nil
    · split at hresult
      · cases hresult
        exact cancelSession_notTold c
      · exact stateProcessMsg_notTold hresult

/-- The compiler ended so, the session was told. -/
def Compiled (e : Event) (retcode : Retcode) (stdout stderr : Bytes) : Prop :=
  ∃ report, e = .callback .compileCompleted report ∧ report.outcome = .exited retcode stdout stderr

theorem callback_told {x : CompileSession.Callback} {report : CompileSession.Report}
    (htold : .serverDone retcode stdout stderr ∈ (c.callback report x).2) :
    Compiled (.callback x report) retcode stdout stderr := by
  cases x with
  | pchCompleted =>
    unfold CompileSession.callback CompileSession.pchCompleted at htold
    cases htold
  | runCompiler =>
    unfold CompileSession.callback CompileSession.runCompiler at htold
    dsimp only at htold
    split at htold
    · exact absurd htold (cancelSession_notTold _)
    · cases htold
  | compileCompleted =>
    refine ⟨report, rfl, ?_⟩
    unfold CompileSession.callback CompileSession.compileCompleted at htold
    dsimp only at htold
    split at htold
    · cases houtcome : report.outcome with
      | raised traceback =>
        simp only [houtcome] at htold
        split at htold <;> simp [CompileSession.sessionDone] at htold
      | exited retcode' stdout' stderr' =>
        simp only [houtcome] at htold
        repeat' split at htold
        all_goals simp_all [CompileSession.sessionDone]
    · cases htold
  | sendCompressed =>
    unfold CompileSession.callback CompileSession.sendCompressed at htold
    dsimp only at htold
    split at htold <;> simp [CompileSession.sessionDone, List.mem_replicate] at htold

/-- Only the end of the compiler puts a `SERVER_DONE` on its way, and it says how the compiler ended. -/
theorem step_told {e : Event} (he : Whole.atServer e = true) (hs : step task t e = some t')
    (htold : .serverDone retcode stdout stderr ∈ t'.toManager) :
    .serverDone retcode stdout stderr ∈ t.toManager ∨ Compiled e retcode stdout stderr := by
  cases e with
  | cancel | terminate | decompressed | deliverToManager => cases he
  | pchCompressed parts =>
    simp only [step] at hs
    split at hs
    · cases hs
    · cases hs
      exact .inl htold
  | deliverToServer needs handling =>
    left
    simp only [step] at hs
    repeat' split at hs
    all_goals cases hs
    all_goals first
      | exact htold
      | exact (List.mem_append.1 htold).resolve_right processMsg_notTold
  | callback x report =>
    obtain ⟨c, -, hs⟩ := Option.bind_eq_some_iff.1 hs
    obtain ⟨-, heq⟩ := Option.ite_none_right_eq_some.1 hs
    cases heq
    exact (List.mem_append.1 htold).imp id callback_told
  | selfdestruct =>
    obtain ⟨c, -, rfl⟩ := Option.map_eq_some_iff.1 hs
    left
    refine (List.mem_append.1 htold).resolve_right ?_
    unfold CompileSession.selfdestruct
    split <;> simp

end AtServer

end BuildPal.SessionProtocol

namespace BuildPal.Whole
open Scheduler

/-! ## In the whole system -/

/-- A compiler of the session ended so. -/
def CompilerSaid (events : List Event) (sid : SessionId) (result : TaskResult) : Prop :=
  ∃ e, .session sid e ∈ events ∧ SessionProtocol.Compiled e result.retcode result.stdout result.stderr

/-- Where a task's result comes from. -/
inductive Origin (events : List Event) (s : NodeManager) (t : TaskId) (result : TaskResult) : Prop where
  /-- From the compiler of the session that reported for the task. -/
  | compiler (sid : SessionId) (task : (s.objects sid).map Session.task = some t)
    (reported : ∃ r ∈ s.reports, r.task = t ∧ r.session = some sid) (printed : CompilerSaid events sid result)
  | scanner (failed : .callback (.preprocessingFailed t result.stderr) ∈ events)
    (retcode : result.retcode = UInt32.ofInt (-1)) (stdout : result.stdout = [])

/-- What the manager has heard, and will hear, of compilers is what they ended with. -/
structure Traced (events : List Event) (w : System) (heard : List Scheduler.Event) : Prop where
  book : Book w.manager
  sourced : Sourced heard w.manager
  onTheWay : ∀ sid result, .serverDone result.retcode result.stdout result.stderr ∈ (w.links sid).toManager →
    CompilerSaid events sid result
  said : ∀ sid result elapsed, .message sid (.serverDone result.retcode result.stdout result.stderr) elapsed ∈ heard →
    CompilerSaid events sid result
  scanned : ∀ t stderr, .preprocessingFailed t stderr ∈ heard → .callback (.preprocessingFailed t stderr) ∈ events

section Traced
variable {events : List Event} {heard : List Scheduler.Event} {w w' : System} {s' : NodeManager} {live : Bool}
  {order : NodeManager → List NodeId} {e : Event}

theorem traced_init (slots : NodeId → Option Nat) (orders : CommandId → DictOrder) :
    Traced [] { manager := .initial slots orders } [] where
  book := book_init slots orders
  sourced := .init slots orders
  onTheWay sid result h := by cases h
  said sid result elapsed h := by cases h
  scanned t stderr h := by cases h

theorem CompilerSaid.more {sid : SessionId} {result : TaskResult} (h : CompilerSaid events sid result) (e : Event) :
    CompilerSaid (events ++ [e]) sid result := by
  obtain ⟨e', hmem, hcompiled⟩ := h
  exact ⟨e', List.mem_append_left _ hmem, hcompiled⟩

/-- A callback puts nothing on its way to the manager. -/
theorem after_toManager {e : Scheduler.Event} {sid : SessionId} {msg : FromServer}
    (hmsg : msg ∈ ((w.after e s').links sid).toManager) : msg ∈ (w.links sid).toManager := by
  unfold System.after at hmsg
  dsimp only at hmsg
  split at hmsg
  · cases hmsg
  · unfold Link.sent at hmsg
    split at hmsg <;> exact hmsg

/-- The manager makes a callback. -/
theorem Traced.callback (h : Traced events w heard) {e : Event} {e' : Scheduler.Event} {links : SessionId → Link}
    (hs : Scheduler.step live order w.manager e' = some s')
    (hlinks : ∀ sid, (links sid).toManager ⊆ (w.links sid).toManager)
    (hsaid : ∀ sid result elapsed, e' = .message sid (.serverDone result.retcode result.stdout result.stderr) elapsed →
      CompilerSaid events sid result)
    (hscanned : ∀ t stderr, e' = .preprocessingFailed t stderr → e = .callback e') :
    Traced (events ++ [e]) (System.after { w with links } e' s') (heard ++ [e']) where
  book := step_book h.book hs
  sourced := step_sourced h.book (h.sourced.heard_more (List.subset_append_left _ _)) (by simp) hs
  onTheWay sid result hmem := (h.onTheWay sid result (hlinks sid (after_toManager hmem))).more e
  said sid result elapsed hmem := by
    rcases List.mem_append.1 hmem with hmem | hmem
    · exact (h.said sid result elapsed hmem).more e
    · exact (hsaid sid result elapsed (List.mem_singleton.1 hmem).symm).more e
  scanned t stderr hmem := by
    rcases List.mem_append.1 hmem with hmem | hmem
    · exact List.mem_append_left _ (h.scanned t stderr hmem)
    · have heq := (List.mem_singleton.1 hmem).symm
      rw [hscanned t stderr heq, heq]
      simp

theorem step_traced (h : Traced events w heard) (hs : step live order w e = some w') :
    ∃ heard', Traced (events ++ [e]) w' heard' := by
  cases e with
  | callback e =>
    obtain ⟨he, hs⟩ := Option.ite_none_left_eq_some.1 hs
    obtain ⟨s', hs', rfl⟩ := Option.map_eq_some_iff.1 hs
    refine ⟨heard ++ [e], h.callback hs' (fun _ _ => id) ?_ fun _ _ _ => rfl⟩
    rintro sid result elapsed rfl
    exact absurd rfl he
  | message sid elapsed =>
    simp only [step] at hs
    split at hs
    · cases hs
    · rename_i msg rest hu
      obtain ⟨s', hs', rfl⟩ := Option.map_eq_some_iff.1 hs
      refine ⟨heard ++ [.message sid msg elapsed], h.callback hs' (fun other msg' hmem => ?_) ?_ ?_⟩
      · by_cases heq : other = sid
        · subst heq
          rw [Function.update_self] at hmem
          rw [hu]
          exact List.mem_cons_of_mem _ hmem
        · rwa [Function.update_of_ne heq] at hmem
      · intro other result elapsed' heq
        cases heq
        exact h.onTheWay sid result (by simp [hu])
      · intro t stderr heq
        cases heq
  | session sid e =>
    obtain ⟨he, hs⟩ := Option.ite_none_right_eq_some.1 hs
    obtain ⟨t, hview, hs⟩ := Option.bind_eq_some_iff.1 hs
    obtain ⟨t', ht', rfl⟩ := Option.map_eq_some_iff.1 hs
    have htoManager : t.toManager = (w.links sid).toManager := by
      obtain ⟨session, -, rfl⟩ := Option.map_eq_some_iff.1 hview
      rfl
    refine ⟨heard, h.book, h.sourced, fun other result hmem => ?_, fun other result elapsed hmem => ?_,
      fun t stderr hmem => ?_⟩
    · by_cases heq : other = sid
      · subst heq
        simp only [Function.update_self, linkOf] at hmem
        -- An outcome newly on its way is the one of the compiler that the session has run.
        rcases SessionProtocol.step_told he ht' hmem with hold | hcompiled
        · rw [htoManager] at hold
          exact (h.onTheWay other result hold).more _
        · exact ⟨e, by simp, hcompiled⟩
      · simp only [Function.update_of_ne heq] at hmem
        exact (h.onTheWay other result hmem).more _
    · exact (h.said other result elapsed hmem).more _
    · exact List.mem_append_left _ (h.scanned t stderr hmem)

theorem run_traced {more : List Event} (h : Traced events w heard) (hrun : run (step live order) w more = some w') :
    ∃ heard', Traced (events ++ more) w' heard' := by
  induction more generalizing events w heard with
  | nil =>
    cases hrun
    rw [List.append_nil]
    exact ⟨heard, h⟩
  | cons e more ih =>
    obtain ⟨w₁, hw₁, hrun⟩ := Option.bind_eq_some_iff.1 hrun
    obtain ⟨heard₁, h₁⟩ := step_traced h hw₁
    rw [List.append_cons]
    exact ih h₁ hrun

theorem Traced.origin (h : Traced events w heard) {t : TaskId} {result : TaskResult}
    (hsource : Source heard w.manager t result) : Origin events w.manager t result := by
  cases hsource with
  | server sid task reported said =>
    obtain ⟨msg, elapsed, hmem, rfl⟩ := said
    exact .compiler sid task reported (h.said sid result elapsed hmem)
  | scanner failed retcode stdout => exact .scanner (h.scanned t result.stderr failed) retcode stdout

/-- **The client is told what the compilers printed.** In every run of the manager and its servers, whatever is lost,
late, cancelled, timed out or tried again, the answer to a client is put together from one result for each task of its
command, as the dictionary lists them; and each result is what the compiler ended with that ran for the session of the
task that reported it, or the error of the source scanner. -/
theorem answers_from_compilers (live : Bool) (order : NodeManager → List NodeId) (slots : NodeId → Option Nat)
    (orders : CommandId → DictOrder) (events : List Event) {w : System}
    (hrun : run (step live order) { manager := .initial slots orders } events = some w)
    {c : CommandId} {reply : ClientReply} (hreply : reply ∈ (w.manager.commands c).replies) :
    AnswerOf (w.manager.commands c).shouldInvokeLinker (w.manager.commands c).items reply ∧
      (w.manager.commands c).items.Perm (w.manager.commands c).completedTasks ∧
      ((w.manager.commands c).completedTasks.map (·.1)).Nodup ∧
      (∀ t, t ∈ (w.manager.commands c).completedTasks.map (·.1) ↔ t ∈ (w.manager.commands c).tasks) ∧
      ∀ p ∈ (w.manager.commands c).completedTasks, Origin events w.manager p.1 p.2 := by
  obtain ⟨heard, htraced⟩ := run_traced (traced_init slots orders) hrun
  rw [List.nil_append] at htraced
  have hok := htraced.book.commands c
  rw [hok.answered] at hreply
  split at hreply
  · rename_i hall
    rw [List.mem_singleton.1 hreply]
    exact ⟨answer_of _, (w.manager.commands c).order.perm _, hok.once, fun t => ⟨hok.listed t, hall.2 t⟩,
      fun p hp => htraced.origin (htraced.sourced.results c p hp)⟩
  · cases hreply

/-- Of two tasks, one cannot be preprocessed. The first session of the other one times out while its compiler is
running; in the second one it compiles with warnings. -/
def compiledEvents : List Event :=
  [.callback (.createTasks 0 [⟨0, 1⟩, ⟨0, 1⟩] false), .callback (.updateNodeInfo [7] []),
    .callback (.preprocessingFailed ⟨0, 1⟩ [9]), .callback (.preprocessed ⟨0, 0⟩), .callback (.connected 0),
    .session 1 (.deliverToServer (false, false)), .message 1 0, .session 1 (.deliverToServer (false, false)),
    .session 1 (.callback .runCompiler {}), .session 1 .selfdestruct, .message 1 0, .callback (.connected 0),
    .session 1 (.callback .compileCompleted { outcome := .exited 0 [1] [1] }),
    .session 2 (.deliverToServer (false, false)), .message 2 0, .session 2 (.deliverToServer (false, false)),
    .session 2 (.callback .runCompiler {}), .session 2 (.callback .compileCompleted { outcome := .exited 0 [5] [6] }),
    .message 2 0, .session 2 (.deliverToServer (false, false)), .session 2 (.callback .sendCompressed {}),
    .message 2 0, .callback (.decompressed 0 true 3)]

theorem answers_from_compilers_retried :
    ∃ w, run (step true fun _ => []) { manager := .initial fun _ => some 2 } compiledEvents = some w ∧
      (w.manager.commands 0).replies = [.exit (UInt32.ofInt (-1)) [5] [9, 6]] ∧
      ∀ p ∈ (w.manager.commands 0).completedTasks, Origin compiledEvents w.manager p.1 p.2 := by
  have hreplies : (run (step true fun _ => []) { manager := .initial fun _ => some 2 }
      compiledEvents).map (fun w => (w.manager.commands 0).replies) =
      some [.exit (UInt32.ofInt (-1)) [5] [9, 6]] := by
    rfl
  obtain ⟨w, hw, hreply⟩ := Option.map_eq_some_iff.1 hreplies
  refine ⟨w, hw, hreply, ?_⟩
  have hmem : .exit (UInt32.ofInt (-1)) [5] [9, 6] ∈ (w.manager.commands 0).replies := by
    rw [hreply]
    exact List.mem_singleton.2 rfl
  exact (answers_from_compilers true (fun _ => []) (fun _ => some 2) _ compiledEvents hw hmem).2.2.2.2

end Traced

end BuildPal.Whole
