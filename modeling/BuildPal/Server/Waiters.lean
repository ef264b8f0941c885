import Mathlib.Data.List.Nodup
import BuildPal.Server.RunnerSteps
/-!
# Sessions that wait for a file

`file_completed` and `set_compiler_ready` call the handlers of the sessions
that wait, one after the other; an exception in one of them leaves the rest
where they were. We say exactly when a handler raises, and that all of them are
called if and only if none of them does.
-/
open BuildPal.Lib BuildPal.Message
open BuildPal.CompileSession (State Outcome)

namespace BuildPal.Runner

namespace Server
variable (s : Server) (sid : SessionId)

/-! ## Handlers that raise -/

/-- The session's timer has fired, and cannot be cancelled any more. -/
def Stale : Prop := (s.sessions sid).selfdestruct ∧ sid ∉ s.queue

/-- `__run_compiler` raises for the session. -/
def RunRaises : Prop :=
  if (s.sessions sid).cancelPending then
    (s.sessions sid).state = .cancelled ∨ (s.sessions sid).completed ∨ s.Stale sid
  else s.Stale sid ∨ (s.sessions sid).task.msvc = false ∨ (s.sessions sid).includeDirs = .failed

/-- `__check_compiler_files` raises for the session. -/
def CheckRaises : Prop :=
  if (s.sessions sid).task.compilerId ∈ s.compilers then s.RunRaises sid
  else (s.sessions sid).task.compilerId ∉ s.partialCompilers

instance : Decidable (s.Stale sid) := inferInstanceAs (Decidable (_ ∧ _))
instance : Decidable (s.RunRaises sid) := inferInstanceAs (Decidable (ite _ _ _))
instance : Decidable (s.CheckRaises sid) := inferInstanceAs (Decidable (ite _ _ _))

variable {s sid}

theorem cancelSelfdestruct_raises : (s.cancelSelfdestruct sid).2 = true ↔ s.Stale sid := by
  unfold cancelSelfdestruct Stale
  split
  · split <;> simp_all
  · simp_all

theorem cancelSelfdestruct_session :
    ((s.cancelSelfdestruct sid).1.sessions sid).task = (s.sessions sid).task ∧
      ((s.cancelSelfdestruct sid).1.sessions sid).includeDirs = (s.sessions sid).includeDirs := by
  unfold cancelSelfdestruct
  split
  · split <;> simp
  · simp

theorem sessionDone_raises : (s.sessionDone sid).2 = true ↔ (s.sessions sid).completed ∨ s.Stale sid := by
  unfold sessionDone
  split
  · simp_all
  · rename_i hc
    rw [← cancelSelfdestruct_raises]
    unfold Called.andThen
    split <;> simp_all

theorem cancelSession_raises : (s.cancelSession sid).2 = true ↔
    (s.sessions sid).state = .cancelled ∨ (s.sessions sid).completed ∨ s.Stale sid := by
  unfold cancelSession
  split
  · simp_all
  · rename_i hc
    rw [sessionDone_raises]
    simp [hc, Stale, note, modify]

theorem runCompiler_raises : (s.runCompiler sid).2 = true ↔ s.RunRaises sid := by
  unfold runCompiler RunRaises
  split
  · exact cancelSession_raises
  · obtain ⟨htask, hdirs⟩ : ((s.cancelSelfdestruct sid).1.sessions sid).task = (s.sessions sid).task ∧ _ :=
      cancelSelfdestruct_session
    rw [← cancelSelfdestruct_raises]
    unfold Called.andThen
    split
    · simp_all
    · dsimp only
      rw [htask, hdirs]
      split
      · simp_all
      · split <;> simp_all

theorem checkCompilerFiles_raises : (s.checkCompilerFiles sid).2 = true ↔ s.CheckRaises sid := by
  unfold checkCompilerFiles CheckRaises
  dsimp only
  split
  · exact runCompiler_raises
  · split <;> simp_all

/-! ## One handler after the other -/

/-- How often the session's handler has been called. -/
def calls (s : Server) (w : SessionId) : Nat := s.log.count (.invoked w)

theorem calls_append {s s' : Server} {l : List Effect} (hl : s'.log = s.log ++ l) (w : SessionId)
    (hnot : .invoked w ∉ l) : s'.calls w = s.calls w := by
  simp [calls, hl, List.count_append, List.count_eq_zero.2 hnot]

theorem own_calls {s' : Server} (h : Own sid s s') (w : SessionId) : s'.calls w = s.calls w := by
  obtain ⟨l, hl, hall⟩ := h.log
  refine calls_append hl w fun hmem => ?_
  obtain ⟨hsession, hne⟩ := hall _ hmem
  subst hsession
  exact hne rfl

/-- A handler, and when it raises: it concerns one session, and does not decide over the others. -/
structure Handles (handler : Server → SessionId → Called) (R : Server → SessionId → Prop) : Prop where
  raises : ∀ s w, (handler s w).2 = true ↔ R s w
  noted : ∀ s e w, R (Server.note s e) w ↔ R s w
  others : ∀ s v w, w ≠ v → (R (handler s v).1 w ↔ R s w)
  calls : ∀ s v w, (handler s v).1.calls w = s.calls w
  common : ∀ s v, (handler s v).1.common = s.common
  pchWaiters : ∀ s v, (handler s v).1.pchWaiters = s.pchWaiters
  log : ∀ s v, ∃ l, (handler s v).1.log = s.log ++ l ∧ ∀ e ∈ l, e.session = v

theorem own_pchWaiters {s' : Server} (h : Own sid s s') : s'.pchWaiters = s.pchWaiters := by
  change s'.shared.pchWaiters = s.shared.pchWaiters
  rw [h.shared]

theorem own_compilerWaiters {s' : Server} (h : Own sid s s') : s'.compilerWaiters = s.compilerWaiters := by
  change s'.shared.compilerWaiters = s.shared.compilerWaiters
  rw [h.shared]

theorem own_common {s' : Server} (h : Own sid s s') : s'.common = s.common := by
  unfold common
  rw [h.shared]

theorem runRaises_congr {s' : Server} (hsession : s'.sessions sid = s.sessions sid)
    (hqueue : sid ∈ s'.queue ↔ sid ∈ s.queue) : s'.RunRaises sid ↔ s.RunRaises sid := by
  simp only [RunRaises, Stale, hsession, hqueue]

theorem checkRaises_congr {s' : Server} (hsession : s'.sessions sid = s.sessions sid)
    (hqueue : sid ∈ s'.queue ↔ sid ∈ s.queue) (hcommon : s'.common = s.common) :
    s'.CheckRaises sid ↔ s.CheckRaises sid := by
  have hc : s'.compilers = s.compilers := by
    change s'.common.compilers = s.common.compilers
    rw [hcommon]
  have hp : s'.partialCompilers = s.partialCompilers := by
    change s'.common.partialCompilers = s.common.partialCompilers
    rw [hcommon]
  simp only [CheckRaises, hsession, runRaises_congr hsession hqueue, hc, hp]

theorem runCompiler_handles : Handles runCompiler RunRaises where
  raises _ _ := runCompiler_raises
  noted _ _ _ := Iff.rfl
  others _ _ w hne := runRaises_congr (runCompiler_own.others w hne) (runCompiler_own.queue w hne)
  calls _ _ w := own_calls runCompiler_own w
  common _ _ := own_common runCompiler_own
  pchWaiters _ _ := own_pchWaiters runCompiler_own
  log _ _ := runCompiler_own.log.imp fun _ h => h.imp_right fun hall e he => (hall e he).1

/-- To wait for the compiler is to do nothing else. -/
theorem checkCompilerFiles_cases (s : Server) (v : SessionId) :
    s.checkCompilerFiles v = s.runCompiler v ∨ ∃ waiters b,
      s.checkCompilerFiles v = ({ s with compilerWaiters := waiters }, b) := by
  unfold checkCompilerFiles
  dsimp only
  split
  · exact .inl rfl
  · split
    · exact .inr ⟨_, _, rfl⟩
    · exact .inr ⟨s.compilerWaiters, _, rfl⟩

theorem checkCompilerFiles_handles : Handles checkCompilerFiles CheckRaises where
  raises _ _ := checkCompilerFiles_raises
  noted _ _ _ := Iff.rfl
  others s v w hne := by
    rcases checkCompilerFiles_cases s v with h | ⟨waiters, b, h⟩
    · rw [h]
      exact checkRaises_congr (runCompiler_own.others w hne) (runCompiler_own.queue w hne) (own_common runCompiler_own)
    · rw [h]
      rfl
  calls s v w := by
    rcases checkCompilerFiles_cases s v with h | ⟨waiters, b, h⟩
    · rw [h]
      exact own_calls runCompiler_own w
    · rw [h]
      rfl
  common s v := by
    rcases checkCompilerFiles_cases s v with h | ⟨waiters, b, h⟩
    · rw [h]
      exact own_common runCompiler_own
    · rw [h]
      rfl
  pchWaiters s v := by
    rcases checkCompilerFiles_cases s v with h | ⟨waiters, b, h⟩
    · rw [h]
      exact own_pchWaiters runCompiler_own
    · rw [h]
  log s v := by
    rcases checkCompilerFiles_cases s v with h | ⟨waiters, b, h⟩
    · rw [h]
      exact runCompiler_own.log.imp fun _ h => h.imp_right fun hall e he => (hall e he).1
    · rw [h]
      exact ⟨[], by simp, by simp⟩

section Handlers
variable {handler : Server → SessionId → Called} {R : Server → SessionId → Prop}

/-- Unless one of them raises, the handlers are called once for each time the session is in the list. All that is heard
of is what these sessions do. -/
theorem invokeAll_handles (hh : Handles handler R) (ws : List SessionId) : ∀ s : Server, ws.Nodup →
    ((invokeAll handler ws s).2 = true ↔ ∃ w ∈ ws, R s w) ∧
      ((invokeAll handler ws s).2 = false → ∀ w, (invokeAll handler ws s).1.calls w = s.calls w + ws.count w) ∧
      (invokeAll handler ws s).1.common = s.common ∧ (invokeAll handler ws s).1.pchWaiters = s.pchWaiters ∧
      ∃ l, (invokeAll handler ws s).1.log = s.log ++ l ∧ ∀ e ∈ l, e.session ∈ ws := by
  induction ws with
  | nil =>
    intro s _
    exact ⟨by simp [invokeAll], fun _ w => by simp [invokeAll], rfl, rfl, [], by simp [invokeAll], by simp⟩
  | cons v ws ih =>
    intro s hnodup
    obtain ⟨hv, hnodup'⟩ := List.nodup_cons.1 hnodup
    have hraises := (hh.raises (s.note (.invoked v)) v).trans (hh.noted s (.invoked v) v)
    have hcommon : (handler (s.note (.invoked v)) v).1.common = s.common := hh.common _ v
    have hwaiters : (handler (s.note (.invoked v)) v).1.pchWaiters = s.pchWaiters := hh.pchWaiters _ v
    have hcalls : ∀ w, (handler (s.note (.invoked v)) v).1.calls w = s.calls w + [v].count w := by
      intro w
      rw [hh.calls]
      simp [calls, note, List.count_append, List.count_singleton]
    obtain ⟨l, hl, hsession⟩ := hh.log (s.note (.invoked v)) v
    -- The call of one session does not decide whether another raises.
    have hothers : ∀ w ∈ ws, (R (handler (s.note (.invoked v)) v).1 w ↔ R s w) := by
      intro w hw
      refine (hh.others _ v w ?_).trans (hh.noted s _ w)
      rintro rfl
      exact hv hw
    simp only [invokeAll, Called.andThen]
    -- The first that raises ends the loop.
    split
    · rename_i hraised
      refine ⟨⟨fun _ => ⟨v, by simp, hraises.1 hraised⟩, fun _ => hraised⟩, fun h => ?_, hcommon, hwaiters,
        .invoked v :: l, ?_, fun e he => ?_⟩
      · rw [hraised] at h
        cases h
      · rw [hl]
        simp [note]
      · rcases List.mem_cons.1 he with rfl | he
        · exact List.mem_cons_self ..
        · rw [hsession e he]
          exact List.mem_cons_self ..
    · rename_i hraised
      obtain ⟨hraises', hcalls', hcommon', hwaiters', l', hl', hsession'⟩ :=
        ih (handler (s.note (.invoked v)) v).1 hnodup'
      refine ⟨hraises'.trans ⟨?_, ?_⟩, fun h w => ?_, hcommon'.trans hcommon, hwaiters'.trans hwaiters,
        .invoked v :: (l ++ l'), ?_, fun e he => ?_⟩
      · rintro ⟨w, hw, hr⟩
        exact ⟨w, by simp [hw], (hothers w hw).1 hr⟩
      · rintro ⟨w, hw, hr⟩
        rcases List.mem_cons.1 hw with rfl | hw
        · exact absurd (hraises.2 hr) hraised
        · exact ⟨w, hw, (hothers w hw).2 hr⟩
      · rw [hcalls' h w, hcalls w, Nat.add_assoc, ← List.count_append]
        rfl
      · rw [hl', hl]
        simp [note]
      · rcases List.mem_cons.1 he with rfl | he
        · exact List.mem_cons_self ..
        · rcases List.mem_append.1 he with he | he
          · rw [hsession e he]
            exact List.mem_cons_self ..
          · exact List.mem_cons_of_mem v (hsession' e he)

theorem invokeAll_compilerWaiters (ws : List SessionId) (s : Server) :
    (invokeAll runCompiler ws s).1.compilerWaiters = s.compilerWaiters := by
  induction ws generalizing s with
  | nil => rfl
  | cons v ws ih =>
    have hfirst : ((s.note (.invoked v)).runCompiler v).1.compilerWaiters = s.compilerWaiters :=
      (own_compilerWaiters (runCompiler_own (s := s.note (.invoked v)))).trans rfl
    simp only [invokeAll, Called.andThen]
    split
    · exact hfirst
    · exact (ih _).trans hfirst

end Handlers

/-! ## The session that provided the file -/

/-- In a step, the session's `compile` is called. -/
def Compiles (s s' : Server) (sid : SessionId) : Prop := ∃ l, s'.log = s.log ++ l ∧ .compiles sid ∈ l

theorem whenPchIsAvailable_log (s : Server) (sid : SessionId) :
    (∀ w, (s.whenPchIsAvailable sid).1.calls w = s.calls w) ∧ ∃ l, (s.whenPchIsAvailable sid).1.log = s.log ++ l := by
  unfold whenPchIsAvailable
  split
  · exact ⟨checkCompilerFiles_handles.calls s sid, (checkCompilerFiles_handles.log s sid).imp fun _ h => h.1⟩
  · split
    · exact ⟨checkCompilerFiles_handles.calls s sid, (checkCompilerFiles_handles.log s sid).imp fun _ h => h.1⟩
    · exact ⟨fun _ => rfl, [], by simp⟩

theorem compile_log (s : Server) (sid : SessionId) :
    (∀ w, (s.compile sid).1.calls w = s.calls w) ∧ s.Compiles (s.compile sid).1 sid := by
  obtain ⟨hcalls, l, hl⟩ := whenPchIsAvailable_log (s.enterRunningCompiler sid) sid
  refine ⟨fun w => (hcalls w).trans ?_, .compiles sid :: l, ?_, by simp⟩
  · simp [calls, enterRunningCompiler, note, modify, List.count_append]
  · rw [compile, hl]
    simp [enterRunningCompiler, note, modify]

theorem Compiles.of_log {s t s' : Server} {l : List Effect} (hl : t.log = s.log ++ l) (h : t.Compiles s' sid) :
    s.Compiles s' sid := by
  obtain ⟨l', hl', hmem⟩ := h
  exact ⟨l ++ l', by rw [hl', hl, List.append_assoc], by simp [hmem]⟩

theorem not_compiles_of_log {s s' : Server} (hl : s'.log = s.log) : ¬ s.Compiles s' sid := by
  rintro ⟨l, hl', hmem⟩
  have hnil : l = [] := by simpa [hl] using hl'
  simp [hnil] at hmem

/-- Once its PCH file is there, a session that compiles waits at most for its compiler. -/
theorem compile_pchWaiters {pch : PchFile} (hk : (s.sessions sid).task.pchFile = some pch) (hf : (s.files pch).isSome) :
    (s.compile sid).1.pchWaiters = s.pchWaiters := by
  have hk' : ((s.enterRunningCompiler sid).sessions sid).task.pchFile = some pch := by
    simpa [enterRunningCompiler, note] using hk
  have hf' : ((s.enterRunningCompiler sid).files pch).isSome := hf
  unfold compile whenPchIsAvailable
  rw [hk']
  dsimp only
  rw [if_pos hf']
  exact checkCompilerFiles_handles.pchWaiters _ _

/-- Once its compiler is there, a session that compiles waits at most for its PCH file. -/
theorem compile_compilerWaiters (hc : (s.sessions sid).task.compilerId ∈ s.compilers) :
    (s.compile sid).1.compilerWaiters = s.compilerWaiters := by
  have hrun : ((s.enterRunningCompiler sid).checkCompilerFiles sid).1.compilerWaiters = s.compilerWaiters := by
    have hc' : ((s.enterRunningCompiler sid).sessions sid).task.compilerId ∈ (s.enterRunningCompiler sid).compilers := by
      simpa [enterRunningCompiler, note, modify] using hc
    unfold checkCompilerFiles
    dsimp only
    rw [if_pos hc']
    exact (own_compilerWaiters (runCompiler_own (s := s.enterRunningCompiler sid))).trans rfl
  unfold compile whenPchIsAvailable
  split
  · exact hrun
  · split
    · exact hrun
    · rfl

end Server

/-! ## What a completed file starts -/

/-- `file_completed` has called every live session that waited, nobody waits for the file any more, and the session
that provided it compiles. -/
structure PchStarted (s s' : Server) (sid : SessionId) (pch : PchFile) : Prop where
  invoked : ∀ w ∈ s.pchWaiters pch, (s.sessions w).completed = false → s'.calls w = s.calls w + 1
  empty : s'.pchWaiters pch = []
  compiles : s.Compiles s' sid

/-- `set_compiler_ready` has called every live session that waited, nobody waits for the compiler any more, and the
session that provided it goes on: to its PCH file if it is to provide one, else it compiles. -/
structure CompilerStarted (s s' : Server) (sid : SessionId) (id : CompilerId) : Prop where
  invoked : ∀ w ∈ s.compilerWaiters id, (s.sessions w).completed = false → s'.calls w = s.calls w + 1
  empty : s'.compilerWaiters id = []
  goesOn : if (s.sessions sid).pchRequired then (s'.sessions sid).state = .downloadingPCH else s.Compiles s' sid

section Started
variable {s s' : Server} {sid : SessionId}

/-- Nothing that other sessions do starts this one. -/
theorem not_compiles_of_others {l : List Effect} (hl : s'.log = s.log ++ l) (hall : ∀ e ∈ l, e.session ≠ sid) :
    ¬ s.Compiles s' sid := by
  rintro ⟨l', hl', hmem⟩
  obtain rfl : l = l' := List.append_cancel_left (hl.symm.trans hl')
  exact hall _ hmem rfl

theorem pchCompleted_started {pch : PchFile} (hs : Stages s) (hw : sid ∈ s.completions)
    (hk : (s.sessions sid).task.pchFile = some pch) :
    PchStarted s (s.pchCompleted sid).1 sid pch ↔
      s.partialFiles pch ≠ none ∧ sid ∉ s.writes ∧ ∀ w ∈ s.pchWaiters pch, ¬ s.CheckRaises w := by
  rw [Server.pchCompleted_eq hk]
  cases hp : s.partialFiles pch with
  | none =>
    rw [Server.fileCompleted_raises (s := s.dropCompletion sid) hp]
    refine ⟨fun h => absurd h.compiles (Server.not_compiles_of_log rfl), fun h => absurd rfl h.1⟩
  | some f =>
    have hd := Server.completion_state hs hw hk (by simp [hp])
    have hs' : Stages (s.dropCompletion sid) := hs.move (.dropCompletion sid)
    obtain ⟨-, hsame, hwrites, -⟩ := Server.fileCompleted_moves hs' hd hp
    rw [Server.fileCompleted_eq (s := s.dropCompletion sid) hp,
      show (s.dropCompletion sid).pchWaiters = s.pchWaiters from rfl] at hsame hwrites ⊢
    -- whether a handler raises is decided before the file is complete
    obtain ⟨hraises, hcalls, hcommon, hwaiters, l, hl, hsession⟩ := Server.invokeAll_handles
      Server.checkCompilerFiles_handles (s.pchWaiters pch) ((s.dropCompletion sid).complete pch f) (hs.once.1 pch)
    change _ ↔ ∃ w ∈ s.pchWaiters pch, s.CheckRaises w at hraises
    change _ = s.log ++ l at hl
    have hne : ∀ e ∈ l, e.session ≠ sid := by
      intro e he heq
      have hmem : sid ∈ s.pchWaiters pch := heq ▸ hsession e he
      exact (hs.pchWaiters pch sid hmem).1 (.inr (.inr (.inr hd)))
    generalize hc : Server.invokeAll Server.checkCompilerFiles (s.pchWaiters pch)
      ((s.dropCompletion sid).complete pch f) = c at *
    change ((c.andThen _).1.sessions sid) = s.sessions sid at hsame
    change (c.andThen _).1.writes = s.writes at hwrites
    change PchStarted s ((c.andThen _).andThen _).1 sid pch ↔ _
    cases hb : c.2 with
    | true =>
      obtain ⟨w, hmem, hraise⟩ := hraises.1 hb
      refine ⟨fun h => ?_, fun h => absurd hraise (h.2.2 w hmem)⟩
      have hempty := h.empty
      simp only [Called.andThen, hb, if_true, hwaiters] at hempty
      change s.pchWaiters pch = [] at hempty
      simp [hempty] at hmem
    | false =>
      have hnone : ∀ w ∈ s.pchWaiters pch, ¬ s.CheckRaises w := by
        intro w hmem hraise
        have := hraises.2 ⟨w, hmem, hraise⟩
        simp [hb] at this
      simp only [Called.andThen, hb, Bool.false_eq_true, if_false] at hsame hwrites ⊢
      generalize ht : ({ c.1 with pchWaiters := Function.update c.1.pchWaiters pch [] } : Server) = t at hsame hwrites ⊢
      have hlog : t.log = s.log ++ l := by rw [← ht, ← hl]
      rw [hwrites]
      by_cases hbusy : sid ∈ s.writes
      · -- its buffer is being written once more
        rw [if_pos hbusy]
        exact ⟨fun h => absurd h.compiles (not_compiles_of_others hlog hne), fun h => absurd hbusy h.2.1⟩
      · rw [if_neg hbusy]
        refine ⟨fun _ => ⟨by simp, hbusy, hnone⟩, fun _ => ?_⟩
        obtain ⟨hcalls', hcompiles⟩ := Server.compile_log t sid
        have hfiles : (t.files pch).isSome := by
          have hcf : c.1.files = ((s.dropCompletion sid).complete pch f).files := congrArg (·.files) hcommon
          rw [← ht]
          change (c.1.files pch).isSome
          rw [hcf]
          simp [Server.complete]
        refine ⟨fun w hmem _ => ?_, ?_, hcompiles.of_log hlog⟩
        · have hone : (s.pchWaiters pch).count w = 1 := List.count_eq_one_of_mem (hs.once.1 pch) hmem
          rw [hcalls' w]
          change t.log.count _ = _
          rw [← ht]
          exact (hcalls hb w).trans (by rw [hone]; rfl)
        · rw [Server.compile_pchWaiters (by rw [← ht]; exact hsame ▸ hk) hfiles, ← ht]
          simp

theorem setCompilerReady_started {id : CompilerId} (hs : Stages s)
    (hd : (s.sessions sid).state = .downloadingCompiler) (hid : (s.sessions sid).task.compilerId = id) :
    CompilerStarted s ((s.setCompilerReady id).andThen (Server.afterCompiler · sid)).1 sid id ↔
      id ∈ s.partialCompilers ∧ id ∉ s.compilers ∧ ∀ w ∈ s.compilerWaiters id, ¬ s.RunRaises w := by
  obtain ⟨-, hsame, hready⟩ := Server.setCompilerReady_moves hs hd hid
  unfold Server.setCompilerReady at hsame hready ⊢
  by_cases hguard : id ∈ s.partialCompilers ∧ id ∉ s.compilers
  · rw [if_pos hguard] at hsame hready ⊢
    obtain ⟨hraises, hcalls, hcommon, -, l, hl, -⟩ := Server.invokeAll_handles Server.runCompiler_handles
      (s.compilerWaiters id)
      { s with partialCompilers := s.partialCompilers.filter (· ≠ id), compilers := id :: s.compilers } (hs.once.2 id)
    have hwaiters := Server.invokeAll_compilerWaiters (s.compilerWaiters id)
      { s with partialCompilers := s.partialCompilers.filter (· ≠ id), compilers := id :: s.compilers }
    change _ ↔ ∃ w ∈ s.compilerWaiters id, s.RunRaises w at hraises
    change _ = s.log ++ l at hl
    change _ = s.compilerWaiters at hwaiters
    generalize hc : Server.invokeAll Server.runCompiler (s.compilerWaiters id)
      { s with partialCompilers := s.partialCompilers.filter (· ≠ id), compilers := id :: s.compilers } = c at *
    cases hb : c.2 with
    | true =>
      -- One of those waiting raises, and the list stays as it is.
      obtain ⟨w, hmem, hraise⟩ := hraises.1 hb
      refine ⟨fun h => ?_, fun h => absurd hraise (h.2.2 w hmem)⟩
      have hempty := h.empty
      simp only [Called.andThen, hb, if_true, hwaiters] at hempty
      simp [hempty] at hmem
    | false =>
      -- All of them are called, each once, and then the list is emptied.
      have hnone : ∀ w ∈ s.compilerWaiters id, ¬ s.RunRaises w := by
        intro w hmem hraise
        have := hraises.2 ⟨w, hmem, hraise⟩
        simp [hb] at this
      refine ⟨fun _ => ⟨hguard.1, hguard.2, hnone⟩, fun _ => ?_⟩
      simp only [Called.andThen, hb, Bool.false_eq_true, if_false] at hsame hready ⊢
      generalize ht : ({ c.1 with compilerWaiters := Function.update c.1.compilerWaiters id [] } : Server) = t
      have hsession : t.sessions sid = s.sessions sid := by
        rw [← ht]
        exact hsame
      have hcompiler : (t.sessions sid).task.compilerId ∈ t.compilers := by
        rw [hsession, hid, ← ht]
        exact (hready trivial).1
      have hlog : t.log = s.log ++ l := by rw [← ht, ← hl]
      have hempty : t.compilerWaiters id = [] := by
        rw [← ht]
        simp
      have hcount : ∀ w ∈ s.compilerWaiters id, t.calls w = s.calls w + 1 := by
        intro w hmem
        have hone : (s.compilerWaiters id).count w = 1 := List.count_eq_one_of_mem (hs.once.2 id) hmem
        rw [← ht]
        exact (hcalls hb w).trans (by rw [hone]; rfl)
      unfold Server.afterCompiler
      rw [hsession]
      by_cases hpch : (s.sessions sid).pchRequired
      · rw [if_pos hpch]
        refine ⟨fun w hmem _ => hcount w hmem, hempty, ?_⟩
        rw [if_pos hpch]
        simp
      · rw [if_neg hpch]
        obtain ⟨hcalls', hcompiles⟩ := Server.compile_log t sid
        refine ⟨fun w hmem _ => (hcalls' w).trans (hcount w hmem), ?_, ?_⟩
        · rw [Server.compile_compilerWaiters hcompiler, hempty]
        · rw [if_neg hpch]
          exact hcompiles.of_log hlog
  · rw [if_neg hguard]
    refine ⟨fun h => ?_, fun h => absurd ⟨h.1, h.2.1⟩ hguard⟩
    have hgoes := h.goesOn
    simp only [Called.andThen, if_true] at hgoes
    split at hgoes
    · simp [hd] at hgoes
    · exact absurd hgoes (Server.not_compiles_of_log rfl)

/-- The session has sent the last part of the compiler, and `set_compiler_ready` is called. -/
def Server.Announces (s : Server) (sid : SessionId) : Prop :=
  sid < s.counter ∧ (s.sessions sid).completed = false ∧ (s.sessions sid).state = .downloadingCompiler ∧
    (s.sessions sid).compilerData ∧ ¬ s.Stale sid

theorem rescheduleSelfdestruct_ok (h : ¬ s.Stale sid) : (s.rescheduleSelfdestruct sid).2 = false := by
  have hok : ¬ (s.cancelSelfdestruct sid).2 = true := fun hr => h (Server.cancelSelfdestruct_raises.1 hr)
  simp [Server.rescheduleSelfdestruct, Called.andThen, hok]

theorem rescheduleSelfdestruct_log : (s.rescheduleSelfdestruct sid).1.log = s.log := by
  unfold Server.rescheduleSelfdestruct Called.andThen Server.cancelSelfdestruct
  dsimp only
  split
  · split <;> rfl
  · rfl

/-- What comes before `set_compiler_ready` concerns the session alone. -/
theorem processMsg_announces (hs : Stages s) (ha : s.Announces sid) (data : Bytes) :
    ∃ t : Server, Stages t ∧
      s.processMsg sid (.chunk data true true) =
        (t.setCompilerReady (s.sessions sid).task.compilerId).andThen (Server.afterCompiler · sid) ∧
      (∀ w, w ≠ sid → t.sessions w = s.sessions w ∧ (w ∈ t.queue ↔ w ∈ s.queue)) ∧
      (t.sessions sid).task = (s.sessions sid).task ∧ (t.sessions sid).state = (s.sessions sid).state ∧
      (t.sessions sid).pchRequired = (s.sessions sid).pchRequired ∧ t.log = s.log ∧
      t.compilerWaiters = s.compilerWaiters ∧ t.compilers = s.compilers ∧
      t.partialCompilers = s.partialCompilers := by
  obtain ⟨hsid, -, hd, hdata, hstale⟩ := ha
  have hstill : Still sid s (s.rescheduleSelfdestruct sid).1 := Server.rescheduleSelfdestruct_still
  have hok := rescheduleSelfdestruct_ok hstale
  have hlog : (s.rescheduleSelfdestruct sid).1.log = s.log := rescheduleSelfdestruct_log
  have hs₁ := hs.still hsid hstill
  obtain ⟨c, d, i, hx⟩ := hstill.session
  generalize hr : s.rescheduleSelfdestruct sid = r at *
  have hd₁ : (r.1.sessions sid).state = .downloadingCompiler := by rw [hx]; exact hd
  have htask : (r.1.sessions sid).task = (s.sessions sid).task := by rw [hx]
  have hdata₁ : (r.1.sessions sid).compilerData = true := by rw [hx]; exact hdata
  let u : Server := { r.1 with compilerDirs := (s.sessions sid).task.compilerId :: r.1.compilerDirs }
  have hs₂ : Stages u := hs₁.move (.compilerDirs _)
  refine ⟨u.modify sid fun x => { x with compilerData := false }, hs₂.move (.noCompilerData hd₁), ?_, fun w hw => ?_, ?_⟩
  · rw [Server.processMsg, hr]
    simp [Called.andThen, hok, Server.stateProcessMsg, hd₁, hdata₁, State.canBeCancelled, htask, u]
  · rw [Server.modify_other u sid _ hw]
    exact ⟨hstill.own.others w hw, hstill.own.queue w hw⟩
  · rw [Server.modify_self]
    have hshared := hstill.own.shared
    refine ⟨htask, hd₁.trans hd.symm, ?_, hlog, ?_, ?_, ?_⟩
    · change (r.1.sessions sid).pchRequired = _
      rw [hx]
    · change r.1.shared.compilerWaiters = s.shared.compilerWaiters
      rw [hshared]
    · change r.1.shared.compilers = s.shared.compilers
      rw [hshared]
    · change r.1.shared.partialCompilers = s.shared.partialCompilers
      rw [hshared]

theorem processMsg_started (hs : Stages s) (ha : s.Announces sid) (data : Bytes) {id : CompilerId}
    (hid : (s.sessions sid).task.compilerId = id) :
    CompilerStarted s (s.processMsg sid (.chunk data true true)).1 sid id ↔
      id ∈ s.partialCompilers ∧ id ∉ s.compilers ∧ ∀ w ∈ s.compilerWaiters id, ¬ s.RunRaises w := by
  obtain ⟨t, hst, heq, hothers, htask, hstate, hpch, hlog, hwaiters, hcompilers, hincomplete⟩ :=
    processMsg_announces hs ha data
  have hd : (s.sessions sid).state = .downloadingCompiler := ha.2.2.1
  -- the session that provides the compiler does not wait for it
  have hne : ∀ w ∈ s.compilerWaiters id, w ≠ sid := by
    rintro w hmem rfl
    exact (hs.compilerWaiters id w hmem).1 (.inr (.inr (.inl hd)))
  have hraises : ∀ w ∈ s.compilerWaiters id, (t.RunRaises w ↔ s.RunRaises w) := fun w hmem =>
    Server.runRaises_congr (hothers w (hne w hmem)).1 (hothers w (hne w hmem)).2
  have hstarted := setCompilerReady_started hst (hstate.trans hd) ((congrArg Task.compilerId htask).trans hid)
  rw [heq, hid]
  generalize ((t.setCompilerReady id).andThen (Server.afterCompiler · sid)).1 = s' at hstarted
  have hcalls : ∀ w, t.calls w = s.calls w := fun w => by
    unfold Server.calls
    rw [hlog]
  have hcompiles : t.Compiles s' sid ↔ s.Compiles s' sid := by
    unfold Server.Compiles
    rw [hlog]
  have hsame : CompilerStarted s s' sid id ↔ CompilerStarted t s' sid id := by
    refine ⟨fun h => ⟨fun w hmem hc => ?_, h.empty, ?_⟩, fun h => ⟨fun w hmem hc => ?_, h.empty, ?_⟩⟩
    · rw [hwaiters] at hmem
      rw [(hothers w (hne w hmem)).1] at hc
      rw [hcalls]
      exact h.invoked w hmem hc
    · rw [hpch, hcompiles]
      exact h.goesOn
    · rw [← hcalls]
      exact h.invoked w (hwaiters ▸ hmem) (by rw [(hothers w (hne w hmem)).1]; exact hc)
    · rw [← hpch, ← hcompiles]
      exact h.goesOn
  rw [hsame, hstarted, hwaiters, hcompilers, hincomplete]
  refine and_congr_right fun _ => and_congr_right fun _ => forall₂_congr fun w hmem => not_congr (hraises w hmem)

end Started

/-- **Waiting sessions are started.** In every state a server can reach: when `pch_completed` is called for a PCH file,
and when the last part of a compiler arrives, every live session that waits for it is called once, nobody waits any
more and the session that provided the file goes on, if and only if the file is still marked as partial (and the
compiler not known already, and the PCH file not being written once more) and no handler of a waiting session
raises. -/
theorem waiters_started {names : Names} {limit : Nat} {dirs : List CompilerId} {es : List Event} {s : Server}
    (hr : run (step names limit) { compilerDirs := dirs } es = some s) :
    (∀ sid pch s', (s.sessions sid).task.pchFile = some pch → step names limit s (.pchCompleted sid) = some s' →
      (PchStarted s s' sid pch ↔
        s.partialFiles pch ≠ none ∧ sid ∉ s.writes ∧ ∀ w ∈ s.pchWaiters pch, ¬ s.CheckRaises w)) ∧
    ∀ sid data id s', s.Announces sid → (s.sessions sid).task.compilerId = id →
      step names limit s (.message sid (.chunk data true true)) = some s' →
      (CompilerStarted s s' sid id ↔
        id ∈ s.partialCompilers ∧ id ∉ s.compilers ∧ ∀ w ∈ s.compilerWaiters id, ¬ s.RunRaises w) := by
  have hs : Stages s := run_inv (step names limit) (fun _ _ _ h hstep => h.step hstep) (Stages.init dirs) hr
  refine ⟨fun sid pch s' hk hstep => ?_, fun sid data id s' ha hid hstep => ?_⟩
  · simp only [step] at hstep
    split at hstep
    · rename_i hw
      cases hstep
      exact pchCompleted_started hs hw hk
    · cases hstep
  · simp only [step, if_pos (And.intro ha.1 ha.2.1)] at hstep
    cases hstep
    exact processMsg_started hs ha data hid

/-- Two sessions wait for the compiler a third one provides. -/
def waitingEvents : List Event :=
  [.newSession { compilerId := "cl" }, .newSession { compilerId := "cl" }, .newSession { compilerId := "cl" },
    .message 1 .taskFiles, .message 2 .taskFiles, .message 0 .taskFiles]

theorem waiters_started_two :
    ∃ s s', run (step ⟨id, id⟩ 1) {} waitingEvents = some s ∧ s.compilerWaiters "cl" = [1, 2] ∧
      step ⟨id, id⟩ 1 s (.message 0 (.chunk [] true true)) = some s' ∧ CompilerStarted s s' 0 "cl" := by
  obtain ⟨s, hs⟩ : ∃ s, run (step ⟨id, id⟩ 1) {} waitingEvents = some s := ⟨_, rfl⟩
  have hstarted := (waiters_started hs).2 0 [] "cl"
  cases hs
  refine ⟨_, _, rfl, rfl, rfl, (hstarted _ ⟨by decide, by decide, by decide, by decide, by decide⟩ rfl rfl).2 ?_⟩
  exact ⟨by decide, by decide, by decide⟩

/-- The first of the two has timed out: its handler raises, and the other one keeps waiting. -/
theorem waiter_not_started :
    ∃ s s', run (step ⟨id, id⟩ 1) {} (waitingEvents ++ [.selfdestruct 1]) = some s ∧
      step ⟨id, id⟩ 1 s (.message 0 (.chunk [] true true)) = some s' ∧ "cl" ∈ s'.compilers ∧
      2 ∈ s.compilerWaiters "cl" ∧ (s.sessions 2).completed = false ∧ s'.calls 2 = 0 ∧
      s'.compilerWaiters "cl" = [1, 2] ∧ .compiles 0 ∉ s'.log :=
  ⟨_, _, rfl, rfl, by decide, by decide, by decide, by decide, by decide, by decide⟩

end BuildPal.Runner
