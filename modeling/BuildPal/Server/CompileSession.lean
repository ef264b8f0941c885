import BuildPal.Manager.ServerSession
/-!
# The server's side of a compile session

`CompileSession` of `buildpal/server/runner.py`. Work the server hands to its
thread pool, to the other repositories or to the compiler comes back as a
callback; the ones a session waits for are its `pending` list, and each may
fire at any later moment. What a call does with files and with other sessions
may raise, which ends the call where it stands.
-/

namespace BuildPal

namespace CompileSession

/-- `CompileSession.State…`; `StateDone` is never entered. -/
inductive State where
  | getTask
  | downloadMissingHeaders
  | downloadingCompiler
  | downloadingPCH
  | runningCompiler
  | waitForConfirmation
  | cancelled
  | uploadingFile
  | failed
  deriving DecidableEq, Repr

/-- Only the states with a `process_msg` take other messages than `CANCEL_SESSION`. -/
def State.hasProcessMsg : State → Bool
  | .runningCompiler | .uploadingFile | .failed => false
  | _ => true

def State.canBeCancelled : State → Bool
  | .runningCompiler | .waitForConfirmation => true
  | _ => false

/-- The calls that come back to the session. -/
inductive Callback where
  /-- The PCH file is on disk. -/
  | pchCompleted
  /-- The PCH file and the compiler are there: `__run_compiler`. -/
  | runCompiler
  /-- `__compile_completed`. -/
  | compileCompleted
  /-- The object file is compressed: `send_compressed`. -/
  | sendCompressed
  deriving DecidableEq, Repr

/-- How processing a message comes out. -/
inductive Handling where
  | done
  /-- A directory cannot be made, or the compiler not be unpacked. -/
  | failed
  /-- `set_compiler_ready` raises, or a session that it calls. -/
  | handlerFailed
  deriving DecidableEq, Repr

/-- How the compiler ended. -/
inductive Outcome where
  | exited (retcode : Retcode) (stdout stderr : Message.Bytes)
  | raised (traceback : Message.Bytes)

end CompileSession

open CompileSession in
structure CompileSession where
  state : CompileSession.State := .getTask
  cancelPending : Bool := false
  /-- `session_done` has run, and the runner has forgotten the session. -/
  completed : Bool := false
  compilerRequired : Bool := false
  pchRequired : Bool := false
  /-- The session has an attribute `compiler_data`. -/
  compilerData : Bool := false
  pending : List Callback := []

namespace CompileSession
variable (session : CompileSession)

/-- The session after a call, and what it sent. An assertion that fails ends the call where it stands. -/
abbrev Result := CompileSession × List FromServer

/-- `session_done`, called by the session itself. -/
def sessionDone (sent : List FromServer) : Result := ({ session with completed := true }, sent)

/-- `session_done(True)`: the self-destruct timer. -/
def selfdestruct : Result :=
  if session.completed then (session, []) else ({ session with completed := true }, [.timedOut])

/-- `compile`: the compiler runs once the PCH file and the compiler are there. -/
def compile : CompileSession :=
  { session with state := .runningCompiler, pending := session.pending ++ [.runCompiler] }

/-- `cancel_session`. -/
def cancelSession : Result :=
  if session.state = .cancelled then (session, [])
  else { session with state := .cancelled }.sessionDone [.sessionCancelled]

/-- After the compiler, or when none is needed, comes the PCH file. -/
def afterCompiler : CompileSession :=
  if session.pchRequired then { session with state := .downloadingPCH } else session.compile

/-- A message taken for `more, data`. Any message of two parts passes for a chunk. -/
def isLast : ToServer → Option Bool
  | .chunk _ last => some last
  | .sendConfirmation _ => some false
  | _ => none

/-- The last part of the compiler is there. -/
def unpack : Handling → Option Result
  | .done => some ({ session with compilerData := false }.afterCompiler, [])
  | .failed => none
  | .handlerFailed => some ({ session with compilerData := false }, [])

/-- The start of the download of the compiler. -/
def downloadCompiler : CompileSession := { session with state := .downloadingCompiler, compilerData := true }

/-- `process_msg` of the current state, `none` when it raises and nothing has changed: also for the states that have
none. `needs` is what the repositories answer about the compiler and the PCH file. -/
def stateProcessMsg (needs : Bool × Bool) (handling : Handling) (msg : ToServer) : Option Result :=
  match session.state with
  | .getTask =>
    match msg, handling with
    | .newSession, .done =>
      some ({ session with state := .downloadMissingHeaders, compilerRequired := needs.1, pchRequired := needs.2 },
        [.missingFiles needs.1 needs.2])
    | _, _ => none
  | .downloadMissingHeaders =>
    match msg with
    | .taskFiles => some (if session.compilerRequired then session.downloadCompiler else session.afterCompiler, [])
    | _ => none
  | .downloadingCompiler =>
    if session.compilerData then
      (isLast msg).bind fun last => if last then session.unpack handling else some (session, [])
    else none
  | .downloadingPCH =>
    (isLast msg).map fun last =>
      (if last then { session with pending := session.pending ++ [.pchCompleted] } else session, [])
  | .waitForConfirmation =>
    match msg with
    | .sendConfirmation true =>
      some ({ session with state := .uploadingFile, pending := session.pending ++ [.sendCompressed] }, [])
    | .sendConfirmation false => some (session.sessionDone [])
    | _ => none
  | .cancelled => some (session, [])
  | .runningCompiler | .uploadingFile | .failed => none

/-- `process_msg`; called for a session that is not completed. -/
def processMsg (needs : Bool × Bool) (handling : Handling) (msg : ToServer) : Option Result :=
  if msg = .cancelSession then
    -- While the compiler runs there is no message to wait for; in the other states the next one cancels.
    if session.state.canBeCancelled ∧ ¬ session.state.hasProcessMsg then some session.cancelSession
    else some ({ session with cancelPending := true }, [])
  else if session.cancelPending ∧ session.state.canBeCancelled then some session.cancelSession
  else session.stateProcessMsg needs handling msg

/-- `__run_compiler`; `ok` is false if preparing the call raised. -/
def runCompiler (ok : Bool) : Result :=
  if session.cancelPending then session.cancelSession
  else (if ok then { session with pending := session.pending ++ [.compileCompleted] } else session, [])

/-- `__compile_completed`; `ok` is false if what it says cannot be put together or sent. -/
def compileCompleted (ok : Bool) (outcome : Outcome) : Result :=
  if session.state = .runningCompiler then
    match outcome with
    | .raised traceback =>
      let session := { session with state := .failed }
      if ok then session.sessionDone [.serverFailed traceback] else (session, [])
    | .exited retcode stdout stderr =>
      if retcode = 0 then
        -- The state has changed by the time that sending the outcome raises.
        ({ session with state := .waitForConfirmation }, if ok then [.serverDone retcode stdout stderr] else [])
      else if ok then session.sessionDone [.serverDone retcode stdout stderr]
      else (session, [])
  else (session, [])

/-- `send_compressed`, of a file in the given number of parts; `ok` is false if the file could not be compressed. -/
def sendCompressed (ok : Bool) (parts : Nat) : Result :=
  if ok then session.sessionDone (List.replicate parts (.chunk false) ++ [.chunk true]) else (session, [])

/-- `pch_completed`; `ok` is false if `file_completed` raises, or a session that it calls. -/
def pchCompleted (ok : Bool) : Result := (if ok then session.compile else session, [])

/-- What a callback comes back with, and whether it raises. -/
structure Report where
  ok : Bool := true
  outcome : Outcome := .exited 0 [] []
  /-- The number of parts the compressed object file has. -/
  parts : Nat := 0

/-- The callback is pending no longer. -/
def fired (c : Callback) : CompileSession := { session with pending := session.pending.erase c }

/-- A pending callback fires. -/
def callback (report : Report) : Callback → Result
  | .pchCompleted => (session.fired .pchCompleted).pchCompleted report.ok
  | .runCompiler => (session.fired .runCompiler).runCompiler report.ok
  | .compileCompleted => (session.fired .compileCompleted).compileCompleted report.ok report.outcome
  | .sendCompressed => (session.fired .sendCompressed).sendCompressed report.ok report.parts

/-! ## The expected messages -/

section Expected
variable {session} (needs : Bool × Bool) (handling : Handling)

theorem processMsg_newSession_failed (h : session.state = .getTask) (hfailed : handling ≠ .done) :
    session.processMsg needs handling .newSession = none := by
  cases handling <;> simp_all [processMsg, stateProcessMsg, State.canBeCancelled]

theorem processMsg_taskFiles (h : session.state = .downloadMissingHeaders) :
    session.processMsg needs handling .taskFiles =
      some (if session.compilerRequired then session.downloadCompiler else session.afterCompiler, []) := by
  simp [processMsg, stateProcessMsg, h, State.canBeCancelled]

theorem processMsg_compiler (h : session.state = .downloadingCompiler) (hdata : session.compilerData = true)
    (cargo : Cargo) (last : Bool) :
    session.processMsg needs handling (.chunk cargo last) =
      if last then session.unpack handling else some (session, []) := by
  simp [processMsg, stateProcessMsg, h, hdata, State.canBeCancelled, isLast]

theorem processMsg_pch (h : session.state = .downloadingPCH) (cargo : Cargo) (last : Bool) :
    session.processMsg needs handling (.chunk cargo last) =
      some (if last then { session with pending := session.pending ++ [.pchCompleted] } else session, []) := by
  simp [processMsg, stateProcessMsg, h, State.canBeCancelled, isLast]

theorem processMsg_confirmation (h : session.state = .waitForConfirmation) (verdict : Bool) :
    session.processMsg needs handling (.sendConfirmation verdict) =
      some (if session.cancelPending then session.cancelSession
        else if verdict then ({ session with state := .uploadingFile, pending := session.pending ++ [.sendCompressed] }, [])
        else session.sessionDone []) := by
  unfold processMsg
  rw [if_neg (by simp), h]
  cases hp : session.cancelPending with
  | false => cases verdict <;> simp [stateProcessMsg, h, hp]
  | true => rfl

end Expected

/-! ## Cancellations -/

section Cancellations
variable {session} {needs : Bool × Bool} {handling : Handling} {msg : ToServer}

theorem afterCompiler_cancelPending : session.afterCompiler.cancelPending = session.cancelPending := by
  unfold afterCompiler compile
  split <;> rfl

/-- Unpacking the compiler takes the session on, or leaves it where it is. -/
theorem unpack_cases {result : Result} (h : session.unpack handling = some result) :
    handling = .done ∧ result = ({ session with compilerData := false }.afterCompiler, []) ∨
      handling = .handlerFailed ∧ result = ({ session with compilerData := false }, []) := by
  cases handling with
  | done => exact .inl ⟨rfl, (Option.some.inj h).symm⟩
  | failed => cases h
  | handlerFailed => exact .inr ⟨rfl, (Option.some.inj h).symm⟩

/-- What the state that waits for the compiler does with a message. -/
theorem downloadingCompiler_cases (hstate : session.state = .downloadingCompiler) {result : Result}
    (h : session.stateProcessMsg needs handling msg = some result) :
    session.compilerData = true ∧ (result = (session, []) ∨ session.unpack handling = some result) := by
  simp only [stateProcessMsg, hstate] at h
  obtain ⟨hdata, h⟩ := Option.ite_none_right_eq_some.1 h
  obtain ⟨last, -, h⟩ := Option.bind_eq_some_iff.1 h
  cases last with
  | true => exact ⟨hdata, .inr h⟩
  | false => exact ⟨hdata, .inl (Option.some.inj h).symm⟩

theorem stateProcessMsg_cancel {result : Result} (h : session.stateProcessMsg needs handling msg = some result) :
    result.1.cancelPending = session.cancelPending ∧ .sessionCancelled ∉ result.2 := by
  by_cases hstate : session.state = .downloadingCompiler
  · obtain ⟨-, rfl | hunpack⟩ := downloadingCompiler_cases hstate h
    · exact ⟨rfl, List.not_mem_nil⟩
    · rcases unpack_cases hunpack with ⟨-, rfl⟩ | ⟨-, rfl⟩
      · exact ⟨afterCompiler_cancelPending, List.not_mem_nil⟩
      · exact ⟨rfl, List.not_mem_nil⟩
  · unfold stateProcessMsg at h
    repeat' split at h
    all_goals first
      | contradiction
      | cases h
      | (obtain ⟨last, -, rfl⟩ := Option.map_eq_some_iff.1 h)
    all_goals repeat' split
    all_goals simp [sessionDone, afterCompiler_cancelPending, downloadCompiler]

theorem cancelSession_cancelPending : session.cancelSession.1.cancelPending = session.cancelPending := by
  unfold cancelSession
  split <;> rfl

/-- A session is cancelled, now or later, only if it was told to. -/
theorem processMsg_cancel {result : Result} (h : session.processMsg needs handling msg = some result) :
    (result.1.cancelPending = true → session.cancelPending = true ∨ msg = .cancelSession) ∧
      (.sessionCancelled ∈ result.2 → session.cancelPending = true ∨ msg = .cancelSession) := by
  unfold processMsg at h
  split at h
  · rename_i hmsg
    exact ⟨fun _ => .inr hmsg, fun _ => .inr hmsg⟩
  · split at h
    · rename_i hcancel
      exact ⟨fun _ => .inl hcancel.1, fun _ => .inl hcancel.1⟩
    · obtain ⟨hp, hs⟩ := stateProcessMsg_cancel h
      exact ⟨fun h' => .inl (hp ▸ h'), fun h' => absurd h' hs⟩

theorem runCompiler_cancel {ok : Bool} :
    (session.runCompiler ok).1.cancelPending = session.cancelPending ∧
      (.sessionCancelled ∈ (session.runCompiler ok).2 → session.cancelPending = true) := by
  unfold runCompiler
  split
  · rename_i hp
    exact ⟨cancelSession_cancelPending, fun _ => hp⟩
  · refine ⟨?_, fun h => by cases h⟩
    cases ok <;> rfl

theorem compileCompleted_cancel {ok : Bool} {outcome : Outcome} :
    (session.compileCompleted ok outcome).1.cancelPending = session.cancelPending ∧
      .sessionCancelled ∉ (session.compileCompleted ok outcome).2 := by
  unfold compileCompleted
  dsimp only
  repeat' split
  all_goals simp [sessionDone]

theorem callback_cancel (session : CompileSession) (report : Report) (c : Callback) :
    (session.callback report c).1.cancelPending = session.cancelPending ∧
      (.sessionCancelled ∈ (session.callback report c).2 → session.cancelPending = true) := by
  cases c with
  | pchCompleted =>
    unfold callback pchCompleted
    cases report.ok <;> exact ⟨rfl, fun h => by cases h⟩
  | runCompiler => exact runCompiler_cancel
  | compileCompleted => exact ⟨compileCompleted_cancel.1, fun h => absurd h compileCompleted_cancel.2⟩
  | sendCompressed =>
    unfold callback sendCompressed
    cases report.ok with
    | false => exact ⟨rfl, fun h => by cases h⟩
    | true =>
      refine ⟨rfl, fun h => ?_⟩
      simp [sessionDone, List.mem_replicate] at h

end Cancellations

/-! ## Completed sessions -/

section Completed
variable {session}

theorem cancelSession_completed (h : session.completed = true) : session.cancelSession.1.completed = true := by
  unfold cancelSession
  split
  · exact h
  · rfl

/-- Nothing brings a session back. -/
theorem callback_completed {report : Report} {c : Callback} (h : session.completed = true) :
    (session.callback report c).1.completed = true := by
  have hfired : (session.fired c).completed = true := h
  cases c with
  | pchCompleted =>
    unfold callback pchCompleted
    cases report.ok <;> exact hfired
  | runCompiler =>
    show ((session.fired .runCompiler).runCompiler report.ok).1.completed = true
    unfold runCompiler
    split
    · exact cancelSession_completed hfired
    · cases report.ok <;> exact hfired
  | compileCompleted =>
    show ((session.fired .compileCompleted).compileCompleted report.ok report.outcome).1.completed = true
    unfold compileCompleted
    dsimp only
    repeat' split
    all_goals first | exact hfired | rfl
  | sendCompressed =>
    unfold callback sendCompressed
    cases report.ok with
    | false => exact hfired
    | true => rfl

/-- A cancelled session runs what is left of it without a word. -/
theorem runCompiler_quiet (ok : Bool) (h : session.state = .cancelled) :
    (session.runCompiler ok).2 = [] ∧ (session.runCompiler ok).1.state = .cancelled ∧
      ∀ c ∈ (session.runCompiler ok).1.pending, c ∈ session.pending ∨ c = .compileCompleted := by
  unfold runCompiler cancelSession
  rw [if_pos h]
  split
  · exact ⟨rfl, h, fun _ hc => .inl hc⟩
  · cases ok with
    | false => exact ⟨rfl, h, fun _ hc => .inl hc⟩
    | true => exact ⟨rfl, h, fun _ hc => (List.mem_append.1 hc).imp id (by simp)⟩

theorem compileCompleted_quiet {ok : Bool} {outcome : Outcome} (h : session.state = .cancelled) :
    session.compileCompleted ok outcome = (session, []) := by
  unfold compileCompleted
  rw [if_neg (by simp [h])]

end Completed

end CompileSession

end BuildPal
