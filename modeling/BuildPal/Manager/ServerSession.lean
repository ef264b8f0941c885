import BuildPal.Common.Message
/-!
# The manager's side of a compile session

`buildpal/manager/compile_session.py`. A `ServerSession` is driven by the
messages of one server session; what it does besides changing itself (sending,
completing, asking for the PCH file) is returned to the caller, which owns the
task and the other sessions.
-/
open BuildPal.Message

namespace BuildPal

/-- A process's exit code as `EXIT` sends it: 32 bits, `-1` being the largest. -/
abbrev Retcode := UInt32

/-- What a chunk belongs to. Chunks carry no tag, so no receiver looks at it. -/
inductive Cargo where
  | compiler
  | pch
  deriving DecidableEq, Repr

/-- The messages of a manager session to its server session. -/
inductive ToServer where
  /-- `NEW_SESSION` with the `SERVER_TASK`. -/
  | newSession
  | cancelSession
  | taskFiles
  /-- A part of a file; the last one says that no more follow. -/
  | chunk (cargo : Cargo) (last : Bool)
  | sendConfirmation (verdict : Bool)
  deriving DecidableEq, Repr

/-- The messages of a server session to its manager session. -/
inductive FromServer where
  | missingFiles (needCompiler needPch : Bool)
  | serverDone (retcode : Retcode) (stdout stderr : Bytes)
  | serverFailed (traceback : Bytes)
  | sessionCancelled
  | timedOut
  | chunk (last : Bool)
  deriving DecidableEq, Repr

inductive SessionResult where
  | success
  | failure
  | cancelled
  | tooLate
  | timedOut
  | terminated
  deriving DecidableEq, Repr

namespace ServerSession

/-- `ServerSession.STATE_…`. -/
inductive State where
  | start
  | waitForMissingFiles
  | receiveObjectFile
  | waitForServerResponse
  | finish
  deriving DecidableEq, Repr

end ServerSession

/-- What the session reads of its task: how many parts the zipped compiler has,
and how many result files are expected. -/
structure SessionTask where
  compilerParts : Nat
  resultFiles : Nat

structure ServerSession where
  state : ServerSession.State := .start
  cancelled : Bool := false
  /-- The `sender` is set, so that the server session can be addressed. -/
  sender : Bool := false
  result : Option SessionResult := none
  retcode : Retcode := 0
  stdout : Bytes := []
  stderr : Bytes := []
  /-- `len(result_futures)`. -/
  resultFutures : Nat := 0
  deriving DecidableEq, Repr

namespace ServerSession
variable (task : SessionTask) (session : ServerSession)

/-- What the session asks of its surroundings when it is called. -/
inductive Action where
  /-- `__complete`: the completion callback is called with this result. -/
  | complete (result : SessionResult)
  /-- `compressor.compress_file`: the PCH file is sent once it is compressed. -/
  | compressPch
  /-- `complete_session` is called once every result file is decompressed. -/
  | gather
  /-- An exception leaves the call. -/
  | raise
  deriving DecidableEq, Repr

/-- The outcome of a call: the session, the messages sent, and what is asked of the surroundings. -/
structure Reply where
  session : ServerSession
  sent : List ToServer := []
  action : Option Action := none

def start : Reply := { session := { session with state := .waitForMissingFiles }, sent := [.newSession] }

def cancel : Reply :=
  { session := { session with cancelled := true }, sent := if session.sender then [.cancelSession] else [] }

/-- `__complete`. -/
def complete (result : SessionResult) (sent : List ToServer) : Reply :=
  { session := { session with state := .finish, result := some result }, sent, action := some (.complete result) }

def terminate : Reply := session.complete .terminated []

def raised : Reply := { session, action := some .raise }

/-- `send_file`. -/
def sendFile (cargo : Cargo) (parts : Nat) : List ToServer :=
  List.replicate parts (.chunk cargo false) ++ [.chunk cargo true]

/-- A message taken for `more, data`: whether `more` says that this is the end. Any message of two parts
passes for a chunk. -/
def isLast : FromServer → Option Bool
  | .chunk last => some last
  | .serverDone _ _ _ | .serverFailed _ => some false
  | _ => none

/-- The answer to `MISSING_FILES`. -/
def sendTaskFiles (needCompiler needPch : Bool) : Reply :=
  { session := { session with sender := true, state := .waitForServerResponse }
    sent := (if session.cancelled then [.cancelSession] else []) ++
      .taskFiles :: if needCompiler then sendFile .compiler task.compilerParts else []
    action := if needPch then some .compressPch else none }

/-- `SERVER_DONE`, whose outcome the session has taken over; `registers` is what `task.register_completion`
returned. -/
def serverDone (registers : Bool) : Reply :=
  if registers then
    if session.cancelled then session.raised
    else if session.retcode = 0 then
      { session := { session with state := .receiveObjectFile, resultFutures := 0 }, sent := [.sendConfirmation true] }
    else session.complete .success []
  else session.complete .tooLate (if session.retcode = 0 then [.sendConfirmation false] else [])

/-- A message in `STATE_RECEIVE_OBJECT_FILE`. -/
def receiveObjectFile (msg : FromServer) : Reply :=
  if session.cancelled then session.raised
  else match isLast msg with
    | none => session.raised
    | some false => { session }
    | some true =>
      if session.resultFutures < task.resultFiles then
        { session := { session with resultFutures := session.resultFutures + 1 }
          action := if session.resultFutures + 1 = task.resultFiles then some .gather else none }
      else session.raised

def gotDataFromServer (registers : Bool) (msg : FromServer) : Reply :=
  match msg with
  | .sessionCancelled => if session.cancelled then session.complete .cancelled [] else session.raised
  | .timedOut => session.complete .timedOut []
  | msg =>
    match session.state with
    | .waitForMissingFiles =>
      match msg with
      | .missingFiles needCompiler needPch =>
        if session.sender then session.raised else session.sendTaskFiles task needCompiler needPch
      | _ => session.raised
    | .waitForServerResponse =>
      match msg with
      | .serverFailed traceback =>
        { session with retcode := UInt32.ofInt (-1), stdout := [], stderr := traceback }.complete .failure []
      | .serverDone retcode stdout stderr => { session with retcode, stdout, stderr }.serverDone registers
      | _ => session.raised
    | .receiveObjectFile => session.receiveObjectFile task msg
    | .start | .finish => session.raised

/-- `complete_session`, once the decompressions are over; `ok` tells whether all succeeded. The assertion on
a session that was completed otherwise is caught like any failure. -/
def completeSession (ok : Bool) : Reply :=
  if session.state = .finish then
    if session.result = some .terminated then { session } else session.complete .failure []
  else if ok then session.complete .success []
  else session.complete .failure []

/-! ## What a call leaves alone -/

section Facts
variable {task session} {registers : Bool} {msg : FromServer}

theorem serverDone_cancelled : (session.serverDone registers).session.cancelled = session.cancelled := by
  unfold serverDone
  repeat' split
  all_goals rfl

theorem receiveObjectFile_cancelled : (session.receiveObjectFile task msg).session.cancelled = session.cancelled := by
  unfold receiveObjectFile
  repeat' split
  all_goals rfl

theorem gotDataFromServer_cancelled :
    (session.gotDataFromServer task registers msg).session.cancelled = session.cancelled := by
  unfold gotDataFromServer
  repeat' split
  all_goals first | rfl | exact serverDone_cancelled | exact receiveObjectFile_cancelled

theorem serverDone_sent {m : ToServer} (h : m ∈ (session.serverDone registers).sent) :
    ∃ verdict, m = .sendConfirmation verdict := by
  unfold serverDone at h
  repeat' split at h
  all_goals simp_all [raised, complete]

@[simp] theorem receiveObjectFile_sent : (session.receiveObjectFile task msg).sent = [] := by
  unfold receiveObjectFile
  repeat' split
  all_goals rfl

/-- A message sends `CANCEL_SESSION` only for a session that was cancelled before it could be addressed,
and never starts another session. -/
theorem gotDataFromServer_sent :
    (.cancelSession ∈ (session.gotDataFromServer task registers msg).sent → session.cancelled = true) ∧
      .newSession ∉ (session.gotDataFromServer task registers msg).sent := by
  unfold gotDataFromServer
  repeat' split
  all_goals first
    | exact ⟨fun h => by simpa using serverDone_sent h, fun h => by simpa using serverDone_sent h⟩
    | simp_all [complete, raised, sendTaskFiles, sendFile, List.mem_replicate]

/-- A message leaves the session waiting for `MISSING_FILES` only if it changes nothing. -/
theorem gotDataFromServer_waiting
    (h : (session.gotDataFromServer task registers msg).session.state = .waitForMissingFiles) :
    session.state = .waitForMissingFiles ∧
      (session.gotDataFromServer task registers msg).session.sender = session.sender := by
  unfold gotDataFromServer at h ⊢
  repeat' split at h
  all_goals first
    | (unfold serverDone at h; repeat' split at h)
    | (unfold receiveObjectFile at h; repeat' split at h)
    | skip
  all_goals simp_all [complete, raised, sendTaskFiles]

/-! ## How a call ends -/

/-- What a call says about the session: whether it receives the result, and how it is completed. -/
structure ActionOk (session : ServerSession) (registers : Bool) (msg : FromServer) (reply : Reply) : Prop where
  /-- Only the session that was registered comes to receive the result. -/
  receives : reply.session.state = .receiveObjectFile → session.state = .receiveObjectFile ∨
    session.state = .waitForServerResponse ∧ registers = true ∧ ∃ r o e, msg = .serverDone r o e
  ends : ∀ result, reply.action = some (.complete result) →
    reply.session.state = .finish ∧ reply.session.result = some result ∧
      ((result = .failure ∧ session.state = .waitForServerResponse ∧ ∃ traceback, msg = .serverFailed traceback) ∨
        (result = .timedOut ∧ msg = .timedOut) ∨
        (result = .cancelled ∧ msg = .sessionCancelled ∧ session.cancelled = true) ∨
        (session.state = .waitForServerResponse ∧ ∃ r o e, msg = .serverDone r o e ∧
          (result = .tooLate ∧ registers = false ∨
            result = .success ∧ registers = true ∧ session.cancelled = false ∧ r ≠ 0)))
  /-- A session that goes on keeps receiving, and starts to when it is registered. -/
  goesOn : (∀ result, reply.action ≠ some (.complete result)) →
    (session.state = .receiveObjectFile → reply.session.state = .receiveObjectFile) ∧
      (session.state = .waitForServerResponse → session.cancelled = false → registers = true →
        (∃ r o e, msg = .serverDone r o e) → reply.session.state = .receiveObjectFile)
  /-- The result files are gathered while they are received, and what is over stays over. -/
  gathers : reply.action = some .gather → reply.session.state = .receiveObjectFile
  ended : session.state = .finish → reply.session.state = .finish
  finishes : reply.session.state = .finish → session.state = .finish ∨ ∃ result, reply.action = some (.complete result)

theorem raised_ok (h : session.state = .waitForServerResponse → ¬ ∃ r o e, msg = .serverDone r o e) :
    ActionOk session registers msg session.raised where
  receives h := .inl h
  ends _ h := by cases h
  goesOn _ := ⟨fun h => h, fun hw _ _ hm => absurd hm (h hw)⟩
  gathers h := by cases h
  ended h := h
  finishes h := .inl h

theorem complete_ok {result : SessionResult} {sent : List ToServer} {session' : ServerSession}
    (h : (result = .failure ∧ session.state = .waitForServerResponse ∧ ∃ traceback, msg = .serverFailed traceback) ∨
        (result = .timedOut ∧ msg = .timedOut) ∨
        (result = .cancelled ∧ msg = .sessionCancelled ∧ session.cancelled = true) ∨
        (session.state = .waitForServerResponse ∧ ∃ r o e, msg = .serverDone r o e ∧
          (result = .tooLate ∧ registers = false ∨
            result = .success ∧ registers = true ∧ session.cancelled = false ∧ r ≠ 0))) :
    ActionOk session registers msg (session'.complete result sent) where
  receives h := by cases h
  ends result' hr := by
    cases hr
    exact ⟨rfl, rfl, h⟩
  goesOn hgo := absurd rfl (hgo result)
  gathers h := by cases h
  ended _ := rfl
  finishes _ := .inr ⟨result, rfl⟩

theorem receiveObjectFile_ok (h : session.state = .receiveObjectFile) :
    ActionOk session registers msg (session.receiveObjectFile task msg) := by
  have hstate : (session.receiveObjectFile task msg).session.state = .receiveObjectFile := by
    unfold receiveObjectFile
    repeat' split
    all_goals exact h
  have haction : ∀ result, (session.receiveObjectFile task msg).action ≠ some (.complete result) := by
    intro result
    unfold receiveObjectFile
    repeat' split
    all_goals simp [raised]
  exact {
    receives := fun _ => .inl h
    ends := fun result hr => absurd hr (haction result)
    goesOn := fun _ => ⟨fun _ => hstate, fun _ _ _ _ => hstate⟩
    gathers := fun _ => hstate
    ended := fun hover => by simp [h] at hover
    finishes := fun hover => by simp [hstate] at hover }

theorem serverDone_ok {r : Retcode} {o e : Bytes} (h : session.state = .waitForServerResponse) :
    ActionOk session registers (.serverDone r o e)
      (({ session with retcode := r, stdout := o, stderr := e } : ServerSession).serverDone registers) := by
  unfold serverDone
  cases registers with
  | false => exact complete_ok (.inr (.inr (.inr ⟨h, r, o, e, rfl, .inl ⟨rfl, rfl⟩⟩)))
  | true =>
    rw [if_pos rfl]
    split
    · rename_i hcancel
      refine ⟨fun h => .inl h, fun result hr => (by cases hr), fun _ => ⟨fun h => h, fun _ hc => ?_⟩, fun h => (by cases h),
        fun h => h, fun h => .inl h⟩
      exact absurd (hcancel.symm.trans hc) (by simp)
    · rename_i hcancel
      split
      · exact {
          receives := fun _ => .inr ⟨h, rfl, r, o, e, rfl⟩
          ends := fun result hr => by cases hr
          goesOn := fun _ => ⟨fun _ => rfl, fun _ _ _ _ => rfl⟩
          gathers := fun hg => by cases hg
          ended := fun hover => by simp [h] at hover
          finishes := fun hover => by cases hover }
      · rename_i hr0
        exact complete_ok (.inr (.inr (.inr ⟨h, r, o, e, rfl, .inr ⟨rfl, rfl, by simpa using hcancel, hr0⟩⟩)))

theorem gotDataFromServer_ok : ActionOk session registers msg (session.gotDataFromServer task registers msg) := by
  unfold gotDataFromServer
  split
  · split
    · rename_i hcancel
      exact complete_ok (.inr (.inr (.inl ⟨rfl, rfl, hcancel⟩)))
    · exact raised_ok (by simp)
  · exact complete_ok (.inr (.inl ⟨rfl, rfl⟩))
  · split
    · rename_i hstate
      split
      · split
        · exact raised_ok (by simp)
        · constructor
          case receives => simp [sendTaskFiles]
          case ends =>
            intro result hr
            simp only [sendTaskFiles] at hr
            split at hr <;> cases hr
          case goesOn => simp [hstate]
          case gathers =>
            intro hr
            simp only [sendTaskFiles] at hr
            split at hr <;> cases hr
          case ended => simp [hstate]
          case finishes => simp [sendTaskFiles]
      · exact raised_ok (by simp [hstate])
    · rename_i hstate
      split
      · rename_i traceback _ _
        exact complete_ok (.inl ⟨rfl, hstate, traceback, rfl⟩)
      · exact serverDone_ok hstate
      · rename_i hmsg
        refine raised_ok fun _ => ?_
        rintro ⟨r, o, e, rfl⟩
        exact hmsg r o e rfl
    · rename_i hstate
      exact receiveObjectFile_ok hstate
    · rename_i hstate
      exact raised_ok (by simp [hstate])
    · rename_i hstate
      exact raised_ok (by simp [hstate])

end Facts

end ServerSession

end BuildPal
