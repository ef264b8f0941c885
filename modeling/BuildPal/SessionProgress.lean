import Mathlib.Data.Prod.Lex
import Mathlib.Algebra.BigOperators.Group.List.Basic
import BuildPal.SessionProtocol
/-!
# A compile session comes to its end

Whatever the manager session and its server session do next, in whatever order,
they cannot go on for ever; and as long as the manager session has not been
completed one of them can go on, or a thread of theirs is at work.
-/
open BuildPal.Lib

namespace BuildPal.SessionProtocol

/-! ## What is left to do -/

/-- How far the manager session is from its end. -/
def stage : ServerSession.State → Nat
  | .start => 3
  | .waitForMissingFiles => 2
  | .waitForServerResponse => 1
  | .receiveObjectFile | .finish => 0

def managerLeft (t : System) : Nat := if t.registered then stage t.manager.state + 1 else 0

/-- The calls that a pending one can still lead to. -/
def callbackLeft : CompileSession.Callback → Nat
  | .pchCompleted => 3
  | .runCompiler => 2
  | .compileCompleted | .sendCompressed => 1

def pendingLeft (pending : List CompileSession.Callback) : Nat := (pending.map callbackLeft).sum

def serverLeft (t : System) : Nat :=
  match t.server with
  | none => 0
  | some c => pendingLeft c.pending + (!c.completed).toNat

/-- A part of the object file that the manager takes can set a decompression going. -/
def inFlight (t : System) : Nat := 2 * t.toManager.length + t.gathering

/-- First the manager session goes on, then what it has set going, then the messages for the server, then what they have
set going there, then what comes back. -/
def left (t : System) : ℕ ×ₗ ℕ ×ₗ ℕ ×ₗ ℕ ×ₗ ℕ :=
  toLex (managerLeft t, toLex (t.compressing, toLex (t.toServer.length, toLex (serverLeft t, inFlight t))))

section Measure
variable {task : SessionTask} {t t' : System} {c : CompileSession}

theorem left_lt : left t' < left t ↔ managerLeft t' < managerLeft t ∨ managerLeft t' = managerLeft t ∧
    (t'.compressing < t.compressing ∨ t'.compressing = t.compressing ∧
      (t'.toServer.length < t.toServer.length ∨ t'.toServer.length = t.toServer.length ∧
        (serverLeft t' < serverLeft t ∨ serverLeft t' = serverLeft t ∧ inFlight t' < inFlight t))) := by
  simp only [left, Prod.Lex.toLex_lt_toLex]

/-! ### The manager session -/

/-- The call completes the session, brings it on, or only takes something in. -/
def BringsOn (session : ServerSession) (reply : ServerSession.Reply) : Prop :=
  (∃ result, reply.action = some (.complete result)) ∨ stage reply.session.state < stage session.state ∨
    stage reply.session.state = stage session.state ∧ reply.sent = [] ∧ reply.action ≠ some .compressPch

theorem raised_bringsOn (session : ServerSession) : BringsOn session session.raised :=
  .inr (.inr ⟨rfl, rfl, by simp [ServerSession.raised]⟩)

theorem complete_bringsOn (session session' : ServerSession) (result : SessionResult) (sent : List ToServer) :
    BringsOn session (session'.complete result sent) := .inl ⟨result, rfl⟩

theorem serverDone_bringsOn {session session' : ServerSession} (hstate : session.state = .waitForServerResponse)
    (hstate' : session'.state = .waitForServerResponse) (registers : Bool) :
    BringsOn session (session'.serverDone registers) := by
  unfold ServerSession.serverDone
  split
  · split
    · exact .inr (.inr ⟨by simp [ServerSession.raised, hstate, hstate'], rfl, by simp [ServerSession.raised]⟩)
    · split
      · exact .inr (.inl (by simp [stage, hstate]))
      · exact complete_bringsOn _ _ _ _
  · exact complete_bringsOn _ _ _ _

theorem receiveObjectFile_bringsOn (session : ServerSession) (msg : FromServer) :
    BringsOn session (session.receiveObjectFile task msg) := by
  unfold ServerSession.receiveObjectFile
  split
  · exact raised_bringsOn session
  · split
    · exact raised_bringsOn session
    · exact .inr (.inr ⟨rfl, rfl, by simp⟩)
    · split
      · refine .inr (.inr ⟨rfl, rfl, ?_⟩)
        dsimp only
        split <;> simp
      · exact raised_bringsOn session

theorem gotDataFromServer_bringsOn (session : ServerSession) (registers : Bool) (msg : FromServer) :
    BringsOn session (session.gotDataFromServer task registers msg) := by
  unfold ServerSession.gotDataFromServer
  split
  · split
    · exact complete_bringsOn _ _ _ _
    · exact raised_bringsOn session
  · exact complete_bringsOn _ _ _ _
  · split
    · rename_i hstate
      split
      · split
        · exact raised_bringsOn session
        · exact .inr (.inl (by simp [ServerSession.sendTaskFiles, stage, hstate]))
      · exact raised_bringsOn session
    · rename_i hstate
      split
      · exact complete_bringsOn _ _ _ _
      · exact serverDone_bringsOn hstate (by exact hstate) registers
      · exact raised_bringsOn session
    · exact receiveObjectFile_bringsOn session msg
    · exact raised_bringsOn session
    · exact raised_bringsOn session

/-- A call of the session brings it on, or sets a decompression going at most. -/
theorem replied_left {reply : ServerSession.Reply} (hreg : t.registered = true) (hreply : BringsOn t.manager reply) :
    managerLeft (t.replied reply) < managerLeft t ∨ managerLeft (t.replied reply) = managerLeft t ∧
      (t.replied reply).compressing = t.compressing ∧ (t.replied reply).toServer = t.toServer ∧
      inFlight (t.replied reply) = inFlight t + if reply.action = some .gather then 1 else 0 := by
  by_cases hdone : ∃ result, reply.action = some (.complete result)
  · obtain ⟨result, haction⟩ := hdone
    exact .inl (by simp [managerLeft, System.replied, haction, hreg])
  · have hopen : (t.replied reply).registered = true := by
      unfold System.replied
      cases haction : reply.action with
      | none => exact hreg
      | some action =>
        cases action with
        | complete result => exact absurd ⟨result, haction⟩ hdone
        | compressPch | gather | raise => exact hreg
    have hmanager : managerLeft (t.replied reply) = stage reply.session.state + 1 := if_pos hopen
    have hbefore : managerLeft t = stage t.manager.state + 1 := if_pos hreg
    rcases hreply with hend | hlower | ⟨hstage, hsent, hcompress⟩
    · exact absurd hend hdone
    · exact .inl (by omega)
    · refine .inr ⟨by omega, by simp [System.replied, hcompress], by simp [System.replied, hsent], ?_⟩
      simp only [inFlight, System.replied]
      omega

theorem deliverToManager_left {msg : FromServer} {rest : List FromServer} (hu : t.toManager = msg :: rest)
    (registers : Bool) :
    left (if t.registered then System.replied { t with toManager := rest }
      (t.manager.gotDataFromServer task registers msg) else { t with toManager := rest }) < left t := by
  have htaken : inFlight { t with toManager := rest } + 2 = inFlight t := by
    simp only [inFlight, hu, List.length_cons]
    omega
  rw [left_lt]
  split
  · rename_i hreg
    have hreply : BringsOn t.manager (t.manager.gotDataFromServer task registers msg) :=
      gotDataFromServer_bringsOn t.manager registers msg
    rcases replied_left (t := { t with toManager := rest }) hreg hreply with hlower | ⟨hsame, hcompress, hsent, hflight⟩
    · exact .inl hlower
    · refine .inr ⟨hsame, .inr ⟨hcompress, .inr ⟨congrArg List.length hsent, .inr ⟨rfl, ?_⟩⟩⟩⟩
      split at hflight <;> omega
  · exact .inr ⟨rfl, .inr ⟨rfl, .inr ⟨rfl, .inr ⟨rfl, by omega⟩⟩⟩⟩

theorem decompressed_left {n : Nat} (hn : t.gathering = n + 1) (ok : Bool) :
    left (System.replied { t with gathering := n } (t.manager.completeSession ok)) < left t := by
  have htaken : inFlight { t with gathering := n } + 1 = inFlight t := by
    simp only [inFlight, hn]
    omega
  have hcall : t.manager.completeSession ok = { session := t.manager } ∨
      ∃ result, t.manager.completeSession ok = t.manager.complete result [] := by
    unfold ServerSession.completeSession
    split
    · split
      · exact .inl rfl
      · exact .inr ⟨_, rfl⟩
    · split <;> exact .inr ⟨_, rfl⟩
  rw [left_lt]
  rcases hcall with hnothing | ⟨result, hcomplete⟩
  · rw [hnothing]
    refine .inr ⟨rfl, .inr ⟨rfl, .inr ⟨by simp [System.replied], .inr ⟨rfl, ?_⟩⟩⟩⟩
    simp only [inFlight, System.replied, reduceCtorEq, if_false] at htaken ⊢
    omega
  · rw [hcomplete]
    cases hreg : t.registered with
    | true => exact .inl (by simp [managerLeft, System.replied, ServerSession.complete, hreg])
    | false =>
      refine .inr ⟨by simp [managerLeft, System.replied, ServerSession.complete, hreg],
        .inr ⟨by simp [System.replied, ServerSession.complete],
          .inr ⟨by simp [System.replied, ServerSession.complete], .inr ⟨rfl, ?_⟩⟩⟩⟩
      simp only [inFlight, System.replied, ServerSession.complete, Option.some.injEq, reduceCtorEq,
        if_false] at htaken ⊢
      omega

/-! ### The server session -/

@[simp] theorem pendingLeft_concat (pending : List CompileSession.Callback) (x : CompileSession.Callback) :
    pendingLeft (pending ++ [x]) = pendingLeft pending + callbackLeft x := by
  simp [pendingLeft]

theorem fired_left {x : CompileSession.Callback} (hx : x ∈ c.pending) :
    callbackLeft x + pendingLeft (c.fired x).pending = pendingLeft c.pending :=
  List.sum_map_erase callbackLeft hx

theorem cancelSession_pending (c : CompileSession) : c.cancelSession.1.pending = c.pending := by
  unfold CompileSession.cancelSession
  split <;> rfl

theorem compileCompleted_pending (c : CompileSession) (ok : Bool) (outcome : CompileSession.Outcome) :
    (c.compileCompleted ok outcome).1.pending = c.pending := by
  unfold CompileSession.compileCompleted
  dsimp only
  repeat' split
  all_goals rfl

/-- A call that comes back has another one follow at most, and a smaller one. -/
theorem callback_pending {x : CompileSession.Callback} (hx : x ∈ c.pending) (report : CompileSession.Report) :
    pendingLeft (c.callback report x).1.pending < pendingLeft c.pending := by
  have hfired := fired_left hx
  cases x with
  | pchCompleted =>
    change 3 + pendingLeft (c.fired .pchCompleted).pending = pendingLeft c.pending at hfired
    unfold CompileSession.callback CompileSession.pchCompleted
    cases report.ok with
    | true =>
      change pendingLeft ((c.fired .pchCompleted).pending ++ [.runCompiler]) < pendingLeft c.pending
      rw [pendingLeft_concat, callbackLeft]
      omega
    | false =>
      change pendingLeft (c.fired .pchCompleted).pending < pendingLeft c.pending
      omega
  | runCompiler =>
    change 2 + pendingLeft (c.fired .runCompiler).pending = pendingLeft c.pending at hfired
    change pendingLeft ((c.fired .runCompiler).runCompiler report.ok).1.pending < pendingLeft c.pending
    unfold CompileSession.runCompiler
    split
    · rw [cancelSession_pending]
      omega
    · cases report.ok with
      | true =>
        change pendingLeft ((c.fired .runCompiler).pending ++ [.compileCompleted]) < pendingLeft c.pending
        rw [pendingLeft_concat, callbackLeft]
        omega
      | false =>
        change pendingLeft (c.fired .runCompiler).pending < pendingLeft c.pending
        omega
  | compileCompleted =>
    change 1 + pendingLeft (c.fired .compileCompleted).pending = pendingLeft c.pending at hfired
    change pendingLeft ((c.fired .compileCompleted).compileCompleted report.ok report.outcome).1.pending < _
    rw [compileCompleted_pending]
    omega
  | sendCompressed =>
    change 1 + pendingLeft (c.fired .sendCompressed).pending = pendingLeft c.pending at hfired
    have hcall : ((c.fired .sendCompressed).sendCompressed report.ok report.parts).1.pending =
        (c.fired .sendCompressed).pending := by
      unfold CompileSession.sendCompressed
      split <;> rfl
    change pendingLeft ((c.fired .sendCompressed).sendCompressed report.ok report.parts).1.pending < _
    rw [hcall]
    omega

/-- A call that comes back takes the session on. -/
theorem callback_left {x : CompileSession.Callback} (hx : x ∈ c.pending) (report : CompileSession.Report) :
    pendingLeft (c.callback report x).1.pending + (!(c.callback report x).1.completed).toNat <
      pendingLeft c.pending + (!c.completed).toNat := by
  have hlower := callback_pending hx report
  have hopen : (!(c.callback report x).1.completed).toNat ≤ (!c.completed).toNat := by
    cases hdone : c.completed with
    | true => simp [CompileSession.callback_completed hdone]
    | false => exact Bool.toNat_le _
  omega

/-! ### Steps -/

/-- Somebody goes on: the session is not only told once more to be cancelled, or an ended one found by its timer. -/
def Acts (t : System) : Event → Prop
  | .cancel => False
  | .selfdestruct => ∃ c, t.server = some c ∧ c.completed = false
  | _ => True

/-- What becomes of the server's next message. -/
inductive Delivered (t : System) (needs : Bool × Bool) (handling : CompileSession.Handling) (t' : System) : Prop where
  | dropped (msg : ToServer) (rest : List ToServer) (queue : t.toServer = msg :: rest)
    (result : t' = { t with toServer := rest })
  | processed (msg : ToServer) (rest : List ToServer) (queue : t.toServer = msg :: rest) (c : CompileSession)
    (server : msg = .newSession ∧ c = {} ∨ t.server = some c) (live : c.completed = false)
    (result : t' = System.answered { t with toServer := rest } ((c.processMsg needs handling msg).getD (c, [])))

theorem deliverToServer_cases {needs : Bool × Bool} {handling : CompileSession.Handling}
    (hs : step task t (.deliverToServer needs handling) = some t') : Delivered t needs handling t' := by
  simp only [step] at hs
  split at hs
  · cases hs
  · rename_i msg rest hq
    by_cases hnew : msg = .newSession
    · subst hnew
      rw [if_pos rfl] at hs
      cases hs
      exact .processed .newSession rest hq {} (.inl ⟨rfl, rfl⟩) rfl rfl
    · rw [if_neg hnew] at hs
      split at hs
      · cases hs
        exact .dropped msg rest hq rfl
      · rename_i c hc
        split at hs
        · cases hs
          exact .dropped msg rest hq rfl
        · rename_i hlive
          rw [Bool.not_eq_true] at hlive
          cases hs
          exact .processed msg rest hq c (.inr hc) hlive rfl

/-- Whoever takes a message leaves one less. -/
theorem deliverToServer_left {needs : Bool × Bool} {handling : CompileSession.Handling}
    (hs : step task t (.deliverToServer needs handling) = some t') : left t' < left t := by
  cases deliverToServer_cases hs with
  | dropped msg rest hq hresult =>
    rw [hresult]
    exact left_lt.2 (.inr ⟨rfl, .inr ⟨rfl, .inl (by simp [hq])⟩⟩)
  | processed msg rest hq c hc hlive hresult =>
    rw [hresult]
    exact left_lt.2 (.inr ⟨rfl, .inr ⟨rfl, .inl (by simp [System.answered, hq])⟩⟩)

theorem step_left {e : Event} (hacts : Acts t e) (hs : step task t e = some t') : left t' < left t := by
  cases e with
  | cancel => exact hacts.elim
  | terminate =>
    simp only [step] at hs
    split at hs
    · rename_i hreg
      cases hs
      refine left_lt.2 (.inl ?_)
      simp [managerLeft, System.replied, ServerSession.terminate, ServerSession.complete, hreg]
    · cases hs
  | pchCompressed parts =>
    simp only [step] at hs
    split at hs
    · cases hs
    · rename_i hn
      cases hs
      exact left_lt.2 (.inr ⟨rfl, .inl (by simp [hn])⟩)
  | decompressed ok =>
    simp only [step] at hs
    split at hs
    · cases hs
    · rename_i hn
      cases hs
      exact decompressed_left hn ok
  | deliverToServer needs handling => exact deliverToServer_left hs
  | deliverToManager registers =>
    simp only [step] at hs
    split at hs
    · cases hs
    · split at hs
      · cases hs
      · rename_i hu
        cases hs
        exact deliverToManager_left hu registers
  | callback x report =>
    obtain ⟨c, hc, hs⟩ := Option.bind_eq_some_iff.1 hs
    split at hs
    · rename_i hx
      cases hs
      have hlower := callback_left hx report
      refine left_lt.2 (.inr ⟨rfl, .inr ⟨rfl, .inr ⟨rfl, .inl ?_⟩⟩⟩)
      simpa [serverLeft, System.answered, hc] using hlower
    · cases hs
  | selfdestruct =>
    obtain ⟨c, hc, hlive⟩ := hacts
    simp only [step, hc, Option.map_some, Option.some.injEq] at hs
    subst hs
    refine left_lt.2 (.inr ⟨rfl, .inr ⟨rfl, .inr ⟨rfl, .inl ?_⟩⟩⟩)
    simp [serverLeft, System.answered, CompileSession.selfdestruct, hc, hlive]

end Measure

/-! ## What is owed -/

/-- A message after which a session that waits for the server is over, or has its result. -/
def IsEnd : FromServer → Prop
  | .timedOut | .sessionCancelled | .serverFailed _ => True
  | .chunk last => last = true
  | .serverDone retcode _ _ => retcode ≠ 0
  | .missingFiles _ _ => False

/-- The manager session hears of its end. -/
structure Owes (t : System) : Prop where
  closed : t.registered = false → t.manager.state = .finish ∧ t.manager.result.isSome = true
  open_ : t.registered = true → t.manager.state ≠ .finish
  receiving : t.registered = true → t.manager.state = .receiveObjectFile →
    t.manager.cancelled = false ∧ (t.manager.resultFutures = 0 ∨ 0 < t.gathering)
  told : t.registered = true → ∀ c, t.server = some c → c.completed = true →
    (∃ msg ∈ t.toManager, IsEnd msg) ∨ 0 < t.gathering

/-- The task cancels no session that receives its result, and no call of the server's session raises. -/
def Undisturbed (t : System) : Event → Prop
  | .cancel => t.manager.state ≠ .receiveObjectFile
  | .deliverToServer _ handling => handling = .done
  | .callback _ report => report.ok = true
  | _ => True

instance (t : System) : (e : Event) → Decidable (Undisturbed t e)
  | .cancel => inferInstanceAs (Decidable (t.manager.state ≠ .receiveObjectFile))
  | .deliverToServer _ handling => inferInstanceAs (Decidable (handling = .done))
  | .callback _ report => inferInstanceAs (Decidable (report.ok = true))
  | .terminate | .pchCompressed _ | .decompressed _ | .deliverToManager _ | .selfdestruct => .isTrue trivial

section Owed
variable {task : SessionTask} {t t' : System} {c : CompileSession}

/-! ### What the manager session makes of its messages -/

/-- The end brings the session to its end, or sets the last decompression going. -/
theorem end_heeded (hfiles : task.resultFiles = 1) {session : ServerSession} {registers : Bool} {msg : FromServer}
    {gathering : Nat} (hend : IsEnd msg) (hexpects : ManagerExpects session msg)
    (hreg : ¬ (registers = true ∧ session.cancelled = true))
    (hreceiving : session.state = .receiveObjectFile →
      session.cancelled = false ∧ (session.resultFutures = 0 ∨ 0 < gathering)) :
    (∃ result, (session.gotDataFromServer task registers msg).action = some (.complete result)) ∨
      (session.gotDataFromServer task registers msg).action = some .gather ∨ 0 < gathering := by
  cases msg with
  | missingFiles needCompiler needPch => exact hend.elim
  | timedOut => exact .inl ⟨_, rfl⟩
  | sessionCancelled =>
    have hcancelled : session.cancelled = true := by
      unfold ManagerExpects at hexpects
      cases hstate : session.state <;> simpa [hstate] using hexpects
    exact .inl ⟨.cancelled, by simp [ServerSession.gotDataFromServer, hcancelled, ServerSession.complete]⟩
  | serverFailed traceback =>
    have hstate : session.state = .waitForServerResponse := by
      unfold ManagerExpects at hexpects
      cases hstate : session.state <;> simp [hstate] at hexpects
      rfl
    exact .inl ⟨.failure, by simp [ServerSession.gotDataFromServer, hstate, ServerSession.complete]⟩
  | serverDone retcode stdout stderr =>
    have hstate : session.state = .waitForServerResponse := by
      unfold ManagerExpects at hexpects
      cases hstate : session.state <;> simp [hstate] at hexpects
      rfl
    have hretcode : retcode ≠ 0 := hend
    refine .inl ?_
    cases hregisters : registers with
    | true =>
      have hcancelled : session.cancelled = false := by
        rw [← Bool.not_eq_true]
        exact fun hc => hreg ⟨hregisters, hc⟩
      exact ⟨.success, by
        simp [ServerSession.gotDataFromServer, hstate, ServerSession.serverDone, hcancelled, hretcode,
          ServerSession.complete]⟩
    | false =>
      exact ⟨.tooLate, by
        simp [ServerSession.gotDataFromServer, hstate, ServerSession.serverDone, ServerSession.complete]⟩
  | chunk last =>
    have hlast : last = true := hend
    have hstate : session.state = .receiveObjectFile := by
      unfold ManagerExpects at hexpects
      cases hstate : session.state <;> simp [hstate] at hexpects
      rfl
    -- With one result file, the end of the first is what the session waits for.
    obtain ⟨hcancelled, hfirst | hgathers⟩ := hreceiving hstate
    · refine .inr (.inl ?_)
      simp [ServerSession.gotDataFromServer, hstate, ServerSession.receiveObjectFile, hcancelled, hlast,
        ServerSession.isLast, hfirst, hfiles]
    · exact .inr (.inr hgathers)

/-- A session that goes on to receive its result was not cancelled, and gathers what it has. -/
theorem receives (hfiles : task.resultFiles = 1) {session : ServerSession} {registers : Bool} {msg : FromServer}
    {gathering : Nat} (hreg : ¬ (registers = true ∧ session.cancelled = true))
    (hreceiving : session.state = .receiveObjectFile →
      session.cancelled = false ∧ (session.resultFutures = 0 ∨ 0 < gathering))
    (hstate : (session.gotDataFromServer task registers msg).session.state = .receiveObjectFile) :
    (session.gotDataFromServer task registers msg).session.cancelled = false ∧
      ((session.gotDataFromServer task registers msg).session.resultFutures = 0 ∨
        (session.gotDataFromServer task registers msg).action = some .gather ∨ 0 < gathering) := by
  have hok : ServerSession.ActionOk session registers msg (session.gotDataFromServer task registers msg) :=
    ServerSession.gotDataFromServer_ok
  rw [ServerSession.gotDataFromServer_cancelled]
  rcases hok.receives hstate with hbefore | ⟨hbefore, hregisters, retcode, stdout, stderr, rfl⟩
  · obtain ⟨hcancelled, hfirst | hgathers⟩ := hreceiving hbefore
    · refine ⟨hcancelled, ?_⟩
      unfold ServerSession.gotDataFromServer
      split
      · split <;> exact .inl hfirst
      · exact .inl hfirst
      · simp only [hbefore]
        unfold ServerSession.receiveObjectFile
        rw [if_neg (by simp [hcancelled])]
        split
        · exact .inl hfirst
        · exact .inl hfirst
        · exact .inr (.inl (by simp [hfirst, hfiles]))
    · exact ⟨hcancelled, .inr (.inr hgathers)⟩
  · have hcancelled : session.cancelled = false := by
      rw [← Bool.not_eq_true]
      exact fun hc => hreg ⟨hregisters, hc⟩
    refine ⟨hcancelled, .inl ?_⟩
    by_cases hretcode : retcode = 0
    · simp [ServerSession.gotDataFromServer, hbefore, ServerSession.serverDone, hregisters, hcancelled, hretcode]
    · simp [ServerSession.gotDataFromServer, hbefore, ServerSession.serverDone, hregisters, hcancelled, hretcode,
        ServerSession.complete] at hstate

/-! ### What the server session says -/

/-- A session that is over from now on has said so. -/
def SaysEnd (result : CompileSession.Result) : Prop := result.1.completed = true → ∃ msg ∈ result.2, IsEnd msg

/-- A session that goes on has nothing to say. -/
theorem SaysEnd.of_open {result : CompileSession.Result} (hopen : result.1.completed = false) : SaysEnd result :=
  fun hdone => by simp [hopen] at hdone

theorem cancelSession_speaks (hlive : c.completed = false) : SaysEnd c.cancelSession := by
  unfold CompileSession.cancelSession
  split
  · exact .of_open hlive
  · exact fun _ => ⟨.sessionCancelled, by simp [CompileSession.sessionDone], trivial⟩

theorem selfdestruct_speaks (hlive : c.completed = false) : SaysEnd c.selfdestruct := by
  unfold CompileSession.selfdestruct
  rw [if_neg (by simp [hlive])]
  exact fun _ => ⟨.timedOut, by simp, trivial⟩

theorem completed_afterCompiler (c : CompileSession) : c.afterCompiler.completed = c.completed := by
  unfold CompileSession.afterCompiler CompileSession.compile
  split <;> rfl

theorem compileCompleted_speaks (hlive : c.completed = false) (ok : Bool) (outcome : CompileSession.Outcome) :
    SaysEnd (c.compileCompleted ok outcome) := by
  unfold CompileSession.compileCompleted
  split
  · cases outcome with
    | raised traceback =>
      cases ok with
      | true => exact fun _ => ⟨.serverFailed traceback, by simp [CompileSession.sessionDone], trivial⟩
      | false => exact .of_open hlive
    | exited retcode stdout stderr =>
      dsimp only
      split
      · exact .of_open hlive
      · rename_i hretcode
        cases ok with
        | true => exact fun _ => ⟨.serverDone retcode stdout stderr, by simp [CompileSession.sessionDone], hretcode⟩
        | false => exact .of_open hlive
  · exact .of_open hlive

theorem callback_speaks (hlive : c.completed = false) (report : CompileSession.Report) (x : CompileSession.Callback) :
    SaysEnd (c.callback report x) := by
  have hfired : (c.fired x).completed = false := hlive
  cases x with
  | pchCompleted =>
    unfold CompileSession.callback CompileSession.pchCompleted
    cases report.ok <;> exact .of_open hfired
  | runCompiler =>
    simp only [CompileSession.callback, CompileSession.runCompiler]
    split
    · exact cancelSession_speaks hfired
    · cases report.ok <;> exact .of_open hfired
  | compileCompleted => exact compileCompleted_speaks hfired report.ok report.outcome
  | sendCompressed =>
    unfold CompileSession.callback CompileSession.sendCompressed
    cases report.ok with
    | true => exact fun _ => ⟨.chunk true, by simp [CompileSession.sessionDone], rfl⟩
    | false => exact .of_open hfired

theorem stateProcessMsg_speaks (hlive : c.completed = false) {needs : Bool × Bool} {handling : CompileSession.Handling}
    {msg : ToServer} {result : CompileSession.Result} (hresult : c.stateProcessMsg needs handling msg = some result) :
    msg = .sendConfirmation false ∧ c.state = .waitForConfirmation ∨ SaysEnd result := by
  have hafter : ∀ c : CompileSession, c.completed = false → SaysEnd (c.afterCompiler, []) :=
    fun c hlive => .of_open ((completed_afterCompiler c).trans hlive)
  by_cases hcompiler : c.state = .downloadingCompiler
  · obtain ⟨-, rfl | hunpack⟩ := CompileSession.downloadingCompiler_cases hcompiler hresult
    · exact .inr (.of_open hlive)
    · rcases CompileSession.unpack_cases hunpack with ⟨-, rfl⟩ | ⟨-, rfl⟩
      · exact .inr (hafter _ hlive)
      · exact .inr (.of_open hlive)
  · unfold CompileSession.stateProcessMsg at hresult
    cases hstate : c.state with
    | getTask =>
      simp only [hstate] at hresult
      split at hresult
      · cases hresult
        exact .inr (.of_open hlive)
      · cases hresult
    | downloadMissingHeaders =>
      simp only [hstate] at hresult
      split at hresult
      · cases hresult
        split
        · exact .inr (.of_open hlive)
        · exact .inr (hafter c hlive)
      · cases hresult
    | downloadingCompiler => exact absurd hstate hcompiler
    | downloadingPCH =>
      simp only [hstate] at hresult
      obtain ⟨last, -, rfl⟩ := Option.map_eq_some_iff.1 hresult
      cases last <;> exact .inr (.of_open hlive)
    | waitForConfirmation =>
      simp only [hstate] at hresult
      split at hresult
      · cases hresult
        exact .inr (.of_open hlive)
      · cases hresult
        exact .inl ⟨rfl, rfl⟩
      · cases hresult
    | cancelled =>
      simp only [hstate] at hresult
      cases hresult
      exact .inr (.of_open hlive)
    | runningCompiler | uploadingFile | failed =>
      simp only [hstate] at hresult
      cases hresult

theorem processMsg_speaks (hlive : c.completed = false) {needs : Bool × Bool} {handling : CompileSession.Handling}
    (msg : ToServer) :
    msg = .sendConfirmation false ∧ c.state = .waitForConfirmation ∨
      SaysEnd ((c.processMsg needs handling msg).getD (c, [])) := by
  cases hresult : c.processMsg needs handling msg with
  | none => exact .inr (.of_open hlive)
  | some result =>
    unfold CompileSession.processMsg at hresult
    split at hresult
    · split at hresult
      · cases hresult
        exact .inr (cancelSession_speaks hlive)
      · cases hresult
        exact .inr (.of_open hlive)
    · split at hresult
      · cases hresult
        exact .inr (cancelSession_speaks hlive)
      · exact stateProcessMsg_speaks hlive hresult

/-! ### Steps -/

theorem init_owes : Owes {} where
  closed hreg := by cases hreg
  open_ _ := by simp
  receiving _ hstate := by cases hstate
  told _ c hc := by cases hc

/-- What the manager sends, and how much it has to compress, is nobody's end. -/
theorem Owes.congr (h : Owes t) (hmanager : t'.manager = t.manager) (hreg : t'.registered = t.registered)
    (hserver : t'.server = t.server) (hu : t'.toManager = t.toManager) (hgathering : t'.gathering = t.gathering) :
    Owes t' where
  closed := by rw [hreg, hmanager]; exact h.closed
  open_ := by rw [hreg, hmanager]; exact h.open_
  receiving := by rw [hreg, hmanager, hgathering]; exact h.receiving
  told := by rw [hreg, hserver, hu, hgathering]; exact h.told

/-- Nothing is owed to a session that has its result. -/
theorem forgotten_owes (hreg : t.registered = false)
    (hclosed : t.manager.state = .finish ∧ t.manager.result.isSome = true) : Owes t where
  closed _ := hclosed
  open_ hopen := absurd (hopen.symm.trans hreg) (by simp)
  receiving hopen := absurd (hopen.symm.trans hreg) (by simp)
  told hopen := absurd (hopen.symm.trans hreg) (by simp)

theorem cancel_owes (h : Owes t) (hstate : t.manager.state ≠ .receiveObjectFile) :
    Owes (t.replied t.manager.cancel) where
  closed hreg := h.closed hreg
  open_ hreg := h.open_ hreg
  receiving _ hreceiving := absurd hreceiving hstate
  told hreg c hc hdone := h.told hreg c hc hdone

theorem complete_owes (t : System) (session : ServerSession) (result : SessionResult) (sent : List ToServer) :
    Owes (t.replied (session.complete result sent)) := forgotten_owes rfl ⟨rfl, rfl⟩

theorem decompressed_owes (h : Owes t) {n : Nat} (ok : Bool) :
    Owes (System.replied { t with gathering := n } (t.manager.completeSession ok)) := by
  unfold ServerSession.completeSession
  split
  · rename_i hstate
    have hforgotten : t.registered = false := by
      rw [← Bool.not_eq_true]
      exact fun hreg => h.open_ hreg hstate
    split
    · exact forgotten_owes hforgotten (h.closed hforgotten)
    · exact complete_owes _ _ _ _
  · split <;> exact complete_owes _ _ _ _

theorem deliverToManager_owes (hfiles : task.resultFiles = 1) {raises : Prop} (hinv : Inv raises t) (h : Owes t)
    (hreg : t.registered = true) {msg : FromServer} {rest : List FromServer} (hu : t.toManager = msg :: rest)
    {registers : Bool} (hregisters : ¬ (registers = true ∧ t.manager.cancelled = true)) :
    Owes (System.replied { t with toManager := rest } (t.manager.gotDataFromServer task registers msg)) := by
  have hexpects := hinv.manager_expects hreg hu
  have hreceiving := h.receiving hreg
  have hok : ServerSession.ActionOk t.manager registers msg (t.manager.gotDataFromServer task registers msg) :=
    ServerSession.gotDataFromServer_ok
  by_cases hcomplete : ∃ result, (t.manager.gotDataFromServer task registers msg).action = some (.complete result)
  · obtain ⟨result, haction⟩ := hcomplete
    obtain ⟨hstate, hresult, -⟩ := hok.ends result haction
    have hforgotten : (System.replied { t with toManager := rest }
        (t.manager.gotDataFromServer task registers msg)).registered = false := by
      simp [System.replied, haction]
    exact forgotten_owes hforgotten ⟨hstate, by rw [System.replied, hresult]; rfl⟩
  · have hgathers : ((t.manager.gotDataFromServer task registers msg).action = some .gather ∨ 0 < t.gathering) →
        0 < t.gathering + if (t.manager.gotDataFromServer task registers msg).action = some .gather then 1 else 0 := by
      rintro (haction | hbefore)
      · rw [if_pos haction]
        exact Nat.succ_pos _
      · exact Nat.add_pos_left hbefore _
    have hopen : (System.replied { t with toManager := rest }
        (t.manager.gotDataFromServer task registers msg)).registered = true := by
      unfold System.replied
      split
      · rename_i result haction
        exact absurd ⟨result, haction⟩ hcomplete
      · exact hreg
    refine ⟨fun hforgotten => ?_, fun _ hfinish => ?_, fun _ hstate => ?_, fun _ c hc hdone => ?_⟩
    · exact absurd (hopen.symm.trans hforgotten) (by simp)
    · rcases hok.finishes hfinish with hover | hends
      · exact h.open_ hreg hover
      · exact hcomplete hends
    · obtain ⟨hcancelled, hfirst | hrest⟩ := receives hfiles hregisters hreceiving hstate
      · exact ⟨hcancelled, .inl hfirst⟩
      · exact ⟨hcancelled, .inr (hgathers hrest)⟩
    · rcases h.told hreg c hc hdone with ⟨m, hmem, hend⟩ | hbefore
      · rw [hu] at hmem
        rcases List.mem_cons.1 hmem with rfl | hmem
        · rcases end_heeded hfiles hend hexpects hregisters hreceiving with hends | hrest
          · exact absurd hends hcomplete
          · exact .inr (hgathers hrest)
        · exact .inl ⟨m, hmem, hend⟩
      · exact .inr (hgathers (.inr hbefore))

/-- The server session was called: it was over before, or says so if it is from now on. -/
theorem answered_owes (h : Owes t) {result : CompileSession.Result}
    (hspoken : t.registered = true → SaysEnd result ∨ ∃ c, t.server = some c ∧ c.completed = true) :
    Owes (t.answered result) where
  closed hreg := h.closed hreg
  open_ hreg := h.open_ hreg
  receiving hreg := h.receiving hreg
  told hreg c hc hdone := by
    obtain rfl := Option.some.inj hc
    rcases hspoken hreg with hend | ⟨c, hknown, hlong⟩
    · obtain ⟨msg, hmem, hend⟩ := hend hdone
      exact .inl ⟨msg, List.mem_append_right _ hmem, hend⟩
    · rcases h.told hreg c hknown hlong with ⟨msg, hmem, hend⟩ | hgathers
      · exact .inl ⟨msg, List.mem_append_left _ hmem, hend⟩
      · exact .inr hgathers

/-- The server refuses the object file only to a session that the manager has completed. -/
theorem refused {raises : Prop} (h : Inv raises t) (hserver : t.server = some c) (hlive : c.completed = false)
    (hstate : c.state = .waitForConfirmation) {rest : List ToServer}
    (hq : t.toServer = .sendConfirmation false :: rest) : t.registered = false := by
  have hsame : ∀ {c'}, t.server = some c' → c' = c := fun hc' => Option.some.inj (hc'.symm.trans hserver)
  have hdata : data t.toServer = .sendConfirmation false :: data rest := by
    rw [hq, data_cons (by simp)]
  cases h.phase with
  | new hnone =>
    rw [hnone] at hserver
    cases hserver
  | asked c' hc' _ hstate' =>
    rw [hsame hc', hstate] at hstate'
    cases hstate'
  | headers c' _ hc' _ hstate' =>
    rw [hsame hc', hstate] at hstate'
    cases hstate'
  | compiler c' hc' _ hstate' =>
    rw [hsame hc', hstate] at hstate'
    cases hstate'
  | pch c' hc' _ hstate' =>
    rw [hsame hc', hstate] at hstate'
    cases hstate'
  | working _ _ _ _ hfeed =>
    rw [hdata] at hfeed
    cases hfeed
  | done _ _ _ _ _ _ _ hfeed =>
    rw [hdata] at hfeed
    cases hfeed
  | confirmed c' verdict _ _ _ _ hfeed _ hwanted =>
    rw [hdata] at hfeed
    obtain rfl : false = verdict := by simpa using (List.cons.inj hfeed).1
    rw [← Bool.not_eq_true]
    exact fun hreg => absurd (hwanted hreg) (by simp)
  | uploading _ _ _ _ _ hfeed =>
    rw [hdata] at hfeed
    cases hfeed
  | stopped _ _ _ _ _ _ hfeed =>
    rw [hdata] at hfeed
    cases hfeed
  | ended c' hc' hcompleted =>
    rw [hsame hc', hlive] at hcompleted
    cases hcompleted

theorem deliverToServer_owes {raises : Prop} (hinv : Inv raises t) (h : Owes t) {needs : Bool × Bool}
    {handling : CompileSession.Handling} (hdelivered : Delivered t needs handling t') : Owes t' := by
  cases hdelivered with
  | dropped msg rest hq hresult =>
    rw [hresult]
    exact h.congr rfl rfl rfl rfl rfl
  | processed msg rest hq c hc hlive hresult =>
    rw [hresult]
    have hwaits : Owes { t with toServer := rest } := h.congr rfl rfl rfl rfl rfl
    refine answered_owes hwaits fun hreg => .inl ?_
    rcases processMsg_speaks hlive msg with ⟨rfl, hstate⟩ | hend
    · rcases hc with ⟨hnew, -⟩ | hc
      · cases hnew
      · have hforgotten := refused hinv hc hlive hstate hq
        exact absurd (hforgotten.symm.trans hreg) (by simp)
    · exact hend

theorem callback_owes (h : Owes t) (hserver : t.server = some c) (report : CompileSession.Report)
    (x : CompileSession.Callback) : Owes (t.answered (c.callback report x)) := by
  refine answered_owes h fun _ => ?_
  cases hlive : c.completed with
  | false => exact .inl (callback_speaks hlive report x)
  | true => exact .inr ⟨c, hserver, hlive⟩

theorem selfdestruct_owes (h : Owes t) (hserver : t.server = some c) : Owes (t.answered c.selfdestruct) := by
  refine answered_owes h fun _ => ?_
  cases hlive : c.completed with
  | false => exact .inl (selfdestruct_speaks hlive)
  | true => exact .inr ⟨c, hserver, hlive⟩

theorem step_owes (hfiles : task.resultFiles = 1) {raises : Prop} {e : Event} (hinv : Inv raises t) (h : Owes t)
    (hcalm : Undisturbed t e) (hs : step task t e = some t') : Owes t' := by
  cases e with
  | cancel =>
    cases hs
    exact cancel_owes h hcalm
  | terminate =>
    simp only [step] at hs
    split at hs
    · cases hs
      exact complete_owes _ _ _ _
    · cases hs
  | pchCompressed parts =>
    simp only [step] at hs
    split at hs
    · cases hs
    · cases hs
      exact h.congr rfl rfl rfl rfl rfl
  | decompressed ok =>
    simp only [step] at hs
    split at hs
    · cases hs
    · cases hs
      exact decompressed_owes h ok
  | deliverToServer needs handling => exact deliverToServer_owes hinv h (deliverToServer_cases hs)
  | deliverToManager registers =>
    simp only [step] at hs
    split at hs
    · cases hs
    · rename_i hregisters
      split at hs
      · cases hs
      · rename_i hu
        cases hs
        split
        · rename_i hreg
          exact deliverToManager_owes hfiles hinv h hreg hu (by simpa using hregisters)
        · rename_i hreg
          rw [Bool.not_eq_true] at hreg
          exact forgotten_owes hreg (h.closed hreg)
  | callback x report =>
    obtain ⟨c, hc, hs⟩ := Option.bind_eq_some_iff.1 hs
    split at hs
    · cases hs
      exact callback_owes h hc report x
    · cases hs
  | selfdestruct =>
    obtain ⟨c, hc, rfl⟩ := Option.map_eq_some_iff.1 hs
    exact selfdestruct_owes h hc

end Owed

/-! ## Every run -/

/-- What the two sessions and their threads do by themselves. -/
def Own : Event → Prop
  | .cancel | .terminate | .selfdestruct => False
  | _ => True

section Progress
variable {task : SessionTask} {t : System}

/-- Something of their own can happen. -/
def CanGoOn (task : SessionTask) (t : System) : Prop := ∃ e, Own e ∧ (step task t e).isSome = true

theorem server_goes_on (hq : t.toServer ≠ []) : CanGoOn task t := by
  refine ⟨.deliverToServer (false, false), trivial, ?_⟩
  obtain ⟨msg, rest, hq⟩ := List.exists_cons_of_ne_nil hq
  simp only [step, hq]
  split
  · rfl
  · split <;> rfl

theorem manager_goes_on {u : FromServer} (hu : u ∈ t.toManager) : CanGoOn task t := by
  refine ⟨.deliverToManager false, trivial, ?_⟩
  obtain ⟨msg, rest, hu⟩ := List.exists_cons_of_ne_nil (List.ne_nil_of_mem hu)
  simp [step, hu]

theorem compressor_goes_on (hn : 0 < t.compressing) : CanGoOn task t := by
  refine ⟨.pchCompressed 0, trivial, ?_⟩
  obtain ⟨n, hn⟩ := Nat.exists_eq_add_one.2 hn
  simp [step, hn]

theorem gatherer_goes_on (hn : 0 < t.gathering) : CanGoOn task t := by
  refine ⟨.decompressed true, trivial, ?_⟩
  obtain ⟨n, hn⟩ := Nat.exists_eq_add_one.2 hn
  simp [step, hn]

theorem callback_goes_on {c : CompileSession} (hserver : t.server = some c) (hpending : c.pending ≠ []) :
    CanGoOn task t := by
  obtain ⟨x, rest, hx⟩ := List.exists_cons_of_ne_nil hpending
  refine ⟨.callback x {}, trivial, ?_⟩
  simp [step, hserver, hx]

/-- As long as the manager knows its session, it does not only wait. -/
theorem goes_on (h : Inv False t) (howes : Owes t) (hreg : t.registered = true) : CanGoOn task t := by
  have hdata : data t.toServer ≠ [] → t.toServer ≠ [] := by
    intro hne hq
    rw [hq] at hne
    exact hne rfl
  have hsent : ∀ {state msg}, t.ManagerAt state [msg] → CanGoOn task t := by
    intro state msg hat
    obtain ⟨-, hu⟩ := hat hreg
    apply manager_goes_on (u := msg)
    rw [hu]
    exact List.mem_cons_self
  cases h.phase with
  | new _ hfeed => exact server_goes_on (hdata (by simp [hfeed]))
  | asked _ _ _ _ _ _ _ hat => exact hsent hat
  | headers _ _ _ _ _ _ hfeed => exact server_goes_on (hdata (by simp [hfeed]))
  | compiler _ _ _ _ _ _ hfeed =>
    obtain ⟨parts, rest, hfeed, -⟩ := hfeed
    exact server_goes_on (hdata (by simp [hfeed, ServerSession.sendFile]))
  | pch _ _ _ _ _ hfeed =>
    rcases hfeed with ⟨-, hcompressing⟩ | ⟨parts, hfeed, -⟩
    · exact compressor_goes_on (by omega)
    · exact server_goes_on (hdata (by simp [hfeed, ServerSession.sendFile]))
  | working c hserver hlive hstate =>
    apply callback_goes_on hserver
    rcases hstate with ⟨-, hpending⟩ | ⟨-, hpending | hpending⟩ <;> simp [hpending]
  | done _ _ _ _ _ _ _ _ _ hat => exact hsent hat
  | confirmed _ _ _ _ _ _ hfeed => exact server_goes_on (hdata (by simp [hfeed]))
  | stopped hraised => exact hraised.elim
  | uploading _ hserver _ _ hpending => exact callback_goes_on hserver (by simp [hpending])
  | ended c hserver hdone =>
    rcases howes.told hreg c hserver hdone with ⟨msg, hmem, -⟩ | hgathers
    · exact manager_goes_on hmem
    · exact gatherer_goes_on hgathers

theorem Undisturbed.unpacks {e : Event} (h : Undisturbed t e) : Unpacks t e := by
  cases e with
  | deliverToServer needs handling => exact fun _ _ _ => h
  | _ => trivial

theorem Undisturbed.not_raises {e : Event} (h : Undisturbed t e) : ¬ Raises e := by
  cases e with
  | deliverToServer needs handling => exact fun hraises => hraises h
  | callback x report => exact fun hraises => absurd (hraises.symm.trans h) (by simp)
  | _ => exact id

/-- The session is cancelled while its compiler runs, and the compiler ends before the server hears of it. -/
def cancelledCompile : List Event :=
  [.deliverToServer (false, false), .deliverToManager false, .deliverToServer (false, false),
    .callback .runCompiler {}, .cancel, .callback .compileCompleted {}, .deliverToManager false]

end Progress

end BuildPal.SessionProtocol
