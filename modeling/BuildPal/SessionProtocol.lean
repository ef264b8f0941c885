import BuildPal.Lib.Runs
import BuildPal.Server.CompileSession
/-!
# A manager session and its server session

The two ends of a compile session, connected by two FIFO channels. Either end
may be slow, cancelled, timed out or terminated at any moment, and a call of the
server's session may raise. What is in the channels is what the receiver's state
expects, as long as a session that needs the PCH file too can unpack its compiler:
the chunks of the PCH file come all the same.
-/
open BuildPal.Lib

namespace BuildPal.SessionProtocol

/-- Both sessions and what is on its way between them. -/
structure System where
  manager : ServerSession := { state := .waitForMissingFiles }
  /-- The manager knows the session: messages for one it has forgotten are dropped. -/
  registered : Bool := true
  server : Option CompileSession := none
  toServer : List ToServer := [.newSession]
  toManager : List FromServer := []
  /-- The number of times the PCH file is still to be compressed and sent. -/
  compressing : Nat := 0
  /-- The decompressions of the result that `complete_session` still waits for. -/
  gathering : Nat := 0

inductive Event where
  /-- `cancel`, which the task may call at any moment. -/
  | cancel
  /-- `terminate`: the node has gone. -/
  | terminate
  | pchCompressed (parts : Nat)
  | decompressed (ok : Bool)
  /-- The server takes its next message; `needs` is what its repositories say if asked. -/
  | deliverToServer (needs : Bool × Bool) (handling : CompileSession.Handling := .done)
  /-- The manager takes its next message; `registers` is what `register_completion` says if asked. -/
  | deliverToManager (registers : Bool)
  | callback (c : CompileSession.Callback) (report : CompileSession.Report)
  | selfdestruct

variable (task : SessionTask) (t : System)

/-- The manager session was called. -/
def System.replied (reply : ServerSession.Reply) : System :=
  { t with
    manager := reply.session
    toServer := t.toServer ++ reply.sent
    registered := match reply.action with
      | some (.complete _) => false
      | _ => t.registered
    compressing := t.compressing + if reply.action = some .compressPch then 1 else 0
    gathering := t.gathering + if reply.action = some .gather then 1 else 0 }

/-- The server session was called. -/
def System.answered (result : CompileSession.Result) : System :=
  { t with server := some result.1, toManager := t.toManager ++ result.2 }

def step (t : System) : Event → Option System
  | .cancel => some (t.replied t.manager.cancel)
  | .terminate => if t.registered then some (t.replied t.manager.terminate) else none
  | .pchCompressed parts =>
    match t.compressing with
    | 0 => none
    | n + 1 => some { t with compressing := n, toServer := t.toServer ++ ServerSession.sendFile .pch parts }
  | .decompressed ok =>
    match t.gathering with
    | 0 => none
    | n + 1 => some (System.replied { t with gathering := n } (t.manager.completeSession ok))
  | .deliverToServer needs handling =>
    match t.toServer with
    | [] => none
    | msg :: rest =>
      let t := { t with toServer := rest }
      let session := if msg = .newSession then some {} else t.server
      match session with
      | none => some t
      | some c =>
        if c.completed then some t
        -- a call that raises at once has done nothing
        else some (t.answered ((c.processMsg needs handling msg).getD (c, [])))
  | .deliverToManager registers =>
    -- the one thing taken for granted about the task
    if registers ∧ t.manager.cancelled then none
    else match t.toManager with
      | [] => none
      | msg :: rest =>
        let t := { t with toManager := rest }
        some (if t.registered then t.replied (t.manager.gotDataFromServer task registers msg) else t)
  | .callback c report =>
    t.server.bind fun session => if c ∈ session.pending then some (t.answered (session.callback report c)) else none
  | .selfdestruct => t.server.map fun session => t.answered session.selfdestruct

/-! ## What the two ends expect -/

/-- The messages a server session in this state is there for. -/
def ServerExpects : CompileSession.State → ToServer → Prop
  | .getTask, msg => msg = .newSession
  | .downloadMissingHeaders, msg => msg = .taskFiles
  | .downloadingCompiler, msg => ∃ last, msg = .chunk .compiler last
  | .downloadingPCH, msg => ∃ last, msg = .chunk .pch last
  | .waitForConfirmation, msg => ∃ verdict, msg = .sendConfirmation verdict
  | _, _ => False

/-- The messages a manager session in this state is there for; two may come at any time, one of
them only to a session that was cancelled. -/
def ManagerExpects (session : ServerSession) (msg : FromServer) : Prop :=
  msg = .timedOut ∨ (msg = .sessionCancelled ∧ session.cancelled = true) ∨
  match session.state with
  | .waitForMissingFiles => ∃ needCompiler needPch, msg = .missingFiles needCompiler needPch
  | .waitForServerResponse =>
    (∃ retcode stdout stderr, msg = .serverDone retcode stdout stderr) ∨ ∃ traceback, msg = .serverFailed traceback
  | .receiveObjectFile => ∃ last, msg = .chunk last
  | .start | .finish => False

/-- Every next message is dropped, or is one that the receiver's state is there for. -/
structure System.InStep (t : System) : Prop where
  /-- The first message creates the server's session; the others reach one that is completed, cancel it, or are taken by
  the state that is there for them. -/
  server : ∀ msg rest, t.toServer = msg :: rest →
    match t.server with
    | none => msg = .newSession
    | some c => c.completed = true ∨ msg = .cancelSession ∨
        ServerExpects c.state msg ∧ ∀ needs, (c.processMsg needs .done msg).isSome = true
  manager : ∀ msg rest, t.toManager = msg :: rest → t.registered = false ∨ ManagerExpects t.manager msg

/-- A session that needs the compiler and the PCH file can unpack the compiler, and nobody who waits for it raises. -/
def Unpacks (t : System) : Event → Prop
  | .deliverToServer _ handling => ∀ c ∈ t.server, c.completed = false ∧ c.state = .downloadingCompiler ∧
      c.pchRequired = true ∧ t.toServer.head? = some (.chunk .compiler true) → handling = .done
  | _ => True

instance : (t : System) → (e : Event) → Decidable (Unpacks t e)
  | t, .deliverToServer _ handling => inferInstanceAs (Decidable (∀ c ∈ t.server, c.completed = false ∧
      c.state = .downloadingCompiler ∧ c.pchRequired = true ∧ t.toServer.head? = some (.chunk .compiler true) →
        handling = .done))
  | _, .cancel | _, .terminate | _, .pchCompressed _ | _, .decompressed _ | _, .deliverToManager _ | _, .callback _ _
  | _, .selfdestruct => isTrue trivial

/-- A call of the server's session raises, whatever it was for. -/
def Raises : Event → Prop
  | .deliverToServer _ handling => handling ≠ .done
  | .callback _ report => report.ok = false
  | _ => False

/-! ## The invariant -/

/-- What is on its way to the server, the cancellations apart. -/
def data (q : List ToServer) : List ToServer := q.filter (· ≠ .cancelSession)

/-- The PCH file, if it is needed, is still to come: being compressed, or on its way. -/
def PchFeed (compressing : Nat) (q : List ToServer) : Bool → Prop
  | true => q = [] ∧ compressing = 1 ∨ ∃ parts, q = ServerSession.sendFile .pch parts ∧ compressing = 0
  | false => q = [] ∧ compressing = 0

/-- The compiler is on its way, followed by the PCH file. -/
def CompilerFeed (compressing : Nat) (q : List ToServer) (pch : Bool) : Prop :=
  ∃ parts rest, q = ServerSession.sendFile .compiler parts ++ rest ∧ PchFeed compressing rest pch

/-- If the manager still knows its session, it is in this state and this is on its way to it. -/
def System.ManagerAt (state : ServerSession.State) (u : List FromServer) : Prop :=
  t.registered = true → t.manager.state = state ∧ t.toManager = u

/-- A completed session sends nothing any more. -/
def Silent (c : CompileSession) : Prop :=
  c.pending = [] ∨ c.state = .cancelled ∧ ∀ x ∈ c.pending, x = .runCompiler ∨ x = .compileCompleted

/-- The messages bring a manager session from this state to its end, or `silent` and the result is there. -/
def Closes (silent : Prop) : ServerSession.State → List FromServer → Prop
  | _, .timedOut :: _ => True
  | _, .sessionCancelled :: _ => True
  | .waitForMissingFiles, .missingFiles _ _ :: u => Closes silent .waitForServerResponse u
  | .waitForServerResponse, .serverFailed _ :: _ => True
  | .waitForServerResponse, .serverDone retcode _ _ :: u => retcode ≠ 0 ∨ Closes silent .receiveObjectFile u
  | .receiveObjectFile, .chunk _ :: u => Closes silent .receiveObjectFile u
  | .receiveObjectFile, [] => silent
  | _, _ => False

/-- Where the two sessions stand with each other; `raises` is whether a call of the server's session may have raised. -/
inductive Phase (raises : Prop) (t : System) : Prop where
  | new (server : t.server = none) (feed : data t.toServer = [.newSession]) (idle : t.compressing = 0)
    (at_ : t.ManagerAt .waitForMissingFiles [])
  /-- The server has said what it needs, and the manager has not answered. -/
  | asked (c : CompileSession) (server : t.server = some c) (live : c.completed = false)
    (state : c.state = .downloadMissingHeaders) (pending : c.pending = []) (feed : data t.toServer = [])
    (idle : t.compressing = 0)
    (at_ : t.ManagerAt .waitForMissingFiles [.missingFiles c.compilerRequired c.pchRequired])
  | headers (c : CompileSession) (q : List ToServer) (server : t.server = some c) (live : c.completed = false)
    (state : c.state = .downloadMissingHeaders) (pending : c.pending = []) (feed : data t.toServer = .taskFiles :: q)
    (rest : if c.compilerRequired then CompilerFeed t.compressing q c.pchRequired
      else PchFeed t.compressing q c.pchRequired)
    (at_ : t.ManagerAt .waitForServerResponse [])
  | compiler (c : CompileSession) (server : t.server = some c) (live : c.completed = false)
    (state : c.state = .downloadingCompiler) (parts : c.compilerData = true) (pending : c.pending = [])
    (feed : CompilerFeed t.compressing (data t.toServer) c.pchRequired) (at_ : t.ManagerAt .waitForServerResponse [])
  | pch (c : CompileSession) (server : t.server = some c) (live : c.completed = false)
    (state : c.state = .downloadingPCH) (pending : c.pending = [])
    (feed : PchFeed t.compressing (data t.toServer) true) (at_ : t.ManagerAt .waitForServerResponse [])
  /-- The last part of the PCH file is there, or the compiler is running: nothing more is sent. -/
  | working (c : CompileSession) (server : t.server = some c) (live : c.completed = false)
    (state : c.state = .downloadingPCH ∧ c.pending = [.pchCompleted] ∨
      c.state = .runningCompiler ∧ (c.pending = [.runCompiler] ∨ c.pending = [.compileCompleted]))
    (feed : data t.toServer = []) (idle : t.compressing = 0) (at_ : t.ManagerAt .waitForServerResponse [])
  | done (c : CompileSession) (stdout stderr : Message.Bytes) (server : t.server = some c) (live : c.completed = false)
    (state : c.state = .waitForConfirmation) (pending : c.pending = []) (feed : data t.toServer = [])
    (idle : t.compressing = 0) (at_ : t.ManagerAt .waitForServerResponse [.serverDone 0 stdout stderr])
  | confirmed (c : CompileSession) (verdict : Bool) (server : t.server = some c) (live : c.completed = false)
    (state : c.state = .waitForConfirmation) (pending : c.pending = [])
    (feed : data t.toServer = [.sendConfirmation verdict]) (idle : t.compressing = 0)
    (wanted : t.registered = true → verdict = true) (at_ : t.ManagerAt .receiveObjectFile [])
  | uploading (c : CompileSession) (server : t.server = some c) (live : c.completed = false)
    (state : c.state = .uploadingFile) (pending : c.pending = [.sendCompressed]) (feed : data t.toServer = [])
    (idle : t.compressing = 0) (at_ : t.ManagerAt .receiveObjectFile [])
  /-- A call has raised, and nothing will come from the server's session but the end that its timer or a cancellation
  makes. -/
  | stopped (raised : raises) (c : CompileSession) (state : ServerSession.State) (server : t.server = some c)
      (live : c.completed = false)
    (pending : c.pending = []) (feed : data t.toServer = []) (idle : t.compressing = 0)
    (at_ : t.ManagerAt state [])
  /-- The server has forgotten its session. -/
  | ended (c : CompileSession) (server : t.server = some c) (completed : c.completed = true)
    (closes : t.registered = true → Closes (Silent c) t.manager.state t.toManager)

structure Inv (raises : Prop) (t : System) : Prop where
  phase : Phase raises t
  sender : t.registered = true → t.manager.state = .waitForMissingFiles → t.manager.sender = false
  started : .newSession ∈ t.toServer → t.server = none
  /-- Before the server knows the session, the manager can only wait. -/
  waiting : t.server = none → t.toServer = [.newSession] ∧ t.manager.sender = false
  /-- A cancellation comes from the manager. -/
  cancelled : .cancelSession ∈ t.toServer ∨ (∃ c, t.server = some c ∧ c.cancelPending = true) ∨
    .sessionCancelled ∈ t.toManager → t.manager.cancelled = true

/-! ## Lemmas -/

section Lemmas
variable {t} {raises : Prop}

@[simp] theorem data_nil : data [] = [] := rfl

@[simp] theorem data_append (q q' : List ToServer) : data (q ++ q') = data q ++ data q' := List.filter_append ..

@[simp] theorem data_cancel (q : List ToServer) : data (.cancelSession :: q) = data q := rfl

theorem data_cons {msg : ToServer} (h : msg ≠ .cancelSession) (q : List ToServer) :
    data (msg :: q) = msg :: data q := by
  unfold data
  rw [List.filter_cons_of_pos (by simpa using h)]

@[simp] theorem data_sendFile (cargo : Cargo) (parts : Nat) :
    data (ServerSession.sendFile cargo parts) = ServerSession.sendFile cargo parts := by
  unfold data
  rw [List.filter_eq_self]
  intro msg hmem
  rcases List.mem_append.1 hmem with h | h
  · rw [(List.mem_replicate.1 h).2]
    simp
  · simp_all

theorem sendFile_succ (cargo : Cargo) (parts : Nat) :
    ServerSession.sendFile cargo (parts + 1) = .chunk cargo false :: ServerSession.sendFile cargo parts := by
  simp [ServerSession.sendFile, List.replicate_succ]

theorem closes_mono {p p' : Prop} (hp : p → p') {state : ServerSession.State} {u : List FromServer}
    (h : Closes p state u) : Closes p' state u := by
  fun_induction Closes p state u with
  | case1 | case2 | case4 => trivial
  | case3 _ _ _ ih => exact ih h
  | case5 _ _ _ _ ih => exact h.imp id ih
  | case6 _ _ ih => exact ih h
  | case7 => exact hp h
  | case8 => exact h.elim

/-- What comes after the end does not matter. -/
theorem closes_append {p : Prop} {state : ServerSession.State} {u : List FromServer} (h : Closes False state u)
    (v : List FromServer) : Closes p state (u ++ v) := by
  fun_induction Closes False state u with
  | case1 | case2 | case4 => trivial
  | case3 _ _ _ ih => exact ih h
  | case5 _ _ _ _ ih => exact h.imp id ih
  | case6 _ _ ih => exact ih h
  | case7 => exact h.elim
  | case8 => exact h.elim

variable {task} {t' : System}

/-- The phase depends on the server session, `cancel_pending` apart, on what is on its way to it and, while
the manager knows its session, on the manager's state and what is on its way to it. -/
theorem Phase.congr_pending (h : Phase raises t) (hnone : t.server = none → t'.server = none)
    (hserver : ∀ c, t.server = some c → ∃ p, t'.server = some { c with cancelPending := p })
    (hdata : data t'.toServer = data t.toServer) (hcomp : t'.compressing = t.compressing)
    (hreg : t'.registered = true → t.registered = true ∧ t'.manager.state = t.manager.state ∧
      t'.toManager = t.toManager) : Phase raises t' := by
  have hat : ∀ {state u}, t.ManagerAt state u → t'.ManagerAt state u := by
    intro state u hm hr
    obtain ⟨hr', hstate, hu⟩ := hreg hr
    rw [hstate, hu]
    exact hm hr'
  cases h with
  | new server feed idle at_ => exact .new (hnone server) (hdata.trans feed) (hcomp.trans idle) (hat at_)
  | asked c server live state pending feed idle at_ =>
    obtain ⟨p, hc⟩ := hserver c server
    exact .asked _ hc live state pending (hdata.trans feed) (hcomp.trans idle) (hat at_)
  | headers c q server live state pending feed rest at_ =>
    obtain ⟨p, hc⟩ := hserver c server
    rw [← hcomp] at rest
    exact .headers _ q hc live state pending (hdata.trans feed) rest (hat at_)
  | compiler c server live state parts pending feed at_ =>
    obtain ⟨p, hc⟩ := hserver c server
    rw [← hcomp, ← hdata] at feed
    exact .compiler _ hc live state parts pending feed (hat at_)
  | pch c server live state pending feed at_ =>
    obtain ⟨p, hc⟩ := hserver c server
    rw [← hcomp, ← hdata] at feed
    exact .pch _ hc live state pending feed (hat at_)
  | working c server live state feed idle at_ =>
    obtain ⟨p, hc⟩ := hserver c server
    exact .working _ hc live state (hdata.trans feed) (hcomp.trans idle) (hat at_)
  | done c stdout stderr server live state pending feed idle at_ =>
    obtain ⟨p, hc⟩ := hserver c server
    exact .done _ stdout stderr hc live state pending (hdata.trans feed) (hcomp.trans idle) (hat at_)
  | confirmed c verdict server live state pending feed idle wanted at_ =>
    obtain ⟨p, hc⟩ := hserver c server
    exact .confirmed _ verdict hc live state pending (hdata.trans feed) (hcomp.trans idle)
      (fun hr => wanted (hreg hr).1) (hat at_)
  | uploading c server live state pending feed idle at_ =>
    obtain ⟨p, hc⟩ := hserver c server
    exact .uploading _ hc live state pending (hdata.trans feed) (hcomp.trans idle) (hat at_)
  | stopped raised c state server live pending feed idle at_ =>
    obtain ⟨p, hc⟩ := hserver c server
    exact .stopped raised _ state hc live pending (hdata.trans feed) (hcomp.trans idle) (hat at_)
  | ended c server completed closes =>
    obtain ⟨p, hc⟩ := hserver c server
    refine .ended _ hc completed fun hr => ?_
    obtain ⟨hr', hstate, hu⟩ := hreg hr
    rw [hstate, hu]
    exact closes hr'

theorem Phase.congr (h : Phase raises t) (hserver : t'.server = t.server) (hdata : data t'.toServer = data t.toServer)
    (hcomp : t'.compressing = t.compressing)
    (hreg : t'.registered = true → t.registered = true ∧ t'.manager.state = t.manager.state ∧
      t'.toManager = t.toManager) : Phase raises t' :=
  h.congr_pending (fun hn => hserver.trans hn) (fun c hc => ⟨c.cancelPending, hserver.trans hc⟩) hdata hcomp hreg

theorem Phase.new_of_none (h : Phase raises t) (hn : t.server = none) :
    data t.toServer = [.newSession] ∧ t.compressing = 0 ∧ t.ManagerAt .waitForMissingFiles [] := by
  cases h with
  | new _ feed idle at_ => exact ⟨feed, idle, at_⟩
  | asked _ server => rw [hn] at server; cases server
  | headers _ _ server => rw [hn] at server; cases server
  | compiler _ server => rw [hn] at server; cases server
  | pch _ server => rw [hn] at server; cases server
  | working _ server => rw [hn] at server; cases server
  | done _ _ _ server => rw [hn] at server; cases server
  | confirmed _ _ server => rw [hn] at server; cases server
  | uploading _ server => rw [hn] at server; cases server
  | stopped _ _ _ server => rw [hn] at server; cases server
  | ended _ server => rw [hn] at server; cases server

/-! ## The manager's own steps -/

theorem cancel_inv (h : Inv raises t) : Inv raises (t.replied t.manager.cancel) where
  phase := by
    refine h.phase.congr rfl ?_ (by simp [System.replied, ServerSession.cancel]) fun hr => ⟨hr, rfl, rfl⟩
    unfold System.replied ServerSession.cancel
    split <;> simp
  sender := h.sender
  started hn := by
    apply h.started
    unfold System.replied ServerSession.cancel at hn
    split at hn <;> simpa using hn
  waiting hn := by
    obtain ⟨hq, hs⟩ := h.waiting hn
    simp [System.replied, ServerSession.cancel, hq, hs]
  cancelled _ := rfl

/-- A call that completes the session: from then on the manager drops what comes. -/
theorem complete_inv {result : SessionResult} (h : Inv raises t) :
    Inv raises (t.replied (t.manager.complete result [])) where
  phase := by
    refine h.phase.congr rfl (by simp [System.replied, ServerSession.complete]) ?_ fun hr => ?_
    · simp [System.replied, ServerSession.complete]
    · simp [System.replied, ServerSession.complete] at hr
  sender hr := by simp [System.replied, ServerSession.complete] at hr
  started hn := h.started (by simpa [System.replied, ServerSession.complete] using hn)
  waiting hn := by
    obtain ⟨hq, hs⟩ := h.waiting hn
    simp [System.replied, ServerSession.complete, hq, hs]
  cancelled hc := h.cancelled (by simpa [System.replied, ServerSession.complete] using hc)

theorem decompressed_inv {ok : Bool} {n : Nat} (h : Inv raises t) :
    Inv raises (System.replied { t with gathering := n } (t.manager.completeSession ok)) := by
  have h' : Inv raises { t with gathering := n } :=
    ⟨h.phase.congr rfl rfl rfl fun hr => ⟨hr, rfl, rfl⟩, h.sender, h.started, h.waiting, h.cancelled⟩
  unfold ServerSession.completeSession
  split
  · split
    · refine ⟨h'.phase.congr rfl (by simp [System.replied]) (by simp [System.replied]) fun hr => ⟨hr, rfl, rfl⟩,
        h'.sender, fun hn => h'.started (by simpa [System.replied] using hn),
        fun hn => by simpa [System.replied] using h'.waiting hn,
        fun hc => h'.cancelled (by simpa [System.replied] using hc)⟩
    · exact complete_inv h'
  · split
    · exact complete_inv h'
    · exact complete_inv h'

theorem pchFeed_compressed {n parts : Nat} {q : List ToServer} {needed : Bool} (h : PchFeed (n + 1) q needed) :
    PchFeed n (q ++ ServerSession.sendFile .pch parts) needed := by
  cases needed with
  | true =>
    rcases h with ⟨rfl, hn⟩ | ⟨_, _, hn⟩
    · exact .inr ⟨parts, rfl, by omega⟩
    · omega
  | false => exact absurd h.2 (by omega)

theorem compilerFeed_compressed {n parts : Nat} {q : List ToServer} {needed : Bool} (h : CompilerFeed (n + 1) q needed) :
    CompilerFeed n (q ++ ServerSession.sendFile .pch parts) needed := by
  obtain ⟨k, rest, rfl, hrest⟩ := h
  exact ⟨k, rest ++ ServerSession.sendFile .pch parts, List.append_assoc .., pchFeed_compressed hrest⟩

theorem pchCompressed_inv {n parts : Nat} (h : Inv raises t) (hn : t.compressing = n + 1) :
    Inv raises { t with compressing := n, toServer := t.toServer ++ ServerSession.sendFile .pch parts } where
  phase := by
    have hidle : t.compressing ≠ 0 := by omega
    have hdata : data (t.toServer ++ ServerSession.sendFile .pch parts) =
        data t.toServer ++ ServerSession.sendFile .pch parts := by simp
    cases h.phase with
    | headers c q server live state pending feed rest at_ =>
      refine .headers c (q ++ ServerSession.sendFile .pch parts) server live state pending ?_ ?_ at_
      · rw [hdata, feed]
        rfl
      · rw [hn] at rest
        split at rest
        · rename_i hreq
          rw [if_pos hreq]
          exact compilerFeed_compressed rest
        · rename_i hreq
          rw [if_neg hreq]
          exact pchFeed_compressed rest
    | compiler c server live state parts pending feed at_ =>
      rw [hn] at feed
      exact .compiler c server live state parts pending (by rw [hdata]; exact compilerFeed_compressed feed) at_
    | pch c server live state pending feed at_ =>
      rw [hn] at feed
      exact .pch c server live state pending (by rw [hdata]; exact pchFeed_compressed feed) at_
    | ended c server completed closes => exact .ended c server completed closes
    | new _ _ idle _ => exact absurd idle hidle
    | asked _ _ _ _ _ _ idle _ => exact absurd idle hidle
    | working _ _ _ _ _ idle _ => exact absurd idle hidle
    | done _ _ _ _ _ _ _ _ idle _ => exact absurd idle hidle
    | confirmed _ _ _ _ _ _ _ idle _ _ => exact absurd idle hidle
    | uploading _ _ _ _ _ _ idle _ => exact absurd idle hidle
    | stopped _ _ _ _ _ _ _ idle _ => exact absurd idle hidle
  sender := h.sender
  started hn := by
    have hno : ToServer.newSession ∉ ServerSession.sendFile .pch parts := by
      simp [ServerSession.sendFile, List.mem_replicate]
    exact h.started ((List.mem_append.1 hn).resolve_right hno)
  waiting hnone := by
    have := (h.phase.new_of_none hnone).2.1
    omega
  cancelled hc := by
    apply h.cancelled
    have hno : ToServer.cancelSession ∉ ServerSession.sendFile .pch parts := by
      simp [ServerSession.sendFile, List.mem_replicate]
    rcases hc with hc | hc
    · exact .inl ((List.mem_append.1 hc).resolve_right hno)
    · exact .inr hc

/-! ## A message for the manager -/

section ToManager
variable {registers : Bool} {msg : FromServer} {rest : List FromServer}

/-- While the server's last messages come in, each is expected and leads on to the end. -/
theorem closes_deliver (task : SessionTask) {silent : Prop} {session : ServerSession}
    (h : Closes silent session.state (msg :: rest))
    (hsender : session.state = .waitForMissingFiles → session.sender = false)
    (hcancel : msg = .sessionCancelled → session.cancelled = true)
    (hreg : registers = true → session.cancelled = false) :
    (∃ result, (session.gotDataFromServer task registers msg).action = some (.complete result)) ∨
      Closes silent (session.gotDataFromServer task registers msg).session.state rest := by
  unfold ServerSession.gotDataFromServer
  cases hstate : session.state <;> cases msg <;> simp only [hstate, Closes] at h ⊢
  case waitForMissingFiles.missingFiles needCompiler needPch =>
    rw [hsender hstate]
    exact .inr h
  case waitForServerResponse.serverDone retcode stdout stderr =>
    unfold ServerSession.serverDone
    cases registers with
    | false => exact .inl ⟨_, rfl⟩
    | true =>
      simp only [hreg rfl, if_true, Bool.false_eq_true, if_false]
      by_cases h0 : retcode = 0
      · rw [if_pos h0]
        exact .inr (h.resolve_left (fun hne => hne h0))
      · rw [if_neg h0]
        exact .inl ⟨_, rfl⟩
  case receiveObjectFile.chunk last =>
    right
    unfold ServerSession.receiveObjectFile
    repeat' split
    all_goals simpa [ServerSession.raised, hstate] using h
  all_goals first
    | exact .inl ⟨_, rfl⟩
    | (rw [hcancel rfl]; exact .inl ⟨_, rfl⟩)

/-- While a message is on its way to the manager, no phase without one fits. -/
theorem not_managerAt_nil {state : ServerSession.State} (hr : t.registered = true) (hu : t.toManager = msg :: rest) :
    ¬ t.ManagerAt state [] := by
  intro hat
  rw [(hat hr).2] at hu
  cases hu

theorem deliver_phase (h : Inv raises t) (hr : t.registered = true) (hu : t.toManager = msg :: rest)
    (hreg : registers = true → t.manager.cancelled = false) :
    Phase raises (System.replied { t with toManager := rest } (t.manager.gotDataFromServer task registers msg)) := by
  -- in most phases nothing is on its way to the manager
  have hempty : ∀ {state}, ¬ t.ManagerAt state [] := fun hat => not_managerAt_nil hr hu hat
  cases h.phase with
  | new _ _ _ at_ => exact (hempty at_).elim
  | headers _ _ _ _ _ _ _ _ at_ => exact (hempty at_).elim
  | compiler _ _ _ _ _ _ _ at_ => exact (hempty at_).elim
  | pch _ _ _ _ _ _ at_ => exact (hempty at_).elim
  | working _ _ _ _ _ _ at_ => exact (hempty at_).elim
  | confirmed _ _ _ _ _ _ _ _ _ at_ => exact (hempty at_).elim
  | uploading _ _ _ _ _ _ _ at_ => exact (hempty at_).elim
  | stopped _ _ _ _ _ _ _ _ at_ => exact (hempty at_).elim
  | asked c server live state pending feed idle at_ =>
    obtain ⟨hstate, hmsg⟩ := at_ hr
    rw [hu] at hmsg
    obtain ⟨rfl, rfl⟩ : msg = _ ∧ rest = [] := by simpa using hmsg
    have hreply : t.manager.gotDataFromServer task registers (.missingFiles c.compilerRequired c.pchRequired) =
        t.manager.sendTaskFiles task c.compilerRequired c.pchRequired := by
      simp [ServerSession.gotDataFromServer, hstate, h.sender hr hstate]
    rw [hreply]
    refine .headers c (if c.compilerRequired then ServerSession.sendFile .compiler task.compilerParts else []) server
      live state pending ?_ ?_ ?_
    · unfold System.replied ServerSession.sendTaskFiles
      rw [data_append, feed, data_append, data_cons (by simp)]
      split <;> split <;> simp
    · have hpch : PchFeed (System.replied { t with toManager := [] }
          (t.manager.sendTaskFiles task c.compilerRequired c.pchRequired)).compressing [] c.pchRequired := by
        unfold System.replied ServerSession.sendTaskFiles
        cases c.pchRequired <;> simp [PchFeed, idle]
      cases c.compilerRequired with
      | true => exact ⟨task.compilerParts, [], by simp, hpch⟩
      | false => exact hpch
    · intro _
      exact ⟨rfl, rfl⟩
  | done c stdout stderr server live state pending feed idle at_ =>
    obtain ⟨hstate, hmsg⟩ := at_ hr
    rw [hu] at hmsg
    obtain ⟨rfl, rfl⟩ : msg = _ ∧ rest = [] := by simpa using hmsg
    cases registers with
    | true =>
      refine .confirmed c true server live state pending ?_ ?_ (fun _ => rfl) ?_ <;>
        simp [ServerSession.gotDataFromServer, ServerSession.serverDone, hstate, hreg, System.replied, feed, idle,
          data_cons, System.ManagerAt]
    | false =>
      refine .confirmed c false server live state pending ?_ ?_ ?_ ?_ <;>
        simp [ServerSession.gotDataFromServer, ServerSession.serverDone, hstate, ServerSession.complete, System.replied,
          feed, idle, data_cons, System.ManagerAt]
  | ended c server completed closes =>
    have hclose := closes hr
    rw [hu] at hclose
    refine .ended c server completed fun hr' => ?_
    have hcancel : msg = .sessionCancelled → t.manager.cancelled = true := by
      rintro rfl
      exact h.cancelled (.inr (.inr (by simp [hu])))
    rcases closes_deliver task hclose (h.sender hr) hcancel hreg with ⟨result, hres⟩ | hclose'
    · simp [System.replied, hres] at hr'
    · exact hclose'

theorem deliverToManager_inv (h : Inv raises t) (hu : t.toManager = msg :: rest)
    (hreg : registers = true → t.manager.cancelled = false) :
    Inv raises (if t.registered then
      System.replied { t with toManager := rest } (t.manager.gotDataFromServer task registers msg)
      else { t with toManager := rest }) := by
  have hrest : ∀ m ∈ rest, m ∈ t.toManager := fun m hm => by rw [hu]; exact List.mem_cons_of_mem _ hm
  by_cases hr : t.registered = true
  · rw [if_pos hr]
    refine ⟨deliver_phase h hr hu hreg, fun hr' hs => ?_, fun hn => ?_, fun hn => ?_, fun hc => ?_⟩
    · obtain ⟨hstate, hsender⟩ := ServerSession.gotDataFromServer_waiting hs
      exact hsender.trans (h.sender hr hstate)
    · exact h.started ((List.mem_append.1 hn).resolve_right ServerSession.gotDataFromServer_sent.2)
    · rw [((h.phase.new_of_none hn).2.2 hr).2] at hu
      cases hu
    · show (t.manager.gotDataFromServer task registers msg).session.cancelled = true
      rw [ServerSession.gotDataFromServer_cancelled]
      rcases hc with hc | hc | hc
      · rcases List.mem_append.1 hc with hc | hc
        · exact h.cancelled (.inl hc)
        · exact ServerSession.gotDataFromServer_sent.1 hc
      · exact h.cancelled (.inr (.inl hc))
      · exact h.cancelled (.inr (.inr (hrest _ hc)))
  · rw [if_neg hr]
    refine ⟨h.phase.congr rfl rfl rfl fun hr' => absurd hr' hr, fun hr' => absurd hr' hr, h.started,
      h.waiting, fun hc => h.cancelled ?_⟩
    exact hc.imp id (Or.imp id (hrest _))

end ToManager

/-! ## The server's steps -/

section Server
variable {c : CompileSession}

theorem ManagerAt.closes {p : Prop} {state : ServerSession.State} {u sent : List FromServer} (h : t.ManagerAt state u)
    (hclose : Closes p state (u ++ sent)) :
    t.registered = true → Closes p t.manager.state (t.toManager ++ sent) := by
  intro hr
  rw [(h hr).1, (h hr).2]
  exact hclose

theorem ManagerAt.sent {state : ServerSession.State} {u : List FromServer} (h : t.ManagerAt state u)
    (result : CompileSession.Result) : (t.answered result).ManagerAt state (u ++ result.2) := by
  intro hr
  obtain ⟨hstate, hu⟩ := h hr
  exact ⟨hstate, by rw [System.answered, hu]⟩

/-- The timer forgets the session and says so, whatever the manager is waiting for. -/
theorem selfdestruct_phase (h : Phase raises t) (hc : t.server = some c) :
    Phase raises (t.answered c.selfdestruct) := by
  unfold CompileSession.selfdestruct
  split
  · exact h.congr (by rw [System.answered, hc]) rfl rfl fun hr => ⟨hr, rfl, by simp [System.answered]⟩
  · rename_i hlive
    refine .ended _ rfl rfl ?_
    show t.registered = true → Closes _ t.manager.state (t.toManager ++ [.timedOut])
    cases h with
    | new server => rw [server] at hc; cases hc
    | asked _ _ _ _ _ _ _ at_ => exact ManagerAt.closes at_ trivial
    | headers _ _ _ _ _ _ _ _ at_ => exact ManagerAt.closes at_ trivial
    | compiler _ _ _ _ _ _ _ at_ => exact ManagerAt.closes at_ trivial
    | pch _ _ _ _ _ _ at_ => exact ManagerAt.closes at_ trivial
    | working _ _ _ _ _ _ at_ => exact ManagerAt.closes at_ trivial
    | done _ _ _ _ _ _ _ _ _ at_ => exact ManagerAt.closes at_ (.inr trivial)
    | confirmed _ _ _ _ _ _ _ _ _ at_ => exact ManagerAt.closes at_ trivial
    | uploading _ _ _ _ _ _ _ at_ => exact ManagerAt.closes at_ trivial
    | stopped _ _ state _ _ _ _ _ at_ => exact ManagerAt.closes at_ (by cases state <;> trivial)
    | ended c' server completed => rw [server] at hc; cases hc; exact absurd completed hlive

/-- A session that was completed and sends something was timed out, and the manager will see that first. -/
theorem ended_callback {x : CompileSession.Callback} {report : CompileSession.Report} (hx : x ∈ c.pending)
    (hcomp : c.completed = true) (hclose : t.registered = true → Closes (Silent c) t.manager.state t.toManager) :
    Phase raises (t.answered (c.callback report x)) := by
  refine .ended _ rfl (CompileSession.callback_completed hcomp) fun hr => ?_
  by_cases hsilent : Silent c
  · rcases hsilent with hp | ⟨hstate, hp⟩
    · rw [hp] at hx
      cases hx
    · have hrest : ∀ y ∈ c.pending.erase x, y = .runCompiler ∨ y = .compileCompleted :=
        fun y hy => hp y (List.mem_of_mem_erase hy)
      have hquiet : (c.callback report x).2 = [] ∧ Silent (c.callback report x).1 := by
        rcases hp x hx with rfl | rfl
        · have hfired : (c.fired .runCompiler).state = .cancelled := hstate
          obtain ⟨hsent, hstate', hpend⟩ := CompileSession.runCompiler_quiet report.ok hfired
          exact ⟨hsent, .inr ⟨hstate', fun y hy => (hpend y hy).elim (hrest y) .inr⟩⟩
        · have heq : c.callback report .compileCompleted = (c.fired .compileCompleted, []) :=
            CompileSession.compileCompleted_quiet hstate
          rw [heq]
          exact ⟨rfl, .inr ⟨hstate, hrest⟩⟩
      show Closes _ t.manager.state (t.toManager ++ (c.callback report x).2)
      rw [hquiet.1, List.append_nil]
      exact closes_mono (fun _ => hquiet.2) (hclose hr)
  · exact closes_append (closes_mono hsilent (hclose hr)) _

/-- `__run_compiler` for a session that is still there. -/
theorem runCompiler_phase {report : CompileSession.Report} (hraises : report.ok = false → raises)
    (live : c.completed = false)
    (state : c.state = .runningCompiler) (pending : c.pending = [.runCompiler]) (feed : data t.toServer = [])
    (idle : t.compressing = 0) (at_ : t.ManagerAt .waitForServerResponse []) :
    Phase raises (t.answered (c.callback report .runCompiler)) := by
  have hfired : (c.fired .runCompiler).pending = [] := by simp [CompileSession.fired, pending]
  have hstate : (c.fired .runCompiler).state = .runningCompiler := state
  show Phase raises (t.answered ((c.fired .runCompiler).runCompiler report.ok))
  unfold CompileSession.runCompiler
  split
  · unfold CompileSession.cancelSession
    rw [if_neg (by simp [hstate])]
    exact .ended _ rfl rfl (ManagerAt.closes at_ trivial)
  · cases hok : report.ok with
    | false => exact .stopped (hraises hok) _ _ rfl live hfired feed idle (ManagerAt.sent at_ _)
    | true =>
      refine .working _ rfl live (.inr ⟨state, .inr ?_⟩) feed idle (ManagerAt.sent at_ _)
      exact congrArg (· ++ [CompileSession.Callback.compileCompleted]) hfired

/-- `__compile_completed` for a session that is still there. -/
theorem compileCompleted_phase {report : CompileSession.Report} (hraises : report.ok = false → raises)
    (live : c.completed = false)
    (state : c.state = .runningCompiler) (pending : c.pending = [.compileCompleted]) (feed : data t.toServer = [])
    (idle : t.compressing = 0) (at_ : t.ManagerAt .waitForServerResponse []) :
    Phase raises (t.answered (c.callback report .compileCompleted)) := by
  have hfired : (c.fired .compileCompleted).pending = [] := by simp [CompileSession.fired, pending]
  have hstate : (c.fired .compileCompleted).state = .runningCompiler := state
  show Phase raises (t.answered ((c.fired .compileCompleted).compileCompleted report.ok report.outcome))
  unfold CompileSession.compileCompleted
  rw [if_pos hstate]
  cases hok : report.ok with
  | false =>
    -- the session has changed its state at most
    dsimp only
    repeat' split
    all_goals first
      | contradiction
      | exact .stopped (hraises hok) _ _ rfl live hfired feed idle (ManagerAt.sent at_ _)
  | true =>
    split
    · exact .ended _ rfl rfl (ManagerAt.closes at_ trivial)
    · rename_i retcode stdout stderr _
      split
      · rename_i h0
        subst h0
        exact .done _ stdout stderr rfl live rfl hfired feed idle (ManagerAt.sent at_ _)
      · rename_i h0
        exact .ended _ rfl rfl (ManagerAt.closes at_ (.inl h0))

/-- A callback of a session that is still there. -/
theorem callback_phase (h : Phase raises t) (hc : t.server = some c) {x : CompileSession.Callback}
    {report : CompileSession.Report} (hraises : report.ok = false → raises) (hx : x ∈ c.pending) :
    Phase raises (t.answered (c.callback report x)) := by
  have hsame : ∀ {c'}, t.server = some c' → c' = c := fun h => Option.some.inj (h.symm.trans hc)
  have hnone : ∀ {c'}, t.server = some c' → c'.pending = [] → False := by
    intro c' hc' hp
    rw [hsame hc'] at hp
    rw [hp] at hx
    cases hx
  cases h with
  | new server => rw [server] at hc; cases hc
  | asked c' server _ _ pending => exact (hnone server pending).elim
  | headers c' q server _ _ pending => exact (hnone server pending).elim
  | compiler c' server _ _ _ pending => exact (hnone server pending).elim
  | pch c' server _ _ pending => exact (hnone server pending).elim
  | done c' _ _ server _ _ pending => exact (hnone server pending).elim
  | confirmed c' _ server _ _ pending => exact (hnone server pending).elim
  | stopped _ c' _ server _ pending => exact (hnone server pending).elim
  | ended c' server completed closes =>
    obtain rfl := hsame server
    exact ended_callback hx completed closes
  | uploading c' server live state pending feed idle at_ =>
    obtain rfl := hsame server
    obtain rfl : x = .sendCompressed := by simpa [pending] using hx
    have hfired : (c'.fired .sendCompressed).pending = [] := by simp [CompileSession.fired, pending]
    unfold CompileSession.callback CompileSession.sendCompressed
    cases hok : report.ok with
    | false => exact .stopped (hraises hok) _ _ rfl live hfired feed idle (ManagerAt.sent at_ _)
    | true =>
      refine .ended _ rfl rfl (ManagerAt.closes at_ ?_)
      have hchunks : ∀ n p, p → Closes p .receiveObjectFile (List.replicate n (.chunk false) ++ [.chunk true]) := by
        intro n p hp
        induction n with
        | zero => exact hp
        | succ n ih => exact ih
      exact hchunks report.parts _ (.inl hfired)
  | working c' server live state feed idle at_ =>
    obtain rfl := hsame server
    rcases state with ⟨state, pending⟩ | ⟨state, pending | pending⟩
    · obtain rfl : x = .pchCompleted := by simpa [pending] using hx
      have hfired : (c'.fired .pchCompleted).pending = [] := by simp [CompileSession.fired, pending]
      unfold CompileSession.callback CompileSession.pchCompleted
      cases hok : report.ok with
      | false => exact .stopped (hraises hok) _ _ rfl live hfired feed idle (ManagerAt.sent at_ _)
      | true =>
        refine .working _ rfl live (.inr ⟨rfl, .inl ?_⟩) feed idle (ManagerAt.sent at_ _)
        exact congrArg (· ++ [CompileSession.Callback.runCompiler]) hfired
    · obtain rfl : x = .runCompiler := by simpa [pending] using hx
      exact runCompiler_phase hraises live state pending feed idle at_
    · obtain rfl : x = .compileCompleted := by simpa [pending] using hx
      exact compileCompleted_phase hraises live state pending feed idle at_

/-! ## A message for the server -/

section ToServer
variable {msg : ToServer} {rest : List ToServer} {needs : Bool × Bool} {handling : CompileSession.Handling}

/-- `CANCEL_SESSION` for a session that is still there. -/
theorem cancelMsg_phase (h : Phase raises t) (hc : t.server = some c) (hlive : c.completed = false)
    (hq : t.toServer = .cancelSession :: rest) :
    Phase raises (System.answered { t with toServer := rest }
      ((c.processMsg needs handling .cancelSession).getD (c, []))) := by
  have hdata : data rest = data t.toServer := by rw [hq, data_cancel]
  unfold CompileSession.processMsg
  rw [if_pos rfl]
  split
  · rename_i hcan
    have hrun : c.state = .runningCompiler := by
      obtain ⟨h1, h2⟩ := hcan
      cases hstate : c.state <;> simp_all [CompileSession.State.canBeCancelled, CompileSession.State.hasProcessMsg]
    unfold CompileSession.cancelSession
    rw [if_neg (by simp [hrun])]
    refine .ended _ rfl rfl ?_
    show t.registered = true → Closes _ t.manager.state (t.toManager ++ [.sessionCancelled])
    cases h with
    | new server => rw [server] at hc; cases hc
    | asked c' server _ state => rw [server] at hc; cases hc; rw [hrun] at state; cases state
    | headers c' _ server _ state => rw [server] at hc; cases hc; rw [hrun] at state; cases state
    | compiler c' server _ state => rw [server] at hc; cases hc; rw [hrun] at state; cases state
    | pch c' server _ state => rw [server] at hc; cases hc; rw [hrun] at state; cases state
    | done c' _ _ server _ state => rw [server] at hc; cases hc; rw [hrun] at state; cases state
    | confirmed c' _ server _ state => rw [server] at hc; cases hc; rw [hrun] at state; cases state
    | uploading c' server _ state => rw [server] at hc; cases hc; rw [hrun] at state; cases state
    | ended c' server completed => rw [server] at hc; cases hc; rw [hlive] at completed; cases completed
    | working c' server _ state _ _ at_ => exact ManagerAt.closes at_ trivial
    | stopped _ c' state server _ _ _ _ at_ => exact ManagerAt.closes at_ (by cases state <;> trivial)
  · refine h.congr_pending (fun hn => ?_) (fun c' hc' => ⟨true, ?_⟩) hdata rfl fun hr =>
      ⟨hr, rfl, by simp [System.answered]⟩
    · rw [hn] at hc
      cases hc
    · rw [hc] at hc'
      cases hc'
      rfl

/-- After the files, the compiler or the PCH file, or the compilation. -/
theorem afterCompiler_phase {c' : CompileSession} (hs : t'.server = some c'.afterCompiler) (hlive : c'.completed = false)
    (hp : c'.pending = []) (hfeed : PchFeed t'.compressing (data t'.toServer) c'.pchRequired)
    (hat : t'.ManagerAt .waitForServerResponse []) : Phase raises t' := by
  unfold CompileSession.afterCompiler at hs
  split at hs
  · rename_i hreq
    rw [hreq] at hfeed
    exact .pch _ hs hlive rfl hp hfeed hat
  · rename_i hreq
    rw [Bool.not_eq_true] at hreq
    rw [hreq] at hfeed
    refine .working _ hs hlive (.inr ⟨rfl, .inl ?_⟩) hfeed.1 hfeed.2 hat
    rw [CompileSession.compile, hp]
    rfl

theorem data_eq_cons {q : List ToServer} (hq : t.toServer = msg :: rest) (hne : msg ≠ .cancelSession) {m : ToServer}
    (h : data t.toServer = m :: q) : msg = m ∧ data rest = q := by
  rw [hq, data_cons hne] at h
  simpa using h

theorem pchFeed_cons {n : Nat} {needed : Bool} (h : PchFeed n (data t.toServer) needed) (hq : t.toServer = msg :: rest)
    (hne : msg ≠ .cancelSession) :
    n = 0 ∧ (msg = .chunk .pch true ∧ data rest = [] ∨
      msg = .chunk .pch false ∧ needed = true ∧ PchFeed n (data rest) true) := by
  rw [hq, data_cons hne] at h
  cases needed with
  | false => cases h.1
  | true =>
    rcases h with ⟨h, -⟩ | ⟨parts, h, rfl⟩
    · cases h
    · refine ⟨rfl, ?_⟩
      cases parts with
      | zero => exact .inl (by simpa [ServerSession.sendFile] using h)
      | succ parts =>
        rw [sendFile_succ] at h
        obtain ⟨rfl, hrest⟩ := List.cons.inj h
        exact .inr ⟨rfl, rfl, .inr ⟨parts, hrest, rfl⟩⟩

theorem compilerFeed_cons {n : Nat} {needed : Bool} (h : CompilerFeed n (data t.toServer) needed)
    (hq : t.toServer = msg :: rest) (hne : msg ≠ .cancelSession) :
    msg = .chunk .compiler true ∧ PchFeed n (data rest) needed ∨
      msg = .chunk .compiler false ∧ CompilerFeed n (data rest) needed := by
  obtain ⟨parts, after, heq, hafter⟩ := h
  cases parts with
  | zero =>
    obtain ⟨rfl, rfl⟩ := data_eq_cons hq hne heq
    exact .inl ⟨rfl, hafter⟩
  | succ parts =>
    rw [sendFile_succ, List.cons_append] at heq
    obtain ⟨rfl, hrest⟩ := data_eq_cons hq hne heq
    exact .inr ⟨rfl, parts, after, hrest, hafter⟩

/-- The server takes a message and sends nothing. -/
theorem quiet_at {state : ServerSession.State} (h : t.ManagerAt state []) (c : CompileSession) :
    (System.answered { t with toServer := rest } (c, [])).ManagerAt state [] := by
  intro hr
  obtain ⟨hstate, hu⟩ := h hr
  exact ⟨hstate, by rw [System.answered, hu]; rfl⟩

/-- A message leaves the session as it was, or as far as it came. -/
theorem stopped_phase (hraises : raises) {c' : CompileSession} {state : ServerSession.State}
    (hlive : c'.completed = false)
    (hp : c'.pending = []) (hfeed : data rest = []) (hidle : t.compressing = 0) (hat : t.ManagerAt state []) :
    Phase raises (System.answered { t with toServer := rest } (c', [])) :=
  .stopped hraises c' state rfl hlive hp hfeed hidle (quiet_at hat c')

/-- The last part of the compiler. -/
theorem unpack_phase (live : c.completed = false) (pending : c.pending = [])
    (hfeed : PchFeed t.compressing (data rest) c.pchRequired) (hat : t.ManagerAt .waitForServerResponse [])
    (hunpack : c.pchRequired = true → handling = .done) (hraises : handling ≠ .done → raises) :
    Phase raises (System.answered { t with toServer := rest } ((c.unpack handling).getD (c, []))) := by
  by_cases hdone : handling = .done
  · subst hdone
    exact afterCompiler_phase rfl live pending hfeed (quiet_at hat _)
  · -- there is no PCH file to come
    have hpch : c.pchRequired = false := by
      by_contra hreq
      exact hdone (hunpack (by simpa using hreq))
    rw [hpch] at hfeed
    cases handling with
    | done => exact absurd rfl hdone
    | failed => exact stopped_phase (hraises hdone) live pending hfeed.1 hfeed.2 hat
    | handlerFailed => exact stopped_phase (hraises hdone) live pending hfeed.1 hfeed.2 hat

/-- A session that is still there takes any other message in the state that is there for it. -/
theorem dataMsg_phase (needs : Bool × Bool) (handling : CompileSession.Handling) (h : Phase raises t)
    (hc : t.server = some c)
    (hlive : c.completed = false) (hq : t.toServer = msg :: rest) (hne : msg ≠ .cancelSession) :
    ServerExpects c.state msg ∧ (c.processMsg needs .done msg).isSome = true ∧
      (Unpacks t (.deliverToServer needs handling) → (handling ≠ .done → raises) →
        Phase raises (System.answered { t with toServer := rest }
          ((c.processMsg needs handling msg).getD (c, [])))) := by
  have hsame : ∀ {c'}, t.server = some c' → c' = c := fun h => Option.some.inj (h.symm.trans hc)
  have hempty : data t.toServer ≠ [] := by rw [hq, data_cons hne]; simp
  cases h with
  | new server => rw [server] at hc; cases hc
  -- In these phases nothing but a cancellation is on its way to the session.
  | asked _ _ _ _ _ feed => exact absurd feed hempty
  | working _ _ _ _ feed => exact absurd feed hempty
  | done _ _ _ _ _ _ _ feed => exact absurd feed hempty
  | uploading _ _ _ _ _ feed => exact absurd feed hempty
  | stopped _ _ _ _ _ _ feed => exact absurd feed hempty
  | ended c' server completed => rw [hsame server, hlive] at completed; cases completed
  | headers c' q server live state pending feed after at_ =>
    obtain rfl := hsame server
    obtain ⟨rfl, hrest⟩ := data_eq_cons hq hne feed
    rw [CompileSession.processMsg_taskFiles needs handling state, CompileSession.processMsg_taskFiles needs .done state]
    refine ⟨by rw [state]; rfl, rfl, fun _ _ => ?_⟩
    rw [← hrest] at after
    split at after
    · rename_i hreq
      rw [if_pos hreq]
      exact .compiler _ rfl live rfl rfl pending after (quiet_at at_ _)
    · rename_i hreq
      rw [if_neg hreq]
      exact afterCompiler_phase rfl live pending after (quiet_at at_ _)
  | compiler c' server live state parts pending feed at_ =>
    obtain rfl := hsame server
    rcases compilerFeed_cons feed hq hne with ⟨rfl, hrest⟩ | ⟨rfl, hrest⟩
    · rw [CompileSession.processMsg_compiler needs handling state parts,
        CompileSession.processMsg_compiler needs .done state parts]
      refine ⟨by rw [state]; exact ⟨_, rfl⟩, rfl, fun hunpack hraises => ?_⟩
      exact unpack_phase live pending hrest at_ (fun hreq => hunpack c' server ⟨live, state, hreq, by rw [hq]; rfl⟩)
        hraises
    · rw [CompileSession.processMsg_compiler needs handling state parts,
        CompileSession.processMsg_compiler needs .done state parts]
      refine ⟨by rw [state]; exact ⟨_, rfl⟩, rfl, fun _ _ => ?_⟩
      exact .compiler _ rfl live state parts pending hrest (quiet_at at_ _)
  | pch c' server live state pending feed at_ =>
    obtain rfl := hsame server
    obtain ⟨hidle, ⟨rfl, hrest⟩ | ⟨rfl, -, hrest⟩⟩ := pchFeed_cons feed hq hne
    · rw [CompileSession.processMsg_pch needs handling state, CompileSession.processMsg_pch needs .done state]
      refine ⟨by rw [state]; exact ⟨_, rfl⟩, rfl, fun _ _ => ?_⟩
      exact .working _ rfl live (.inl ⟨state, by simp [pending]⟩) hrest hidle (quiet_at at_ _)
    · rw [CompileSession.processMsg_pch needs handling state, CompileSession.processMsg_pch needs .done state]
      refine ⟨by rw [state]; exact ⟨_, rfl⟩, rfl, fun _ _ => ?_⟩
      exact .pch _ rfl live state pending hrest (quiet_at at_ _)
  | confirmed c' verdict server live state pending feed idle wanted at_ =>
    obtain rfl := hsame server
    obtain ⟨rfl, hrest⟩ := data_eq_cons hq hne feed
    rw [CompileSession.processMsg_confirmation needs handling state,
      CompileSession.processMsg_confirmation needs .done state]
    refine ⟨by rw [state]; exact ⟨_, rfl⟩, rfl, fun _ _ => ?_⟩
    -- A session that was told to stop before is cancelled by whatever message comes.
    by_cases hp : c'.cancelPending = true
    · rw [if_pos hp, CompileSession.cancelSession, if_neg (by simp [state])]
      exact .ended _ rfl rfl (ManagerAt.closes at_ trivial)
    · rw [if_neg hp]
      cases verdict with
      | true => exact .uploading _ rfl live rfl (by simp [pending]) hrest idle (quiet_at at_ _)
      | false => exact .ended _ rfl rfl fun hr => absurd (wanted hr) (by simp)

end ToServer

end Server

/-! ## Every run -/

theorem selfdestruct_inv {c : CompileSession} (h : Inv raises t) (hc : t.server = some c) :
    Inv raises (t.answered c.selfdestruct) := by
  refine ⟨selfdestruct_phase h.phase hc, h.sender, fun hn => ?_, fun hn => (by cases hn), fun hcan => h.cancelled ?_⟩
  · rw [h.started hn] at hc
    cases hc
  · unfold CompileSession.selfdestruct at hcan
    rcases hcan with hcan | ⟨c', hc', hp⟩ | hcan
    · exact .inl hcan
    · obtain rfl := Option.some.inj hc'
      exact .inr (.inl ⟨c, hc, by split at hp <;> exact hp⟩)
    · refine .inr (.inr ((List.mem_append.1 hcan).resolve_right ?_))
      split <;> simp

theorem callback_inv {c : CompileSession} {x : CompileSession.Callback} {report : CompileSession.Report}
    (h : Inv raises t)
    (hraises : report.ok = false → raises) (hc : t.server = some c) (hx : x ∈ c.pending) :
    Inv raises (t.answered (c.callback report x)) := by
  obtain ⟨hpend, hsent⟩ := CompileSession.callback_cancel c report x
  refine ⟨callback_phase h.phase hc hraises hx, h.sender, fun hn => ?_, fun hn => (by cases hn), fun hcan =>
    h.cancelled ?_⟩
  · rw [h.started hn] at hc
    cases hc
  · rcases hcan with hcan | ⟨c', hc', hp⟩ | hcan
    · exact .inl hcan
    · obtain rfl := Option.some.inj hc'
      exact .inr (.inl ⟨c, hc, hpend ▸ hp⟩)
    · rcases List.mem_append.1 hcan with hcan | hcan
      · exact .inr (.inr hcan)
      · exact .inr (.inl ⟨c, hc, hsent hcan⟩)

/-- The server's session has taken a message, or has failed to. -/
theorem answered_inv {msg : ToServer} {rest : List ToServer} {result : CompileSession.Result} (h : Inv raises t)
    (hq : t.toServer = msg :: rest) (hpend : result.1.cancelPending = true → t.manager.cancelled = true)
    (hsent : .sessionCancelled ∈ result.2 → t.manager.cancelled = true) (hn : ToServer.newSession ∉ rest)
    (hphase : Phase raises (System.answered { t with toServer := rest } result)) :
    Inv raises (System.answered { t with toServer := rest } result) := by
  refine ⟨hphase, h.sender, fun hn' => absurd hn' hn, fun hn => (by cases hn), fun hcan => ?_⟩
  show t.manager.cancelled = true
  rcases hcan with hcan | ⟨c', hc', hp⟩ | hcan
  · exact h.cancelled (.inl (by rw [hq]; exact List.mem_cons_of_mem _ hcan))
  · obtain rfl := Option.some.inj hc'
    exact hpend hp
  · exact (List.mem_append.1 hcan).elim (fun hcan => h.cancelled (.inr (.inr hcan))) hsent

theorem processMsg_inv {c : CompileSession} {msg : ToServer} {rest : List ToServer} {needs : Bool × Bool}
    {handling : CompileSession.Handling} (h : Inv raises t) (hq : t.toServer = msg :: rest)
    (hc : c.cancelPending = true → t.manager.cancelled = true) (hn : ToServer.newSession ∉ rest)
    (hphase : Phase raises (System.answered { t with toServer := rest }
      ((c.processMsg needs handling msg).getD (c, [])))) :
    Inv raises (System.answered { t with toServer := rest } ((c.processMsg needs handling msg).getD (c, []))) := by
  have hmsg : msg = .cancelSession → t.manager.cancelled = true := by
    rintro rfl
    exact h.cancelled (.inl (by simp [hq]))
  cases hres : c.processMsg needs handling msg with
  | none =>
    rw [hres] at hphase
    exact answered_inv h hq hc (fun hmem => by cases hmem) hn hphase
  | some result =>
    rw [hres] at hphase
    obtain ⟨hpend, hsent⟩ := CompileSession.processMsg_cancel hres
    exact answered_inv h hq (fun hp => (hpend hp).elim hc hmsg) (fun hs => (hsent hs).elim hc hmsg) hn hphase

/-- The first message creates the server session. -/
theorem newSession_inv {rest : List ToServer} (needs : Bool × Bool) {handling : CompileSession.Handling}
    (hraises : handling ≠ .done → raises) (h : Inv raises t) (hq : t.toServer = .newSession :: rest) :
    Inv raises (System.answered { t with toServer := rest }
      ((({} : CompileSession).processMsg needs handling .newSession).getD ({}, []))) := by
  have hnone : t.server = none := h.started (by simp [hq])
  obtain ⟨-, idle, at_⟩ := h.phase.new_of_none hnone
  obtain rfl : rest = [] := by
    have hwait := (h.waiting hnone).1
    rw [hq] at hwait
    simpa using hwait
  refine processMsg_inv h hq (fun hp => by cases hp) (by simp) ?_
  by_cases hdone : handling = .done
  · subst hdone
    refine .asked _ rfl rfl rfl rfl rfl idle fun hr => ?_
    obtain ⟨hstate, hu⟩ := at_ hr
    exact ⟨hstate, by rw [System.answered, hu]; rfl⟩
  · rw [CompileSession.processMsg_newSession_failed needs handling rfl hdone]
    exact stopped_phase (hraises hdone) rfl rfl rfl idle at_

/-- A message for a session that is completed. -/
theorem drop_inv {c : CompileSession} {msg : ToServer} {rest : List ToServer} (h : Inv raises t)
    (hq : t.toServer = msg :: rest)
    (hc : t.server = some c) (hcomp : c.completed = true) : Inv raises { t with toServer := rest } := by
  have hended : t.registered = true → Closes (Silent c) t.manager.state t.toManager := by
    cases h.phase with
    | ended c' server completed closes =>
      cases server.symm.trans hc
      exact closes
    | new server => rw [server] at hc; cases hc
    | asked _ server live => cases server.symm.trans hc; rw [live] at hcomp; cases hcomp
    | headers _ _ server live => cases server.symm.trans hc; rw [live] at hcomp; cases hcomp
    | compiler _ server live => cases server.symm.trans hc; rw [live] at hcomp; cases hcomp
    | pch _ server live => cases server.symm.trans hc; rw [live] at hcomp; cases hcomp
    | working _ server live => cases server.symm.trans hc; rw [live] at hcomp; cases hcomp
    | done _ _ _ server live => cases server.symm.trans hc; rw [live] at hcomp; cases hcomp
    | confirmed _ _ server live => cases server.symm.trans hc; rw [live] at hcomp; cases hcomp
    | uploading _ server live => cases server.symm.trans hc; rw [live] at hcomp; cases hcomp
    | stopped _ _ _ server live => cases server.symm.trans hc; rw [live] at hcomp; cases hcomp
  have hrest : ∀ m ∈ rest, m ∈ t.toServer := fun m hm => by rw [hq]; exact List.mem_cons_of_mem _ hm
  refine ⟨.ended c hc hcomp hended, h.sender, fun hn => h.started (hrest _ hn), fun hn => ?_,
    fun hcan => h.cancelled (hcan.imp (hrest _) id)⟩
  rw [hc] at hn
  cases hn

theorem init_inv : Inv raises {} where
  phase := .new rfl rfl rfl fun _ => ⟨rfl, rfl⟩
  sender _ _ := rfl
  started _ := rfl
  waiting _ := ⟨rfl, rfl⟩
  cancelled h := by simp at h

theorem deliverToServer_inv {needs : Bool × Bool} {handling : CompileSession.Handling} (h : Inv raises t)
    (hunpack : Unpacks t (.deliverToServer needs handling)) (hraises : handling ≠ .done → raises)
    (hs : step task t (.deliverToServer needs handling) = some t') : Inv raises t' := by
  simp only [step] at hs
  split at hs
  · cases hs
  · rename_i msg rest hq
    by_cases hnew : msg = .newSession
    · subst hnew
      rw [if_pos rfl] at hs
      cases hs
      exact newSession_inv needs hraises h hq
    · rw [if_neg hnew] at hs
      split at hs
      · rename_i hnone
        rw [(h.waiting hnone).1] at hq
        simp_all
      · rename_i c hc
        have hfresh : ToServer.newSession ∉ rest := by
          intro hn
          have hnone := h.started (by rw [hq]; exact List.mem_cons_of_mem _ hn)
          rw [hnone] at hc
          cases hc
        have hcan : c.cancelPending = true → t.manager.cancelled = true :=
          fun hp => h.cancelled (.inr (.inl ⟨c, hc, hp⟩))
        split at hs
        · rename_i hcomp
          cases hs
          exact drop_inv h hq hc hcomp
        · rename_i hlive
          rw [Bool.not_eq_true] at hlive
          cases hs
          by_cases hcancel : msg = .cancelSession
          · subst hcancel
            exact processMsg_inv h hq hcan hfresh (cancelMsg_phase h.phase hc hlive hq)
          · exact processMsg_inv h hq hcan hfresh
              ((dataMsg_phase needs handling h.phase hc hlive hq hcancel).2.2 hunpack hraises)

theorem step_inv {e : Event} (h : Inv raises t) (hunpack : Unpacks t e) (hraises : Raises e → raises)
    (hs : step task t e = some t') : Inv raises t' := by
  cases e with
  | cancel => cases hs; exact cancel_inv h
  | terminate =>
    simp only [step] at hs
    split at hs
    · cases hs
      exact complete_inv h
    · cases hs
  | pchCompressed parts =>
    simp only [step] at hs
    split at hs
    · cases hs
    · rename_i hn
      cases hs
      exact pchCompressed_inv h hn
  | decompressed ok =>
    simp only [step] at hs
    split at hs
    · cases hs
    · cases hs
      exact decompressed_inv h
  | deliverToServer needs handling => exact deliverToServer_inv h hunpack hraises hs
  | deliverToManager registers =>
    simp only [step] at hs
    split at hs
    · cases hs
    · rename_i hreg
      split at hs
      · cases hs
      · rename_i hu
        cases hs
        exact deliverToManager_inv h hu (by simpa using hreg)
  | callback x report =>
    obtain ⟨c, hc, hs⟩ := Option.bind_eq_some_iff.1 hs
    split at hs
    · rename_i hx
      cases hs
      exact callback_inv h hraises hc hx
    · cases hs
  | selfdestruct =>
    obtain ⟨c, hc, rfl⟩ := Option.map_eq_some_iff.1 hs
    exact selfdestruct_inv h hc

/-- What the phase says about the manager's next message. -/
theorem Inv.manager_expects (h : Inv raises t) (hr : t.registered = true) {msg : FromServer} {rest : List FromServer}
    (hu : t.toManager = msg :: rest) : ManagerExpects t.manager msg := by
  have hempty : ∀ {state}, ¬ t.ManagerAt state [] := fun hat => not_managerAt_nil hr hu hat
  cases h.phase with
  | new _ _ _ at_ => exact (hempty at_).elim
  | headers _ _ _ _ _ _ _ _ at_ => exact (hempty at_).elim
  | compiler _ _ _ _ _ _ _ at_ => exact (hempty at_).elim
  | pch _ _ _ _ _ _ at_ => exact (hempty at_).elim
  | working _ _ _ _ _ _ at_ => exact (hempty at_).elim
  | confirmed _ _ _ _ _ _ _ _ _ at_ => exact (hempty at_).elim
  | uploading _ _ _ _ _ _ _ at_ => exact (hempty at_).elim
  | stopped _ _ _ _ _ _ _ _ at_ => exact (hempty at_).elim
  | asked c _ _ _ _ _ _ at_ =>
    obtain ⟨hstate, hmsg⟩ := at_ hr
    rw [hu] at hmsg
    refine .inr (.inr ?_)
    rw [hstate]
    exact ⟨_, _, (List.cons.inj hmsg).1⟩
  | done c stdout stderr _ _ _ _ _ _ at_ =>
    obtain ⟨hstate, hmsg⟩ := at_ hr
    rw [hu] at hmsg
    refine .inr (.inr ?_)
    rw [hstate]
    exact .inl ⟨_, _, _, (List.cons.inj hmsg).1⟩
  | ended c _ _ closes =>
    have hclose := closes hr
    rw [hu] at hclose
    have hcan : msg = .sessionCancelled → t.manager.cancelled = true := by
      rintro rfl
      exact h.cancelled (.inr (.inr (by simp [hu])))
    unfold ManagerExpects
    cases hstate : t.manager.state <;> cases msg <;> simp_all [Closes]

/-- **The two sessions never disagree** in a run in which no session that needs the PCH file too fails to unpack its
compiler. In every reachable state, the next message for the server session is dropped, cancels it, or is one its state
is there for (and `process_msg` takes it); and the next message for the manager session is dropped or is one its state
is there for. -/
theorem sessions_in_step {es : List Event} (hm : Meets (step task) Unpacks {} es)
    (hr : run (step task) {} es = some t) : t.InStep := by
  have h : Inv True t :=
    run_inv_of_meets (step task) (fun _ _ _ h hcond hs => step_inv h hcond (fun _ => trivial) hs) es _ _ init_inv hm hr
  constructor
  · intro msg rest hq
    cases hc : t.server with
    | none =>
      rw [(h.waiting hc).1] at hq
      exact (List.cons.inj hq).1.symm
    | some c =>
      cases hlive : c.completed with
      | true => exact .inl hlive
      | false =>
        by_cases hcancel : msg = .cancelSession
        · exact .inr (.inl hcancel)
        · have hmsg := fun needs => dataMsg_phase needs .done h.phase hc hlive hq hcancel
          exact .inr (.inr ⟨(hmsg (false, false)).1, fun needs => (hmsg needs).2.1⟩)
  · intro msg rest hu
    cases hreg : t.registered with
    | false => exact .inl rfl
    | true => exact .inr (h.manager_expects hreg hu)

/-- The session is cancelled while the compiler is on its way: the cancellation overtakes nothing, and the
PCH file still follows the compiler. -/
def cancelledDownload : List Event :=
  [.deliverToServer (true, true), .deliverToManager false, .deliverToServer (true, true), .cancel, .pchCompressed 0,
    .deliverToServer (true, true), .deliverToServer (true, true), .deliverToServer (true, true)]

theorem sessions_in_step_cancelled :
    ∃ t c, run (step ⟨1, 1⟩) {} cancelledDownload = some t ∧ t.server = some c ∧ c.cancelPending = true ∧
      t.toServer = [.chunk .pch true] ∧ ServerExpects c.state (.chunk .pch true) := by
  obtain ⟨t, hrun⟩ : ∃ t, run (step ⟨1, 1⟩) {} cancelledDownload = some t := ⟨_, rfl⟩
  have hmeets : Meets (step ⟨1, 1⟩) Unpacks {} cancelledDownload := by decide
  have hexpects := (sessions_in_step hmeets hrun).server (.chunk .pch true) []
  cases hrun
  refine ⟨_, _, rfl, rfl, rfl, rfl, ?_⟩
  obtain hdone | hcancel | hexpects := hexpects rfl
  · cases hdone
  · cases hcancel
  · exact hexpects.1

/-- The compiler cannot be unpacked, and the PCH file follows it all the same. -/
def brokenCompiler : List Event :=
  [.deliverToServer (true, true), .deliverToManager false, .deliverToServer (true, true), .pchCompressed 0,
    .deliverToServer (true, true), .deliverToServer (true, true) .failed]

/-- A chunk of the PCH file is taken for one of the compiler. -/
theorem pch_taken_for_compiler :
    ∃ t, run (step ⟨1, 1⟩) {} brokenCompiler = some t ∧ t.toServer = [.chunk .pch true] ∧ ¬ t.InStep := by
  refine ⟨_, rfl, rfl, fun h => ?_⟩
  obtain hdone | hcancel | ⟨⟨last, hchunk⟩, -⟩ := h.server (.chunk .pch true) [] rfl
  · cases hdone
  · cases hcancel
  · cases hchunk

end Lemmas

end BuildPal.SessionProtocol
