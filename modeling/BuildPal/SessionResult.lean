import BuildPal.SessionProgress
/-!
# The object file comes once

A server session sends its object file once, whatever becomes of the session
in the meantime. So the manager's session never gets a file too many, and as
long as its task does not ask for the impossible none of its assertions fails.
-/
open BuildPal.Lib

namespace BuildPal.SessionProtocol

/-- The object files that the server session still has to send. -/
def toSend (c : CompileSession) : Nat := c.pending.count .sendCompressed

/-- The object files that the manager session has, and those that are still to come. -/
def objectFiles (t : System) : Nat :=
  t.manager.resultFutures + t.toManager.count (.chunk true) + (t.server.map toSend).getD 0

/-- There is at most one object file, and none before the manager has confirmed that it wants it. -/
structure OneFile (t : System) : Prop where
  once : objectFiles t ≤ 1
  unconfirmed : ∀ c, t.server = some c → c.completed = false → c.state ≠ .uploadingFile → objectFiles t = 0
  unknown : t.server = none → objectFiles t = 0

/-- The call moves object files on, or loses one, and starts one only if it has been confirmed. -/
structure MovesOn (c : CompileSession) (result : CompileSession.Result) : Prop where
  files : result.2.count (.chunk true) + toSend result.1 ≤ toSend c ∨
    c.completed = false ∧ c.state = .waitForConfirmation ∧ result.1.state = .uploadingFile ∧
      result.2.count (.chunk true) + toSend result.1 = toSend c + 1
  live : result.1.completed = false → c.completed = false
  uploading : result.1.completed = false → c.state = .uploadingFile → result.1.state = .uploadingFile

section OneFile
variable {task : SessionTask} {t t' : System} {c : CompileSession}

/-! ## The server session -/

theorem cancelSession_movesOn (c : CompileSession) : MovesOn c c.cancelSession := by
  unfold CompileSession.cancelSession
  split
  · exact ⟨.inl (Nat.zero_add _).le, id, fun _ => id⟩
  · refine ⟨.inl (Nat.zero_add _).le, fun hlive => ?_, fun hlive => ?_⟩
    · cases hlive
    · cases hlive

/-- A call that sends nothing and leaves the session, if it goes on, with what it has to send. -/
theorem quiet_movesOn {c' : CompileSession} (hsend : toSend c' = toSend c) (hlive : c'.completed = c.completed)
    (hstate : c.state = .uploadingFile → c'.state = .uploadingFile) : MovesOn c (c', []) where
  files := .inl ((Nat.zero_add _).trans hsend).le
  live h := hlive ▸ h
  uploading _ := hstate

theorem toSend_afterCompiler (c : CompileSession) : toSend c.afterCompiler = toSend c := by
  unfold CompileSession.afterCompiler CompileSession.compile toSend
  split
  · rfl
  · simp

theorem stateProcessMsg_movesOn (hlive : c.completed = false) {needs : Bool × Bool} {handling : CompileSession.Handling}
    {msg : ToServer} {result : CompileSession.Result} (hresult : c.stateProcessMsg needs handling msg = some result) :
    MovesOn c result := by
  have hafter : ∀ {c' : CompileSession}, toSend c' = toSend c → c'.completed = c.completed →
      c.state ≠ .uploadingFile → MovesOn c (c'.afterCompiler, []) := fun hsend hsame hstate =>
    quiet_movesOn ((toSend_afterCompiler _).trans hsend) ((completed_afterCompiler _).trans hsame) (absurd · hstate)
  -- The compiler is a case of its own, since unpacking it may raise.
  by_cases hcompiler : c.state = .downloadingCompiler
  · obtain ⟨-, rfl | hunpack⟩ := CompileSession.downloadingCompiler_cases hcompiler hresult
    · exact quiet_movesOn rfl rfl id
    · rcases CompileSession.unpack_cases hunpack with ⟨-, rfl⟩ | ⟨-, rfl⟩
      · exact hafter rfl rfl (by simp [hcompiler])
      · exact quiet_movesOn rfl rfl id
  · unfold CompileSession.stateProcessMsg at hresult
    cases hstate : c.state with
    | getTask =>
      simp only [hstate] at hresult
      split at hresult
      · cases hresult
        exact ⟨.inl (Nat.zero_add _).le, fun _ => hlive, fun _ h => by simp [hstate] at h⟩
      · cases hresult
    | downloadMissingHeaders =>
      simp only [hstate] at hresult
      split at hresult
      · cases hresult
        split
        · exact quiet_movesOn rfl rfl fun h => by simp [hstate] at h
        · exact hafter rfl rfl (by simp [hstate])
      · cases hresult
    | downloadingCompiler => exact absurd hstate hcompiler
    | downloadingPCH =>
      simp only [hstate] at hresult
      obtain ⟨last, -, rfl⟩ := Option.map_eq_some_iff.1 hresult
      cases last with
      | true => exact quiet_movesOn (by simp [toSend]) rfl fun h => by simp [hstate] at h
      | false => exact quiet_movesOn rfl rfl id
    | waitForConfirmation =>
      simp only [hstate] at hresult
      split at hresult
      · cases hresult
        refine ⟨.inr ⟨hlive, hstate, rfl, ?_⟩, fun _ => hlive, fun _ _ => rfl⟩
        simp [toSend]
      · cases hresult
        refine ⟨.inl (Nat.zero_add _).le, fun hopen => ?_, fun hopen => ?_⟩
        · cases hopen
        · cases hopen
      · cases hresult
    | cancelled =>
      simp only [hstate] at hresult
      cases hresult
      exact quiet_movesOn rfl rfl id
    | runningCompiler | uploadingFile | failed =>
      simp only [hstate] at hresult
      cases hresult

theorem processMsg_movesOn (hlive : c.completed = false) {needs : Bool × Bool} {handling : CompileSession.Handling}
    {msg : ToServer} : MovesOn c ((c.processMsg needs handling msg).getD (c, [])) := by
  cases hresult : c.processMsg needs handling msg with
  | none => exact quiet_movesOn rfl rfl id
  | some result =>
    unfold CompileSession.processMsg at hresult
    split at hresult
    · split at hresult
      · cases hresult
        exact cancelSession_movesOn c
      · cases hresult
        exact quiet_movesOn rfl rfl id
    · split at hresult
      · cases hresult
        exact cancelSession_movesOn c
      · exact stateProcessMsg_movesOn hlive hresult

theorem compileCompleted_movesOn (c : CompileSession) (ok : Bool) (outcome : CompileSession.Outcome) :
    MovesOn c (c.compileCompleted ok outcome) := by
  unfold CompileSession.compileCompleted
  split
  · rename_i hrunning
    have hnot : c.state ≠ .uploadingFile := by simp [hrunning]
    cases outcome with
    | raised traceback =>
      cases ok with
      | true => exact ⟨.inl (Nat.zero_add _).le, fun h => (by cases h), fun _ h => absurd h hnot⟩
      | false => exact ⟨.inl (Nat.zero_add _).le, id, fun _ h => absurd h hnot⟩
    | exited retcode stdout stderr =>
      dsimp only
      split
      · refine ⟨.inl ?_, id, fun _ h => absurd h hnot⟩
        cases ok <;> exact (Nat.zero_add _).le
      · cases ok with
        | true => exact ⟨.inl (Nat.zero_add _).le, fun h => (by cases h), fun _ h => absurd h hnot⟩
        | false => exact ⟨.inl (Nat.zero_add _).le, id, fun _ h => absurd h hnot⟩
  · exact ⟨.inl (Nat.zero_add _).le, id, fun _ => id⟩

/-- Of the callbacks, only the one that the object file is compressed has to do with it. -/
theorem toSend_fired {x : CompileSession.Callback} (hne : x ≠ .sendCompressed) : toSend (c.fired x) = toSend c :=
  List.count_erase_of_ne hne.symm

/-- A session that has been told to send its object file does nothing else. -/
theorem callback_movesOn {x : CompileSession.Callback} (hx : x ∈ c.pending)
    (huploading : c.completed = false → c.state = .uploadingFile → ∀ y ∈ c.pending, y = .sendCompressed)
    (report : CompileSession.Report) : MovesOn c (c.callback report x) := by
  have hsame : ∀ {result}, x ≠ .sendCompressed → MovesOn (c.fired x) result → MovesOn c result := by
    intro result hne hmoves
    have hfired := toSend_fired (c := c) hne
    obtain ⟨hfiles, hlive, huploads⟩ := hmoves
    rw [hfired] at hfiles
    exact ⟨hfiles, hlive, huploads⟩
  cases x with
  | pchCompleted =>
    apply hsame (by simp)
    unfold CompileSession.callback CompileSession.pchCompleted
    cases report.ok with
    | true =>
      refine ⟨.inl ?_, id, fun hlive hstate => ?_⟩
      · simp [toSend, CompileSession.compile]
      · cases huploading hlive hstate _ hx
    | false => exact quiet_movesOn rfl rfl id
  | runCompiler =>
    apply hsame (by simp)
    unfold CompileSession.callback CompileSession.runCompiler
    dsimp only
    split
    · exact cancelSession_movesOn _
    · split
      · exact quiet_movesOn (by simp [toSend]) rfl id
      · exact quiet_movesOn rfl rfl id
  | compileCompleted =>
    apply hsame (by simp)
    exact compileCompleted_movesOn _ _ _
  | sendCompressed =>
    have hpos : 0 < c.pending.count .sendCompressed := List.count_pos_iff.2 hx
    have herase : toSend (c.fired .sendCompressed) + 1 = toSend c := by
      simp only [CompileSession.fired, toSend, List.count_erase_self]
      omega
    unfold CompileSession.callback CompileSession.sendCompressed
    cases report.ok with
    | true =>
      refine ⟨.inl ?_, fun hlive => ?_, fun hlive => ?_⟩
      · have hchunks : (List.replicate report.parts (FromServer.chunk false)).count (.chunk true) = 0 := by
          simp [List.count_replicate]
        rw [← herase]
        simp only [if_true, CompileSession.sessionDone, List.count_append, hchunks, List.count_singleton_self, toSend]
        omega
      · cases hlive
      · cases hlive
    | false => exact ⟨.inl (by simpa using herase ▸ Nat.le_succ _), id, fun _ => id⟩

theorem selfdestruct_movesOn (c : CompileSession) : MovesOn c c.selfdestruct := by
  unfold CompileSession.selfdestruct
  split
  · exact ⟨.inl (Nat.zero_add _).le, id, fun _ => id⟩
  · exact ⟨.inl (Nat.zero_add _).le, fun h => (by cases h), fun h => (by cases h)⟩

/-! ## The manager session -/

theorem serverDone_resultFutures {session : ServerSession} {registers : Bool} :
    (session.serverDone registers).session.resultFutures ≤ session.resultFutures := by
  unfold ServerSession.serverDone
  repeat' split
  all_goals first | exact Nat.zero_le _ | exact Nat.le_refl _

/-- The manager session has a file more only by its last part. -/
theorem gotDataFromServer_resultFutures {session : ServerSession} {registers : Bool} {msg : FromServer} :
    (session.gotDataFromServer task registers msg).session.resultFutures ≤
      session.resultFutures + if msg = .chunk true then 1 else 0 := by
  have hsame : ∀ {n : Nat}, session.resultFutures ≤ session.resultFutures + n := Nat.le_add_right _ _
  unfold ServerSession.gotDataFromServer
  split
  · split <;> exact hsame
  · exact hsame
  · split
    · repeat' split
      all_goals exact hsame
    · split
      · exact hsame
      · exact serverDone_resultFutures.trans hsame
      · exact hsame
    · unfold ServerSession.receiveObjectFile
      split
      · exact hsame
      · split
        · exact hsame
        · exact hsame
        · rename_i hlast
          split
          · cases msg with
            | chunk last =>
              cases hlast
              exact Nat.le_refl _
            | _ => cases hlast
          · exact hsame
    · exact hsame
    · exact hsame

/-- A session whose task has one object file raises nothing over a message that it expects. -/
theorem not_raised (hfiles : task.resultFiles = 1) {session : ServerSession} {registers : Bool} {msg : FromServer}
    (hexpects : ManagerExpects session msg)
    (hsender : session.state = .waitForMissingFiles → session.sender = false)
    (hreg : ¬ (registers = true ∧ session.cancelled = true))
    (hreceiving : session.state = .receiveObjectFile → session.cancelled = false)
    (hfirst : msg = .chunk true → session.resultFutures = 0) :
    (session.gotDataFromServer task registers msg).action ≠ some .raise := by
  rcases hexpects with rfl | ⟨rfl, hcancelled⟩ | hexpects
  · simp [ServerSession.gotDataFromServer, ServerSession.complete]
  · simp [ServerSession.gotDataFromServer, hcancelled, ServerSession.complete]
  · cases hstate : session.state with
    | waitForMissingFiles =>
      rw [hstate] at hexpects
      obtain ⟨needCompiler, needPch, rfl⟩ := hexpects
      simp only [ServerSession.gotDataFromServer, hstate, hsender hstate, ServerSession.sendTaskFiles]
      cases needPch <;> simp
    | waitForServerResponse =>
      rw [hstate] at hexpects
      rcases hexpects with ⟨retcode, stdout, stderr, rfl⟩ | ⟨traceback, rfl⟩
      · simp only [ServerSession.gotDataFromServer, hstate, ServerSession.serverDone]
        split
        · rename_i hregisters
          rw [if_neg fun hcancelled => hreg ⟨hregisters, hcancelled⟩]
          split
          · simp
          · simp [ServerSession.complete]
        · simp [ServerSession.complete]
      · simp [ServerSession.gotDataFromServer, hstate, ServerSession.complete]
    | receiveObjectFile =>
      rw [hstate] at hexpects
      obtain ⟨last, rfl⟩ := hexpects
      cases last with
      | false => simp [ServerSession.gotDataFromServer, hstate, ServerSession.receiveObjectFile, hreceiving hstate,
          ServerSession.isLast]
      | true => simp [ServerSession.gotDataFromServer, hstate, ServerSession.receiveObjectFile, hreceiving hstate,
          ServerSession.isLast, hfirst rfl, hfiles]
    | start | finish =>
      rw [hstate] at hexpects
      exact hexpects.elim

/-! ## Both sessions -/

theorem init_oneFile : OneFile {} where
  once := Nat.zero_le _
  unconfirmed c hserver := by cases hserver
  unknown _ := rfl

/-- The server is where it was, and the object files are not more than they were. -/
theorem OneFile.fewer (h : OneFile t) (hserver : t'.server = t.server) (hfiles : objectFiles t' ≤ objectFiles t) :
    OneFile t' where
  once := hfiles.trans h.once
  unconfirmed c hc hlive hstate := by
    have hzero := h.unconfirmed c (hserver ▸ hc) hlive hstate
    omega
  unknown hnone := by
    have hzero := h.unknown (hserver ▸ hnone)
    omega

theorem OneFile.replied (h : OneFile t) {reply : ServerSession.Reply}
    (hfutures : reply.session.resultFutures ≤ t.manager.resultFutures) : OneFile (t.replied reply) := by
  refine h.fewer rfl ?_
  unfold objectFiles System.replied
  dsimp only
  omega

theorem OneFile.answered (h : OneFile t) (hserver : t.server = some c) {result : CompileSession.Result}
    (hmoves : MovesOn c result) (rest : List ToServer) :
    OneFile (System.answered { t with toServer := rest } result) := by
  have hold : objectFiles t = t.manager.resultFutures + t.toManager.count (.chunk true) + toSend c := by
    simp [objectFiles, hserver]
  have hnew : objectFiles (System.answered { t with toServer := rest } result) =
      t.manager.resultFutures + (t.toManager.count (.chunk true) + result.2.count (.chunk true)) + toSend result.1 := by
    simp [objectFiles, System.answered]
  have honce := h.once
  refine ⟨?_, fun c' hc' hlive hstate => ?_, fun hnone => by cases hnone⟩
  · rcases hmoves.files with hfiles | ⟨hlive, hstate, -, hfiles⟩
    · omega
    · have hzero := h.unconfirmed c hserver hlive (by simp [hstate])
      omega
  · cases hc'
    have hzero := h.unconfirmed c hserver (hmoves.live hlive) fun huploading =>
      hstate (hmoves.uploading hlive huploading)
    rcases hmoves.files with hfiles | ⟨-, -, huploading, -⟩
    · omega
    · exact absurd huploading hstate

/-- A new session has nothing to send. -/
theorem OneFile.created (h : OneFile t) (hserver : t.server = none) : OneFile { t with server := some {} } := by
  have hzero : objectFiles { t with server := some {} } = 0 := by
    rw [← h.unknown hserver]
    simp [objectFiles, hserver, toSend]
  exact ⟨by rw [hzero]; exact Nat.zero_le _, fun _ _ _ _ => hzero, fun hnone => by cases hnone⟩

theorem OneFile.delivered {raises : Prop} (hinv : Inv raises t) (h : OneFile t) {needs : Bool × Bool}
    {handling : CompileSession.Handling} (hdelivered : Delivered t needs handling t') : OneFile t' := by
  cases hdelivered with
  | dropped msg rest _ result =>
    subst result
    exact h.fewer rfl (Nat.le_refl _)
  | processed msg rest queue c server live result =>
    subst result
    rcases server with ⟨rfl, rfl⟩ | server
    · have hnone : t.server = none := hinv.started (by simp [queue])
      exact (h.created hnone).answered rfl (processMsg_movesOn live) rest
    · exact h.answered server (processMsg_movesOn live) rest

theorem OneFile.deliverToManager (h : OneFile t) {registers : Bool} {msg : FromServer} {rest : List FromServer}
    (hu : t.toManager = msg :: rest) : OneFile (if t.registered then
      System.replied { t with toManager := rest } (t.manager.gotDataFromServer task registers msg)
      else { t with toManager := rest }) := by
  have hcount : t.toManager.count (.chunk true) = rest.count (.chunk true) + if msg = .chunk true then 1 else 0 := by
    simp [hu, List.count_cons]
  split
  · refine h.fewer rfl ?_
    have hfutures : (t.manager.gotDataFromServer task registers msg).session.resultFutures ≤ _ :=
      gotDataFromServer_resultFutures
    simp only [objectFiles, System.replied]
    omega
  · refine h.fewer rfl ?_
    simp only [objectFiles]
    omega

/-- A session that sends its object file waits for nothing but its compression. -/
theorem Phase.uploading_pending {raises : Prop} (h : Phase raises t) (hserver : t.server = some c)
    (hlive : c.completed = false) (hstate : c.state = .uploadingFile) : ∀ x ∈ c.pending, x = .sendCompressed := by
  have hsame : ∀ {c'}, t.server = some c' → c' = c := fun hc' => Option.some.inj (hc'.symm.trans hserver)
  cases h with
  | new hnone => rw [hnone] at hserver; cases hserver
  | asked c' hc' _ hother => rw [hsame hc', hstate] at hother; cases hother
  | headers c' _ hc' _ hother => rw [hsame hc', hstate] at hother; cases hother
  | compiler c' hc' _ hother => rw [hsame hc', hstate] at hother; cases hother
  | pch c' hc' _ hother => rw [hsame hc', hstate] at hother; cases hother
  | working c' hc' _ hother =>
    rw [hsame hc', hstate] at hother
    rcases hother with ⟨hother, -⟩ | ⟨hother, -⟩ <;> cases hother
  | done c' _ _ hc' _ hother => rw [hsame hc', hstate] at hother; cases hother
  | confirmed c' _ hc' _ hother => rw [hsame hc', hstate] at hother; cases hother
  | uploading c' hc' _ _ hpending => rw [← hsame hc', hpending]; simp
  | stopped _ c' _ hc' _ hpending => rw [← hsame hc', hpending]; simp
  | ended c' hc' hdone => rw [hsame hc', hlive] at hdone; cases hdone

theorem step_oneFile {raises : Prop} {e : Event} (hinv : Inv raises t) (h : OneFile t)
    (hs : step task t e = some t') : OneFile t' := by
  cases e with
  | cancel =>
    cases hs
    exact h.replied (Nat.le_refl _)
  | terminate =>
    obtain ⟨-, hs⟩ := Option.ite_none_right_eq_some.1 hs
    cases hs
    exact h.replied (Nat.le_refl _)
  | pchCompressed parts =>
    simp only [step] at hs
    split at hs
    · cases hs
    · cases hs
      exact h.fewer rfl (Nat.le_refl _)
  | decompressed ok =>
    simp only [step] at hs
    split at hs
    · cases hs
    · rename_i n hn
      cases hs
      have hfewer : OneFile { t with gathering := n } := h.fewer rfl (Nat.le_refl _)
      apply hfewer.replied
      unfold ServerSession.completeSession
      repeat' split
      all_goals exact Nat.le_refl _
  | deliverToServer needs handling => exact h.delivered hinv (deliverToServer_cases hs)
  | deliverToManager registers =>
    simp only [step] at hs
    split at hs
    · cases hs
    · split at hs
      · cases hs
      · rename_i hu
        cases hs
        exact h.deliverToManager hu
  | callback x report =>
    obtain ⟨c, hserver, hs⟩ := Option.bind_eq_some_iff.1 hs
    obtain ⟨hx, hs⟩ := Option.ite_none_right_eq_some.1 hs
    cases hs
    exact h.answered hserver (callback_movesOn hx (hinv.phase.uploading_pending hserver) report) t.toServer
  | selfdestruct =>
    obtain ⟨c, hserver, rfl⟩ := Option.map_eq_some_iff.1 hs
    exact h.answered hserver (selfdestruct_movesOn c) t.toServer

end OneFile

end BuildPal.SessionProtocol
