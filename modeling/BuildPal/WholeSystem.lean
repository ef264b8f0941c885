import BuildPal.Lib.Components
import BuildPal.Manager.Calls
import BuildPal.SessionResult
/-!
# The manager and all its servers

The manager's scheduler with every session it has made, the sessions at the
servers and what is on its way between them. The scheduler calls its sessions
as its callbacks do; each session and the one at its server follow the session
protocol, whatever happens to the others.
-/
open BuildPal.Lib BuildPal.Message

namespace BuildPal.Whole
open Scheduler

/-! ## The manager and the servers -/

/-- What is at the other end of a session of the manager, and on its way there and back. -/
structure Link where
  server : Option CompileSession := none
  toServer : List ToServer := []
  toManager : List FromServer := []
  /-- The number of times the PCH file is still to be compressed and sent. -/
  compressing : Nat := 0

/-- The session of the manager has been called, or not. -/
def Link.sent (link : Link) : Option ServerSession.Reply → Link
  | none => link
  | some reply =>
    { link with
      toServer := link.toServer ++ reply.sent
      compressing := link.compressing + if reply.action = some .compressPch then 1 else 0 }

/-- The link with the session of the manager. -/
def Link.pair (link : Link) (session : ServerSession) (registered : Bool) (gathering : Nat) : SessionProtocol.System :=
  { manager := session, registered, server := link.server, toServer := link.toServer, toManager := link.toManager,
    compressing := link.compressing, gathering }

/-- The link of a pair. -/
def linkOf (t : SessionProtocol.System) : Link :=
  { server := t.server, toServer := t.toServer, toManager := t.toManager, compressing := t.compressing }

structure System where
  manager : NodeManager
  links : SessionId → Link := fun _ => {}

/-- A session of the manager with what is at the other end, once it has been made. -/
def pairOf (s : NodeManager) (link : Link) (sid : SessionId) : Option SessionProtocol.System :=
  ((s.objects sid).map Session.session).map fun session =>
    link.pair session (sid ∈ s.sessions) (s.decompressing.count sid)

def System.view (w : System) (sid : SessionId) : Option SessionProtocol.System := pairOf w.manager (w.links sid) sid

/-- The manager has made a callback that turned it into `s`. -/
def System.after (w : System) (e : Scheduler.Event) (s : NodeManager) : System :=
  { manager := s
    links := fun sid =>
      match w.manager.objects sid, s.objects sid with
      | none, some _ => { toServer := (({} : ServerSession).start).sent }
      | _, _ => (w.links sid).sent (called w.manager e sid) }

inductive Event where
  /-- A callback of the manager, other than that a message is there. -/
  | callback (e : Scheduler.Event)
  /-- The manager takes the session's next message. -/
  | message (sid : SessionId) (elapsed : Rat)
  /-- Something happens at the other end of the session, or to its PCH file. -/
  | session (sid : SessionId) (e : SessionProtocol.Event)

/-- It happens without the session of the manager. -/
def atServer : SessionProtocol.Event → Bool
  | .pchCompressed _ | .deliverToServer _ _ | .callback _ _ | .selfdestruct => true
  | .cancel | .terminate | .decompressed _ | .deliverToManager _ => false

/-- The session's first message is taken off the queue. -/
def System.took (w : System) (sid : SessionId) (rest : List FromServer) : System :=
  { w with links := Function.update w.links sid { w.links sid with toManager := rest } }

def isMessage : Scheduler.Event → Bool
  | .message _ _ _ => true
  | _ => false

def step (live : Bool) (order : NodeManager → List NodeId) (w : System) : Event → Option System
  | .callback e => if isMessage e then none else (Scheduler.step live order w.manager e).map (w.after e)
  | .message sid elapsed =>
    match (w.links sid).toManager with
    | [] => none
    | msg :: rest =>
      (Scheduler.step live order w.manager (.message sid msg elapsed)).map
        ((w.took sid rest).after (.message sid msg elapsed))
  | .session sid e =>
    if atServer e then
      (w.view sid).bind fun t => (SessionProtocol.step ⟨0, 0⟩ t e).map fun t' =>
        { w with links := Function.update w.links sid (linkOf t') }
    else none

/-! ## Every session follows the session protocol -/

/-- A step of a pair, for any task, as long as the compiler can be unpacked where the PCH file is to follow it. -/
def pairStep (t : SessionProtocol.System) (e : SessionTask × SessionProtocol.Event) : Option SessionProtocol.System :=
  if SessionProtocol.Unpacks t e.2 then SessionProtocol.step e.1 t e.2 else none

section Pairs
variable {s s' : NodeManager} {link : Link} {sid : SessionId} {obj : Session} {reply : ServerSession.Reply}
  {replies : SessionId → Option ServerSession.Reply} {w w' : System} {live : Bool} {order : NodeManager → List NodeId}

theorem pair_not_called (h : Calls s s' replies) (hnone : replies sid = none) :
    pairOf s' (link.sent (replies sid)) sid = pairOf s link sid := by
  have hobject := h.objects sid
  have hsessions := h.sessions sid
  have hdecompressing := h.decompressing sid
  rw [hnone] at hobject hsessions hdecompressing ⊢
  have hmem : sid ∈ s'.sessions ↔ sid ∈ s.sessions := hsessions.trans (and_iff_left Calls.not_callEnds_none)
  have hkept : (s'.objects sid).map Session.session = (s.objects sid).map Session.session :=
    hobject.trans (congrFun Option.map_id _)
  unfold pairOf
  rw [hkept, hdecompressing]
  simp only [hmem]
  rfl

theorem pair_called (h : Calls s s' replies) (hreply : replies sid = some reply) (hobj : s.objects sid = some obj) :
    pairOf s' (link.sent (replies sid)) sid =
      some ((link.pair obj.session (sid ∈ s.sessions) (s.decompressing.count sid)).replied reply) := by
  have hobject := h.objects sid
  have hsessions := h.sessions sid
  have hdecompressing := h.decompressing sid
  rw [hreply] at hobject hsessions hdecompressing ⊢
  have hregistered : decide (sid ∈ s'.sessions) =
      ((link.pair obj.session (sid ∈ s.sessions) (s.decompressing.count sid)).replied reply).registered := by
    unfold SessionProtocol.System.replied
    dsimp only
    split
    · rename_i result haction
      rw [decide_eq_false_iff_not, hsessions]
      exact fun hmem => hmem.2 ⟨reply, result, rfl, haction⟩
    · rename_i hgoes
      show decide (sid ∈ s'.sessions) = decide (sid ∈ s.sessions)
      rw [decide_eq_decide, hsessions]
      refine and_iff_left ?_
      rintro ⟨r, result, hr, haction⟩
      rw [Option.some.inj hr] at hgoes
      exact hgoes result haction
  have hgathering : s'.decompressing.count sid = s.decompressing.count sid +
      if reply.action = some .gather then 1 else 0 := by
    rw [hdecompressing]
    simp
  unfold pairOf
  rw [hobject, hobj, hregistered, hgathering]
  rfl

/-- A session that is not made in a callback is called in it, or is not. -/
theorem view_after {e : Scheduler.Event} (h : s'.objects sid = none ↔ w.manager.objects sid = none) :
    (w.after e s').view sid = pairOf s' ((w.links sid).sent (called w.manager e sid)) sid := by
  unfold System.view System.after
  dsimp only
  cases hold : w.manager.objects sid with
  | none => rw [h.2 hold]
  | some obj => rfl

/-- The callback leaves the session alone. -/
theorem moves_same {e : Scheduler.Event} (hobject : s'.objects sid = w.manager.objects sid)
    (hsessions : sid ∈ s'.sessions ↔ sid ∈ w.manager.sessions)
    (hdecompressing : s'.decompressing = w.manager.decompressing) (hnone : called w.manager e sid = none) :
    Moves pairStep {} (w.view sid) ((w.after e s').view sid) := by
  rw [view_after (by rw [hobject])]
  apply Moves.of_eq
  rw [hnone]
  unfold System.view pairOf
  simp only [hobject, hsessions, hdecompressing]
  rfl

/-- Each session that is called takes a step of its own. -/
theorem moves_called {e : Scheduler.Event} (h : Calls w.manager s' replies)
    (hsent : (w.links sid).sent (called w.manager e sid) = (w.links sid).sent (replies sid))
    (hstep : ∀ reply obj, replies sid = some reply → w.manager.objects sid = some obj →
      ∃ pe, pairStep ((w.links sid).pair obj.session (sid ∈ w.manager.sessions)
          (w.manager.decompressing.count sid)) pe =
        some (((w.links sid).pair obj.session (sid ∈ w.manager.sessions)
          (w.manager.decompressing.count sid)).replied reply)) :
    Moves pairStep {} (w.view sid) ((w.after e s').view sid) := by
  rw [view_after (h.made sid), hsent]
  cases hreply : replies sid with
  | none =>
    have hpair : pairOf s' ((w.links sid).sent _) sid = _ := pair_not_called h hreply
    rw [hreply] at hpair
    exact .of_eq hpair
  | some reply =>
    cases hobj : w.manager.objects sid with
    | none =>
      have hobj' := (h.made sid).2 hobj
      simp only [System.view, pairOf, hobj, hobj']
      exact .absent
    | some obj =>
      obtain ⟨pe, hpe⟩ := hstep reply obj hreply hobj
      have hpair : pairOf s' ((w.links sid).sent _) sid = _ := pair_called h hreply hobj
      rw [hreply] at hpair
      rw [hpair]
      have hview : w.view sid = some ((w.links sid).pair obj.session (sid ∈ w.manager.sessions)
          (w.manager.decompressing.count sid)) := by
        simp only [System.view, pairOf, hobj, Option.map_some]
      rw [hview]
      exact .single hpe

/-- A session is made with its link, if it is made. -/
theorem moves_connected (hbook : Book w.manager) {i : Nat}
    (hs : Scheduler.step live order w.manager (.connected i) = some s') (sid : SessionId) :
    Moves pairStep {} (w.view sid) ((w.after (.connected i) s').view sid) := by
  obtain ⟨t, node, -, rfl⟩ := steps_of_step hs
  unfold NodeManager.createSession
  dsimp only
  split
  · exact moves_same rfl .rfl rfl rfl
  · split
    · exact moves_same rfl .rfl rfl rfl
    · by_cases heq : sid = w.manager.counter + 1
      · subst heq
        have hnone : w.manager.objects (w.manager.counter + 1) = none := by
          apply Option.eq_none_iff_forall_ne_some.2
          intro obj hobj
          exact absurd (hbook.fresh _ obj hobj) (Nat.not_succ_le_self _)
        have hcount : w.manager.decompressing.count (w.manager.counter + 1) = 0 := by
          rw [List.count_eq_zero]
          intro hmem
          obtain ⟨obj, hobj, -⟩ := hbook.gathering _ hmem
          rw [hnone] at hobj
          cases hobj
        have hview : w.view (w.manager.counter + 1) = none := by
          simp [System.view, pairOf, hnone]
        rw [hview]
        convert Moves.made using 1
        simp only [System.view, System.after, pairOf, hnone, Function.update_self, Option.map_some, hcount]
        simp [Link.pair, ServerSession.start]
      · apply moves_same
        · exact Function.update_of_ne heq ..
        · simp [heq]
        · rfl
        · rfl

/-- The last decompression of a session is over. -/
theorem moves_decompressed (hbook : Book w.manager) {i : Nat} {ok : Bool} {elapsed : Rat}
    (hs : Scheduler.step live order w.manager (.decompressed i ok elapsed) = some s') (sid : SessionId) :
    Moves pairStep {} (w.view sid) ((w.after (.decompressed i ok elapsed) s').view sid) := by
  obtain ⟨sid', obj, hi, hobj, rfl⟩ := steps_of_step hs
  have hcalls : Calls _ (NodeManager.replied _ order sid' obj (obj.session.completeSession ok) elapsed) _ :=
    decompressed_calls hbook hi hobj
  have hcount : ∀ other, w.manager.decompressing.count other =
      (w.manager.decompressing.eraseIdx i).count other + if other = sid' then 1 else 0 := by
    intro other
    obtain ⟨hlt, hget⟩ := List.getElem?_eq_some_iff.1 hi
    have hperm := (List.getElem_cons_eraseIdx_perm hlt).count_eq other
    rw [hget, List.count_cons] at hperm
    rw [← hperm]
    by_cases heq : other = sid'
    · simp [heq]
    · have hne : ¬ sid' = other := fun h => heq h.symm
      simp [heq, hne]
  rw [view_after (hcalls.made sid), called_decompressed hi hobj]
  by_cases heq : sid = sid'
  · subst heq
    have hview : w.view sid = some ((w.links sid).pair obj.session (sid ∈ w.manager.sessions)
        ((w.manager.decompressing.eraseIdx i).count sid + 1)) := by
      simp only [System.view, pairOf, hobj, Option.map_some, hcount, if_true]
    have honly : Calls.only sid (obj.session.completeSession ok) sid = some (obj.session.completeSession ok) :=
      if_pos rfl
    rw [hview, pair_called hcalls honly hobj]
    exact .single (e := (⟨0, 0⟩, .decompressed ok)) rfl
  · have honly : Calls.only sid' (obj.session.completeSession ok) sid = none := if_neg heq
    rw [pair_not_called hcalls honly]
    apply Moves.of_eq
    simp only [System.view, pairOf, hcount, if_neg heq]
    rfl

/-- A session that is terminated has nothing to say to its server. -/
theorem sent_terminated {link : Link} {gone : List SessionId} : link.sent (terminated s gone sid) = link := by
  unfold terminated
  split
  · cases s.objects sid with
    | none => rfl
    | some obj => simp [Link.sent, ServerSession.terminate, ServerSession.complete]
  · rfl

/-- The sessions of nodes that have gone are terminated. -/
theorem moves_updateNodeInfo (hbook : Book w.manager) {nodes : List NodeId} {gone : List SessionId}
    (hs : Scheduler.step live order w.manager (.updateNodeInfo nodes gone) = some s') (sid : SessionId) :
    Moves pairStep {} (w.view sid) ((w.after (.updateNodeInfo nodes gone) s').view sid) := by
  obtain ⟨⟨-, hperm⟩, rfl⟩ := steps_of_step hs
  obtain ⟨told, hbegins, hcalls⟩ := updateNodeInfo_calls order hbook hperm
  apply moves_called hcalls (sent_terminated.trans sent_terminated.symm)
  intro reply obj hreply hobj
  obtain ⟨htold, hreply⟩ := Option.ite_none_right_eq_some.1 hreply
  rw [hobj] at hreply
  cases hreply
  have hsid : sid ∈ w.manager.sessions := List.mem_of_mem_filter (hperm.subset (hbegins.subset htold))
  refine ⟨(⟨0, 0⟩, .terminate), ?_⟩
  simp [pairStep, SessionProtocol.Unpacks, SessionProtocol.step, Link.pair, hsid]

/-- The manager takes a message: it is for one session, which may have others cancelled. -/
theorem moves_message (hbook : Book w.manager) {sid' : SessionId} {msg : FromServer} {rest : List FromServer}
    {elapsed : Rat} (hu : (w.links sid').toManager = msg :: rest)
    (hcalm : sid' ∈ w.manager.sessions → ∀ obj, w.manager.objects sid' = some obj →
      ¬ ((w.manager.registration sid' obj msg).2 = true ∧ obj.session.cancelled = true))
    (hs : Scheduler.step live order w.manager (.message sid' msg elapsed) = some s') (sid : SessionId) :
    Moves pairStep {} (w.view sid) (((w.took sid' rest).after (.message sid' msg elapsed) s').view sid) := by
  have hother : sid ≠ sid' → (w.took sid' rest).links sid = w.links sid := fun hne => Function.update_of_ne hne ..
  have hself : (w.took sid' rest).links sid' = { w.links sid' with toManager := rest } := Function.update_self ..
  rcases steps_of_step hs with ⟨hsid, obj, hobj, rfl⟩ | ⟨hsid, rfl⟩
  · have hcalled : called w.manager (.message sid' msg elapsed) = fun other =>
        (cancelled w.manager sid' obj msg other).or (Calls.only sid' (obj.session.gotDataFromServer
          (w.manager.tasks obj.task).files (w.manager.registration sid' obj msg).2 msg) other) := by
      funext other
      simp [called, hsid, hobj]
    have hcalls : Calls w.manager (w.manager.gotDataFromServer order sid' obj msg elapsed)
        (called w.manager (.message sid' msg elapsed)) := by
      rw [hcalled]
      exact message_calls hbook hobj
    -- The session that is called takes the message; any other is cancelled or left alone.
    by_cases heq : sid = sid'
    · subst heq
      have hreply : called w.manager (.message sid msg elapsed) sid = some (obj.session.gotDataFromServer
          (w.manager.tasks obj.task).files (w.manager.registration sid obj msg).2 msg) := by
        rw [hcalled]
        simp [cancelled, Calls.only]
      have hpair : pairOf _ (((w.took sid rest).links sid).sent _) sid = _ := pair_called hcalls hreply hobj
      have hview : w.view sid = some ((w.links sid).pair obj.session (sid ∈ w.manager.sessions)
          (w.manager.decompressing.count sid)) := by
        simp only [System.view, pairOf, hobj, Option.map_some]
      have hafter : ((w.took sid rest).after (.message sid msg elapsed)
          (w.manager.gotDataFromServer order sid obj msg elapsed)).view sid = pairOf _
            (((w.took sid rest).links sid).sent (called w.manager (.message sid msg elapsed) sid)) sid :=
        view_after (hcalls.made sid)
      rw [hafter, hpair, hview, hself]
      apply Moves.single (e := ((w.manager.tasks obj.task).files,
        SessionProtocol.Event.deliverToManager (w.manager.registration sid obj msg).2))
      simp only [pairStep, SessionProtocol.Unpacks, SessionProtocol.step, Link.pair, hu, if_true]
      rw [if_neg (hcalm hsid obj hobj)]
      simp [hsid]
    · have hsame : w.view sid = (w.took sid' rest).view sid := by
        unfold System.view
        rw [hother heq]
        rfl
      rw [hsame]
      apply moves_called (w := w.took sid' rest) hcalls rfl
      intro reply obj' hreply hobj'
      refine ⟨(⟨0, 0⟩, .cancel), ?_⟩
      have hcancel : reply = obj'.session.cancel := by
        rw [hcalled] at hreply
        simp only [Calls.only, if_neg heq, Option.or_none, cancelled] at hreply
        obtain ⟨-, hreply⟩ := Option.ite_none_right_eq_some.1 hreply
        rw [show w.manager.objects sid = some obj' from hobj', Option.map_some] at hreply
        exact (Option.some.inj hreply).symm
      rw [hcancel]
      rfl
  -- A session that has ended does not hear the message.
  · have hcalled : called w.manager (.message sid' msg elapsed) = fun _ => none := by
      funext other
      simp [called, hsid]
    have hafter : ((w.took sid' rest).after (.message sid' msg elapsed) w.manager).view sid = pairOf w.manager
        (((w.took sid' rest).links sid).sent (called w.manager (.message sid' msg elapsed) sid)) sid := view_after .rfl
    rw [hafter, hcalled]
    by_cases heq : sid = sid'
    · subst heq
      rw [hself]
      cases hobj : w.manager.objects sid with
      | none =>
        simp only [System.view, pairOf, hobj]
        exact .absent
      | some obj =>
        simp only [System.view, pairOf, hobj, Option.map_some, Link.sent]
        apply Moves.single (e := ((⟨0, 0⟩ : SessionTask), SessionProtocol.Event.deliverToManager false))
        simp [pairStep, SessionProtocol.Unpacks, SessionProtocol.step, Link.pair, hu, hsid]
    · rw [hother heq]
      exact .of_eq rfl

/-- What happens at the server leaves the session of the manager alone. -/
theorem atServer_step {task : SessionTask} {t t' : SessionProtocol.System} {e : SessionProtocol.Event}
    (he : atServer e = true) (hs : SessionProtocol.step task t e = some t') :
    t'.manager = t.manager ∧ t'.registered = t.registered ∧ t'.gathering = t.gathering := by
  cases e with
  | cancel | terminate | decompressed | deliverToManager => cases he
  | pchCompressed parts =>
    simp only [SessionProtocol.step] at hs
    split at hs
    · cases hs
    · cases hs
      exact ⟨rfl, rfl, rfl⟩
  | deliverToServer needs handling =>
    simp only [SessionProtocol.step] at hs
    repeat' split at hs
    all_goals
      cases hs
    all_goals exact ⟨rfl, rfl, rfl⟩
  | callback x report =>
    obtain ⟨c, -, hs⟩ := Option.bind_eq_some_iff.1 hs
    split at hs
    · cases hs
      exact ⟨rfl, rfl, rfl⟩
    · cases hs
  | selfdestruct =>
    obtain ⟨c, -, rfl⟩ := Option.map_eq_some_iff.1 hs
    exact ⟨rfl, rfl, rfl⟩

theorem moves_session {sid' : SessionId} {e : SessionProtocol.Event}
    (hunpack : ∀ t ∈ w.view sid', SessionProtocol.Unpacks t e) (hs : step live order w (.session sid' e) = some w')
    (sid : SessionId) :
    Moves pairStep {} (w.view sid) (w'.view sid) := by
  obtain ⟨he, hs⟩ := Option.ite_none_right_eq_some.1 hs
  obtain ⟨t, hview, hs⟩ := Option.bind_eq_some_iff.1 hs
  obtain ⟨t', ht', rfl⟩ := Option.map_eq_some_iff.1 hs
  by_cases heq : sid = sid'
  · subst heq
    obtain ⟨hmanager, hregistered, hgathering⟩ := atServer_step he ht'
    have hview' : ({ w with links := Function.update w.links sid (linkOf t') } : System).view sid = some t' := by
      unfold System.view pairOf at hview ⊢
      obtain ⟨session, hsession, rfl⟩ := Option.map_eq_some_iff.1 hview
      dsimp only
      rw [hsession, Function.update_self, Option.map_some, Option.some.injEq]
      obtain ⟨manager, registered, server, toServer, toManager, compressing, gathering⟩ := t'
      cases hmanager
      cases hregistered
      cases hgathering
      rfl
    rw [hview, hview']
    exact .single (e := (⟨0, 0⟩, e)) ((if_pos (hunpack t hview)).trans ht')
  · apply Moves.of_eq
    simp [System.view, heq]

end Pairs

/-! ## Calm runs -/

/-- The tasks that are made in a callback. -/
def newTasks : Scheduler.Event → List SessionTask
  | .createTasks _ files _ => files
  | _ => []

/-- The tasks have one object file each, no session that is to complete its task fails while one that it cancelled is
still running, and no session at a server that needs the PCH file too fails to unpack its compiler. -/
def Calm (w : System) : Event → Prop
  | .callback e => FailsAlone w.manager e ∧ ∀ task ∈ newTasks e, task.resultFiles = 1
  | .message sid elapsed => ∀ msg ∈ (w.links sid).toManager.head?, FailsAlone w.manager (.message sid msg elapsed)
  | .session sid e => ∀ t ∈ w.view sid, SessionProtocol.Unpacks t e

instance (s : NodeManager) : (e : Scheduler.Event) → Decidable (FailTogether s e)
  | .updateNodeInfo nodes _ => inferInstanceAs (Decidable (∀ node ∈ nodes, s.slotless node = false))
  | .createTasks .. | .preprocessed _ | .preprocessingFailed .. | .cannotDistribute _ | .connected _
  | .connectionFailed _ | .message .. | .decompressed .. => .isTrue trivial

instance (s : NodeManager) (e : Scheduler.Event) : Decidable (FailsAlone s e) :=
  inferInstanceAs (Decidable (∀ sid ∈ fails s e, ∀ obj ∈ s.objects sid,
    (s.tasks obj.task).completedBySession = some sid →
      ∀ other ∈ (s.tasks obj.task).sessionsRunning, other ≠ sid → other ∈ fails s e ∧ FailTogether s e ∨
        ∃ obj ∈ s.objects other, obj.session.cancelled = false))

instance (w : System) : (e : Event) → Decidable (Calm w e)
  | .callback e =>
    inferInstanceAs (Decidable (FailsAlone w.manager e ∧ ∀ task ∈ newTasks e, task.resultFiles = 1))
  | .message sid elapsed =>
    inferInstanceAs (Decidable (∀ msg ∈ (w.links sid).toManager.head?,
      FailsAlone w.manager (.message sid msg elapsed)))
  | .session sid e => inferInstanceAs (Decidable (∀ t ∈ w.view sid, SessionProtocol.Unpacks t e))

/-- A session and the one at its server are in step. -/
structure InStep (t : SessionProtocol.System) : Prop where
  inv : SessionProtocol.Inv True t
  oneFile : SessionProtocol.OneFile t

/-- The manager does not ask its sessions for what they cannot do, and none has failed. -/
structure Sound (s : NodeManager) : Prop where
  overruled : Overruled s []
  oneFile : ∀ t, t ∈ (s.commands t.command).tasks → (s.tasks t).files.resultFiles = 1
  unfailed : .session ∉ s.failures

section Calm
variable {s s' : NodeManager} {sid : SessionId} {obj : Session} {w w' : System} {live : Bool}
  {order : NodeManager → List NodeId}

theorem inStep_init : InStep {} := ⟨SessionProtocol.init_inv, SessionProtocol.init_oneFile⟩

theorem pairStep_inStep {t t' : SessionProtocol.System} {e : SessionTask × SessionProtocol.Event} (h : InStep t)
    (hs : pairStep t e = some t') : InStep t' := by
  obtain ⟨hunpack, hs⟩ := Option.ite_none_right_eq_some.1 hs
  exact ⟨SessionProtocol.step_inv h.inv hunpack (fun _ => trivial) hs, SessionProtocol.step_oneFile h.inv h.oneFile hs⟩

theorem sound_init (slots : NodeId → Option Nat) (orders : CommandId → DictOrder) : Sound (.initial slots orders) where
  overruled := overruled_init slots orders
  oneFile t ht := by cases ht
  unfailed h := by cases h

/-- A session that was cancelled is not the one to complete its task. -/
theorem not_registered (h : Overruled s []) (hsid : sid ∈ s.sessions) (hobj : s.objects sid = some obj)
    (msg : FromServer) : ¬ ((s.registration sid obj msg).2 = true ∧ obj.session.cancelled = true) := by
  rintro ⟨hregistered, hcancelled⟩
  obtain ⟨winner, -, hcompleted⟩ := h.overruled sid hsid List.not_mem_nil obj hobj hcancelled
  unfold NodeManager.registration at hregistered
  split at hregistered
  · simp [NodeManager.registerCompletion, Task.isCompleted, hcompleted] at hregistered
  · cases hregistered

theorem not_cancelled (h : Overruled s []) (hsid : sid ∈ s.sessions) (hobj : s.objects sid = some obj)
    (hstate : obj.session.state = .receiveObjectFile) : obj.session.cancelled = false := by
  rw [← Bool.not_eq_true]
  intro hcancelled
  obtain ⟨winner, hne, hcompleted⟩ := h.overruled sid hsid List.not_mem_nil obj hobj hcancelled
  rw [h.book.winner sid obj hsid hobj hstate] at hcompleted
  exact hne (Option.some.inj hcompleted).symm

/-- No assertion of the session fails over its next message. -/
theorem message_not_raised (h : Sound s) {link : Link} {gathering : Nat} {msg : FromServer} {rest : List FromServer}
    (hsid : sid ∈ s.sessions) (hobj : s.objects sid = some obj)
    (hpair : InStep (link.pair obj.session (sid ∈ s.sessions) gathering)) (hu : link.toManager = msg :: rest) :
    (obj.session.gotDataFromServer (s.tasks obj.task).files (s.registration sid obj msg).2 msg).action ≠
      some .raise := by
  have hregistered : (link.pair obj.session (sid ∈ s.sessions) gathering).registered = true := decide_eq_true hsid
  have hknown : obj.task ∈ (s.commands obj.task.command).tasks :=
    h.overruled.book.known _ (by simp [h.overruled.book.made sid obj hobj])
  refine SessionProtocol.not_raised (h.oneFile _ hknown) (hpair.inv.manager_expects hregistered hu)
    (hpair.inv.sender hregistered) (not_registered h.overruled hsid hobj msg)
    (not_cancelled h.overruled hsid hobj) fun hlast => ?_
  have honce := hpair.oneFile.once
  subst hlast
  simp only [SessionProtocol.objectFiles, Link.pair, hu, List.count_cons_self] at honce
  omega

/-- A callback of the manager that calls no session in vain. -/
theorem callback_sound {e : Scheduler.Event} (h : Sound s) (hfails : FailsAlone s e)
    (hfiles : ∀ task ∈ newTasks e, task.resultFiles = 1)
    (hraise : ∀ sid reply, called s e sid = some reply → reply.action ≠ some .raise)
    (hs : Scheduler.step live order s e = some s') : Sound s' := by
  have hover := step_overruled h.overruled hfails hs
  by_cases hnew : ∃ c files linker, e = .createTasks c files linker
  · obtain ⟨c, files, linker, rfl⟩ := hnew
    obtain ⟨-, rfl⟩ := steps_of_step hs
    refine ⟨hover, fun t ht => ?_, h.unfailed⟩
    by_cases hc : t.command = c
    · simp only [NodeManager.setCommand, hc, Function.update_self, List.mem_map, List.mem_range] at ht
      obtain ⟨i, hi, rfl⟩ := ht
      simp only [if_true, List.getD_eq_getElem?_getD, List.getElem?_eq_getElem hi, Option.getD_some]
      exact hfiles _ (List.getElem_mem hi)
    · simp only [NodeManager.setCommand, Function.update_of_ne hc] at ht
      simp only [if_neg hc]
      exact h.oneFile t ht
  · have hkept := step_kept h.overruled.book hs fun c files linker heq => hnew ⟨c, files, linker, heq⟩
    refine ⟨hover, fun t ht => ?_, fun hmem => h.unfailed (hkept.failures hraise hmem)⟩
    rw [hkept.commands] at ht
    rw [hkept.files]
    exact h.oneFile t ht

/-- Only a message makes a session fail. -/
theorem called_not_raised {e : Scheduler.Event} (he : isMessage e = false) {reply : ServerSession.Reply}
    (hreply : called s e sid = some reply) : reply.action ≠ some .raise := by
  cases e with
  | message sid msg elapsed => cases he
  | decompressed i ok elapsed =>
    obtain ⟨sid', -, hreply⟩ := Option.bind_eq_some_iff.1 hreply
    obtain ⟨obj, -, hreply⟩ := Option.bind_eq_some_iff.1 hreply
    obtain ⟨-, heq⟩ := Option.ite_none_right_eq_some.1 hreply
    cases heq
    unfold ServerSession.completeSession
    repeat' split
    all_goals simp [ServerSession.complete]
  | updateNodeInfo nodes gone =>
    obtain ⟨-, hreply⟩ := Option.ite_none_right_eq_some.1 hreply
    obtain ⟨obj, -, rfl⟩ := Option.map_eq_some_iff.1 hreply
    simp [ServerSession.terminate, ServerSession.complete]
  | createTasks | preprocessed | preprocessingFailed | cannotDistribute | connected | connectionFailed => cases hreply

theorem callback_moves {e : Scheduler.Event} (hbook : Book w.manager) (he : isMessage e = false)
    (hs : Scheduler.step live order w.manager e = some s') (sid : SessionId) :
    Moves pairStep {} (w.view sid) ((w.after e s').view sid) := by
  have hcalls := step_calls hbook hs
  cases e with
  | message sid msg elapsed => cases he
  | createTasks c files linker =>
    obtain ⟨-, rfl⟩ := steps_of_step hs
    exact moves_same rfl .rfl rfl rfl
  | connected i => exact moves_connected hbook hs sid
  | decompressed i ok elapsed => exact moves_decompressed hbook hs sid
  | updateNodeInfo nodes gone => exact moves_updateNodeInfo hbook hs sid
  | preprocessed | preprocessingFailed | cannotDistribute | connectionFailed =>
    obtain ⟨c, files, linker, h⟩ | ⟨i, h⟩ | ⟨i, ok, elapsed, h⟩ | ⟨nodes, gone, h⟩ | h := hcalls
    · cases h
    · cases h
    · cases h
    · cases h
    · exact moves_called h rfl fun reply obj hreply => by cases hreply

/-- Every step that is calm leaves the manager sound, and is a run of each session. -/
theorem step_sound {e : Event} (h : Sound w.manager) (hpairs : ∀ sid t, w.view sid = some t → InStep t)
    (hcalm : Calm w e) (hs : step live order w e = some w') :
    Sound w'.manager ∧ ∀ sid, Moves pairStep {} (w.view sid) (w'.view sid) := by
  cases e with
  | callback e =>
    obtain ⟨he, hs⟩ := Option.ite_none_left_eq_some.1 hs
    rw [Bool.not_eq_true] at he
    obtain ⟨s', hs', rfl⟩ := Option.map_eq_some_iff.1 hs
    exact ⟨callback_sound h hcalm.1 hcalm.2 (fun sid reply => called_not_raised he) hs',
      callback_moves h.overruled.book he hs'⟩
  | message sid elapsed =>
    simp only [step] at hs
    split at hs
    · cases hs
    · rename_i msg rest hu
      obtain ⟨s', hs', rfl⟩ := Option.map_eq_some_iff.1 hs
      refine ⟨callback_sound h (hcalm msg (by simp [hu])) (fun task htask => by cases htask) ?_ hs',
        moves_message h.overruled.book hu (fun hsid obj hobj => not_registered h.overruled hsid hobj msg) hs'⟩
      intro other reply hreply
      obtain ⟨hsid, hreply⟩ := Option.ite_none_right_eq_some.1 hreply
      obtain ⟨obj, hobj, hreply⟩ := Option.bind_eq_some_iff.1 hreply
      rcases Option.or_eq_some_iff.1 hreply with hreply | ⟨-, hreply⟩
      · rw [cancel_not_ends hreply]
        simp
      · obtain ⟨-, heq⟩ := Option.ite_none_right_eq_some.1 hreply
        cases heq
        apply message_not_raised h hsid hobj _ hu
        · exact w.manager.decompressing.count sid
        · apply hpairs sid
          simp [System.view, pairOf, hobj]
  | session sid e =>
    refine ⟨?_, moves_session hcalm hs⟩
    obtain ⟨-, hs⟩ := Option.ite_none_right_eq_some.1 hs
    obtain ⟨t, -, hs⟩ := Option.bind_eq_some_iff.1 hs
    obtain ⟨t', -, rfl⟩ := Option.map_eq_some_iff.1 hs
    exact h

/-- Two sessions, one with a PCH file and one with a compiler to send; the first one's object file is on its way. -/
def wholeEvents : List Event :=
  [.callback (.createTasks 0 [⟨0, 1⟩, ⟨0, 1⟩] false), .callback (.updateNodeInfo [7] []),
    .callback (.preprocessed ⟨0, 0⟩), .callback (.preprocessed ⟨0, 1⟩), .callback (.connected 0),
    .session 1 (.deliverToServer (false, true)), .callback (.connected 0), .message 1 0,
    .session 2 (.deliverToServer (true, false)), .session 1 (.deliverToServer (false, false)),
    .session 1 (.pchCompressed 0), .message 2 0, .session 1 (.deliverToServer (false, false)),
    .session 1 (.callback .pchCompleted {}), .session 1 (.callback .runCompiler {}),
    .session 1 (.callback .compileCompleted {}), .message 1 0, .session 1 (.deliverToServer (false, false)),
    .session 1 (.callback .sendCompressed {})]

end Calm

end BuildPal.Whole
