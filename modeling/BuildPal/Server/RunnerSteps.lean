import Mathlib.Logic.Relation
import BuildPal.Lib.Runs
import BuildPal.Server.Runner
/-!
# What a call does to the other sessions

Every call is made for one session, and the others only notice that files
become available: `Own` says what a call that concerns one session alone may
change, and the lemmas after it say so for each of them. `Stages` then says
where a session can be met: the calls that come back are for sessions that
have what they need, or are about to provide it.
-/
open BuildPal.Lib BuildPal.Message
open BuildPal.CompileSession (State Outcome)

namespace BuildPal.Runner

/-- The part of the server no session owns. -/
def Server.shared (s : Server) : Server :=
  { s with sessions := fun _ => {}, queue := [], tempdirs := fun _ => none, tempMaps := [], nextDir := 0, execs := []
           log := [] }

/-- The session still provides files, or is about to. -/
def Session.Providing (x : Session) : Prop :=
  x.state = .getTask ∨ x.state = .downloadMissingHeaders ∨ x.state = .downloadingCompiler ∨ x.state = .downloadingPCH

instance (x : Session) : Decidable x.Providing := inferInstanceAs (Decidable (_ ∨ _))

/-- What a session is about; the calls that concern it alone do not change it. -/
def Session.core (x : Session) : Session :=
  { x with state := .getTask, completed := false, cancelPending := false, selfdestruct := false, compilerData := false
           includeDirs := .unset, cwd := none }

/-- A call for the session `sid` that leaves what the sessions share alone. -/
structure Own (sid : SessionId) (s s' : Server) : Prop where
  others : ∀ w, w ≠ sid → s'.sessions w = s.sessions w
  core : (s'.sessions sid).core = (s.sessions sid).core
  state : (s'.sessions sid).state = (s.sessions sid).state ∨ ¬ (s'.sessions sid).Providing
  shared : s'.shared = s.shared
  execs : ∀ w ∈ s'.execs, w ∈ s.execs ∨ w = sid
  queue : ∀ w, w ≠ sid → (w ∈ s'.queue ↔ w ∈ s.queue)
  log : ∃ l, s'.log = s.log ++ l ∧ ∀ e ∈ l, e.session = sid ∧ e ≠ .invoked sid

namespace Own
variable {sid : SessionId} {s s' s'' : Server}

theorem refl (sid : SessionId) (s : Server) : Own sid s s where
  others _ _ := rfl
  core := rfl
  state := .inl rfl
  shared := rfl
  execs _ h := .inl h
  queue _ _ := Iff.rfl
  log := ⟨[], by simp, by simp⟩

theorem trans (h : Own sid s s') (h' : Own sid s' s'') : Own sid s s'' where
  others w hw := (h'.others w hw).trans (h.others w hw)
  core := h'.core.trans h.core
  state := by
    rcases h'.state with heq | hp
    · rcases h.state with heq' | hp'
      · exact .inl (heq.trans heq')
      · refine .inr fun hp => hp' ?_
        unfold Session.Providing at hp ⊢
        rwa [heq] at hp
    · exact .inr hp
  shared := h'.shared.trans h.shared
  execs w hw := by
    rcases h'.execs w hw with hw | hw
    · exact h.execs w hw
    · exact .inr hw
  queue w hw := (h'.queue w hw).trans (h.queue w hw)
  log := by
    obtain ⟨l, hl, hsid⟩ := h.log
    obtain ⟨l', hl', hsid'⟩ := h'.log
    refine ⟨l ++ l', by rw [hl', hl, List.append_assoc], fun e he => ?_⟩
    rcases List.mem_append.1 he with he | he
    · exact hsid e he
    · exact hsid' e he

end Own

namespace Server
variable (s : Server) (sid : SessionId)

@[simp] theorem modify_self (f : Session → Session) : (s.modify sid f).sessions sid = f (s.sessions sid) := by
  simp [modify]

theorem modify_other (f : Session → Session) {w : SessionId} (h : w ≠ sid) :
    (s.modify sid f).sessions w = s.sessions w := by
  simp [modify, h]

/-- What the change keeps of the session, it keeps of all. -/
theorem modify_keeps {α : Type} (g : Session → α) {f : Session → Session}
    (h : g (f (s.sessions sid)) = g (s.sessions sid)) (w : SessionId) :
    g ((s.modify sid f).sessions w) = g (s.sessions w) := by
  by_cases hw : w = sid
  · subst hw
    rw [modify_self, h]
  · rw [modify_other s sid f hw]

theorem modify_modify (f g : Session → Session) : (s.modify sid f).modify sid g = s.modify sid fun x => g (f x) := by
  simp [modify]

variable {s sid}

/-- A change of the session itself. -/
theorem modify_own {f : Session → Session} (hcore : (f (s.sessions sid)).core = (s.sessions sid).core)
    (hstate : (f (s.sessions sid)).state = (s.sessions sid).state ∨ ¬ (f (s.sessions sid)).Providing) :
    Own sid s (s.modify sid f) where
  others w hw := modify_other s sid f hw
  core := by rw [modify_self, hcore]
  state := by rwa [modify_self]
  shared := rfl
  execs _ h := .inl h
  queue _ _ := Iff.rfl
  log := ⟨[], by simp [modify], by simp⟩

theorem note_own {e : Effect} (h : e.session = sid) (hi : e ≠ .invoked sid) : Own sid s (s.note e) where
  others _ _ := rfl
  core := rfl
  state := .inl rfl
  shared := rfl
  execs _ h := .inl h
  queue _ _ := Iff.rfl
  log := ⟨[e], rfl, by simp [h, hi]⟩

theorem sent_own (msg : FromServer) : Own sid s (s.note (.sent sid msg)) := note_own rfl (by simp)

theorem state_own {state : State} (h : ¬ ({ s.sessions sid with state := state } : Session).Providing) :
    Own sid s (s.modify sid fun x => { x with state := state }) :=
  modify_own rfl (.inr h)

theorem queue_own {q : List SessionId} (h : ∀ w, w ≠ sid → (w ∈ q ↔ w ∈ s.queue)) : Own sid s { s with queue := q } :=
  { Own.refl sid s with queue := h }

theorem unqueue_own : Own sid s { s with queue := s.queue.erase sid } :=
  queue_own fun _ hw => List.mem_erase_of_ne hw

/-! ## The calls that concern one session -/

theorem andThen_own {c : Called} {next : Server → Called} (hc : Own sid s c.1)
    (hnext : c.2 = false → Own sid c.1 (next c.1).1) : Own sid s (c.andThen next).1 := by
  unfold Called.andThen
  split
  · exact hc
  · rename_i h
    exact hc.trans (hnext (by simpa using h))

theorem cancelSelfdestruct_own : Own sid s (s.cancelSelfdestruct sid).1 := by
  unfold cancelSelfdestruct
  split
  · split
    · exact (modify_own rfl (.inl rfl)).trans unqueue_own
    · exact Own.refl sid s
  · exact Own.refl sid s

theorem rescheduleSelfdestruct_own : Own sid s (s.rescheduleSelfdestruct sid).1 := by
  refine andThen_own cancelSelfdestruct_own fun _ => ?_
  exact (modify_own rfl (.inl rfl)).trans (queue_own fun w hw => by simp [hw, modify])

theorem finish_own : Own sid s (s.finish sid) := by
  have hm : Own sid s (s.modify sid fun x => { x with completed := true }) := modify_own rfl (.inl rfl)
  exact { hm with log := ⟨[.done sid], rfl, by simp [Effect.session]⟩ }

theorem sessionDone_own : Own sid s (s.sessionDone sid).1 := by
  unfold sessionDone
  split
  · exact Own.refl sid s
  · exact andThen_own cancelSelfdestruct_own fun _ => finish_own

theorem selfdestruct_own : Own sid s (s.selfdestruct sid) := by
  unfold selfdestruct
  dsimp only
  split
  · exact unqueue_own
  · exact (unqueue_own.trans (sent_own _)).trans finish_own

theorem cancelSession_own : Own sid s (s.cancelSession sid).1 := by
  unfold cancelSession
  split
  · exact Own.refl sid s
  · exact ((sent_own _).trans (state_own (by simp [Session.Providing]))).trans sessionDone_own

theorem tempdir_own : Own sid s (s.tempdir sid) := by
  unfold tempdir
  split
  · exact Own.refl sid s
  · exact { Own.refl sid s with log := ⟨[.tempdir sid], rfl, by simp [Effect.session]⟩ }

theorem tempMap_own : Own sid s (s.tempMap sid) := by
  unfold tempMap
  split
  · exact Own.refl sid s
  · exact { Own.refl sid s with log := ⟨[.tempMap sid], rfl, by simp [Effect.session]⟩ }

theorem prepareDir_own (ok : Bool) : Own sid s (s.prepareDir sid ok) :=
  (tempdir_own.trans tempMap_own).trans (modify_own rfl (.inl rfl))

theorem runCompiler_own : Own sid s (s.runCompiler sid).1 := by
  unfold runCompiler
  split
  · exact cancelSession_own
  · refine andThen_own cancelSelfdestruct_own fun _ => ?_
    split
    · exact Own.refl sid _
    · split
      · exact tempdir_own
      · have hdir : Own sid (s.cancelSelfdestruct sid).1 ((s.cancelSelfdestruct sid).1.prepareDir sid true) :=
          prepareDir_own true
        have hm := hdir.trans
          (modify_own (f := fun x => { x with cwd := ((s.cancelSelfdestruct sid).1.prepareDir sid true).tempdirs sid })
            rfl (.inl rfl))
        refine { hm with execs := fun w hw => ?_ }
        rcases List.mem_append.1 hw with hw | hw
        · exact hm.execs w hw
        · exact .inr (by simpa using hw)

theorem compileCompleted_own (outcome : Outcome) : Own sid s (s.compileCompleted sid outcome).1 := by
  unfold compileCompleted
  split
  · split
    · exact ((state_own (by simp [Session.Providing])).trans (sent_own _)).trans sessionDone_own
    · split
      · exact ((state_own (by simp [Session.Providing])).trans (sent_own _)).trans rescheduleSelfdestruct_own
      · exact (sent_own _).trans sessionDone_own
  · exact Own.refl sid s

end Server

/-! ## Calls that may have a session wait -/

/-- The PCH file the session needs is there. -/
def Server.HasPch (s : Server) (w : SessionId) : Prop :=
  ∀ pch, (s.sessions w).task.pchFile = some pch → (s.files pch).isSome

/-- The session has provided the compiler it was to provide. -/
def Server.CompilerDone (s : Server) (sid : SessionId) : Prop :=
  (s.sessions sid).compilerRequired = false ∨
    (s.sessions sid).task.compilerId ∈ s.compilers ∧ (s.sessions sid).task.compilerId ∉ s.partialCompilers

/-- The session has provided the PCH file it was to provide. -/
def Server.PchDone (s : Server) (sid : SessionId) : Prop :=
  (s.sessions sid).pchRequired = false ∨
    ∀ pch, (s.sessions sid).task.pchFile = some pch → s.partialFiles pch = none

/-- The part of the server that only steps of the repositories change. -/
def Server.common (s : Server) : Server :=
  { s.shared with pchWaiters := fun _ => [], compilerWaiters := fun _ => [] }

/-- Nobody waits twice for one file. -/
def Server.Once (s : Server) : Prop := (∀ pch, (s.pchWaiters pch).Nodup) ∧ ∀ id, (s.compilerWaiters id).Nodup

/-- Calls for sessions that satisfy `A`, all of them sessions that have what they were to provide. -/
structure Acts (A : SessionId → Prop) (s s' : Server) : Prop where
  others : ∀ w, ¬ A w → s'.sessions w = s.sessions w
  core : ∀ w, (s'.sessions w).core = (s.sessions w).core
  state : ∀ w, (s'.sessions w).state = (s.sessions w).state ∨ ¬ (s'.sessions w).Providing
  common : s'.common = s.common
  pchWaiters : ∀ pch, ∀ w ∈ s'.pchWaiters pch, w ∈ s.pchWaiters pch ∨
    A w ∧ (s'.sessions w).task.pchFile = some pch ∧ ¬ (s'.sessions w).Providing
  compilerWaiters : ∀ id, ∀ w ∈ s'.compilerWaiters id, w ∈ s.compilerWaiters id ∨
    A w ∧ s'.HasPch w ∧ ¬ (s'.sessions w).Providing
  execs : ∀ w ∈ s'.execs, w ∈ s.execs ∨ A w ∧ s'.HasPch w ∧ ¬ (s'.sessions w).Providing
  queue : ∀ w, ¬ A w → (w ∈ s'.queue ↔ w ∈ s.queue)
  once : s.Once → s'.Once
  log : ∃ l, s'.log = s.log ++ l ∧ ∀ e ∈ l, A e.session

namespace Acts
variable {A B : SessionId → Prop} {s s' s'' : Server}

theorem task (h : Acts A s s') (w : SessionId) : (s'.sessions w).task = (s.sessions w).task := by
  change (s'.sessions w).core.task = (s.sessions w).core.task
  rw [h.core]

theorem files (h : Acts A s s') : s'.files = s.files := by
  change s'.common.files = s.common.files
  rw [h.common]

theorem providing (h : Acts A s s') {w : SessionId} (hp : ¬ (s.sessions w).Providing) :
    ¬ (s'.sessions w).Providing := by
  rcases h.state w with hs | hs
  · unfold Session.Providing at hp ⊢
    rwa [hs]
  · exact hs

theorem hasPch (h : Acts A s s') {w : SessionId} (hw : s.HasPch w) : s'.HasPch w := by
  unfold Server.HasPch at hw ⊢
  rwa [h.task w, h.files]

theorem compilerDone (h : Acts A s s') {w : SessionId} (hw : s.CompilerDone w) : s'.CompilerDone w := by
  change (s'.sessions w).core.compilerRequired = false ∨ (s'.sessions w).core.task.compilerId ∈ s'.common.compilers ∧
    (s'.sessions w).core.task.compilerId ∉ s'.common.partialCompilers
  rw [h.core w, h.common]
  exact hw

theorem refl (A : SessionId → Prop) (s : Server) : Acts A s s where
  others _ _ := rfl
  core _ := rfl
  state _ := .inl rfl
  common := rfl
  pchWaiters _ _ h := .inl h
  compilerWaiters _ _ h := .inl h
  execs _ h := .inl h
  queue _ _ := Iff.rfl
  once := id
  log := ⟨[], by simp, by simp⟩

theorem mono (h : Acts A s s') (hAB : ∀ w, A w → B w) : Acts B s s' where
  others w hw := h.others w fun ha => hw (hAB w ha)
  core := h.core
  state := h.state
  common := h.common
  pchWaiters pch w hw := (h.pchWaiters pch w hw).imp_right fun ⟨ha, hr⟩ => ⟨hAB w ha, hr⟩
  compilerWaiters id w hw := (h.compilerWaiters id w hw).imp_right fun ⟨ha, hr⟩ => ⟨hAB w ha, hr⟩
  execs w hw := (h.execs w hw).imp_right fun ⟨ha, hr⟩ => ⟨hAB w ha, hr⟩
  queue w hw := h.queue w fun ha => hw (hAB w ha)
  once := h.once
  log := by
    obtain ⟨l, hl, hA⟩ := h.log
    exact ⟨l, hl, fun e he => hAB _ (hA e he)⟩

theorem trans (h : Acts A s s') (h' : Acts A s' s'') : Acts A s s'' where
  others w hw := (h'.others w hw).trans (h.others w hw)
  core w := (h'.core w).trans (h.core w)
  state w := by
    rcases h.state w with hs | hs
    · rcases h'.state w with hs' | hs'
      · exact .inl (hs'.trans hs)
      · exact .inr hs'
    · exact .inr (h'.providing hs)
  common := h'.common.trans h.common
  pchWaiters pch w hw := by
    rcases h'.pchWaiters pch w hw with hw | hw
    · rcases h.pchWaiters pch w hw with hw | ⟨ha, ht, hp⟩
      · exact .inl hw
      · exact .inr ⟨ha, (h'.task w).symm ▸ ht, h'.providing hp⟩
    · exact .inr hw
  compilerWaiters id w hw := by
    rcases h'.compilerWaiters id w hw with hw | hw
    · rcases h.compilerWaiters id w hw with hw | ⟨ha, hpch, hp⟩
      · exact .inl hw
      · exact .inr ⟨ha, h'.hasPch hpch, h'.providing hp⟩
    · exact .inr hw
  execs w hw := by
    rcases h'.execs w hw with hw | hw
    · rcases h.execs w hw with hw | ⟨ha, hpch, hp⟩
      · exact .inl hw
      · exact .inr ⟨ha, h'.hasPch hpch, h'.providing hp⟩
    · exact .inr hw
  queue w hw := (h'.queue w hw).trans (h.queue w hw)
  once ho := h'.once (h.once ho)
  log := by
    obtain ⟨l, hl, hsid⟩ := h.log
    obtain ⟨l', hl', hsid'⟩ := h'.log
    refine ⟨l ++ l', by rw [hl', hl, List.append_assoc], fun e he => ?_⟩
    rcases List.mem_append.1 he with he | he
    · exact hsid e he
    · exact hsid' e he

end Acts

theorem Own.acts {sid : SessionId} {s s' : Server} (h : Own sid s s')
    (hx : (s'.execs = s.execs) ∨ s.HasPch sid ∧ ¬ (s.sessions sid).Providing) : Acts (· = sid) s s' := by
  have hfiles : s'.files = s.files := by
    change s'.shared.files = s.shared.files
    rw [h.shared]
  have hcore : ∀ w, (s'.sessions w).core = (s.sessions w).core := by
    intro w
    by_cases hw : w = sid
    · subst hw
      exact h.core
    · rw [h.others w hw]
  have hp : ¬ (s.sessions sid).Providing → ¬ (s'.sessions sid).Providing := by
    intro hp
    rcases h.state with hs | hs
    · unfold Session.Providing at hp ⊢
      rwa [hs]
    · exact hs
  refine
    { others := h.others
      core := hcore
      state := fun w => ?_
      common := congrArg (fun t : Server => { t with pchWaiters := fun _ => [], compilerWaiters := fun _ => [] }) h.shared
      pchWaiters := fun pch w hw => .inl (congrArg Server.pchWaiters h.shared ▸ hw)
      compilerWaiters := fun id w hw => .inl (congrArg Server.compilerWaiters h.shared ▸ hw)
      execs := fun w hw => ?_
      queue := h.queue
      once := fun ho => ?_
      log := ?_ }
  · by_cases hw : w = sid
    · subst hw
      exact h.state
    · exact .inl (by rw [h.others w hw])
  · rcases hx with hx | ⟨hpch, hprov⟩
    · exact .inl (hx ▸ hw)
    · refine (h.execs w hw).imp_right ?_
      rintro rfl
      refine ⟨rfl, ?_, hp hprov⟩
      intro pch hk
      have hk' : (s.sessions w).core.task.pchFile = some pch := hcore w ▸ hk
      rw [hfiles]
      exact hpch pch hk'
  · change s'.shared.Once
    rw [h.shared]
    exact ho
  · obtain ⟨l, hl, hsid⟩ := h.log
    exact ⟨l, hl, fun e he => (hsid e he).1⟩

namespace Server
variable {s : Server} {sid : SessionId}

theorem nodup_update {α : Type} [DecidableEq α] {waiters : α → List SessionId} (h : ∀ a, (waiters a).Nodup)
    (hnew : ∀ a, sid ∉ waiters a) {a : α} (b : α) : (Function.update waiters a (waiters a ++ [sid]) b).Nodup := by
  by_cases hb : b = a
  · subst hb
    rw [Function.update_self]
    exact List.nodup_append.2 ⟨h b, by simp, fun v hv w hw heq => hnew b (by simp_all)⟩
  · rw [Function.update_of_ne hb]
    exact h b

theorem nodup_clear {α : Type} [DecidableEq α] {waiters : α → List SessionId} (h : ∀ a, (waiters a).Nodup) (a b : α) :
    (Function.update waiters a [] b).Nodup := by
  by_cases hb : b = a
  · subst hb
    simp
  · rw [Function.update_of_ne hb]
    exact h b

theorem checkCompilerFiles_acts (hpch : s.HasPch sid) (hp : ¬ (s.sessions sid).Providing)
    (hnew : ∀ id, sid ∉ s.compilerWaiters id) : Acts (· = sid) s (s.checkCompilerFiles sid).1 := by
  unfold checkCompilerFiles
  dsimp only
  split
  · exact runCompiler_own.acts (.inr ⟨hpch, hp⟩)
  · split
    · refine { Acts.refl _ s with compilerWaiters := fun id w hw => ?_, once := fun ho => ⟨ho.1, fun id => ?_⟩ }
      · by_cases hid : id = (s.sessions sid).task.compilerId
        · subst hid
          simp only [Function.update_self, List.mem_append, List.mem_singleton] at hw
          exact hw.imp_right fun h => ⟨h, by subst h; exact hpch, by subst h; exact hp⟩
        · simp only [Function.update_of_ne hid] at hw
          exact .inl hw
      · exact nodup_update ho.2 hnew id
    · exact Acts.refl _ s

theorem whenPchIsAvailable_acts (hp : ¬ (s.sessions sid).Providing) (hpchs : ∀ pch, sid ∉ s.pchWaiters pch)
    (hnew : ∀ id, sid ∉ s.compilerWaiters id) : Acts (· = sid) s (s.whenPchIsAvailable sid).1 := by
  unfold whenPchIsAvailable
  split
  · rename_i hnone
    refine checkCompilerFiles_acts (fun pch hk => ?_) hp hnew
    rw [hnone] at hk
    cases hk
  · rename_i pch hpch
    split
    · rename_i hfile
      refine checkCompilerFiles_acts (fun pch' hk => ?_) hp hnew
      rw [hpch] at hk
      cases hk
      exact hfile
    · refine { Acts.refl _ s with pchWaiters := fun k w hw => ?_, once := fun ho => ⟨fun k => ?_, ho.2⟩ }
      · by_cases hk : k = pch
        · subst hk
          simp only [Function.update_self, List.mem_append, List.mem_singleton] at hw
          exact hw.imp_right fun h => ⟨h, by subst h; exact hpch, by subst h; exact hp⟩
        · simp only [Function.update_of_ne hk] at hw
          exact .inl hw
      · exact nodup_update ho.1 hpchs k

/-- `Q` is what the handler of a session needs; the handlers of others leave it alone. -/
theorem invokeAll_acts {handler : Server → SessionId → Called} {Q : Server → SessionId → Prop}
    (hh : ∀ s w, s.HasPch w → ¬ (s.sessions w).Providing → Q s w → Acts (· = w) s (handler s w).1)
    (hnoted : ∀ s w, Q s w → Q (s.note (.invoked w)) w)
    (hQ : ∀ s s' v w, v ≠ w → Acts (· = v) s s' → Q s w → Q s' w) :
    ∀ (ws : List SessionId) (s : Server), ws.Nodup → (∀ w ∈ ws, s.HasPch w ∧ ¬ (s.sessions w).Providing ∧ Q s w) →
      Acts (· ∈ ws) s (invokeAll handler ws s).1
  | [], s, _, _ => Acts.refl _ s
  | w :: ws, s, hnodup, hws => by
    have hnote : Acts (· = w) s (s.note (.invoked w)) :=
      { Acts.refl _ s with log := ⟨[.invoked w], rfl, by simp [Effect.session]⟩ }
    obtain ⟨hpch, hp, hq⟩ := hws w (by simp)
    have hfirst : Acts (· = w) s (handler (s.note (.invoked w)) w).1 := hnote.trans (hh _ w hpch hp (hnoted s w hq))
    have hfirst' : Acts (· ∈ w :: ws) s (handler (s.note (.invoked w)) w).1 := hfirst.mono (by simp)
    simp only [invokeAll, Called.andThen]
    split
    · exact hfirst'
    · refine hfirst'.trans ((invokeAll_acts hh hnoted hQ ws _ (List.nodup_cons.1 hnodup).2 fun v hv => ?_).mono
        (by simp +contextual))
      obtain ⟨hpch', hp', hq'⟩ := hws v (by simp [hv])
      refine ⟨hfirst.hasPch hpch', hfirst.providing hp', hQ _ _ w v ?_ hfirst hq'⟩
      rintro rfl
      exact (List.nodup_cons.1 hnodup).1 hv

end Server

/-! ## Moves -/

/-- Only timers, `cancel_pending` and the headers of the session change. -/
structure Still (sid : SessionId) (s s' : Server) : Prop where
  own : Own sid s s'
  session : ∃ c d i, s'.sessions sid =
    { s.sessions sid with cancelPending := c, selfdestruct := d, includeDirs := i }
  execs : s'.execs = s.execs

namespace Still
variable {sid : SessionId} {s s' s'' : Server}

theorem trans (h : Still sid s s') (h' : Still sid s' s'') : Still sid s s'' := by
  obtain ⟨c, d, i, hx⟩ := h.session
  obtain ⟨c', d', i', hx'⟩ := h'.session
  exact ⟨h.own.trans h'.own, ⟨c', d', i', by rw [hx', hx]⟩, h'.execs.trans h.execs⟩

end Still

namespace Server
variable {s : Server} {sid : SessionId}

theorem cancelSelfdestruct_still : Still sid s (s.cancelSelfdestruct sid).1 := by
  refine ⟨cancelSelfdestruct_own, ?_, ?_⟩
  · unfold cancelSelfdestruct
    split
    · split
      · exact ⟨(s.sessions sid).cancelPending, false, (s.sessions sid).includeDirs, by simp [modify]⟩
      · exact ⟨_, _, _, rfl⟩
    · exact ⟨_, _, _, rfl⟩
  · unfold cancelSelfdestruct
    repeat' split
    all_goals rfl

theorem rescheduleSelfdestruct_still : Still sid s (s.rescheduleSelfdestruct sid).1 := by
  unfold rescheduleSelfdestruct Called.andThen
  split
  · exact cancelSelfdestruct_still
  · refine cancelSelfdestruct_still.trans ⟨(modify_own rfl (.inl rfl)).trans
      (queue_own fun w hw => by simp [hw, modify]), ?_, rfl⟩
    exact ⟨((s.cancelSelfdestruct sid).1.sessions sid).cancelPending, true,
      ((s.cancelSelfdestruct sid).1.sessions sid).includeDirs, by simp [modify]⟩

theorem cancelPending_still : Still sid s (s.modify sid fun x => { x with cancelPending := true }) :=
  ⟨modify_own rfl (.inl rfl),
    ⟨true, (s.sessions sid).selfdestruct, (s.sessions sid).includeDirs, modify_self s sid _⟩, rfl⟩

theorem tempdir_sessions : (s.tempdir sid).sessions = s.sessions ∧ (s.tempdir sid).execs = s.execs := by
  unfold tempdir
  split <;> exact ⟨rfl, rfl⟩

theorem tempMap_sessions : (s.tempMap sid).sessions = s.sessions ∧ (s.tempMap sid).execs = s.execs := by
  unfold tempMap
  split <;> exact ⟨rfl, rfl⟩

theorem prepareDir_still (ok : Bool) : Still sid s (s.prepareDir sid ok) := by
  refine ⟨prepareDir_own ok, ?_, tempMap_sessions.2.trans tempdir_sessions.2⟩
  refine ⟨(s.sessions sid).cancelPending, (s.sessions sid).selfdestruct, if ok then .ready else .failed, ?_⟩
  unfold prepareDir
  rw [modify_self, tempMap_sessions.1, tempdir_sessions.1]

end Server

/-- The session is the one that is to provide the compiler. -/
def Session.ProvidesCompiler (x : Session) (id : CompilerId) : Prop :=
  x.completed = false ∧ x.task.compilerId = id ∧ x.compilerRequired ∧
    (x.state = .downloadMissingHeaders ∨ x.state = .downloadingCompiler)

/-- The session is the one that is to provide the PCH file. -/
def Session.ProvidesPch (x : Session) (pch : PchFile) : Prop :=
  x.completed = false ∧ x.task.pchFile = some pch ∧ x.pchRequired ∧ x.Providing ∧ x.state ≠ .getTask

/-- `pch_completed` is called. -/
def Server.dropCompletion (s : Server) (sid : SessionId) : Server :=
  { s with completions := s.completions.erase sid }

def Server.complete (s : Server) (pch : PchFile) (file : LocalFile) : Server :=
  { s with files := Function.update s.files pch (some file)
           partialFiles := Function.update s.partialFiles pch none }

/-- What the steps of the server are made of, apart from new sessions, timers that fire and PCH files that are
written or become available. -/
inductive Move (s : Server) : Server → Prop where
  | still {sid s'} (hsid : sid < s.counter) (h : Still sid s s') : Move s s'
  /-- Sessions that have nothing left to provide. -/
  | acts {A s'} (h : Acts A s s') (hA : ∀ w, A w → ¬ (s.sessions w).Providing) : Move s s'
  | compilerDirs (dirs : List CompilerId) : Move s { s with compilerDirs := dirs }
  | noCompilerData {sid} (h : (s.sessions sid).state = .downloadingCompiler) :
    Move s (s.modify sid fun x => { x with compilerData := false })
  | downloadCompiler {sid} (h : (s.sessions sid).state = .downloadMissingHeaders) :
    Move s (s.modify sid fun x => { x with state := .downloadingCompiler, compilerData := true })
  | compilerReady {sid id} (h : (s.sessions sid).state = .downloadingCompiler)
    (hid : (s.sessions sid).task.compilerId = id) :
    Move s { s with partialCompilers := s.partialCompilers.filter (· ≠ id), compilers := id :: s.compilers }
  | clearCompilerWaiters (id : CompilerId) :
    Move s { s with compilerWaiters := Function.update s.compilerWaiters id [] }
  | downloadPch {sid}
    (h : (s.sessions sid).state = .downloadMissingHeaders ∨ (s.sessions sid).state = .downloadingCompiler)
    (hc : s.CompilerDone sid) (hr : (s.sessions sid).pchRequired) :
    Move s (s.modify sid fun x => { x with state := .downloadingPCH, pchDesc := [], pchEnded := false })
  | pchChunk {sid} (data : Bytes) (h : (s.sessions sid).state = .downloadingPCH) (hw : sid ∉ s.writes)
    (hdata : (s.sessions sid).pchEnded → data = []) :
    Move s (s.modify sid fun x => { x with pchDesc := x.pchDesc ++ data })
  | write {sid} (h : (s.sessions sid).state = .downloadingPCH) (hw : sid ∉ s.writes) :
    Move s { s.modify sid fun x => { x with pchEnded := true } with
      writes := sid :: s.writes
      downloaded := Server.noteDownloaded s.downloaded (s.sessions sid).pchDesc (s.sessions sid).task.pchFile }
  | clearPchWaiters (pch : PchFile) : Move s { s with pchWaiters := Function.update s.pchWaiters pch [] }
  | dropCompletion (sid : SessionId) : Move s (s.dropCompletion sid)
  | start {sid} (h : (s.sessions sid).state ≠ .getTask) (hw : sid ∉ s.writes)
    (hcall : sid ∈ s.completions → s.HasPch sid) (hc : s.CompilerDone sid) (hp : s.PchDone sid) :
    Move s (s.enterRunningCompiler sid)
  | launch {sid} (h : sid ∈ s.execs) :
    Move s { s with execs := s.execs.erase sid, running := sid :: s.running, log := s.log ++ [.launched sid] }
  | dropExec (sid : SessionId) : Move s { s with execs := s.execs.erase sid }
  | dropRunning (sid : SessionId) : Move s { s with running := s.running.erase sid }
  | upload {sid} (h : (s.sessions sid).state = .waitForConfirmation) :
    Move s { s.modify sid fun x => { x with state := .uploadingFile } with uploads := sid :: s.uploads }
  | dropUpload (sid : SessionId) (l : List Effect) :
    Move s { s with uploads := s.uploads.erase sid, log := s.log ++ l }

namespace Move
variable {s s' : Server} {sid : SessionId}

theorem modify_task {f : Session → Session} (h : ∀ x, (f x).task = x.task) (w : SessionId) :
    ((s.modify sid f).sessions w).task = (s.sessions w).task :=
  Server.modify_keeps s sid (·.task) (h _) w

/-- No move changes a task, or has `pch_completed` called. -/
theorem keeps (h : Move s s') :
    s'.completions ⊆ s.completions ∧ ∀ w, (s'.sessions w).task = (s.sessions w).task := by
  cases h with
  | still _ hs =>
    have hacts := hs.own.acts (.inl hs.execs)
    refine ⟨?_, hacts.task⟩
    change s'.common.completions ⊆ s.common.completions
    rw [hacts.common]
    exact List.Subset.refl _
  | acts ha _ =>
    refine ⟨?_, ha.task⟩
    change s'.common.completions ⊆ s.common.completions
    rw [ha.common]
    exact List.Subset.refl _
  | noCompilerData _ | downloadCompiler _ | downloadPch _ _ _ | pchChunk _ _ _ _ =>
    exact ⟨List.Subset.refl _, modify_task fun _ => rfl⟩
  | write _ _ => exact ⟨List.Subset.refl _, modify_task (f := fun x => { x with pchEnded := true }) fun _ => rfl⟩
  | upload _ => exact ⟨List.Subset.refl _, modify_task (f := fun x => { x with state := .uploadingFile }) fun _ => rfl⟩
  | start _ _ _ _ _ => exact ⟨List.Subset.refl _, modify_task (s := s.note _) fun _ => rfl⟩
  | dropCompletion sid => exact ⟨List.erase_subset, fun _ => rfl⟩
  | compilerDirs _ | compilerReady _ _ | clearCompilerWaiters _ | clearPchWaiters _ | launch _ | dropExec _
  | dropRunning _ | dropUpload _ _ => exact ⟨List.Subset.refl _, fun _ => rfl⟩

end Move

/-! ## Where a session can be met -/

structure Stages (s : Server) : Prop where
  fresh : ∀ w, s.counter ≤ w → s.sessions w = {}
  queue : ∀ w ∈ s.queue, w < s.counter
  pchWaiters : ∀ pch, ∀ w ∈ s.pchWaiters pch, ¬ (s.sessions w).Providing ∧ (s.sessions w).task.pchFile = some pch
  compilerWaiters : ∀ id, ∀ w ∈ s.compilerWaiters id, ¬ (s.sessions w).Providing ∧ s.HasPch w
  execs : ∀ w ∈ s.execs, ¬ (s.sessions w).Providing ∧ s.HasPch w
  running : ∀ w ∈ s.running, ¬ (s.sessions w).Providing ∧ s.HasPch w
  uploads : ∀ w ∈ s.uploads, ¬ (s.sessions w).Providing
  writes : ∀ w ∈ s.writes, (s.sessions w).state = .downloadingPCH ∧ (s.sessions w).pchEnded
  opened : ∀ w ∈ s.opened, w ∈ s.writes
  completions : ∀ w ∈ s.completions,
    (s.sessions w).state = .downloadingPCH ∨ ¬ (s.sessions w).Providing ∧ s.HasPch w
  nodup : s.writes.Nodup ∧ s.opened.Nodup
  once : s.Once
  alone : ∀ pch, s.files pch ≠ none → s.partialFiles pch = none
  named : ∀ w, (s.sessions w).task.pchFile ≠ none → (s.sessions w).pchFile ≠ none
  compilerDone : ∀ w, (s.sessions w).state = .downloadingPCH → s.CompilerDone w

namespace Stages
variable {s s' : Server} {sid : SessionId}

theorem init (dirs : List CompilerId) : Stages { compilerDirs := dirs } where
  fresh _ _ := rfl
  queue _ h := by cases h
  pchWaiters _ _ h := by cases h
  compilerWaiters _ _ h := by cases h
  execs _ h := by cases h
  running _ h := by cases h
  uploads _ h := by cases h
  writes _ h := by cases h
  opened _ h := by cases h
  completions _ h := by cases h
  nodup := ⟨List.nodup_nil, List.nodup_nil⟩
  once := ⟨fun _ => List.nodup_nil, fun _ => List.nodup_nil⟩
  alone _ h := absurd rfl h
  named _ h := absurd rfl h
  compilerDone _ h := by cases h

theorem fresh_providing (h : Stages s) {w : SessionId} (hw : s.counter ≤ w) : (s.sessions w).Providing := by
  rw [h.fresh w hw]
  exact .inl rfl

/-- Calls for sessions that have nothing left to provide, or that stay as far as they are. -/
theorem acts {A : SessionId → Prop} (h : Stages s) (ha : Acts A s s')
    (hA : ∀ w, A w → ¬ (s.sessions w).Providing ∨ w < s.counter ∧ (s'.sessions w).state = (s.sessions w).state) :
    Stages s' := by
  -- The calls leave the common part alone, so that the lists of the server are the same after them.
  have hcommon := ha.common
  have hcounter : s'.counter = s.counter := by
    change s'.common.counter = s.common.counter
    rw [hcommon]
  have hrunning : s'.running = s.running := by
    change s'.common.running = s.common.running
    rw [hcommon]
  have huploads : s'.uploads = s.uploads := by
    change s'.common.uploads = s.common.uploads
    rw [hcommon]
  have hwrites : s'.writes = s.writes := by
    change s'.common.writes = s.common.writes
    rw [hcommon]
  have hopened : s'.opened = s.opened := by
    change s'.common.opened = s.common.opened
    rw [hcommon]
  have hcompletions : s'.completions = s.completions := by
    change s'.common.completions = s.common.completions
    rw [hcommon]
  have hfiles : s'.files = s.files := ha.files
  have hincomplete : s'.partialFiles = s.partialFiles := by
    change s'.common.partialFiles = s.common.partialFiles
    rw [hcommon]
  refine
    { fresh := fun w hw => ?_
      queue := fun w hw => ?_
      pchWaiters := fun pch w hw => ?_
      compilerWaiters := fun id w hw => ?_
      execs := fun w hw => ?_
      running := fun w hw => ?_
      uploads := fun w hw => ?_
      writes := fun w hw => ?_
      opened := by rw [hopened, hwrites]; exact h.opened
      completions := fun w hw => ?_
      nodup := by rw [hopened, hwrites]; exact h.nodup
      once := ha.once h.once
      alone := by rw [hfiles, hincomplete]; exact h.alone
      named := fun w => ?_
      compilerDone := fun w hw => ?_ }
  -- A session that is not made yet counts as providing, and so is none of those that are called.
  · rw [hcounter] at hw
    rw [ha.others w fun hAw => ?_, h.fresh w hw]
    rcases hA w hAw with hp | ⟨hlt, -⟩
    · exact hp (h.fresh_providing hw)
    · exact absurd hw (Nat.not_le_of_lt hlt)
  · rw [hcounter]
    by_cases hAw : A w
    · rcases hA w hAw with hp | ⟨hlt, -⟩
      · exact Nat.lt_of_not_le fun hle => hp (h.fresh_providing hle)
      · exact hlt
    · exact h.queue w ((ha.queue w hAw).1 hw)
  · rcases ha.pchWaiters pch w hw with hw | ⟨-, ht, hp⟩
    · obtain ⟨hp, ht⟩ := h.pchWaiters pch w hw
      exact ⟨ha.providing hp, (ha.task w).symm ▸ ht⟩
    · exact ⟨hp, ht⟩
  · rcases ha.compilerWaiters id w hw with hw | ⟨-, hpch, hp⟩
    · obtain ⟨hp, hpch⟩ := h.compilerWaiters id w hw
      exact ⟨ha.providing hp, ha.hasPch hpch⟩
    · exact ⟨hp, hpch⟩
  · rcases ha.execs w hw with hw | ⟨-, hpch, hp⟩
    · obtain ⟨hp, hpch⟩ := h.execs w hw
      exact ⟨ha.providing hp, ha.hasPch hpch⟩
    · exact ⟨hp, hpch⟩
  · obtain ⟨hp, hpch⟩ := h.running w (hrunning ▸ hw)
    exact ⟨ha.providing hp, ha.hasPch hpch⟩
  · exact ha.providing (h.uploads w (huploads ▸ hw))
  -- A session with a write under way is in `StateDownloadingPCH`, and a call leaves it there.
  · have hstate := h.writes w (hwrites ▸ hw)
    have hp : (s.sessions w).Providing := .inr (.inr (.inr hstate.1))
    by_cases hAw : A w
    · rcases hA w hAw with hnp | ⟨-, hsame⟩
      · exact absurd hp hnp
      · refine ⟨hsame.trans hstate.1, ?_⟩
        change (s'.sessions w).core.pchEnded = true
        rw [ha.core]
        exact hstate.2
    · rw [ha.others w hAw]
      exact hstate
  · rcases h.completions w (hcompletions ▸ hw) with hstate | ⟨hp, hpch⟩
    · refine .inl ?_
      by_cases hAw : A w
      · rcases hA w hAw with hnp | ⟨-, hsame⟩
        · exact absurd (.inr (.inr (.inr hstate))) hnp
        · exact hsame.trans hstate
      · rw [ha.others w hAw]
        exact hstate
    · exact .inr ⟨ha.providing hp, ha.hasPch hpch⟩
  · change (s'.sessions w).core.task.pchFile ≠ none → (s'.sessions w).core.pchFile ≠ none
    rw [ha.core]
    exact h.named w
  · have hstate : (s.sessions w).state = .downloadingPCH := by
      rcases ha.state w with hs | hs
      · exact hs.symm.trans hw
      · exact absurd (.inr (.inr (.inr hw))) hs
    exact ha.compilerDone (h.compilerDone w hstate)

/-- A session's own change that keeps its task. Where it can be met it stays as it was, and it provides what it
provided before. -/
theorem modify (h : Stages s) (f : Session → Session) (hnew : sid < s.counter)
    (htask : (f (s.sessions sid)).task = (s.sessions sid).task)
    (hfile : (f (s.sessions sid)).pchFile = (s.sessions sid).pchFile)
    (hp : (f (s.sessions sid)).Providing → (s.sessions sid).Providing)
    (hw : sid ∈ s.writes → (f (s.sessions sid)).state = .downloadingPCH ∧ (f (s.sessions sid)).pchEnded)
    (hcall : sid ∈ s.completions → (s.sessions sid).state = .downloadingPCH →
      (f (s.sessions sid)).state = .downloadingPCH ∨ ¬ (f (s.sessions sid)).Providing ∧ s.HasPch sid)
    (hc : (f (s.sessions sid)).state = .downloadingPCH → (s.modify sid f).CompilerDone sid) :
    Stages (s.modify sid f) := by
  have hprov : ∀ w, ¬ (s.sessions w).Providing → ¬ ((s.modify sid f).sessions w).Providing := by
    intro w hnp
    by_cases heq : w = sid
    · subst heq
      rw [Server.modify_self]
      exact fun h => hnp (hp h)
    · rwa [Server.modify_other s sid f heq]
  have hsame : ∀ w, ((s.modify sid f).sessions w).task = (s.sessions w).task := by
    intro w
    by_cases heq : w = sid
    · subst heq
      rw [Server.modify_self, htask]
    · rw [Server.modify_other s sid f heq]
  have hpch : ∀ w, s.HasPch w → (s.modify sid f).HasPch w := by
    intro w hw
    unfold Server.HasPch at hw ⊢
    rwa [hsame]
  refine
    { fresh := fun w hw => ?_
      queue := h.queue
      pchWaiters := fun pch w hw => ?_
      compilerWaiters := fun id w hw => ?_
      execs := fun w hw => ?_
      running := fun w hw => ?_
      uploads := fun w hw => hprov w (h.uploads w hw)
      writes := fun w hw' => ?_
      opened := h.opened
      completions := fun w hw' => ?_
      nodup := h.nodup
      once := h.once
      alone := h.alone
      named := fun w hw' => ?_
      compilerDone := fun w hw' => ?_ }
  · rw [Server.modify_other s sid f (Nat.ne_of_gt (Nat.lt_of_lt_of_le hnew hw)), h.fresh w hw]
  · exact ⟨hprov w (h.pchWaiters pch w hw).1, (hsame w).symm ▸ (h.pchWaiters pch w hw).2⟩
  · exact (h.compilerWaiters id w hw).imp (hprov w) (hpch w)
  · exact (h.execs w hw).imp (hprov w) (hpch w)
  · exact (h.running w hw).imp (hprov w) (hpch w)
  · by_cases heq : w = sid
    · subst heq
      rw [Server.modify_self]
      exact hw hw'
    · rw [Server.modify_other s sid f heq]
      exact h.writes w hw'
  · rcases h.completions w hw' with hstate | ⟨hnp, hfile⟩
    · by_cases heq : w = sid
      · subst heq
        rw [Server.modify_self]
        exact (hcall hw' hstate).imp_right (And.imp_right (hpch w))
      · rw [Server.modify_other s sid f heq]
        exact .inl hstate
    · exact .inr ⟨hprov w hnp, hpch w hfile⟩
  · rw [hsame] at hw'
    by_cases heq : w = sid
    · subst heq
      rw [Server.modify_self, hfile]
      exact h.named w hw'
    · rw [Server.modify_other s sid f heq]
      exact h.named w hw'
  · by_cases heq : w = sid
    · subst heq
      rw [Server.modify_self] at hw'
      exact hc hw'
    · rw [Server.modify_other s sid f heq] at hw'
      have hdone := h.compilerDone w hw'
      unfold Server.CompilerDone at hdone ⊢
      rwa [Server.modify_other s sid f heq]

/-- A session that is met somewhere, or does something, exists. -/
theorem lt_counter (h : Stages s) (hs : (s.sessions sid).state ≠ .getTask) : sid < s.counter := by
  by_contra hn
  rw [h.fresh sid (Nat.le_of_not_lt hn)] at hs
  exact hs rfl

theorem still (h : Stages s) (hsid : sid < s.counter) (hs : Still sid s s') : Stages s' := by
  refine h.acts (hs.own.acts (.inl hs.execs)) ?_
  rintro w rfl
  obtain ⟨c, d, i, hx⟩ := hs.session
  exact .inr ⟨hsid, by rw [hx]⟩

theorem move (h : Stages s) (hm : Move s s') : Stages s' := by
  cases hm with
  | still hsid hs => exact h.still hsid hs
  | acts ha hA => exact h.acts ha fun w hw => .inl (hA w hw)
  | compilerDirs dirs => exact { h with }
  | noCompilerData hd =>
    refine h.modify _ (h.lt_counter (by simp [hd])) rfl rfl id (fun hw => h.writes _ hw) (fun _ => .inl) fun hs => ?_
    exact absurd (hd.symm.trans hs) (by simp)
  | downloadCompiler hd =>
    refine h.modify _ (h.lt_counter (by simp [hd])) rfl rfl (fun _ => .inr (.inl hd)) (fun hw => ?_)
      (fun _ hs => by simp [hd] at hs) fun hs => by cases hs
    have := (h.writes _ hw).1
    simp [hd] at this
  | compilerReady _ _ =>
    refine { h with compilerDone := fun w hw => ?_ }
    refine (h.compilerDone w hw).imp_right fun ⟨hc, hp⟩ => ⟨List.mem_cons_of_mem _ hc, fun hmem => ?_⟩
    exact hp (List.mem_of_mem_filter hmem)
  | clearCompilerWaiters id =>
    refine { h with compilerWaiters := fun id' w hw => ?_, once := ⟨h.once.1, Server.nodup_clear h.once.2 id⟩ }
    by_cases hid : id' = id
    · subst hid
      simp at hw
    · simp only [Function.update_of_ne hid] at hw
      exact h.compilerWaiters id' w hw
  | @downloadPch sid hd hc _ =>
    -- It comes from the headers or from the compiler, and provides in either state.
    have hp : (s.sessions sid).Providing := hd.elim (fun h => .inr (.inl h)) fun h => .inr (.inr (.inl h))
    refine h.modify _ (h.lt_counter ?_) rfl rfl (fun _ => hp) (fun hw => ?_) (fun _ _ => .inl rfl) fun _ => ?_
    · rcases hd with hd | hd <;> simp [hd]
    · have := (h.writes sid hw).1
      rcases hd with hd | hd <;> simp [hd] at this
    · unfold Server.CompilerDone at hc ⊢
      rwa [Server.modify_self]
  | @pchChunk sid data hd hw _ =>
    refine h.modify _ (h.lt_counter (by simp [hd])) rfl rfl id (fun hmem => absurd hmem hw) (fun _ => .inl) fun _ => ?_
    have hc := h.compilerDone sid hd
    unfold Server.CompilerDone at hc ⊢
    rwa [Server.modify_self]
  -- The end of the file is noted first, then the write begins.
  | @write sid hd hw =>
    have hm : Stages (s.modify sid fun x => { x with pchEnded := true }) := by
      refine h.modify _ (h.lt_counter (by simp [hd])) rfl rfl id (fun hmem => absurd hmem hw)
        (fun _ => .inl) fun _ => ?_
      have hc := h.compilerDone sid hd
      unfold Server.CompilerDone at hc ⊢
      rwa [Server.modify_self]
    refine { hm with
      writes := fun w hmem => ?_
      opened := fun w hmem => List.mem_cons_of_mem sid (h.opened w hmem)
      nodup := ⟨List.nodup_cons.2 ⟨hw, h.nodup.1⟩, h.nodup.2⟩ }
    rcases List.mem_cons.1 hmem with rfl | hmem
    · change ((s.modify w fun x => { x with pchEnded := true }).sessions w).state = .downloadingPCH ∧
        ((s.modify w fun x => { x with pchEnded := true }).sessions w).pchEnded
      rw [Server.modify_self]
      exact ⟨hd, rfl⟩
    · exact hm.writes w hmem
  | clearPchWaiters pch =>
    refine { h with pchWaiters := fun k w hw => ?_, once := ⟨Server.nodup_clear h.once.1 pch, h.once.2⟩ }
    by_cases hk : k = pch
    · subst hk
      simp at hw
    · simp only [Function.update_of_ne hk] at hw
      exact h.pchWaiters k w hw
  | dropCompletion sid =>
    exact { h with completions := fun w hw => h.completions w (List.mem_of_mem_erase hw) }
  | @start sid hd hw hcall _ _ =>
    have hnote : Stages (s.note (.compiles sid)) := { h with }
    -- A session whose compiler runs has its downloads behind it.
    have hnot : ¬ ({ s.sessions sid with state := .runningCompiler } : Session).Providing := by
      simp [Session.Providing]
    refine hnote.modify _ (h.lt_counter hd) rfl rfl (fun hp => absurd hp hnot) (fun hmem => absurd hmem hw)
      (fun hmem _ => .inr ⟨hnot, hcall hmem⟩) fun hs => by cases hs
  | launch hx =>
    refine { h with
      execs := fun w hw => h.execs w (List.mem_of_mem_erase hw)
      running := fun w hw => ?_ }
    rcases List.mem_cons.1 hw with rfl | hw
    · exact h.execs w hx
    · exact h.running w hw
  | dropExec sid => exact { h with execs := fun w hw => h.execs w (List.mem_of_mem_erase hw) }
  | dropRunning sid => exact { h with running := fun w hw => h.running w (List.mem_of_mem_erase hw) }
  | @upload sid hd =>
    have hw : sid ∉ s.writes := by
      intro hw
      have := (h.writes sid hw).1
      simp [hd] at this
    have hm : Stages (s.modify sid fun x => { x with state := .uploadingFile }) := by
      refine h.modify _ (h.lt_counter (by simp [hd])) rfl rfl (fun hp => ?_) (fun hmem => absurd hmem hw)
        (fun _ hs => by simp [hd] at hs) fun hs => by cases hs
      simp [Session.Providing] at hp
    refine { hm with uploads := fun w hmem => ?_ }
    rcases List.mem_cons.1 hmem with rfl | hmem
    · simp [Session.Providing]
    · exact hm.uploads w hmem
  | dropUpload sid l => exact { h with uploads := fun w hw => h.uploads w (List.mem_of_mem_erase hw) }

theorem pchOpened {names : Names} (h : Stages s) (hw : sid ∈ s.writes) (hnot : sid ∉ s.opened) :
    Stages (s.pchOpened sid names) := by
  unfold Server.pchOpened
  split
  · exact h
  · refine { h with
      opened := fun w hmem => ?_
      nodup := ⟨h.nodup.1, List.nodup_cons.2 ⟨hnot, h.nodup.2⟩⟩ }
    rcases List.mem_cons.1 hmem with rfl | hmem
    · exact hw
    · exact h.opened w hmem

theorem pchWritten {names : Names} (h : Stages s) (hw : sid ∈ s.writes) (ok : Bool) :
    Stages (s.pchWritten sid names ok) := by
  refine { h with
    writes := fun w hmem => h.writes w (List.mem_of_mem_erase hmem)
    opened := fun w hmem => ?_
    completions := fun w hmem => ?_
    nodup := ⟨h.nodup.1.erase sid, h.nodup.2.erase sid⟩ }
  · obtain ⟨hne, hmem⟩ := (List.Nodup.mem_erase_iff h.nodup.2).1 hmem
    exact (List.mem_erase_of_ne hne).2 (h.opened w hmem)
  · rcases List.mem_cons.1 hmem with rfl | hmem
    · exact .inl (h.writes w hw).1
    · exact h.completions w hmem

theorem complete (h : Stages s) (pch : PchFile) (file : LocalFile) : Stages (s.complete pch file) := by
  have hpch : ∀ w, s.HasPch w → ∀ k, (s.sessions w).task.pchFile = some k →
      (Function.update s.files pch (some file) k).isSome := by
    intro w hw k hk
    by_cases heq : k = pch
    · subst heq
      simp
    · rw [Function.update_of_ne heq]
      exact hw k hk
  have halone : ∀ k, (s.complete pch file).files k ≠ none → (s.complete pch file).partialFiles k = none := by
    intro k hne
    by_cases heq : k = pch
    · subst heq
      exact Function.update_self ..
    · simp only [Server.complete, Function.update_of_ne heq] at hne ⊢
      exact h.alone k hne
  exact { h with
    compilerWaiters := fun id w hw => (h.compilerWaiters id w hw).imp_right (hpch w)
    execs := fun w hw => (h.execs w hw).imp_right (hpch w)
    running := fun w hw => (h.running w hw).imp_right (hpch w)
    completions := fun w hw => (h.completions w hw).imp_right (And.imp_right (hpch w))
    alone := halone }

end Stages

/-! ## Steps are made of moves -/

abbrev Moves : Server → Server → Prop := Relation.ReflTransGen Move

theorem Moves.keeps {s s' : Server} (h : Moves s s') :
    s'.completions ⊆ s.completions ∧ ∀ w, (s'.sessions w).task = (s.sessions w).task := by
  induction h with
  | refl => exact ⟨List.Subset.refl _, fun _ => rfl⟩
  | tail _ hlast ih => exact ⟨List.Subset.trans hlast.keeps.1 ih.1, fun w => (hlast.keeps.2 w).trans (ih.2 w)⟩

theorem Stages.moves {s s' : Server} (h : Stages s) (hm : Moves s s') : Stages s' := by
  induction hm with
  | refl => exact h
  | tail _ hlast ih => exact ih.move hlast

namespace Server
variable {s : Server} {sid : SessionId}

theorem cancelSelfdestruct_execs : (s.cancelSelfdestruct sid).1.execs = s.execs := cancelSelfdestruct_still.execs

theorem sessionDone_execs : (s.sessionDone sid).1.execs = s.execs := by
  unfold sessionDone Called.andThen
  split
  · rfl
  · split <;> exact cancelSelfdestruct_execs

theorem cancelSession_execs : (s.cancelSession sid).1.execs = s.execs := by
  unfold cancelSession
  split
  · rfl
  · exact sessionDone_execs

theorem compileCompleted_execs {outcome : Outcome} : (s.compileCompleted sid outcome).1.execs = s.execs := by
  unfold compileCompleted
  split
  · split
    · exact sessionDone_execs
    · split
      · exact rescheduleSelfdestruct_still.execs
      · exact sessionDone_execs
  · rfl

theorem andThen_moves {c : Called} {next : Server → Called} (hc : Moves s c.1)
    (hnext : c.2 = false → Moves c.1 (next c.1).1) : Moves s (c.andThen next).1 := by
  unfold Called.andThen
  split
  · exact hc
  · rename_i h
    exact hc.trans (hnext (by simpa using h))

theorem own_move {s' : Server} (h : Own sid s s') (hx : s'.execs = s.execs)
    (hp : ¬ (s.sessions sid).Providing) : Move s s' :=
  .acts (h.acts (.inl hx)) (by rintro w rfl; exact hp)

/-- A session that provides files waits for none. -/
theorem compile_moves (hs : Stages s) (hprov : (s.sessions sid).Providing) (hd : (s.sessions sid).state ≠ .getTask)
    (hw : sid ∉ s.writes) (hcall : sid ∈ s.completions → s.HasPch sid) (hc : s.CompilerDone sid) (hp : s.PchDone sid) :
    Moves s (s.compile sid).1 := by
  have hnot : ¬ ((s.enterRunningCompiler sid).sessions sid).Providing := by
    simp [enterRunningCompiler, Session.Providing]
  have hacts : Acts (· = sid) (s.enterRunningCompiler sid) (s.compile sid).1 :=
    whenPchIsAvailable_acts hnot (fun pch hmem => (hs.pchWaiters pch sid hmem).1 hprov) fun id hmem =>
      (hs.compilerWaiters id sid hmem).1 hprov
  exact (Relation.ReflTransGen.single (.start hd hw hcall hc hp)).tail (.acts hacts (by rintro w rfl; exact hnot))

theorem afterCompiler_moves (hs : Stages s)
    (hd : (s.sessions sid).state = .downloadMissingHeaders ∨ (s.sessions sid).state = .downloadingCompiler)
    (hc : s.CompilerDone sid) : Moves s (s.afterCompiler sid).1 := by
  unfold afterCompiler
  split
  · rename_i hr
    exact .single (.downloadPch hd hc hr)
  · rename_i hr
    have hprov : (s.sessions sid).Providing := hd.elim (fun h => .inr (.inl h)) fun h => .inr (.inr (.inl h))
    refine compile_moves hs hprov ?_ (fun hw => ?_) (fun hmem => ?_) hc (.inl (by simpa using hr))
    · rcases hd with hd | hd <;> simp [hd]
    · have := (hs.writes sid hw).1
      rcases hd with hd | hd <;> simp [hd] at this
    · rcases hs.completions sid hmem with hstate | ⟨hnp, -⟩
      · rcases hd with hd | hd <;> simp [hd] at hstate
      · exact absurd hprov hnp

/-- What is left of `setCompilerReady` once the compiler is there. -/
theorem setCompilerReady_moves {id : CompilerId} (hs : Stages s)
    (hd : (s.sessions sid).state = .downloadingCompiler) (hid : (s.sessions sid).task.compilerId = id) :
    Moves s (s.setCompilerReady id).1 ∧ (s.setCompilerReady id).1.sessions sid = s.sessions sid ∧
      ((s.setCompilerReady id).2 = false →
        id ∈ (s.setCompilerReady id).1.compilers ∧ id ∉ (s.setCompilerReady id).1.partialCompilers) := by
  unfold setCompilerReady
  split
  · have hready : Move s
        { s with partialCompilers := s.partialCompilers.filter (· ≠ id), compilers := id :: s.compilers } :=
      .compilerReady hd hid
    have hs' := hs.move hready
    generalize hs₁ : ({ s with
      partialCompilers := s.partialCompilers.filter (· ≠ id), compilers := id :: s.compilers } : Server) = s₁ at hready hs'
    have hwaiters : s.compilerWaiters id = s₁.compilerWaiters id := by subst hs₁; rfl
    have hsession : s₁.sessions = s.sessions := by subst hs₁; rfl
    have hincomplete : id ∈ s₁.compilers ∧ id ∉ s₁.partialCompilers := by
      subst hs₁
      simp
    have hacts : Acts (· ∈ s₁.compilerWaiters id) s₁ (invokeAll runCompiler (s₁.compilerWaiters id) s₁).1 :=
      invokeAll_acts (Q := fun _ _ => True) (fun t w hpch hp _ => runCompiler_own.acts (.inr ⟨hpch, hp⟩))
        (fun _ _ _ => trivial) (fun _ _ _ _ _ _ _ => trivial) _ _ (hs'.once.2 id)
        fun w hw => ⟨(hs'.compilerWaiters id w hw).2, (hs'.compilerWaiters id w hw).1, trivial⟩
    have hmove : Moves s (invokeAll runCompiler (s₁.compilerWaiters id) s₁).1 :=
      (Relation.ReflTransGen.single hready).tail (.acts hacts fun w hw => (hs'.compilerWaiters id w hw).1)
    have hsame : (invokeAll runCompiler (s₁.compilerWaiters id) s₁).1.sessions sid = s.sessions sid := by
      rw [hacts.others sid fun hw => (hs'.compilerWaiters id sid hw).1 ?_, hsession]
      rw [hsession]
      exact .inr (.inr (.inl hd))
    have hincomplete' : id ∈ (invokeAll runCompiler (s₁.compilerWaiters id) s₁).1.compilers ∧
        id ∉ (invokeAll runCompiler (s₁.compilerWaiters id) s₁).1.partialCompilers := by
      change id ∈ (invokeAll runCompiler (s₁.compilerWaiters id) s₁).1.common.compilers ∧
        id ∉ (invokeAll runCompiler (s₁.compilerWaiters id) s₁).1.common.partialCompilers
      rw [hacts.common]
      exact hincomplete
    rw [hwaiters]
    unfold Called.andThen
    split
    · rename_i hraised
      exact ⟨hmove, hsame, fun h => by rw [hraised] at h; cases h⟩
    · exact ⟨hmove.tail (.clearCompilerWaiters id), hsame, fun _ => hincomplete'⟩
  · exact ⟨.refl, rfl, fun h => by cases h⟩

theorem fileCompleted_eq {pch : PchFile} {file : LocalFile} (hpart : s.partialFiles pch = some file) :
    s.fileCompleted pch =
      (invokeAll checkCompilerFiles (s.pchWaiters pch) (s.complete pch file)).andThen fun s =>
        ({ s with pchWaiters := Function.update s.pchWaiters pch [] }, false) := by
  unfold fileCompleted
  rw [hpart]
  rfl

/-- The file is there, and the sessions that wait for it are told. -/
theorem fileCompleted_moves {pch : PchFile} {file : LocalFile} (hs : Stages s)
    (hd : (s.sessions sid).state = .downloadingPCH) (hpart : s.partialFiles pch = some file) :
    Moves (s.complete pch file) (s.fileCompleted pch).1 ∧ (s.fileCompleted pch).1.sessions sid = s.sessions sid ∧
      (s.fileCompleted pch).1.writes = s.writes ∧ (s.fileCompleted pch).1.CompilerDone sid ∧
      (s.fileCompleted pch).1.partialFiles pch = none ∧ (s.fileCompleted pch).1.files pch = some file := by
  rw [fileCompleted_eq hpart]
  have hs' := hs.complete pch file
  generalize hs₁ : s.complete pch file = s₁ at hs'
  have hwaiters : s.pchWaiters pch = s₁.pchWaiters pch := by subst hs₁; rfl
  have hsession : s₁.sessions = s.sessions := by subst hs₁; rfl
  have hready : ∀ w ∈ s₁.pchWaiters pch,
      s₁.HasPch w ∧ ¬ (s₁.sessions w).Providing ∧ ∀ id, w ∉ s₁.compilerWaiters id := by
    intro w hmem
    obtain ⟨hp, ht⟩ := hs'.pchWaiters pch w hmem
    refine ⟨fun k hk' => ?_, hp, fun id hmem' => ?_⟩
    · rw [ht] at hk'
      cases hk'
      subst hs₁
      simp [complete]
    · -- who waits for a compiler has its PCH file
      subst hs₁
      have hfile := (hs.compilerWaiters id w hmem').2 pch ht
      rw [hs.alone pch (by simpa [Option.isSome_iff_ne_none] using hfile)] at hpart
      cases hpart
  have hacts : Acts (· ∈ s₁.pchWaiters pch) s₁ (invokeAll checkCompilerFiles (s₁.pchWaiters pch) s₁).1 :=
    invokeAll_acts (Q := fun t w => ∀ id, w ∉ t.compilerWaiters id)
      (fun t w hpch hp hnew => checkCompilerFiles_acts hpch hp hnew) (fun _ _ h => h)
      (fun t t' v w hne ha hnew id hmem => (ha.compilerWaiters id w hmem).elim (hnew id) fun h => hne h.1.symm) _ _
      (hs'.once.1 pch) hready
  have hmove : Moves s₁ (invokeAll checkCompilerFiles (s₁.pchWaiters pch) s₁).1 :=
    .single (.acts hacts fun w hmem => (hready w hmem).2.1)
  have hsame : (invokeAll checkCompilerFiles (s₁.pchWaiters pch) s₁).1.sessions sid = s.sessions sid := by
    rw [hacts.others sid fun hmem => (hready sid hmem).2.1 ?_, hsession]
    rw [hsession]
    exact .inr (.inr (.inr hd))
  have hcommon := hacts.common
  have hwrites : (invokeAll checkCompilerFiles (s₁.pchWaiters pch) s₁).1.writes = s.writes := by
    change (invokeAll checkCompilerFiles (s₁.pchWaiters pch) s₁).1.common.writes = s.writes
    rw [hcommon]
    subst hs₁
    rfl
  have hcompilers : (invokeAll checkCompilerFiles (s₁.pchWaiters pch) s₁).1.CompilerDone sid :=
    hacts.compilerDone (hs'.compilerDone sid (hsession ▸ hd))
  have hincomplete : (invokeAll checkCompilerFiles (s₁.pchWaiters pch) s₁).1.partialFiles pch = none := by
    change (invokeAll checkCompilerFiles (s₁.pchWaiters pch) s₁).1.common.partialFiles pch = none
    rw [hcommon]
    subst hs₁
    exact Function.update_self pch none s.partialFiles
  have hcomplete : (invokeAll checkCompilerFiles (s₁.pchWaiters pch) s₁).1.files pch = some file := by
    rw [hacts.files]
    subst hs₁
    exact Function.update_self pch (some file) s.files
  rw [hwaiters]
  unfold Called.andThen
  split
  · exact ⟨hmove, hsame, hwrites, hcompilers, hincomplete, hcomplete⟩
  · exact ⟨hmove.tail (.clearPchWaiters pch), hsame, hwrites, hcompilers, hincomplete, hcomplete⟩

theorem pchCompleted_eq {pch : PchFile} (hk : (s.sessions sid).task.pchFile = some pch) :
    s.pchCompleted sid = ((s.dropCompletion sid).fileCompleted pch).andThen fun s =>
      if sid ∈ s.writes then (s, true) else s.compile sid := by
  simp only [pchCompleted, hk]
  rfl

/-- `file_completed` raises for a file that is not partial any more. -/
theorem fileCompleted_raises {pch : PchFile} (hp : s.partialFiles pch = none) : s.fileCompleted pch = (s, true) := by
  simp [fileCompleted, hp]

/-- A session whose file is not there yet is where it was when it was written. -/
theorem completion_state {pch : PchFile} (hs : Stages s) (hw : sid ∈ s.completions)
    (hk : (s.sessions sid).task.pchFile = some pch) (hp : s.partialFiles pch ≠ none) :
    (s.sessions sid).state = .downloadingPCH := by
  rcases hs.completions sid hw with hd | ⟨-, hpch⟩
  · exact hd
  · exact absurd (hs.alone pch (Option.isSome_iff_ne_none.1 (hpch pch hk))) hp

/-- What follows when a file has been written, or could not be: it is there, unless it was before. -/
theorem pchCompleted_cases (hs : Stages s) (hw : sid ∈ s.completions) :
    Moves s (s.pchCompleted sid).1 ∨ ∃ pch f, (s.sessions sid).task.pchFile = some pch ∧
      s.partialFiles pch = some f ∧ Moves ((s.dropCompletion sid).complete pch f) (s.pchCompleted sid).1 := by
  cases hk : (s.sessions sid).task.pchFile with
  | none =>
    refine .inl ?_
    simp only [pchCompleted, hk]
    exact .refl
  | some pch =>
    rw [pchCompleted_eq hk]
    have hdrop : Stages (s.dropCompletion sid) := hs.move (.dropCompletion sid)
    cases hpart : s.partialFiles pch with
    | none =>
      refine .inl ?_
      rw [fileCompleted_raises (s := s.dropCompletion sid) hpart]
      exact .single (.dropCompletion sid)
    | some f =>
      refine .inr ⟨pch, f, rfl, hpart, ?_⟩
      have hd := completion_state hs hw hk (by simp [hpart])
      obtain ⟨hmoves, hsame, -, hcompiler, hincomplete, hcomplete⟩ := fileCompleted_moves hdrop hd hpart
      have hs' := (hdrop.complete pch f).moves hmoves
      refine andThen_moves hmoves fun _ => ?_
      split
      · exact .refl
      · rename_i hnot
        refine compile_moves hs' ?_ ?_ hnot (fun _ k hk' => ?_) hcompiler (.inr fun k hk' => ?_)
        · rw [hsame]
          exact .inr (.inr (.inr hd))
        · rw [hsame]
          change (s.sessions sid).state ≠ _
          simp [hd]
        · rw [hsame] at hk'
          cases hk.symm.trans hk'
          rw [hcomplete]
          rfl
        · rw [hsame] at hk'
          cases hk.symm.trans hk'
          exact hincomplete

theorem sendCompressed_moves (hs : Stages s) (hu : sid ∈ s.uploads) (parts : Option Nat) :
    Moves s (s.sendCompressed sid parts).1 := by
  cases parts with
  | none =>
    have hdrop : Move s { s with uploads := s.uploads.erase sid, log := s.log ++ [] } := .dropUpload sid []
    rw [List.append_nil] at hdrop
    exact .single hdrop
  | some parts =>
    have hdrop : Move s { s with
        uploads := s.uploads.erase sid
        log := s.log ++ (List.replicate parts (Effect.sent sid (.chunk false)) ++ [Effect.sent sid (.chunk true)]) } :=
      .dropUpload sid _
    exact (Relation.ReflTransGen.single hdrop).tail (own_move sessionDone_own sessionDone_execs (hs.uploads sid hu))

theorem execStart_moves (hs : Stages s) (hx : sid ∈ s.execs) (started : Bool) (traceback : Bytes) :
    Moves s (s.execStart sid started traceback).1 := by
  unfold execStart
  dsimp only
  split
  · exact .single (.launch hx)
  · refine (Relation.ReflTransGen.single (.dropExec sid)).tail ?_
    exact own_move (compileCompleted_own _) compileCompleted_execs (hs.execs sid hx).1

theorem compileCompleted_moves (hs : Stages s) (hr : sid ∈ s.running) (outcome : Outcome) :
    Moves s (Server.compileCompleted { s with running := s.running.erase sid } sid outcome).1 := by
  refine (Relation.ReflTransGen.single (.dropRunning sid)).tail ?_
  exact own_move (compileCompleted_own _) compileCompleted_execs (hs.running sid hr).1

theorem stateProcessMsg_moves (hs : Stages s) (hsid : sid < s.counter) (msg : Msg) :
    Moves s (s.stateProcessMsg sid msg).1 := by
  unfold stateProcessMsg
  dsimp only
  split
  · -- the headers have arrived
    rename_i hd
    have hstill : Still sid s (s.modify sid fun x => { x with includeDirs := .pending }) :=
      ⟨modify_own rfl (.inl rfl),
        ⟨(s.sessions sid).cancelPending, (s.sessions sid).selfdestruct, .pending, modify_self s sid _⟩, rfl⟩
    have hmove : Move s (s.modify sid fun x => { x with includeDirs := .pending }) := .still hsid hstill
    split
    · refine (Relation.ReflTransGen.single hmove).tail (.downloadCompiler ?_)
      rw [modify_self]
      exact hd
    · rename_i hc
      refine (Relation.ReflTransGen.single hmove).trans (afterCompiler_moves (hs.move hmove) (.inl ?_) (.inl ?_))
      · rw [modify_self]
        exact hd
      · rw [modify_self]
        simpa using hc
  · -- a part of the compiler
    rename_i last unpacks hd
    split
    · exact .refl
    · split
      · exact .refl
      -- The directory stays, whether or not the compiler can be unpacked into it.
      · have hdirs : Move s { s with compilerDirs := (s.sessions sid).task.compilerId :: s.compilerDirs } :=
          .compilerDirs _
        split
        · exact .single hdirs
        · have hdata : Move _ _ := .noCompilerData (s := { s with
            compilerDirs := (s.sessions sid).task.compilerId :: s.compilerDirs }) hd
          have hs₁ := (hs.move hdirs).move hdata
          have hfirst := (Relation.ReflTransGen.single hdirs).tail hdata
          generalize hgen : Server.modify { s with
            compilerDirs := (s.sessions sid).task.compilerId :: s.compilerDirs } sid
              (fun x => { x with compilerData := false }) = s₁ at hs₁ hfirst ⊢
          have hx : s₁.sessions sid = { s.sessions sid with compilerData := false } := by
            subst hgen
            rw [modify_self]
          have hd₁ : (s₁.sessions sid).state = .downloadingCompiler := by rw [hx]; exact hd
          have hid : (s₁.sessions sid).task.compilerId = (s.sessions sid).task.compilerId := by rw [hx]
          obtain ⟨hmoves, hsame, hincomplete⟩ := setCompilerReady_moves hs₁ hd₁ hid
          refine andThen_moves (hfirst.trans hmoves) fun hraised =>
            afterCompiler_moves (hs₁.moves hmoves) (.inr ?_) (.inr ?_)
          · rw [hsame]
            exact hd₁
          · rw [hsame, hid]
            exact hincomplete hraised
  · -- a part of the PCH file
    rename_i data last unpacks hd
    split
    · exact .refl
    · rename_i hok
      have hw : sid ∉ s.writes := fun h => hok (.inr h)
      have hchunk : Move s (s.modify sid fun x =>
          { x with pchDesc := x.pchDesc ++ if (s.sessions sid).pchEnded then [] else data }) :=
        .pchChunk _ hd hw fun h => by simp [h]
      split
      · rename_i hlast
        refine (Relation.ReflTransGen.single hchunk).tail ?_
        have hd' : ((s.modify sid fun x => { x with
            pchDesc := x.pchDesc ++ if (s.sessions sid).pchEnded then [] else data }).sessions sid).state =
              .downloadingPCH := by
          rw [modify_self]
          exact hd
        have hwrite := Move.write hd' hw
        rw [modify_modify, modify_self] at hwrite
        simpa [hlast, modify] using hwrite
      · rename_i hlast
        simpa [hlast, modify] using Relation.ReflTransGen.single hchunk
  · rename_i hd
    exact .single (.upload hd)
  · rename_i hd
    exact .single (own_move sessionDone_own sessionDone_execs (by simp [Session.Providing, hd]))
  · exact .refl
  · exact .refl

theorem processMsg_moves (hs : Stages s) (hsid : sid < s.counter) (msg : Msg) :
    Moves s (s.processMsg sid msg).1 := by
  have hstill : Move s (s.rescheduleSelfdestruct sid).1 := .still hsid rescheduleSelfdestruct_still
  have hs₁ := hs.move hstill
  have hsid₁ : sid < (s.rescheduleSelfdestruct sid).1.counter := by
    change sid < (s.rescheduleSelfdestruct sid).1.shared.counter
    rw [rescheduleSelfdestruct_own.shared]
    exact hsid
  refine andThen_moves (.single hstill) fun _ => ?_
  generalize (s.rescheduleSelfdestruct sid).1 = s₁ at hs₁ hsid₁ ⊢
  have hcancel : (s₁.sessions sid).state.canBeCancelled = true → Move s₁ (s₁.cancelSession sid).1 := by
    intro hcan
    refine own_move cancelSession_own cancelSession_execs ?_
    rintro (h | h | h | h) <;> simp [h, CompileSession.State.canBeCancelled] at hcan
  dsimp only
  split
  · split
    · rename_i hcan
      exact .single (hcancel hcan.1)
    · exact .single (.still hsid₁ cancelPending_still)
  · split
    · rename_i hcan
      exact .single (hcancel hcan.2)
    · exact stateProcessMsg_moves hs₁ hsid₁ msg

/-! ## New sessions -/

theorem compilerRequired_cases (s : Server) (id : CompilerId) :
    (∃ cs, s.compilerRequired id = (false, { s with compilers := cs }) ∧ s.compilers ⊆ cs) ∨
      id ∉ s.compilers ∧ s.compilerRequired id = (true, { s with partialCompilers := id :: s.partialCompilers }) := by
  unfold compilerRequired
  split
  · exact .inl ⟨s.compilers, rfl, List.Subset.refl _⟩
  · rename_i hc
    split
    · exact .inl ⟨id :: s.compilers, rfl, List.subset_cons_self _ _⟩
    · split
      · exact .inl ⟨s.compilers, rfl, List.Subset.refl _⟩
      · exact .inr ⟨hc, rfl⟩

theorem registerPch_cases (s : Server) (names : Names) (task : Task) :
    (∃ file, s.registerPch names task.pchFile = ((file, false), s) ∧
      ∀ pch, task.pchFile = some pch → (s.files pch = file ∨ s.partialFiles pch = file) ∧ file.isSome) ∨
      ∃ pch, task.pchFile = some pch ∧ s.files pch = none ∧ s.partialFiles pch = none ∧
        s.registerPch names task.pchFile = ((some (localFilename names pch), true),
          { s with partialFiles := Function.update s.partialFiles pch (some (localFilename names pch)) }) := by
  cases hk : task.pchFile with
  | none => exact .inl ⟨none, rfl, fun pch h => by cases h⟩
  | some pch =>
    simp only [registerPch, registerFile]
    cases hf : s.files pch with
    | some file =>
      refine .inl ⟨some file, rfl, fun pch' h => ?_⟩
      cases h
      exact ⟨.inl hf, rfl⟩
    | none =>
      cases hp : s.partialFiles pch with
      | some file =>
        refine .inl ⟨some file, rfl, fun pch' h => ?_⟩
        cases h
        exact ⟨.inr hp, rfl⟩
      | none => exact .inr ⟨pch, rfl, hf, hp, rfl⟩

/-- A session begins: it is told what to provide, and marks it as on its way. -/
structure Born (names : Names) (task : Task) (s s' : Server) : Prop where
  session : ∃ file c p, s'.sessions = Function.update s.sessions s.counter
      { s.sessions s.counter with
        task, selfdestruct := true, state := .downloadMissingHeaders, compilerRequired := c, pchRequired := p
        pchFile := file } ∧
    s'.log = s.log ++ [.sent s.counter (.missingFiles c p)] ∧
    (∀ pch, task.pchFile = some pch → p = false → (s.files pch = file ∨ s.partialFiles pch = file) ∧ file.isSome) ∧
    (c = false → s'.partialCompilers = s.partialCompilers) ∧
    (c = true → task.compilerId ∉ s.compilers ∧ s'.partialCompilers = task.compilerId :: s.partialCompilers) ∧
    (p = false → s'.partialFiles = s.partialFiles) ∧
    (p = true → ∃ pch, task.pchFile = some pch ∧ file = some (localFilename names pch) ∧ s.files pch = none ∧
      s.partialFiles pch = none ∧ s'.partialFiles = Function.update s.partialFiles pch (some (localFilename names pch)))
  counter : s'.counter = s.counter + 1
  compilers : s.compilers ⊆ s'.compilers
  files : s'.files = s.files ∧ s'.disk = s.disk ∧ s'.downloaded = s.downloaded
  lists : s'.writes = s.writes ∧ s'.running = s.running ∧ s'.uploads = s.uploads
  threads : s'.opened = s.opened ∧ s'.completions = s.completions
  waiters : s'.pchWaiters = s.pchWaiters ∧ s'.compilerWaiters = s.compilerWaiters ∧ s'.execs = s.execs
  others : s'.queue = s.counter :: s.queue ∧ s'.tempdirs = s.tempdirs ∧ s'.tempMaps = s.tempMaps

theorem newSession_born (names : Names) (task : Task) : Born names task s (s.newSession names task) := by
  have hpch := registerPch_cases
    (Server.compilerRequired { s with counter := s.counter + 1, queue := s.counter :: s.queue } task.compilerId).2
      names task
  unfold newSession
  dsimp only
  rcases compilerRequired_cases { s with counter := s.counter + 1, queue := s.counter :: s.queue } task.compilerId with
    ⟨cs, hc, hsub⟩ | ⟨hnot, hc⟩
  · rw [hc] at hpch ⊢
    rcases hpch with ⟨file, hp, hfile⟩ | ⟨pch, hk, hf, hpart, hp⟩
    · dsimp only at hp ⊢
      rw [hp]
      refine ⟨?_, rfl, hsub, ⟨rfl, rfl, rfl⟩, ⟨rfl, rfl, rfl⟩, ⟨rfl, rfl⟩, ⟨rfl, rfl, rfl⟩, rfl, rfl, rfl⟩
      exact ⟨file, false, false, rfl, rfl, fun pch hk _ => hfile pch hk, fun _ => rfl, nofun, fun _ => rfl, nofun⟩
    · dsimp only at hp ⊢
      rw [hp]
      refine ⟨?_, rfl, hsub, ⟨rfl, rfl, rfl⟩, ⟨rfl, rfl, rfl⟩, ⟨rfl, rfl⟩, ⟨rfl, rfl, rfl⟩, rfl, rfl, rfl⟩
      exact ⟨_, false, true, rfl, rfl, fun _ _ => nofun, fun _ => rfl, nofun, nofun,
        fun _ => ⟨pch, hk, rfl, hf, hpart, rfl⟩⟩
  · rw [hc] at hpch ⊢
    rcases hpch with ⟨file, hp, hfile⟩ | ⟨pch, hk, hf, hpart, hp⟩
    · dsimp only at hp ⊢
      rw [hp]
      refine ⟨?_, rfl, List.Subset.refl _, ⟨rfl, rfl, rfl⟩, ⟨rfl, rfl, rfl⟩, ⟨rfl, rfl⟩, ⟨rfl, rfl, rfl⟩, rfl, rfl, rfl⟩
      exact ⟨file, true, false, rfl, rfl, fun pch hk _ => hfile pch hk, nofun, fun _ => ⟨hnot, rfl⟩, fun _ => rfl, nofun⟩
    · dsimp only at hp ⊢
      rw [hp]
      refine ⟨?_, rfl, List.Subset.refl _, ⟨rfl, rfl, rfl⟩, ⟨rfl, rfl, rfl⟩, ⟨rfl, rfl⟩, ⟨rfl, rfl, rfl⟩, rfl, rfl, rfl⟩
      exact ⟨_, true, true, rfl, rfl, fun _ _ => nofun, nofun, fun _ => ⟨hnot, rfl⟩, nofun,
        fun _ => ⟨pch, hk, rfl, hf, hpart, rfl⟩⟩

end Server

namespace Stages
variable {s s' : Server}

theorem born {names : Names} {task : Task} (h : Stages s) (hb : Server.Born names task s s') : Stages s' := by
  obtain ⟨file, c, p, hsessions, -, hfile, hc, hc', hp, hp'⟩ := hb.session
  have hother : ∀ w, w ≠ s.counter → s'.sessions w = s.sessions w := fun w hw => by
    rw [hsessions, Function.update_of_ne hw]
  -- The new session has yet to provide what it is told to, so that those on the lists are old ones.
  have hnew : ∀ w, ¬ (s.sessions w).Providing → w ≠ s.counter := by
    rintro w hw rfl
    exact hw (h.fresh_providing (Nat.le_refl _))
  have hprov : ∀ w, ¬ (s.sessions w).Providing → ¬ (s'.sessions w).Providing := fun w hw => by
    rwa [hother w (hnew w hw)]
  have hpch : ∀ w, ¬ (s.sessions w).Providing ∧ s.HasPch w → ¬ (s'.sessions w).Providing ∧ s'.HasPch w := by
    rintro w ⟨hw, hfile⟩
    refine ⟨hprov w hw, ?_⟩
    unfold Server.HasPch at hfile ⊢
    rwa [hother w (hnew w hw), hb.files.1]
  have hwrites : s'.writes = s.writes := hb.lists.1
  refine
    { fresh := fun w hw => ?_
      queue := fun w hw => ?_
      pchWaiters := fun pch w hw => ?_
      compilerWaiters := fun id w hw => hpch w (h.compilerWaiters id w (hb.waiters.2.1 ▸ hw))
      execs := fun w hw => hpch w (h.execs w (hb.waiters.2.2 ▸ hw))
      running := fun w hw => hpch w (h.running w (hb.lists.2.1 ▸ hw))
      uploads := fun w hw => hprov w (h.uploads w (hb.lists.2.2 ▸ hw))
      writes := fun w hw => ?_
      opened := by rw [hb.threads.1, hwrites]; exact h.opened
      completions := fun w hw => ?_
      nodup := by rw [hb.threads.1, hwrites]; exact h.nodup
      once := by unfold Server.Once; rw [hb.waiters.1, hb.waiters.2.1]; exact h.once
      alone := fun pch hne => ?_
      named := fun w hw => ?_
      compilerDone := fun w hw => ?_ }
  · rw [hb.counter] at hw
    rw [hother w (by omega), h.fresh w (by omega)]
  · rw [hb.others.1] at hw
    rw [hb.counter]
    rcases List.mem_cons.1 hw with rfl | hw
    · exact Nat.lt_succ_self _
    · exact Nat.lt_succ_of_lt (h.queue w hw)
  · obtain ⟨hp, ht⟩ := h.pchWaiters pch w (hb.waiters.1 ▸ hw)
    exact ⟨hprov w hp, by rwa [hother w (hnew w hp)]⟩
  · have hstate := h.writes w (hwrites ▸ hw)
    rw [hother w ?_]
    · exact hstate
    · rintro rfl
      rw [h.fresh _ (Nat.le_refl _)] at hstate
      cases hstate.1
  · rcases h.completions w (hb.threads.2 ▸ hw) with hstate | hready
    · refine .inl ?_
      rwa [hother w]
      rintro rfl
      rw [h.fresh _ (Nat.le_refl _)] at hstate
      cases hstate
    · exact .inr (hpch w hready)
  · rw [hb.files.1] at hne
    cases p with
    | false =>
      rw [hp rfl]
      exact h.alone pch hne
    | true =>
      obtain ⟨k, -, -, hnone, -, hpart⟩ := hp' rfl
      rw [hpart, Function.update_of_ne]
      · exact h.alone pch hne
      · rintro rfl
        exact hne hnone
  -- The new session has found the file of its PCH, or was told to provide it.
  · by_cases heq : w = s.counter
    · subst heq
      rw [hsessions, Function.update_self] at hw ⊢
      obtain ⟨pch, hk⟩ := Option.ne_none_iff_exists'.1 hw
      cases p with
      | false => exact Option.isSome_iff_ne_none.1 (hfile pch hk rfl).2
      | true =>
        obtain ⟨k, -, hfile', -⟩ := hp' rfl
        simp [hfile']
    · rw [hother w heq] at hw ⊢
      exact h.named w hw
  · have hne : w ≠ s.counter := by
      rintro rfl
      rw [hsessions, Function.update_self] at hw
      cases hw
    rw [hother w hne] at hw
    rcases h.compilerDone w hw with hd | ⟨hd, hd'⟩
    · exact .inl (by rwa [hother w hne])
    · refine .inr ?_
      rw [hother w hne]
      refine ⟨hb.compilers hd, fun hmem => ?_⟩
      cases c with
      | false =>
        rw [hc rfl] at hmem
        exact hd' hmem
      | true =>
        obtain ⟨hid, hpart⟩ := hc' rfl
        rw [hpart] at hmem
        rcases List.mem_cons.1 hmem with heq | hmem
        · exact hid (heq ▸ hd)
        · exact hd' hmem

theorem selfdestruct (h : Stages s) {sid : SessionId} (hq : sid ∈ s.queue) : Stages (s.selfdestruct sid) := by
  refine h.acts (Server.selfdestruct_own.acts (.inl ?_)) ?_
  · unfold Server.selfdestruct
    dsimp only
    split <;> rfl
  · rintro w rfl
    refine .inr ⟨h.queue w hq, ?_⟩
    unfold Server.selfdestruct
    dsimp only
    split
    · rfl
    · simp [Server.finish, Server.note]

end Stages

/-- What a step is: a session begins, a timer fires, a PCH file is opened, written or becomes available, or moves. -/
theorem step_cases {names : Names} {limit : Nat} {s s' : Server} {e : Event} (hs : Stages s)
    (h : step names limit s e = some s') :
    (∃ task, e = .newSession task ∧ Server.Born names task s s') ∨
      (∃ sid, e = .selfdestruct sid ∧ sid ∈ s.queue ∧ s' = s.selfdestruct sid) ∨
      (∃ sid, e = .pchOpened sid ∧ sid ∈ s.writes ∧ sid ∉ s.opened ∧ s' = s.pchOpened sid names) ∨
      (∃ sid ok, e = .pchWritten sid ok ∧ sid ∈ s.writes ∧ (ok → sid ∈ s.opened) ∧ s' = s.pchWritten sid names ok) ∨
      (∃ sid pch f, e = .pchCompleted sid ∧ sid ∈ s.completions ∧ (s.sessions sid).task.pchFile = some pch ∧
        s.partialFiles pch = some f ∧ Moves ((s.dropCompletion sid).complete pch f) s') ∨
      Moves s s' := by
  cases e with
  | newSession task =>
    cases h
    exact .inl ⟨task, rfl, Server.newSession_born names task⟩
  | selfdestruct sid =>
    obtain ⟨hq, heq⟩ := steps_of_step h
    exact .inr (.inl ⟨sid, rfl, hq, heq⟩)
  | pchOpened sid =>
    obtain ⟨hw, hnot, heq⟩ := steps_of_step h
    exact .inr (.inr (.inl ⟨sid, rfl, hw, hnot, heq⟩))
  | pchWritten sid ok =>
    obtain ⟨hw, hok, heq⟩ := steps_of_step h
    exact .inr (.inr (.inr (.inl ⟨sid, ok, rfl, hw, hok, heq⟩)))
  | pchCompleted sid =>
    obtain ⟨hw, rfl⟩ := steps_of_step h
    rcases Server.pchCompleted_cases hs hw with hm | ⟨pch, f, hk, hp, hm⟩
    · exact .inr (.inr (.inr (.inr (.inr hm))))
    · exact .inr (.inr (.inr (.inr (.inl ⟨sid, pch, f, rfl, hw, hk, hp, hm⟩))))
  | message sid msg =>
    refine .inr (.inr (.inr (.inr (.inr ?_))))
    rcases steps_of_step h with ⟨hsid, -, rfl⟩ | rfl
    · exact Server.processMsg_moves hs hsid msg
    · exact .refl
  | prepareDir sid b =>
    obtain ⟨hd, rfl⟩ := steps_of_step h
    refine .inr (.inr (.inr (.inr (.inr (.single (.still ?_ (Server.prepareDir_still b)))))))
    by_contra hn
    rw [hs.fresh sid (Nat.le_of_not_lt hn)] at hd
    cases hd
  | execStart sid b traceback =>
    obtain ⟨hx, rfl⟩ := steps_of_step h
    exact .inr (.inr (.inr (.inr (.inr (Server.execStart_moves hs hx b traceback)))))
  | compileCompleted sid outcome =>
    obtain ⟨hr, rfl⟩ := steps_of_step h
    exact .inr (.inr (.inr (.inr (.inr (Server.compileCompleted_moves hs hr outcome)))))
  | sendCompressed sid parts =>
    obtain ⟨hu, rfl⟩ := steps_of_step h
    exact .inr (.inr (.inr (.inr (.inr (Server.sendCompressed_moves hs hu parts)))))

theorem Stages.step {names : Names} {limit : Nat} {s s' : Server} {e : Event} (hs : Stages s)
    (h : step names limit s e = some s') : Stages s' := by
  rcases step_cases hs h with ⟨task, -, hb⟩ | ⟨sid, -, hq, rfl⟩ | ⟨sid, -, hw, hnot, rfl⟩ | ⟨sid, ok, -, hw, -, rfl⟩ |
    ⟨sid, pch, f, -, -, -, -, hm⟩ | hm
  · exact hs.born hb
  · exact hs.selfdestruct hq
  · exact hs.pchOpened hw hnot
  · exact hs.pchWritten hw ok
  · have hdrop : Stages (s.dropCompletion sid) := hs.move (.dropCompletion sid)
    exact (hdrop.complete pch f).moves hm
  · exact hs.moves hm

/-- `pch_completed` is called for sessions whose file has been written, and which have kept their tasks. -/
theorem step_completions {names : Names} {limit : Nat} {s s' : Server} {e : Event} (hs : Stages s)
    (h : step names limit s e = some s') {w : SessionId} (hw : w ∈ s'.completions) :
    (s'.sessions w).task = (s.sessions w).task ∧ (w ∈ s.completions ∨ ∃ ok, e = .pchWritten w ok) := by
  rcases step_cases hs h with ⟨task, -, hb⟩ | ⟨sid, -, hq, rfl⟩ | ⟨sid, -, -, -, rfl⟩ | ⟨sid, ok, rfl, -, -, rfl⟩ |
    ⟨sid, pch, f, -, -, -, -, hm⟩ | hm
  · obtain ⟨file, c, p, hsessions, -⟩ := hb.session
    have hw' : w ∈ s.completions := hb.threads.2 ▸ hw
    refine ⟨?_, .inl hw'⟩
    rw [hsessions, Function.update_of_ne]
    rintro rfl
    rcases hs.completions _ hw' with hstate | ⟨hp, -⟩
    · rw [hs.fresh _ (Nat.le_refl _)] at hstate
      cases hstate
    · exact hp (hs.fresh_providing (Nat.le_refl _))
  · have hown : Own sid s (s.selfdestruct sid) := Server.selfdestruct_own
    have hcompletions : (s.selfdestruct sid).completions = s.completions := by
      change (s.selfdestruct sid).shared.completions = s.shared.completions
      rw [hown.shared]
    refine ⟨?_, .inl (hcompletions ▸ hw)⟩
    by_cases heq : w = sid
    · subst heq
      change ((s.selfdestruct w).sessions w).core.task = (s.sessions w).core.task
      rw [hown.core]
    · rw [hown.others w heq]
  · unfold Server.pchOpened at hw ⊢
    split at hw
    · exact ⟨rfl, .inl hw⟩
    · exact ⟨rfl, .inl hw⟩
  · refine ⟨rfl, ?_⟩
    rcases List.mem_cons.1 hw with rfl | hw
    · exact .inr ⟨ok, rfl⟩
    · exact .inl hw
  · obtain ⟨hsub, htask⟩ := hm.keeps
    exact ⟨htask w, .inl (List.mem_of_mem_erase (hsub hw))⟩
  · obtain ⟨hsub, htask⟩ := hm.keeps
    exact ⟨htask w, .inl (hsub hw)⟩

end BuildPal.Runner
