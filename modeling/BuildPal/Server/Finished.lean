import BuildPal.Server.Waiters
/-!
# Sessions that are finished

Once `session_done` has run for a session, nothing is heard of it any more: it
sends nothing, starts no compiler, gets no directory and no map of its own, and
is not finished again. Calls come back to it all the same, and not all of them
notice; the runs in which no such call does harm are those of
`SparesFinished`.
-/
open BuildPal.Lib BuildPal.Message
open BuildPal.CompileSession (State Outcome)

namespace BuildPal.Runner

/-- What a session does that is finished must not do. -/
def Effect.loud : Effect → Bool
  | sent _ _ | launched _ | tempdir _ | tempMap _ | done _ => true
  | compiles _ | invoked _ => false

/-- Nothing is heard of a session after it is done. -/
def Quiet (l : List Effect) : Prop := l.Pairwise fun a b => a = .done b.session → b.loud = false

/-- Calls that leave the finished sessions alone. -/
structure Calm (s s' : Server) : Prop where
  completed : ∀ w, (s.sessions w).completed → (s'.sessions w).completed
  log : ∃ l, s'.log = s.log ++ l ∧ Quiet l ∧ (∀ e ∈ l, (s.sessions e.session).completed → e.loud = false) ∧
    ∀ w, .done w ∈ l → (s'.sessions w).completed
  tempdirs : (∀ w, (s.sessions w).completed → s.tempdirs w = none) →
    ∀ w, (s'.sessions w).completed → s'.tempdirs w = none

namespace Calm
variable {s s' s'' : Server}

/-- Nothing happens that could be heard. -/
theorem of_same (hc : ∀ w, (s'.sessions w).completed = (s.sessions w).completed) (hlog : s'.log = s.log)
    (hdirs : s'.tempdirs = s.tempdirs) : Calm s s' where
  completed w hw := (hc w).trans hw
  log := ⟨[], by simp [hlog], List.Pairwise.nil, by simp, by simp⟩
  tempdirs h w hw := by
    rw [hdirs]
    exact h w ((hc w).symm.trans hw)

theorem refl (s : Server) : Calm s s := of_same (fun _ => rfl) rfl rfl

theorem trans (h : Calm s s') (h' : Calm s' s'') : Calm s s'' where
  completed w hw := h'.completed w (h.completed w hw)
  log := by
    obtain ⟨l, hl, hquiet, hloud, hdone⟩ := h.log
    obtain ⟨l', hl', hquiet', hloud', hdone'⟩ := h'.log
    refine ⟨l ++ l', by rw [hl', hl, List.append_assoc], ?_, fun e he hc => ?_, fun w hw => ?_⟩
    · refine List.pairwise_append.2 ⟨hquiet, hquiet', fun a ha b hb heq => ?_⟩
      exact hloud' b hb (hdone b.session (heq ▸ ha))
    · rcases List.mem_append.1 he with he | he
      · exact hloud e he hc
      · exact hloud' e he (h.completed _ hc)
    · rcases List.mem_append.1 hw with hw | hw
      · exact h'.completed w (hdone w hw)
      · exact hdone' w hw
  tempdirs hs := h'.tempdirs (h.tempdirs hs)

end Calm

namespace Server
variable {s : Server} {sid : SessionId}

theorem modify_calm {f : Session → Session} (hf : (f (s.sessions sid)).completed = (s.sessions sid).completed) :
    Calm s (s.modify sid f) := by
  exact Calm.of_same (modify_keeps s sid (·.completed) hf) rfl rfl

/-- A live session may be heard. -/
theorem log_calm {s' : Server} {l : List Effect} (hc : s'.sessions = s.sessions) (hl : s'.log = s.log ++ l)
    (hdirs : ∀ w, (s.sessions w).completed → s'.tempdirs w = s.tempdirs w)
    (hlive : ∀ e ∈ l, (s.sessions e.session).completed = false ∨ e.loud = false) (hdone : ∀ w, .done w ∉ l) :
    Calm s s' where
  completed w hw := by rwa [hc]
  log := by
    refine ⟨l, hl, ?_, fun e he hcompleted => ?_, fun w hw => absurd hw (hdone w)⟩
    · refine List.pairwise_of_forall_mem_list fun a ha b _ heq => ?_
      exact absurd (heq ▸ ha) (hdone b.session)
    · rcases hlive e he with h | h
      · simp [h] at hcompleted
      · exact h
  tempdirs h w hw := by
    rw [hc] at hw
    rw [hdirs w hw]
    exact h w hw

theorem sent_calm (msg : FromServer) (hlive : (s.sessions sid).completed = false) : Calm s (s.note (.sent sid msg)) :=
  log_calm rfl rfl (fun _ _ => rfl) (by simpa [Effect.session] using .inl hlive) (by simp)

theorem finish_calm (hlive : (s.sessions sid).completed = false) : Calm s (s.finish sid) where
  completed w hw := by
    by_cases heq : w = sid
    · subst heq
      simp [finish]
    · rwa [finish_own.others w heq]
  log := by
    refine ⟨[.done sid], rfl, List.pairwise_singleton _ _, fun e he hc => ?_, fun w hw => ?_⟩
    · obtain rfl := List.mem_singleton.1 he
      simp [Effect.session, hlive] at hc
    · have hwd : w = sid := by simpa using hw
      simp [finish, hwd]
  tempdirs h w hw := by
    by_cases heq : w = sid
    · subst heq
      exact Function.update_self ..
    · rw [finish_own.others w heq] at hw
      exact (Function.update_of_ne heq ..).trans (h w hw)

theorem tempdir_calm (hlive : (s.sessions sid).completed = false) : Calm s (s.tempdir sid) := by
  unfold tempdir
  split
  · exact Calm.refl s
  · refine log_calm rfl rfl (fun w hw => ?_) (by simpa [Effect.session] using .inl hlive) (by simp)
    refine Function.update_of_ne ?_ ..
    rintro rfl
    simp [hlive] at hw

theorem tempMap_calm (hlive : (s.sessions sid).completed = false) : Calm s (s.tempMap sid) := by
  unfold tempMap
  split
  · exact Calm.refl s
  · exact log_calm rfl rfl (fun _ _ => rfl) (by simpa [Effect.session] using .inl hlive) (by simp)

/-! ## The calls -/

theorem andThen_calm {c : Called} {next : Server → Called} (hc : Calm s c.1)
    (hnext : c.2 = false → Calm c.1 (next c.1).1) : Calm s (c.andThen next).1 := by
  unfold Called.andThen
  split
  · exact hc
  · rename_i h
    exact hc.trans (hnext (by simpa using h))

theorem cancelSelfdestruct_calm : Calm s (s.cancelSelfdestruct sid).1 := by
  unfold cancelSelfdestruct
  split
  · split
    · exact (modify_calm (f := fun x => { x with selfdestruct := false }) rfl).trans
        (Calm.of_same (fun _ => rfl) rfl rfl)
    · exact Calm.refl s
  · exact Calm.refl s

theorem cancelSelfdestruct_completed :
    ((s.cancelSelfdestruct sid).1.sessions sid).completed = (s.sessions sid).completed := by
  have hstill : Still sid s (s.cancelSelfdestruct sid).1 := cancelSelfdestruct_still
  obtain ⟨c, d, i, hx⟩ := hstill.session
  rw [hx]

theorem rescheduleSelfdestruct_calm : Calm s (s.rescheduleSelfdestruct sid).1 := by
  refine andThen_calm cancelSelfdestruct_calm fun _ => ?_
  exact (modify_calm (f := fun x => { x with selfdestruct := true }) rfl).trans (Calm.of_same (fun _ => rfl) rfl rfl)

theorem sessionDone_calm : Calm s (s.sessionDone sid).1 := by
  unfold sessionDone
  split
  · exact Calm.refl s
  · rename_i hc
    refine andThen_calm cancelSelfdestruct_calm fun _ => finish_calm ?_
    rw [cancelSelfdestruct_completed]
    simpa using hc

theorem selfdestruct_calm : Calm s (s.selfdestruct sid) := by
  have hunqueue : Calm s { s with queue := s.queue.erase sid } := Calm.of_same (fun _ => rfl) rfl rfl
  unfold selfdestruct
  dsimp only
  split
  · exact hunqueue
  · rename_i hc
    have hlive : (s.sessions sid).completed = false := by simpa using hc
    exact (hunqueue.trans (sent_calm _ hlive)).trans (finish_calm hlive)

theorem cancelSession_calm (h : (s.sessions sid).state = .cancelled ∨ (s.sessions sid).completed = false) :
    Calm s (s.cancelSession sid).1 := by
  unfold cancelSession
  split
  · exact Calm.refl s
  · rename_i hc
    have hlive := h.resolve_left hc
    exact ((sent_calm _ hlive).trans (modify_calm rfl)).trans sessionDone_calm

theorem prepareDir_calm (ok : Bool) (hlive : (s.sessions sid).completed = false) : Calm s (s.prepareDir sid ok) := by
  have hlive' : ((s.tempdir sid).sessions sid).completed = false := by
    rw [tempdir_sessions.1]
    exact hlive
  exact ((tempdir_calm hlive).trans (tempMap_calm hlive')).trans (modify_calm rfl)

/-- The handler of the session can be heard although it is finished. -/
def Disturbs (s : Server) (sid : SessionId) : Prop :=
  (s.sessions sid).completed ∧
    if (s.sessions sid).cancelPending then (s.sessions sid).state ≠ .cancelled
    else ¬ s.Stale sid ∧ (s.sessions sid).task.msvc

instance (s : Server) (sid : SessionId) : Decidable (s.Disturbs sid) := inferInstanceAs (Decidable (_ ∧ ite _ _ _))

theorem disturbs_congr {s' : Server} (hsession : s'.sessions sid = s.sessions sid)
    (hqueue : sid ∈ s'.queue ↔ sid ∈ s.queue) : s'.Disturbs sid ↔ s.Disturbs sid := by
  simp only [Disturbs, Stale, hsession, hqueue]

theorem runCompiler_calm (h : ¬ s.Disturbs sid) : Calm s (s.runCompiler sid).1 := by
  unfold runCompiler
  split
  · rename_i hcancel
    refine cancelSession_calm ?_
    by_contra hn
    rw [not_or] at hn
    exact h ⟨by simpa using hn.2, by simpa [hcancel] using hn.1⟩
  · rename_i hcancel
    refine andThen_calm cancelSelfdestruct_calm fun hok => ?_
    have hstale : ¬ s.Stale sid := fun hstale => by
      rw [cancelSelfdestruct_raises.2 hstale] at hok
      cases hok
    rw [cancelSelfdestruct_session.1]
    split
    · exact Calm.refl _
    · rename_i hmsvc
      have hlive : ((s.cancelSelfdestruct sid).1.sessions sid).completed = false := by
        rw [cancelSelfdestruct_completed]
        by_contra hc
        refine h ⟨by simpa using hc, ?_⟩
        rw [if_neg hcancel]
        exact ⟨hstale, by simpa using hmsvc⟩
      split
      · exact tempdir_calm hlive
      · refine (prepareDir_calm true hlive).trans ?_
        exact (modify_calm (f := fun x => { x with
          cwd := ((s.cancelSelfdestruct sid).1.prepareDir sid true).tempdirs sid }) rfl).trans
          (Calm.of_same (fun _ => rfl) rfl rfl)

theorem checkCompilerFiles_calm (h : (s.sessions sid).task.compilerId ∈ s.compilers → ¬ s.Disturbs sid) :
    Calm s (s.checkCompilerFiles sid).1 := by
  unfold checkCompilerFiles
  dsimp only
  split
  · rename_i hc
    exact runCompiler_calm (h hc)
  · split
    · exact Calm.of_same (fun _ => rfl) rfl rfl
    · exact Calm.refl s

theorem whenPchIsAvailable_calm (h : (s.sessions sid).task.compilerId ∈ s.compilers → ¬ s.Disturbs sid) :
    Calm s (s.whenPchIsAvailable sid).1 := by
  unfold whenPchIsAvailable
  split
  · exact checkCompilerFiles_calm h
  · split
    · exact checkCompilerFiles_calm h
    · exact Calm.of_same (fun _ => rfl) rfl rfl

/-- Who compiles is not cancelled. -/
theorem compile_calm (hd : (s.sessions sid).state ≠ .cancelled)
    (h : (s.sessions sid).task.compilerId ∈ s.compilers → ¬ s.Disturbs sid) : Calm s (s.compile sid).1 := by
  have hnote : Calm s (s.note (.compiles sid)) :=
    log_calm rfl rfl (fun _ _ => rfl) (by simp [Effect.loud]) (by simp)
  refine (hnote.trans (modify_calm rfl)).trans (whenPchIsAvailable_calm (s := s.enterRunningCompiler sid) fun hc => ?_)
  have hc' : (s.sessions sid).task.compilerId ∈ s.compilers := by simpa [enterRunningCompiler, note, modify] using hc
  have hn := h hc'
  intro hdisturbs
  refine hn ?_
  simp only [Disturbs, Stale, enterRunningCompiler, modify_self, note] at hdisturbs ⊢
  refine ⟨hdisturbs.1, ?_⟩
  have hif := hdisturbs.2
  split at hif
  · rename_i hcancel
    rw [if_pos hcancel]
    exact hd
  · rename_i hcancel
    rw [if_neg hcancel]
    exact hif

/-- `C` is what makes the handler of a session calm; the handlers of others leave it alone. -/
theorem invokeAll_calm {handler : Server → SessionId → Called} {C : Server → SessionId → Prop}
    (hcalm : ∀ s w, C s w → Calm s (handler s w).1) (hnoted : ∀ s e w, C s w → C (note s e) w)
    (hothers : ∀ s v w, w ≠ v → C s w → C (handler s v).1 w) (ws : List SessionId) :
    ∀ s : Server, ws.Nodup → (∀ w ∈ ws, C s w) → Calm s (invokeAll handler ws s).1 := by
  induction ws with
  | nil => exact fun s _ _ => Calm.refl s
  | cons v ws ih =>
    intro s hnodup hall
    obtain ⟨hv, hnodup'⟩ := List.nodup_cons.1 hnodup
    have hnote : Calm s (s.note (.invoked v)) :=
      log_calm rfl rfl (fun _ _ => rfl) (by simp [Effect.loud]) (by simp)
    have hfirst := hnote.trans (hcalm _ v (hnoted s _ v (hall v (by simp))))
    refine andThen_calm hfirst fun _ => ih _ hnodup' fun w hw => ?_
    refine hothers _ v w ?_ (hnoted s _ w (hall w (by simp [hw])))
    rintro rfl
    exact hv hw

theorem setCompilerReady_calm {id : CompilerId} (hs : Stages s) (h : ∀ w ∈ s.compilerWaiters id, ¬ s.Disturbs w) :
    Calm s (s.setCompilerReady id).1 := by
  unfold setCompilerReady
  split
  · have hready : Calm s
        { s with partialCompilers := s.partialCompilers.filter (· ≠ id), compilers := id :: s.compilers } :=
      Calm.of_same (fun _ => rfl) rfl rfl
    refine andThen_calm (hready.trans ?_) fun _ => Calm.of_same (fun _ => rfl) rfl rfl
    refine invokeAll_calm (C := fun s w => ¬ s.Disturbs w) (fun _ _ hc => runCompiler_calm hc) (fun _ _ _ hc => hc)
      (fun _ _ w hne hc => ?_) _ _ (hs.once.2 id) h
    rwa [disturbs_congr (runCompiler_own.others w hne) (runCompiler_own.queue w hne)]
  · exact Calm.refl s

/-- The handler of a session that waits for its PCH file is calm. -/
def Undisturbed (s : Server) (w : SessionId) : Prop :=
  (s.sessions w).task.compilerId ∈ s.compilers → ¬ s.Disturbs w

theorem checkCompilerFiles_undisturbed {v w : SessionId} (hne : w ≠ v) (h : s.Undisturbed w) :
    (s.checkCompilerFiles v).1.Undisturbed w := by
  rcases checkCompilerFiles_cases s v with heq | ⟨waiters, b, heq⟩
  · have hown : Own v s (s.runCompiler v).1 := runCompiler_own
    have hcompilers : (s.runCompiler v).1.compilers = s.compilers := by
      change (s.runCompiler v).1.shared.compilers = s.shared.compilers
      rw [hown.shared]
    rw [heq]
    unfold Undisturbed
    rwa [hown.others w hne, hcompilers, disturbs_congr (hown.others w hne) (hown.queue w hne)]
  · rw [heq]
    exact h

theorem invokeAll_undisturbed {w : SessionId} (ws : List SessionId) :
    ∀ s : Server, w ∉ ws → s.Undisturbed w → (invokeAll checkCompilerFiles ws s).1.Undisturbed w := by
  induction ws with
  | nil => exact fun s _ h => h
  | cons v ws ih =>
    intro s hw h
    obtain ⟨hne, hw'⟩ : w ≠ v ∧ w ∉ ws := by simpa using hw
    have hfirst : ((s.note (.invoked v)).checkCompilerFiles v).1.Undisturbed w :=
      checkCompilerFiles_undisturbed (s := s.note (.invoked v)) hne h
    simp only [invokeAll, Called.andThen]
    split
    · exact hfirst
    · exact ih _ hw' hfirst

theorem fileCompleted_calm {pch : PchFile} (hs : Stages s) (h : ∀ w ∈ s.pchWaiters pch, s.Undisturbed w) :
    Calm s (s.fileCompleted pch).1 := by
  cases hp : s.partialFiles pch with
  | none =>
    simp only [fileCompleted, hp]
    exact Calm.refl s
  | some file =>
    rw [fileCompleted_eq hp]
    have hcomplete : Calm s (s.complete pch file) := Calm.of_same (fun _ => rfl) rfl rfl
    refine andThen_calm (hcomplete.trans ?_) fun _ => Calm.of_same (fun _ => rfl) rfl rfl
    exact invokeAll_calm (C := Undisturbed) (fun _ _ hc => checkCompilerFiles_calm hc) (fun _ _ _ hc => hc)
      (fun _ _ w hne hc => checkCompilerFiles_undisturbed hne hc) _ _ (hs.once.1 pch) h

theorem pchOpened_calm (names : Names) : Calm s (s.pchOpened sid names) := by
  unfold pchOpened
  split
  · exact Calm.refl s
  · exact Calm.of_same (fun _ => rfl) rfl rfl

theorem pchCompleted_calm (hs : Stages s) (hw : sid ∈ s.completions)
    (h : ∀ pch, (s.sessions sid).task.pchFile = some pch → ∀ w, w ∈ s.pchWaiters pch ∨ w = sid → s.Undisturbed w) :
    Calm s (s.pchCompleted sid).1 := by
  cases hk : (s.sessions sid).task.pchFile with
  | none =>
    simp only [pchCompleted, hk]
    exact Calm.refl s
  | some pch =>
    rw [pchCompleted_eq hk]
    have hs' : Stages (s.dropCompletion sid) := hs.move (.dropCompletion sid)
    have hdrop : Calm s (s.dropCompletion sid) := Calm.of_same (fun _ => rfl) rfl rfl
    refine andThen_calm (hdrop.trans (fileCompleted_calm hs' fun w hmem => h pch hk w (.inl hmem))) fun hok => ?_
    cases hp : s.partialFiles pch with
    | none =>
      rw [fileCompleted_raises (s := s.dropCompletion sid) hp] at hok
      cases hok
    | some f =>
      have hd := completion_state hs hw hk (by simp [hp])
      obtain ⟨-, hsame, -⟩ := fileCompleted_moves hs' hd hp
      split
      · exact Calm.refl _
      · refine compile_calm ?_ ?_
        · rw [hsame]
          change (s.sessions sid).state ≠ .cancelled
          simp [hd]
        · -- what the handlers of others do leaves the session as it was
          have hnot : sid ∉ s.pchWaiters pch := fun hmem => (hs.pchWaiters pch sid hmem).1 (.inr (.inr (.inr hd)))
          have hkeeps := invokeAll_undisturbed (s.pchWaiters pch) ((s.dropCompletion sid).complete pch f) hnot
            (h pch hk sid (.inr rfl))
          rw [fileCompleted_eq (s := s.dropCompletion sid) hp]
          unfold Called.andThen
          split
          · exact hkeeps
          · exact hkeeps

theorem afterCompiler_calm (hlive : (s.sessions sid).completed = false) (hd : (s.sessions sid).state ≠ .cancelled) :
    Calm s (s.afterCompiler sid).1 := by
  unfold afterCompiler
  split
  · exact modify_calm (f := fun x => { x with state := .downloadingPCH, pchDesc := [], pchEnded := false }) rfl
  · refine compile_calm hd fun _ h => ?_
    have hc := h.1
    simp [hlive] at hc

theorem compileCompleted_calm (outcome : Outcome)
    (h : (s.sessions sid).completed → (s.sessions sid).state ≠ .runningCompiler) :
    Calm s (s.compileCompleted sid outcome).1 := by
  unfold compileCompleted
  split
  · rename_i hd
    have hlive : (s.sessions sid).completed = false := by
      by_contra hc
      exact h (by simpa using hc) hd
    have hstate : ∀ state, Calm s (s.modify sid fun x => { x with state }) := fun state => modify_calm rfl
    have hlive' : ∀ state, ((s.modify sid fun x => { x with state }).sessions sid).completed = false := fun state => by
      rw [modify_self]
      exact hlive
    split
    · exact ((hstate _).trans (sent_calm _ (hlive' _))).trans sessionDone_calm
    · split
      · exact ((hstate _).trans (sent_calm _ (hlive' _))).trans rescheduleSelfdestruct_calm
      · exact (sent_calm _ hlive).trans sessionDone_calm
  · exact Calm.refl s

theorem execStart_calm (ok : Bool) (traceback : Bytes)
    (h : (s.sessions sid).completed → (s.sessions sid).state ≠ .runningCompiler)
    (hdirs : (s.sessions sid).completed → s.tempdirs sid = none) : Calm s (s.execStart sid ok traceback).1 := by
  unfold execStart
  dsimp only
  split
  · rename_i hstart
    refine log_calm rfl rfl (fun _ _ => rfl) (fun e he => .inl ?_) (by simp)
    obtain rfl := List.mem_singleton.1 he
    by_contra hc
    have hnone := hdirs (by simpa [Effect.session] using hc)
    simp [hnone] at hstart
  · have hdrop : Calm s { s with execs := s.execs.erase sid } := Calm.of_same (fun _ => rfl) rfl rfl
    exact hdrop.trans (compileCompleted_calm _ h)

theorem sendCompressed_calm (parts : Nat) (hlive : (s.sessions sid).completed = false) :
    Calm s (s.sendCompressed sid (some parts)).1 := by
  unfold sendCompressed
  refine Calm.trans ?_ sessionDone_calm
  refine log_calm rfl rfl (fun _ _ => rfl) (fun e he => .inl ?_) fun w hw => ?_
  · rcases List.mem_append.1 he with he | he
    · rw [(List.mem_replicate.1 he).2]
      exact hlive
    · rw [List.mem_singleton.1 he]
      exact hlive
  · simp at hw

theorem stateProcessMsg_calm (hs : Stages s) (msg : Msg) (hlive : (s.sessions sid).completed = false)
    (h : (s.sessions sid).state = .downloadingCompiler → (s.sessions sid).compilerData →
      ∀ data, msg = .chunk data true true → ∀ w ∈ s.compilerWaiters (s.sessions sid).task.compilerId, ¬ s.Disturbs w) :
    Calm s (s.stateProcessMsg sid msg).1 := by
  unfold stateProcessMsg
  dsimp only
  split
  · -- the headers
    rename_i hd
    have hm : Calm s (s.modify sid fun x => { x with includeDirs := .pending }) := modify_calm rfl
    split
    · exact hm.trans (modify_calm (f := fun x => { x with state := .downloadingCompiler, compilerData := true }) rfl)
    · refine hm.trans (afterCompiler_calm ?_ ?_)
      · rw [modify_self]
        exact hlive
      · rw [modify_self]
        simp [hd]
  · -- the compiler
    rename_i data last ok hd
    split
    · exact Calm.refl s
    · rename_i hdata
      split
      · exact Calm.refl s
      · rename_i hlast
        have hdirs : Calm s { s with compilerDirs := (s.sessions sid).task.compilerId :: s.compilerDirs } :=
          Calm.of_same (fun _ => rfl) rfl rfl
        split
        · exact hdirs
        · rename_i hok
          obtain rfl : last = true := by simpa using hlast
          obtain rfl : ok = true := by simpa using hok
          have hwaiters := h hd (by simpa using hdata) data rfl
          generalize ht : ({ s with compilerDirs := (s.sessions sid).task.compilerId :: s.compilerDirs } : Server) = t
          have hst : Stages t := ht ▸ hs.move (.compilerDirs _)
          have hsessions : t.sessions = s.sessions := by rw [← ht]
          have hm : Calm t (t.modify sid fun x => { x with compilerData := false }) := modify_calm rfl
          have hs' : Stages (t.modify sid fun x => { x with compilerData := false }) :=
            hst.move (.noCompilerData (by rw [hsessions]; exact hd))
          have hd' : ((t.modify sid fun x => { x with compilerData := false }).sessions sid).state =
              .downloadingCompiler := by
            rw [modify_self, hsessions]
            exact hd
          have hid : ((t.modify sid fun x => { x with compilerData := false }).sessions sid).task.compilerId =
              (s.sessions sid).task.compilerId := by
            rw [modify_self, hsessions]
          obtain ⟨-, hsame, -⟩ := setCompilerReady_moves hs' hd' hid
          have hnone : ∀ w ∈ (t.modify sid fun x => { x with compilerData := false }).compilerWaiters
              (s.sessions sid).task.compilerId,
              ¬ (t.modify sid fun x => { x with compilerData := false }).Disturbs w := by
            intro w hmem hdisturbs
            -- the session does not wait for what it provides
            have hne : w ≠ sid := by
              rintro rfl
              exact (hs'.compilerWaiters _ w hmem).1 (.inr (.inr (.inl hd')))
            have hmem' : w ∈ s.compilerWaiters (s.sessions sid).task.compilerId := by
              rw [← ht] at hmem
              exact hmem
            refine hwaiters w hmem' ((disturbs_congr ?_ ?_).1 hdisturbs)
            · rw [modify_other t sid _ hne, hsessions]
            · rw [← ht]
              rfl
          have hready := setCompilerReady_calm hs' hnone
          refine andThen_calm ((ht ▸ hdirs).trans (hm.trans hready)) fun _ => afterCompiler_calm ?_ ?_
          · rw [hsame, modify_self, hsessions]
            exact hlive
          · rw [hsame, hd']
            simp
  · -- the PCH file
    split
    · exact Calm.refl s
    · split
      · exact (modify_calm (f := fun x => { x with
          pchDesc := (s.sessions sid).pchDesc ++ if (s.sessions sid).pchEnded then [] else _
          pchEnded := x.pchEnded || _ }) rfl).trans (Calm.of_same (fun _ => rfl) rfl rfl)
      · exact modify_calm (f := fun x => { x with
          pchDesc := (s.sessions sid).pchDesc ++ if (s.sessions sid).pchEnded then [] else _
          pchEnded := x.pchEnded || _ }) rfl
  · exact (modify_calm (f := fun x => { x with state := .uploadingFile }) rfl).trans
      (Calm.of_same (fun _ => rfl) rfl rfl)
  · exact sessionDone_calm
  · exact Calm.refl s
  · exact Calm.refl s

theorem processMsg_calm (hs : Stages s) (hsid : sid < s.counter) (msg : Msg)
    (hlive : (s.sessions sid).completed = false)
    (h : s.Announces sid → ∀ data, msg = .chunk data true true →
      ∀ w ∈ s.compilerWaiters (s.sessions sid).task.compilerId, ¬ s.Disturbs w) :
    Calm s (s.processMsg sid msg).1 := by
  have hstill : Still sid s (s.rescheduleSelfdestruct sid).1 := rescheduleSelfdestruct_still
  unfold processMsg
  refine andThen_calm rescheduleSelfdestruct_calm fun hok => ?_
  have hs' := hs.still hsid hstill
  obtain ⟨c, d, i, hx⟩ := hstill.session
  have hstale : ¬ s.Stale sid := by
    intro hstale
    have hraised : (s.cancelSelfdestruct sid).2 = true := cancelSelfdestruct_raises.2 hstale
    simp [rescheduleSelfdestruct, Called.andThen, hraised] at hok
  generalize (s.rescheduleSelfdestruct sid).1 = t at *
  have hlive' : (t.sessions sid).completed = false := by rw [hx]; exact hlive
  dsimp only
  split
  · split
    · exact cancelSession_calm (.inr hlive')
    · exact modify_calm (f := fun x => { x with cancelPending := true }) rfl
  · split
    · exact cancelSession_calm (.inr hlive')
    · refine stateProcessMsg_calm hs' msg hlive' fun hd hdata data hmsg w hmem hdisturbs => ?_
      have hd' : (s.sessions sid).state = .downloadingCompiler := by rw [hx] at hd; exact hd
      have hdata' : (s.sessions sid).compilerData := by rw [hx] at hdata; exact hdata
      have hmem' : w ∈ s.compilerWaiters (s.sessions sid).task.compilerId := by
        rw [own_compilerWaiters hstill.own, hx] at hmem
        exact hmem
      have hne : w ≠ sid := by
        rintro rfl
        exact (hs.compilerWaiters _ w hmem').1 (.inr (.inr (.inl hd')))
      refine h ⟨hsid, hlive, hd', hdata', hstale⟩ data hmsg w hmem' ?_
      exact (disturbs_congr (hstill.own.others w hne) (hstill.own.queue w hne)).1 hdisturbs

theorem born_calm {names : Names} {task : Task} {s' : Server} (hs : Stages s) (hb : Born names task s s') :
    Calm s s' := by
  obtain ⟨file, c, p, hsessions, hlog, -⟩ := hb.session
  have hfresh := hs.fresh s.counter (Nat.le_refl _)
  have hcompleted : ∀ w, (s'.sessions w).completed = (s.sessions w).completed := by
    intro w
    by_cases hw : w = s.counter
    · subst hw
      rw [hsessions, Function.update_self]
    · rw [hsessions, Function.update_of_ne hw]
  have hsent : Calm s (s.note (.sent s.counter (.missingFiles c p))) := sent_calm _ (by rw [hfresh])
  exact hsent.trans (Calm.of_same hcompleted hlog hb.others.2.1)

end Server

/-! ## Runs -/

/-- No call comes back to a finished session that would have it heard again. -/
def SparesFinished (s : Server) : Event → Prop
  | .message sid msg => s.Announces sid → ∀ data, msg = .chunk data true true →
    ∀ w ∈ s.compilerWaiters (s.sessions sid).task.compilerId, ¬ s.Disturbs w
  | .prepareDir sid _ | .sendCompressed sid (some _) => (s.sessions sid).completed = false
  | .pchCompleted sid => ∀ pch, (s.sessions sid).task.pchFile = some pch →
    ∀ w, w ∈ s.pchWaiters pch ∨ w = sid → s.Undisturbed w
  | .execStart sid _ _ | .compileCompleted sid _ => (s.sessions sid).completed → (s.sessions sid).state ≠ .runningCompiler
  | .newSession _ | .pchOpened _ | .pchWritten _ _ | .selfdestruct _ | .sendCompressed _ none => True

/-- Of a session that is done nothing is heard, and it has no directory. -/
structure Finished (s : Server) : Prop where
  quiet : Quiet s.log
  done : ∀ w, .done w ∈ s.log → (s.sessions w).completed
  tempdirs : ∀ w, (s.sessions w).completed → s.tempdirs w = none

theorem Finished.calm {s s' : Server} (h : Finished s) (hc : Calm s s') : Finished s' := by
  obtain ⟨l, hl, hquiet, hloud, hdone⟩ := hc.log
  refine ⟨?_, fun w hw => ?_, hc.tempdirs h.tempdirs⟩
  · rw [hl]
    refine List.pairwise_append.2 ⟨h.quiet, hquiet, fun a ha b hb heq => ?_⟩
    exact hloud b hb (h.done b.session (heq ▸ ha))
  · rw [hl] at hw
    rcases List.mem_append.1 hw with hw | hw
    · exact hc.completed w (h.done w hw)
    · exact hdone w hw

theorem step_calm {names : Names} {limit : Nat} {s s' : Server} {e : Event} (hs : Stages s) (h : Finished s)
    (he : SparesFinished s e) (hstep : step names limit s e = some s') : Calm s s' := by
  cases e with
  | newSession task =>
    cases hstep
    exact Server.born_calm hs (Server.newSession_born names task)
  | message sid msg =>
    rcases steps_of_step hstep with ⟨hsid, hlive, rfl⟩ | rfl
    · exact Server.processMsg_calm hs hsid msg hlive he
    · exact Calm.refl s'
  | prepareDir sid b =>
    obtain ⟨-, rfl⟩ := steps_of_step hstep
    exact Server.prepareDir_calm b he
  | pchOpened sid =>
    obtain ⟨-, -, rfl⟩ := steps_of_step hstep
    exact Server.pchOpened_calm names
  | pchWritten sid b =>
    obtain ⟨-, -, rfl⟩ := steps_of_step hstep
    exact Calm.of_same (fun _ => rfl) rfl rfl
  | pchCompleted sid =>
    obtain ⟨hw, rfl⟩ := steps_of_step hstep
    exact Server.pchCompleted_calm hs hw he
  | selfdestruct sid =>
    obtain ⟨-, rfl⟩ := steps_of_step hstep
    exact Server.selfdestruct_calm
  | execStart sid b traceback =>
    obtain ⟨-, rfl⟩ := steps_of_step hstep
    exact Server.execStart_calm b traceback he (h.tempdirs sid)
  | compileCompleted sid outcome =>
    obtain ⟨-, rfl⟩ := steps_of_step hstep
    have hdrop : Calm s { s with running := s.running.erase sid } := Calm.of_same (fun _ => rfl) rfl rfl
    exact hdrop.trans (Server.compileCompleted_calm outcome he)
  | sendCompressed sid parts =>
    obtain ⟨-, rfl⟩ := steps_of_step hstep
    cases parts with
    | none => exact Calm.of_same (fun _ => rfl) rfl rfl
    | some parts => exact Server.sendCompressed_calm parts he

/-- **A finished session stays finished.** In every run whose calls all spare the finished sessions, after
`session_done` has run for a session it sends nothing, starts no compiler, gets no directory and no map, and is not
done again. -/
theorem finished_stays_finished {names : Names} {limit : Nat} {dirs : List CompilerId} {es : List Event}
    {s : Server} (hm : Meets (step names limit) SparesFinished { compilerDirs := dirs } es)
    (hr : run (step names limit) { compilerDirs := dirs } es = some s) {sid : SessionId} {before after : List Effect}
    (hlog : s.log = before ++ .done sid :: after) :
    (∀ msg, .sent sid msg ∉ after) ∧ .launched sid ∉ after ∧ .tempdir sid ∉ after ∧ .tempMap sid ∉ after ∧
      .done sid ∉ after := by
  have hinit : Finished { compilerDirs := dirs } := ⟨List.Pairwise.nil, fun w h => by (cases h), fun w h => by (cases h)⟩
  obtain ⟨-, hfinished⟩ := run_inv_of_meets (step names limit) (I := fun s => Stages s ∧ Finished s)
    (fun s e s' hi he hstep => ⟨hi.1.step hstep, hi.2.calm (step_calm hi.1 hi.2 he hstep)⟩) es _ s
    ⟨Stages.init dirs, hinit⟩ hm hr
  have hquiet := hfinished.quiet
  rw [hlog] at hquiet
  have hafter := (List.pairwise_cons.1 (List.pairwise_append.1 hquiet).2.1).1
  have hsilent : ∀ e, e.session = sid → e.loud = true → e ∉ after := by
    intro e hsession hloud hmem
    have hnot := hafter e hmem (by rw [hsession])
    simp [hloud] at hnot
  exact ⟨fun msg => hsilent _ rfl rfl, hsilent _ rfl rfl, hsilent _ rfl rfl, hsilent _ rfl rfl, hsilent _ rfl rfl⟩

/-- A session is cancelled while it runs its compiler, which ends later. -/
def cancelledEvents : List Event :=
  [.newSession { compilerId := "cl" }, .message 0 .taskFiles, .execStart 0 true [], .message 0 .cancelSession,
    .compileCompleted 0 (.raised [])]

theorem finished_stays_finished_cancelled :
    ∃ s before after, run (step ⟨id, id⟩ 1) { compilerDirs := ["cl"] } cancelledEvents = some s ∧
      s.log = before ++ .done 0 :: after ∧ .launched 0 ∈ before ∧ ∀ msg, .sent 0 msg ∉ after := by
  have hm : Meets (step ⟨id, id⟩ 1) SparesFinished { compilerDirs := ["cl"] } cancelledEvents := by
    refine ⟨trivial, fun s₁ h₁ => ?_⟩
    cases h₁
    refine ⟨fun _ data h => (by cases h), fun s₂ h₂ => ?_⟩
    cases h₂
    refine ⟨fun h => absurd h (by decide), fun s₃ h₃ => ?_⟩
    cases h₃
    refine ⟨fun _ data h => (by cases h), fun s₄ h₄ => ?_⟩
    cases h₄
    exact ⟨fun _ => by decide, fun _ _ => trivial⟩
  obtain ⟨s, hs⟩ : ∃ s, run (step ⟨id, id⟩ 1) { compilerDirs := ["cl"] } cancelledEvents = some s := ⟨_, rfl⟩
  have hlog : s.log = [.sent 0 (.missingFiles false false), .compiles 0, .tempdir 0, .tempMap 0, .launched 0,
      .sent 0 .sessionCancelled] ++ .done 0 :: [] := by
    cases hs
    rfl
  exact ⟨s, _, [], hs, hlog, by simp, (finished_stays_finished hm hs hlog).1⟩

/-- A session that waits for its compiler is cancelled; when the compiler arrives it is run for it all the same. -/
theorem finished_session_compiles :
    ∃ s before after, run (step ⟨id, id⟩ 1) {} [.newSession { compilerId := "cl" }, .newSession { compilerId := "cl" },
        .message 1 .taskFiles, .message 1 .cancelSession, .message 0 .taskFiles, .message 0 (.chunk [] true true),
        .execStart 1 true []] = some s ∧
      s.log = before ++ .done 1 :: after ∧ .tempdir 1 ∈ after ∧ .tempMap 1 ∈ after ∧ .launched 1 ∈ after :=
  ⟨_, [.sent 0 (.missingFiles true false), .sent 1 (.missingFiles false false), .compiles 1, .sent 1 .sessionCancelled],
    [.invoked 1, .tempdir 1, .tempMap 1, .compiles 0, .tempdir 0, .tempMap 0, .launched 1],
    rfl, rfl, by decide, by decide, by decide⟩

end BuildPal.Runner
