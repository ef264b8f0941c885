import BuildPal.Server.Waiters
/-!
# Sessions that something is still to happen to

A session that is not finished waits for its timer, for a compiler or for the
end of one; otherwise its manager would wait for ever. `__run_compiler` cancels
the timer before it prepares the run, so an exception there leaves nothing to
wait for, and so does one while the result is put together. `Prepared` says
which calls do not come to this.
-/
open BuildPal.Lib BuildPal.Message
open BuildPal.CompileSession (State Outcome)

namespace BuildPal.Runner

/-! ## More failures -/

inductive Happening where
  | event (e : Event)
  /-- The object file of the session cannot be made, or its command not put together: `__run_compiler` is to raise for
  it as it does when its headers could not be stored. -/
  | unprepared (sid : SessionId)
  /-- The same, for a session that has nothing to wait for between its headers and `__run_compiler`. -/
  | filesUnprepared (sid : SessionId)
  /-- The compiler has ended, and putting `SERVER_DONE` together raises. -/
  | resultFails (sid : SessionId) (retcode : Retcode)
  /-- `RESET`. The threads that store headers come to an end. -/
  | reset (stored : SessionId → Bool)

def Server.resultFails (s : Server) (sid : SessionId) (retcode : Retcode) : Server :=
  let s := { s with running := s.running.erase sid }
  if (s.sessions sid).state = .runningCompiler ∧ retcode = 0 then
    s.modify sid fun x => { x with state := .waitForConfirmation }
  else s

/-- `TASK_FILES`, as `processMsg` has it, when the headers cannot be stored. -/
def Server.filesUnprepared (s : Server) (sid : SessionId) : Called :=
  (s.rescheduleSelfdestruct sid).andThen fun s =>
    let x := s.sessions sid
    let s := s.modify sid fun x => { x with includeDirs := .failed }
    if x.compilerRequired then
      (s.modify sid fun x => { x with state := .downloadingCompiler, compilerData := true }, false)
    else s.afterCompiler sid

/-- Nothing refers to a session that is done. -/
def Session.afterReset (x : Session) (stored : Bool) : Session :=
  if x.completed then { completed := true }
  else if x.includeDirs = .pending then { x with includeDirs := if stored then .ready else .failed }
  else x

/-- `finish(restart=True)`: `run` makes everything anew but the sessions and their counter, and waits for the threads.
The compilers' directory stays. -/
def Server.reset (s : Server) (stored : SessionId → Bool) : Server :=
  { sessions := fun w => (s.sessions w).afterReset (stored w)
    counter := s.counter
    compilerDirs := s.compilerDirs
    nextDir := s.nextDir
    log := s.log }

def happen (names : Names) (limit : Nat) (s : Server) : Happening → Option Server
  | .event e => step names limit s e
  | .unprepared sid =>
    if (s.sessions sid).includeDirs = .unset then none
    else some (s.modify sid fun x => { x with includeDirs := .failed })
  | .filesUnprepared sid =>
    if (s.sessions sid).completed = false ∧ (s.sessions sid).state = .downloadMissingHeaders then
      some (s.filesUnprepared sid).1
    else none
  | .resultFails sid retcode => if sid ∈ s.running then some (s.resultFails sid retcode) else none
  | .reset stored => some (s.reset stored)

/-! ## What a session waits for -/

/-- Its timer, or its compiler. -/
def Server.Attended (s : Server) (w : SessionId) : Prop :=
  (s.sessions w).completed ∨ w ∈ s.queue ∨ (s.sessions w).state = .runningCompiler ∧ (w ∈ s.execs ∨ w ∈ s.running)

/-- The session waits for a file that is not there. -/
def Server.Waiting (s : Server) (w : SessionId) : Prop :=
  (∃ id, id ∉ s.compilers ∧ w ∈ s.compilerWaiters id) ∨ ∃ pch, s.files pch = none ∧ w ∈ s.pchWaiters pch

/-- Whoever waits for a file is about to run the compiler, and so is not running it; a timer that was not cancelled is
armed. -/
structure Timed (s : Server) : Prop where
  named : ∀ id, ∀ w ∈ s.compilerWaiters id, (s.sessions w).task.compilerId = id
  ready : ∀ w, w ∈ s.execs ∨ w ∈ s.running → (s.sessions w).task.compilerId ∈ s.compilers
  waiting : ∀ w, s.Waiting w → (s.sessions w).completed ∨ (s.sessions w).state = .runningCompiler
  armed : ∀ w, (s.sessions w).completed = false → (s.sessions w).selfdestruct → w ∈ s.queue

structure Tended (s : Server) : Prop where
  timed : Timed s
  attended : ∀ w < s.counter, s.Attended w

namespace Server
variable {s s' : Server} {sid : SessionId}

theorem own_waiting (h : Own sid s s') (w : SessionId) : s'.Waiting w ↔ s.Waiting w := by
  have hcompilers : s'.compilers = s.compilers := by
    change s'.shared.compilers = s.shared.compilers
    rw [h.shared]
  have hfiles : s'.files = s.files := by
    change s'.shared.files = s.shared.files
    rw [h.shared]
  unfold Waiting
  rw [own_compilerWaiters h, own_pchWaiters h, hcompilers, hfiles]

theorem own_running (h : Own sid s s') : s'.running = s.running := by
  change s'.shared.running = s.shared.running
  rw [h.shared]

theorem own_counter (h : Own sid s s') : s'.counter = s.counter := by
  change s'.shared.counter = s.shared.counter
  rw [h.shared]

theorem own_task (h : Own sid s s') (w : SessionId) : (s'.sessions w).task = (s.sessions w).task := by
  by_cases hw : w = sid
  · subst hw
    change (s'.sessions w).core.task = (s.sessions w).core.task
    rw [h.core]
  · rw [h.others w hw]

end Server

/-- A call for one session. -/
theorem Timed.own {s s' : Server} {sid : SessionId} (h : Timed s) (ho : Own sid s s')
    (hexecs : s'.execs = s.execs ∨ (s.sessions sid).task.compilerId ∈ s.compilers)
    (hwaiting : s.Waiting sid → (s'.sessions sid).completed ∨ (s'.sessions sid).state = .runningCompiler)
    (harmed : (s'.sessions sid).completed = false → (s'.sessions sid).selfdestruct → sid ∈ s'.queue) : Timed s' where
  named id w hw := by
    rw [Server.own_compilerWaiters ho] at hw
    rw [Server.own_task ho]
    exact h.named id w hw
  ready w hw := by
    have hcompilers : s'.compilers = s.compilers := by
      change s'.shared.compilers = s.shared.compilers
      rw [ho.shared]
    rw [Server.own_task ho, hcompilers]
    rw [Server.own_running ho] at hw
    rcases hw with hw | hw
    · rcases hexecs with hexecs | hready
      · exact h.ready w (.inl (hexecs ▸ hw))
      · rcases ho.execs w hw with hw | rfl
        · exact h.ready w (.inl hw)
        · exact hready
    · exact h.ready w (.inr hw)
  waiting w hw := by
    rw [Server.own_waiting ho] at hw
    by_cases hne : w = sid
    · subst hne
      exact hwaiting hw
    · rw [ho.others w hne]
      exact h.waiting w hw
  armed w hc hd := by
    by_cases hne : w = sid
    · subst hne
      exact harmed hc hd
    · rw [ho.others w hne] at hc hd
      rw [ho.queue w hne]
      exact h.armed w hc hd

/-- The others go on waiting for what they wait for. -/
theorem attended_own {s s' : Server} {sid : SessionId} (ho : Own sid s s')
    (hexecs : ∀ w, w ≠ sid → w ∈ s.execs → w ∈ s'.execs) (h : ∀ w < s.counter, w ≠ sid → s.Attended w)
    (hsid : s'.Attended sid) : ∀ w < s'.counter, s'.Attended w := by
  intro w hw
  by_cases hne : w = sid
  · subst hne
    exact hsid
  · rw [Server.own_counter ho] at hw
    unfold Server.Attended at h ⊢
    rw [ho.others w hne, ho.queue w hne, Server.own_running ho]
    rcases h w hw hne with h | h | ⟨hd, h | h⟩
    · exact .inl h
    · exact .inr (.inl h)
    · exact .inr (.inr ⟨hd, .inl (hexecs w hne h)⟩)
    · exact .inr (.inr ⟨hd, .inr h⟩)

theorem Tended.own {s s' : Server} {sid : SessionId} (h : Tended s) (ht : Timed s') (ho : Own sid s s')
    (hexecs : ∀ w, w ≠ sid → w ∈ s.execs → w ∈ s'.execs) (hsid : s'.Attended sid) : Tended s' :=
  ⟨ht, attended_own ho hexecs (fun w hw _ => h.attended w hw) hsid⟩

/-! ## The end of a session -/

namespace Server
variable {s s' : Server} {sid : SessionId}

/-- A call that completes the session. -/
theorem tended_completed (h : Timed s) (hothers : ∀ w < s.counter, w ≠ sid → s.Attended w) (ho : Own sid s s')
    (hexecs : s'.execs = s.execs) (hc : (s'.sessions sid).completed) : Tended s' := by
  refine ⟨h.own ho (.inl hexecs) (fun _ => .inl hc) fun hlive _ => ?_, ?_⟩
  · rw [hc] at hlive
    cases hlive
  · exact attended_own ho (fun w _ hw => hexecs ▸ hw) hothers (.inl hc)

theorem cancelSelfdestruct_state : ((s.cancelSelfdestruct sid).1.sessions sid).state = (s.sessions sid).state ∧
    ((s.cancelSelfdestruct sid).1.sessions sid).completed = (s.sessions sid).completed := by
  obtain ⟨c, d, i, hx⟩ := (@cancelSelfdestruct_still s sid).session
  rw [hx]
  exact ⟨rfl, rfl⟩

theorem cancelSelfdestruct_cases : s.Stale sid ∧ s.cancelSelfdestruct sid = (s, true) ∨
    ¬ s.Stale sid ∧ (s.cancelSelfdestruct sid).2 = false ∧
      ((s.cancelSelfdestruct sid).1.sessions sid).selfdestruct = false := by
  unfold cancelSelfdestruct Stale
  split
  · split
    · exact .inr ⟨by simp_all, rfl, by simp⟩
    · exact .inl ⟨⟨by assumption, by assumption⟩, rfl⟩
  · exact .inr ⟨by simp_all, rfl, by simp_all⟩

/-- The timer of the session is armed if it has one. -/
def Armed (s : Server) (sid : SessionId) : Prop :=
  (s.sessions sid).completed = false → (s.sessions sid).selfdestruct → sid ∈ s.queue

theorem completed_of_stale (h : s.Armed sid) (hstale : s.Stale sid) : (s.sessions sid).completed := by
  by_contra hlive
  exact hstale.2 (h (by simpa using hlive) hstale.1)

theorem sessionDone_completed (h : s.Armed sid) : ((s.sessionDone sid).1.sessions sid).completed := by
  unfold sessionDone
  split
  · assumption
  · rename_i hlive
    rcases @cancelSelfdestruct_cases s sid with ⟨hstale, -⟩ | ⟨-, hok, -⟩
    · exact absurd (completed_of_stale h hstale) hlive
    · simp [Called.andThen, hok, finish]

theorem sessionDone_tended (h : Timed s) (hothers : ∀ w < s.counter, w ≠ sid → s.Attended w) :
    Tended (s.sessionDone sid).1 :=
  tended_completed h hothers sessionDone_own sessionDone_execs (sessionDone_completed (h.armed sid))

theorem cancelSession_tended (h : Tended s) : Tended (s.cancelSession sid).1 := by
  have hown : Own sid s (s.cancelSession sid).1 := cancelSession_own
  have hexecs : (s.cancelSession sid).1.execs = s.execs := cancelSession_execs
  unfold cancelSession at hown hexecs ⊢
  split
  · exact h
  · rename_i hd
    rw [if_neg hd] at hown hexecs
    refine tended_completed h.timed (fun w hw _ => h.attended w hw) hown hexecs (sessionDone_completed ?_)
    unfold Armed
    rw [modify_self]
    exact h.timed.armed sid

/-! ## Running the compiler -/

/-- `__run_compiler` is to raise for the session after it has cancelled its timer. -/
def CutShort (s : Server) (w : SessionId) : Prop :=
  (s.sessions w).completed = false ∧ (s.sessions w).cancelPending = false ∧
    ((s.sessions w).task.msvc = false ∨ (s.sessions w).includeDirs = .failed)

instance (s : Server) (w : SessionId) : Decidable (s.CutShort w) := inferInstanceAs (Decidable (_ ∧ _))

theorem cutShort_congr (hsession : s'.sessions sid = s.sessions sid) : s'.CutShort sid ↔ s.CutShort sid := by
  simp only [CutShort, hsession]

/-- What `__run_compiler` does once the timer is cancelled. -/
theorem runCompiler_cases (hcancel : (s.sessions sid).cancelPending = false) (hstale : ¬ s.Stale sid) :
    ((s.runCompiler sid).1.sessions sid).state = (s.sessions sid).state ∧
      ((s.runCompiler sid).1.sessions sid).completed = (s.sessions sid).completed ∧
      ((s.runCompiler sid).1.sessions sid).selfdestruct = false ∧ (∀ w ∈ s.execs, w ∈ (s.runCompiler sid).1.execs) ∧
      (sid ∈ (s.runCompiler sid).1.execs ∨
        (s.sessions sid).task.msvc = false ∨ (s.sessions sid).includeDirs = .failed) := by
  obtain ⟨hstate, hcompleted⟩ : ((s.cancelSelfdestruct sid).1.sessions sid).state = (s.sessions sid).state ∧ _ :=
    cancelSelfdestruct_state
  obtain ⟨htask, hdirs⟩ : ((s.cancelSelfdestruct sid).1.sessions sid).task = (s.sessions sid).task ∧ _ :=
    cancelSelfdestruct_session
  have hexecs : (s.cancelSelfdestruct sid).1.execs = s.execs := cancelSelfdestruct_execs
  rcases @cancelSelfdestruct_cases s sid with ⟨h, -⟩ | ⟨-, hok, hd⟩
  · exact absurd h hstale
  unfold runCompiler
  rw [if_neg (by simp [hcancel]), Called.andThen, if_neg (by simp [hok]), htask, hdirs]
  generalize (s.cancelSelfdestruct sid).1 = t at *
  split
  · rename_i hmsvc
    exact ⟨hstate, hcompleted, hd, fun w hw => hexecs ▸ hw, .inr (.inl hmsvc)⟩
  · split
    · rename_i hfailed
      rw [tempdir_sessions.1, tempdir_sessions.2]
      exact ⟨hstate, hcompleted, hd, fun w hw => hexecs ▸ hw, .inr (.inr hfailed)⟩
    · have hsession : (t.prepareDir sid true).sessions sid = { t.sessions sid with includeDirs := .ready } := by
        unfold prepareDir
        rw [modify_self, tempMap_sessions.1, tempdir_sessions.1]
        rfl
      have hexecs' : (t.prepareDir sid true).execs = s.execs :=
        (tempMap_sessions.2.trans tempdir_sessions.2).trans hexecs
      dsimp only
      rw [modify_self, hsession]
      exact ⟨hstate, hcompleted, hd, fun w hw => by simp [hexecs', hw], .inl (by simp)⟩

/-- The session runs its compiler, or is done with. -/
def Running (s : Server) (w : SessionId) : Prop := (s.sessions w).completed ∨ (s.sessions w).state = .runningCompiler

theorem runCompiler_tended (h : Tended s) (hc : (s.sessions sid).task.compilerId ∈ s.compilers) (hr : s.Running sid)
    (hcut : ¬ s.CutShort sid) : Tended (s.runCompiler sid).1 := by
  by_cases hcancel : (s.sessions sid).cancelPending
  · rw [runCompiler, if_pos hcancel]
    exact cancelSession_tended h
  · have hcancel' : (s.sessions sid).cancelPending = false := by simpa using hcancel
    by_cases hstale : s.Stale sid
    · have hraises : s.cancelSelfdestruct sid = (s, true) := by
        rcases @cancelSelfdestruct_cases s sid with ⟨-, heq⟩ | ⟨hn, -⟩
        · exact heq
        · exact absurd hstale hn
      simpa [runCompiler, hcancel', hraises, Called.andThen] using h
    · obtain ⟨hstate, hcompleted, hd, hexecs, hrun⟩ := runCompiler_cases hcancel' hstale
      have hown : Own sid s (s.runCompiler sid).1 := runCompiler_own
      refine h.own (h.timed.own hown (.inr hc) (fun _ => ?_) fun _ hd' => ?_) hown (fun w _ hw => hexecs w hw) ?_
      · rw [hstate, hcompleted]
        exact hr
      · rw [hd] at hd'
        cases hd'
      · unfold Attended
        rw [hstate, hcompleted]
        rcases hr with hr | hr
        · exact .inl hr
        · cases hlive : (s.sessions sid).completed with
          | true => exact .inl rfl
          | false =>
            rcases hrun with hrun | hrun
            · exact .inr (.inr ⟨hr, .inl hrun⟩)
            · exact absurd ⟨hlive, hcancel', hrun⟩ hcut

theorem checkCompilerFiles_tended (h : Tended s) (hr : s.Running sid)
    (hcut : (s.sessions sid).task.compilerId ∈ s.compilers → ¬ s.CutShort sid) :
    Tended (s.checkCompilerFiles sid).1 := by
  unfold checkCompilerFiles
  dsimp only
  split
  · rename_i hc
    exact runCompiler_tended h hc hr (hcut hc)
  · rename_i hc
    split
    · refine ⟨⟨fun id w hw => ?_, h.timed.ready, fun w hw => ?_, h.timed.armed⟩, h.attended⟩
      · by_cases hid : id = (s.sessions sid).task.compilerId
        · subst hid
          simp only [Function.update_self] at hw
          rcases List.mem_append.1 hw with hw | hw
          · exact h.timed.named _ w hw
          · rw [List.mem_singleton.1 hw]
        · simp only [Function.update_of_ne hid] at hw
          exact h.timed.named id w hw
      · by_cases hw' : w = sid
        · subst hw'
          exact hr
        · refine h.timed.waiting w (hw.imp_left ?_)
          rintro ⟨id, hid, hmem⟩
          refine ⟨id, hid, ?_⟩
          by_cases hid' : id = (s.sessions sid).task.compilerId
          · subst hid'
            simpa [hw'] using hmem
          · simpa [hid'] using hmem
    · exact h

theorem whenPchIsAvailable_tended (h : Tended s) (hr : s.Running sid)
    (hcut : s.HasPch sid → (s.sessions sid).task.compilerId ∈ s.compilers → ¬ s.CutShort sid) :
    Tended (s.whenPchIsAvailable sid).1 := by
  unfold whenPchIsAvailable
  split
  · rename_i hk
    exact checkCompilerFiles_tended h hr (hcut fun pch hpch => by simp [hk] at hpch)
  · rename_i pch hk
    split
    · rename_i hf
      refine checkCompilerFiles_tended h hr (hcut fun k hk' => ?_)
      obtain rfl : pch = k := Option.some.inj (hk.symm.trans hk')
      exact hf
    · refine ⟨⟨h.timed.named, h.timed.ready, fun w hw => ?_, h.timed.armed⟩, h.attended⟩
      by_cases hw' : w = sid
      · subst hw'
        exact hr
      · refine h.timed.waiting w (hw.imp_right ?_)
        rintro ⟨k, hk, hmem⟩
        refine ⟨k, hk, ?_⟩
        by_cases hk' : k = pch
        · subst hk'
          simpa [hw'] using hmem
        · simpa [hk'] using hmem

theorem enterRunningCompiler_tended (h : Tended s) : Tended (s.enterRunningCompiler sid) := by
  have hnote : Own sid s (s.note (.compiles sid)) := note_own rfl (by simp)
  have hown : Own sid s (s.enterRunningCompiler sid) := hnote.trans (state_own (by simp [Session.Providing]))
  have hsession : (s.enterRunningCompiler sid).sessions sid = { s.sessions sid with state := .runningCompiler } := by
    simp [enterRunningCompiler, note]
  refine ⟨h.timed.own hown (.inl rfl) (fun _ => .inr (by rw [hsession])) ?_, fun w hw => ?_⟩
  · rw [hsession]
    exact h.timed.armed sid
  · have hbefore := h.attended w hw
    by_cases hne : w = sid
    · subst hne
      unfold Attended at hbefore ⊢
      rw [hsession]
      rcases hbefore with hb | hb | ⟨-, hb⟩
      · exact .inl hb
      · exact .inr (.inl hb)
      · exact .inr (.inr ⟨rfl, hb⟩)
    · unfold Attended at hbefore ⊢
      rw [hown.others w hne]
      exact hbefore

/-- The session is prepared to compile, if it comes to that now. -/
def Prepared (s : Server) (sid : SessionId) : Prop :=
  s.HasPch sid → (s.sessions sid).task.compilerId ∈ s.compilers → ¬ s.CutShort sid

theorem compile_tended (h : Tended s) (hcut : s.Prepared sid) : Tended (s.compile sid).1 := by
  have hsession : (s.enterRunningCompiler sid).sessions sid = { s.sessions sid with state := .runningCompiler } := by
    simp [enterRunningCompiler, note]
  refine whenPchIsAvailable_tended (enterRunningCompiler_tended h) (.inr (by rw [hsession])) fun hpch hc => ?_
  unfold HasPch CutShort at *
  rw [hsession] at hpch hc ⊢
  exact hcut hpch hc

/-- The callback changes nothing a session waits for. -/
theorem rescheduleSelfdestruct_cases : s.Stale sid ∧ s.rescheduleSelfdestruct sid = (s, true) ∨
    ¬ s.Stale sid ∧ (s.rescheduleSelfdestruct sid).2 = false ∧ sid ∈ (s.rescheduleSelfdestruct sid).1.queue ∧
      (s.rescheduleSelfdestruct sid).1.sessions sid = { s.sessions sid with selfdestruct := true } := by
  unfold rescheduleSelfdestruct cancelSelfdestruct Stale
  split
  · split
    · exact .inr ⟨by simp_all, rfl, by simp [Called.andThen], by simp [Called.andThen, modify]⟩
    · exact .inl ⟨⟨by assumption, by assumption⟩, rfl⟩
  · exact .inr ⟨by simp_all, rfl, by simp [Called.andThen], by simp [Called.andThen]⟩

theorem rescheduleSelfdestruct_tended (h : Timed s) (hothers : ∀ w < s.counter, w ≠ sid → s.Attended w) :
    Tended (s.rescheduleSelfdestruct sid).1 := by
  have hstill : Still sid s (s.rescheduleSelfdestruct sid).1 := rescheduleSelfdestruct_still
  rcases @rescheduleSelfdestruct_cases s sid with ⟨hstale, heq⟩ | ⟨-, -, hq, hx⟩
  · exact tended_completed h hothers hstill.own hstill.execs
      (by rw [heq]; exact completed_of_stale (h.armed sid) hstale)
  · refine ⟨h.own hstill.own (.inl hstill.execs) (fun hw => ?_) fun _ _ => hq, ?_⟩
    · rw [hx]
      exact h.waiting sid hw
    · exact attended_own hstill.own (fun w _ hw => hstill.execs ▸ hw) hothers (.inr (.inl hq))

/-- A session whose timer runs is changed. -/
theorem modify_tended {f : Session → Session} (h : Tended s) (hq : sid ∈ s.queue)
    (htask : (f (s.sessions sid)).task = (s.sessions sid).task)
    (hw : s.Waiting sid → (f (s.sessions sid)).completed ∨ (f (s.sessions sid)).state = .runningCompiler) :
    Tended (s.modify sid f) := by
  have hsame : ∀ w, ((s.modify sid f).sessions w).task = (s.sessions w).task := by
    intro w
    by_cases hne : w = sid
    · subst hne
      rw [modify_self, htask]
    · rw [modify_other s sid f hne]
  refine ⟨⟨fun id w hmem => ?_, fun w hmem => ?_, fun w hwait => ?_, fun w hc hd => ?_⟩, fun w hlt => ?_⟩
  · rw [hsame]
    exact h.timed.named id w hmem
  · rw [hsame]
    exact h.timed.ready w hmem
  · by_cases hne : w = sid
    · subst hne
      rw [modify_self]
      exact hw hwait
    · rw [modify_other s sid f hne]
      exact h.timed.waiting w hwait
  · by_cases hne : w = sid
    · subst hne
      exact hq
    · rw [modify_other s sid f hne] at hc hd
      exact h.timed.armed w hc hd
  · by_cases hne : w = sid
    · subst hne
      exact .inr (.inl hq)
    · unfold Attended
      rw [modify_other s sid f hne]
      exact h.attended w hlt

/-- Who still provides files waits for none. -/
theorem providing_not_waiting (hs : Stages s) (hp : (s.sessions sid).Providing) : ¬ s.Waiting sid := by
  rintro (⟨id, -, hmem⟩ | ⟨pch, -, hmem⟩)
  · exact (hs.compilerWaiters id sid hmem).1 hp
  · exact (hs.pchWaiters pch sid hmem).1 hp

/-- Who runs its compiler waits for nothing any more. -/
theorem ran_not_waiting (hs : Stages s) (h : Timed s) (hran : sid ∈ s.execs ∨ sid ∈ s.running) : ¬ s.Waiting sid := by
  rintro (⟨id, hid, hmem⟩ | ⟨pch, hpch, hmem⟩)
  · rw [← h.named id sid hmem] at hid
    exact hid (h.ready sid hran)
  · have hfile : s.HasPch sid := hran.elim (fun hx => (hs.execs sid hx).2) fun hx => (hs.running sid hx).2
    have hsome := hfile pch (hs.pchWaiters pch sid hmem).2
    simp [hpch] at hsome

end Server

/-! ## Callbacks that reach several sessions -/

/-- Each of the sessions that is called meets `P`; after one that raises, no other is called. -/
def AllReached (R P : SessionId → Prop) : List SessionId → Prop
  | [] => True
  | w :: ws => P w ∧ (¬ R w → AllReached R P ws)

theorem AllReached.congr {R R' P P' : SessionId → Prop} : ∀ {ws : List SessionId}, (∀ w ∈ ws, R' w ↔ R w) →
    (∀ w ∈ ws, P w → P' w) → AllReached R P ws → AllReached R' P' ws
  | [], _, _, _ => trivial
  | w :: ws, hR, hP, h => by
    refine ⟨hP w (by simp) h.1, fun hn => ?_⟩
    rw [hR w (by simp)] at hn
    exact AllReached.congr (fun v hv => hR v (by simp [hv])) (fun v hv => hP v (by simp [hv])) (h.2 hn)

namespace Server
variable {s : Server} {sid : SessionId}

/-- `P` is what makes the handler of a session leave it attended; the handlers of others do not touch it. -/
theorem invokeAll_tended {handler : Server → SessionId → Called} {R P : Server → SessionId → Prop}
    (hh : Handles handler R) (htended : ∀ s w, Tended s → P s w → Tended (handler s w).1)
    (hnoted : ∀ s e w, P s w → P (note s e) w) (hothers : ∀ s v w, w ≠ v → P s w → P (handler s v).1 w)
    (ws : List SessionId) : ∀ s : Server, ws.Nodup → Tended s → AllReached (R s) (P s) ws →
      Tended (invokeAll handler ws s).1 := by
  induction ws with
  | nil => exact fun s _ h _ => h
  | cons v ws ih =>
    intro s hnodup h hall
    obtain ⟨hv, hnodup'⟩ := List.nodup_cons.1 hnodup
    have hne : ∀ w ∈ ws, w ≠ v := by
      rintro w hw rfl
      exact hv hw
    have hnote : Tended (s.note (.invoked v)) :=
      ⟨⟨h.timed.named, h.timed.ready, h.timed.waiting, h.timed.armed⟩, h.attended⟩
    have hfirst := htended _ v hnote (hnoted s _ v hall.1)
    simp only [invokeAll, Called.andThen]
    split
    · exact hfirst
    · rename_i hok
      refine ih _ hnodup' hfirst (AllReached.congr (fun w hw => ?_) (fun w hw hP => ?_) (hall.2 ?_))
      · exact (hh.others _ v w (hne w hw)).trans (hh.noted s _ w)
      · exact hothers _ v w (hne w hw) (hnoted s _ w hP)
      · exact fun hr => hok ((hh.raises _ v).2 ((hh.noted s _ v).2 hr))

theorem running_congr {s' : Server} (hsession : s'.sessions sid = s.sessions sid) : s'.Running sid ↔ s.Running sid := by
  simp only [Running, hsession]

theorem compilers_of_common {s' : Server} (h : s'.common = s.common) : s'.compilers = s.compilers := by
  change s'.common.compilers = s.common.compilers
  rw [h]

/-- The compiler is ready. -/
theorem setCompilerReady_tended {id : CompilerId} (hs : Stages s) (h : Tended s)
    (hcut : id ∈ s.partialCompilers → id ∉ s.compilers →
      AllReached s.RunRaises (fun w => ¬ s.CutShort w) (s.compilerWaiters id)) : Tended (s.setCompilerReady id).1 := by
  unfold setCompilerReady
  split
  · rename_i hguard
    have hready : Tended { s with
        partialCompilers := s.partialCompilers.filter (· ≠ id), compilers := id :: s.compilers } := by
      refine ⟨⟨h.timed.named, fun w hw => List.mem_cons_of_mem _ (h.timed.ready w hw), fun w hw => ?_, h.timed.armed⟩,
        h.attended⟩
      refine h.timed.waiting w (hw.imp_left ?_)
      rintro ⟨id', hid', hmem⟩
      exact ⟨id', fun hc => hid' (List.mem_cons_of_mem _ hc), hmem⟩
    have hinvoked := invokeAll_tended (P := fun s w =>
      (s.sessions w).task.compilerId ∈ s.compilers ∧ s.Running w ∧ ¬ s.CutShort w) runCompiler_handles
      (fun t w ht hP => runCompiler_tended ht hP.1 hP.2.1 hP.2.2) (fun _ _ _ hP => hP)
      (fun t v w hne hP => by
        have hown : Own v t (t.runCompiler v).1 := runCompiler_own
        rw [hown.others w hne, compilers_of_common (own_common hown), running_congr (hown.others w hne),
          cutShort_congr (hown.others w hne)]
        exact hP) _ _ (hs.once.2 id) hready
      (AllReached.congr (fun _ _ => Iff.rfl) (fun w hw hP => ⟨?_, ?_, hP⟩) (hcut hguard.1 hguard.2))
    · unfold Called.andThen
      split
      · exact hinvoked
      · refine ⟨⟨fun id' w hw => ?_, hinvoked.timed.ready, fun w hw => ?_, hinvoked.timed.armed⟩, hinvoked.attended⟩
        · by_cases hid : id' = id
          · subst hid
            simp at hw
          · simp only [Function.update_of_ne hid] at hw
            exact hinvoked.timed.named id' w hw
        · refine hinvoked.timed.waiting w (hw.imp_left ?_)
          rintro ⟨id', hid', hmem⟩
          by_cases hid : id' = id
          · subst hid
            simp at hmem
          · simp only [Function.update_of_ne hid] at hmem
            exact ⟨id', hid', hmem⟩
    · exact List.mem_cons.2 (.inl (h.timed.named id w hw))
    · exact h.timed.waiting w (.inl ⟨id, hguard.2, hw⟩)
  · exact h

/-- The session, having its PCH file, is prepared to compile. -/
def Unhurt (s : Server) (w : SessionId) : Prop := (s.sessions w).task.compilerId ∈ s.compilers → ¬ s.CutShort w

theorem checkCompilerFiles_others {v w : SessionId} (hne : w ≠ v) :
    (s.checkCompilerFiles v).1.sessions w = s.sessions w := by
  rcases checkCompilerFiles_cases s v with h | ⟨waiters, b, h⟩
  · rw [h]
    exact runCompiler_own.others w hne
  · rw [h]

theorem unhurt_congr {s' : Server} (hsession : s'.sessions sid = s.sessions sid) (hcommon : s'.common = s.common) :
    s'.Unhurt sid ↔ s.Unhurt sid := by
  simp only [Unhurt, hsession, cutShort_congr hsession, compilers_of_common hcommon]

/-- The PCH file is there. -/
theorem fileCompleted_tended {pch : PchFile} (hs : Stages s) (h : Tended s)
    (hcut : s.partialFiles pch ≠ none → AllReached s.CheckRaises s.Unhurt (s.pchWaiters pch)) :
    Tended (s.fileCompleted pch).1 := by
  cases hp : s.partialFiles pch with
  | none =>
    rw [fileCompleted_raises hp]
    exact h
  | some file =>
    rw [fileCompleted_eq hp]
    have hfiles : s.files pch = none := by
      by_contra hne
      rw [hs.alone pch hne] at hp
      cases hp
    have hcomplete : Tended (s.complete pch file) := by
      refine ⟨⟨h.timed.named, h.timed.ready, fun w hw => ?_, h.timed.armed⟩, h.attended⟩
      refine h.timed.waiting w (hw.imp_right ?_)
      rintro ⟨k, hk, hmem⟩
      refine ⟨k, ?_, hmem⟩
      by_cases heq : k = pch
      · subst heq
        exact hfiles
      · simpa only [complete, Function.update_of_ne heq] using hk
    have hinvoked := invokeAll_tended (P := fun s w => s.Running w ∧ s.Unhurt w) checkCompilerFiles_handles
      (fun t w ht hP => checkCompilerFiles_tended ht hP.1 hP.2) (fun _ _ _ hP => hP)
      (fun t v w hne hP => by
        rw [running_congr (checkCompilerFiles_others hne),
          unhurt_congr (checkCompilerFiles_others hne) (checkCompilerFiles_handles.common t v)]
        exact hP) _ _ (hs.once.1 pch) hcomplete
      (AllReached.congr (R := s.CheckRaises) (fun _ _ => Iff.rfl) (fun w hw hP => ⟨?_, hP⟩) (hcut (by simp [hp])))
    · unfold Called.andThen
      split
      · exact hinvoked
      · refine ⟨⟨hinvoked.timed.named, hinvoked.timed.ready, fun w hw => ?_, hinvoked.timed.armed⟩, hinvoked.attended⟩
        refine hinvoked.timed.waiting w (hw.imp_right ?_)
        rintro ⟨k, hk, hmem⟩
        by_cases heq : k = pch
        · subst heq
          simp at hmem
        · simp only [Function.update_of_ne heq] at hmem
          exact ⟨k, hk, hmem⟩
    · exact h.timed.waiting w (.inr ⟨pch, hfiles, hw⟩)

/-! ## Messages -/

theorem afterCompiler_tended (hs : Stages s) (h : Tended s) (hq : sid ∈ s.queue) (hp : (s.sessions sid).Providing)
    (hcut : (s.sessions sid).pchRequired = false → s.Prepared sid) : Tended (s.afterCompiler sid).1 := by
  unfold afterCompiler
  split
  · exact modify_tended (f := fun x => { x with state := .downloadingPCH, pchDesc := [], pchEnded := false }) h hq rfl
      fun hw => absurd hw (providing_not_waiting hs hp)
  · rename_i hpch
    exact compile_tended h (hcut (by simpa using hpch))

/-- `set_compiler_ready` and what follows for the session that provided the compiler. -/
def SparesReady (s : Server) (sid : SessionId) (id : CompilerId) : Prop :=
  id ∈ s.partialCompilers → id ∉ s.compilers →
    AllReached s.RunRaises (fun w => ¬ s.CutShort w) (s.compilerWaiters id) ∧
      ((∀ w ∈ s.compilerWaiters id, ¬ s.RunRaises w) → (s.sessions sid).pchRequired = false → s.HasPch sid →
        ¬ s.CutShort sid)

/-- What the session does before `set_compiler_ready` changes nothing that decides what follows. -/
structure Alike (sid : SessionId) (s t : Server) : Prop where
  others : ∀ w, w ≠ sid → t.sessions w = s.sessions w
  queue : ∀ w, w ≠ sid → (w ∈ t.queue ↔ w ∈ s.queue)
  session : ∃ d c, t.sessions sid = { s.sessions sid with selfdestruct := d, compilerData := c }
  compilers : t.compilers = s.compilers
  partialCompilers : t.partialCompilers = s.partialCompilers
  compilerWaiters : t.compilerWaiters = s.compilerWaiters
  files : t.files = s.files

theorem Alike.sparesReady {t : Server} {id : CompilerId} (ha : Alike sid s t)
    (hne : ∀ w ∈ s.compilerWaiters id, w ≠ sid) (h : s.SparesReady sid id) : t.SparesReady sid id := by
  obtain ⟨d, c, hx⟩ := ha.session
  intro hincomplete hnot
  rw [ha.partialCompilers] at hincomplete
  rw [ha.compilers] at hnot
  obtain ⟨hall, hgoes⟩ := h hincomplete hnot
  have hraises : ∀ w ∈ s.compilerWaiters id, (t.RunRaises w ↔ s.RunRaises w) := fun w hw =>
    runRaises_congr (ha.others w (hne w hw)) (ha.queue w (hne w hw))
  rw [ha.compilerWaiters]
  refine ⟨AllReached.congr hraises (fun w hw hP => ?_) hall, fun hnone hpch hfile => ?_⟩
  · rwa [cutShort_congr (ha.others w (hne w hw))]
  · rw [hx] at hpch
    have hfile' : s.HasPch sid := by
      unfold HasPch at hfile ⊢
      rwa [hx, ha.files] at hfile
    have hcut := hgoes (fun w hw hr => hnone w hw ((hraises w hw).2 hr)) hpch hfile'
    unfold CutShort at hcut ⊢
    rwa [hx]

theorem setCompilerReady_files {id : CompilerId} (hs : Stages s) : (s.setCompilerReady id).1.files = s.files := by
  unfold setCompilerReady
  split
  · obtain ⟨-, -, hcommon, -⟩ := invokeAll_handles runCompiler_handles (s.compilerWaiters id)
      { s with partialCompilers := s.partialCompilers.filter (· ≠ id), compilers := id :: s.compilers } (hs.once.2 id)
    have hfiles := congrArg Server.files hcommon
    unfold Called.andThen
    split
    · exact hfiles
    · exact hfiles
  · rfl

/-- It raises if a session it calls does. -/
theorem setCompilerReady_raises {id : CompilerId} (hs : Stages s) (hok : (s.setCompilerReady id).2 = false) :
    id ∈ s.partialCompilers ∧ id ∉ s.compilers ∧ ∀ w ∈ s.compilerWaiters id, ¬ s.RunRaises w := by
  unfold setCompilerReady at hok
  split at hok
  · rename_i hguard
    obtain ⟨hraises, -⟩ := invokeAll_handles runCompiler_handles (s.compilerWaiters id)
      { s with partialCompilers := s.partialCompilers.filter (· ≠ id), compilers := id :: s.compilers } (hs.once.2 id)
    refine ⟨hguard.1, hguard.2, fun w hw hr => ?_⟩
    have hraised := hraises.2 ⟨w, hw, hr⟩
    rw [Called.andThen, if_pos hraised, hraised] at hok
    cases hok
  · cases hok

/-- The last part of the compiler has been unpacked. -/
theorem compilerReceived_tended {id : CompilerId} (hs : Stages s) (h : Tended s)
    (hlive : (s.sessions sid).completed = false) (hd : (s.sessions sid).state = .downloadingCompiler)
    (hid : (s.sessions sid).task.compilerId = id)
    (hcut : s.SparesReady sid id) : Tended ((s.setCompilerReady id).andThen (afterCompiler · sid)).1 := by
  have hready : Tended (s.setCompilerReady id).1 := setCompilerReady_tended hs h
    fun hincomplete hnot => (hcut hincomplete hnot).1
  have hfiles : (s.setCompilerReady id).1.files = s.files := setCompilerReady_files hs
  obtain ⟨hmoves, hsame, -⟩ := setCompilerReady_moves hs hd hid
  have hs' := hs.moves hmoves
  unfold Called.andThen
  split
  · exact hready
  · rename_i hok
    obtain ⟨hincomplete, hnot, hnone⟩ := setCompilerReady_raises hs (by simpa using hok)
    have hp : (s.sessions sid).Providing := .inr (.inr (.inl hd))
    -- the session still provides files, and so it has its timer
    have hq : sid ∈ (s.setCompilerReady id).1.queue := by
      have hattended := hready.attended sid (hs'.lt_counter (by rw [hsame]; simp [hd]))
      unfold Attended at hattended
      rw [hsame, hlive, hd] at hattended
      simpa using hattended
    refine afterCompiler_tended hs' hready hq (hsame ▸ hp) fun hpch hfile _ => ?_
    rw [hsame] at hpch
    have hfile' : s.HasPch sid := by
      unfold HasPch at hfile ⊢
      rwa [hsame, hfiles] at hfile
    rw [cutShort_congr hsame]
    exact (hcut hincomplete hnot).2 hnone hpch hfile'

/-- `TASK_FILES` leads to `__run_compiler` at once. -/
def AtOnce (s : Server) (sid : SessionId) : Prop :=
  (s.sessions sid).compilerRequired = false ∧ (s.sessions sid).pchRequired = false ∧ s.HasPch sid ∧
    (s.sessions sid).task.compilerId ∈ s.compilers

/-- The headers have arrived, and are being stored. -/
theorem filesReceived_tended (hs : Stages s) (h : Tended s) (hq : sid ∈ s.queue)
    (hd : (s.sessions sid).state = .downloadMissingHeaders) (i : IncludeDirs)
    (hcut : s.AtOnce sid → ¬ (s.modify sid fun x => { x with includeDirs := i }).CutShort sid) :
    Tended (if (s.sessions sid).compilerRequired then
      ((s.modify sid fun x => { x with includeDirs := i }).modify sid fun x =>
        { x with state := .downloadingCompiler, compilerData := true }, false)
      else (s.modify sid fun x => { x with includeDirs := i }).afterCompiler sid).1 := by
  have hp : (s.sessions sid).Providing := .inr (.inl hd)
  have hwait := providing_not_waiting hs hp
  have hm : Tended (s.modify sid fun x => { x with includeDirs := i }) :=
    modify_tended h hq rfl fun hw => absurd hw hwait
  have hstill : Still sid s (s.modify sid fun x => { x with includeDirs := i }) :=
    ⟨modify_own rfl (.inl rfl),
      ⟨(s.sessions sid).cancelPending, (s.sessions sid).selfdestruct, i, by rw [modify_self]⟩, rfl⟩
  have hs' := hs.still (hs.lt_counter (by simp [hd])) hstill
  split
  · rw [modify_modify]
    exact modify_tended (f := fun x => { x with includeDirs := i, state := .downloadingCompiler, compilerData := true })
      h hq
      rfl fun hw => absurd hw hwait
  · rename_i hr
    refine afterCompiler_tended hs' hm hq ?_ fun hpch hfile hc => hcut ⟨by simpa using hr, ?_, ?_, ?_⟩
    · rw [modify_self]
      exact hp
    · simpa using hpch
    · unfold HasPch at hfile ⊢
      rwa [modify_self] at hfile
    · rwa [modify_self] at hc

theorem compilerDirs_tended (h : Tended s) (dirs : List CompilerId) : Tended { s with compilerDirs := dirs } :=
  ⟨⟨h.timed.named, h.timed.ready, h.timed.waiting, h.timed.armed⟩, h.attended⟩

/-- The directory of the compiler is there, and its last part is unpacked into it. -/
theorem compilerUnpacked_tended (hs : Stages s) (h : Tended s) (hq : sid ∈ s.queue)
    (hlive : (s.sessions sid).completed = false) (hd : (s.sessions sid).state = .downloadingCompiler)
    (hspares : s.SparesReady sid (s.sessions sid).task.compilerId) :
    Tended (((Server.modify { s with compilerDirs := (s.sessions sid).task.compilerId :: s.compilerDirs } sid
      fun x => { x with compilerData := false }).setCompilerReady (s.sessions sid).task.compilerId).andThen
        (afterCompiler · sid)).1 := by
  have hwait := providing_not_waiting hs (.inr (.inr (.inl hd)))
  generalize ht : ({ s with compilerDirs := (s.sessions sid).task.compilerId :: s.compilerDirs } : Server) = t
  have hst : Stages t := ht ▸ hs.move (.compilerDirs _)
  have htended : Tended t := ht ▸ compilerDirs_tended h _
  have hsessions : t.sessions = s.sessions := by rw [← ht]
  have hs' : Stages (t.modify sid fun x => { x with compilerData := false }) :=
    hst.move (.noCompilerData (by rw [hsessions]; exact hd))
  have hm : Tended (t.modify sid fun x => { x with compilerData := false }) :=
    modify_tended htended (by rw [← ht]; exact hq) rfl fun hw => absurd (by subst ht; exact hw) hwait
  have halike : Alike sid s (t.modify sid fun x => { x with compilerData := false }) := by
    subst ht
    exact ⟨fun w hw => modify_other _ sid _ hw, fun _ _ => Iff.rfl,
      ⟨(s.sessions sid).selfdestruct, false, by simp⟩, rfl, rfl, rfl, rfl⟩
  refine compilerReceived_tended hs' hm ?_ ?_ ?_ (halike.sparesReady ?_ hspares)
  · rw [modify_self, hsessions]
    exact hlive
  · rw [modify_self, hsessions]
    exact hd
  · rw [modify_self, hsessions]
  · -- the session does not wait for what it provides
    rintro w hmem rfl
    exact (hs.compilerWaiters _ w hmem).1 (.inr (.inr (.inl hd)))

theorem stateProcessMsg_tended (hs : Stages s) (h : Tended s) (hq : sid ∈ s.queue) (msg : Msg)
    (hlive : (s.sessions sid).completed = false)
    (hfiles : msg = .taskFiles → (s.sessions sid).state = .downloadMissingHeaders → s.AtOnce sid →
      (s.sessions sid).cancelPending ∨ (s.sessions sid).task.msvc)
    (hchunk : ∀ data, msg = .chunk data true true → (s.sessions sid).state = .downloadingCompiler →
      (s.sessions sid).compilerData → s.SparesReady sid (s.sessions sid).task.compilerId) :
    Tended (s.stateProcessMsg sid msg).1 := by
  unfold stateProcessMsg
  dsimp only
  split
  · -- the headers
    rename_i hd
    refine filesReceived_tended hs h hq hd .pending fun hat hcut => ?_
    obtain ⟨-, hcancel, hreason⟩ := hcut
    rw [modify_self] at hcancel hreason
    rcases hfiles rfl hd hat with hc | hm
    · exact absurd hc (by simpa using hcancel)
    · rcases hreason with hr | hr
      · exact absurd hm (by simpa using hr)
      · cases hr
  · -- the compiler
    rename_i data last ok hd
    split
    · exact h
    · rename_i hdata
      split
      · exact h
      · rename_i hlast
        split
        · exact compilerDirs_tended h _
        · rename_i hok
          obtain rfl : last = true := by simpa using hlast
          obtain rfl : ok = true := by simpa using hok
          exact compilerUnpacked_tended hs h hq hlive hd (hchunk data rfl hd (by simpa using hdata))
  · -- the PCH file
    rename_i data last ok hd
    have hwait := providing_not_waiting hs (.inr (.inr (.inr hd)))
    split
    · exact h
    · have hm : ∀ b received,
        Tended (s.modify sid fun x => { x with pchDesc := received, pchEnded := x.pchEnded || b }) :=
        fun b received => modify_tended h hq rfl fun hw => absurd hw hwait
      split
      · have hmodified := hm last ((s.sessions sid).pchDesc ++ if (s.sessions sid).pchEnded then [] else data)
        exact ⟨⟨hmodified.timed.named, hmodified.timed.ready, hmodified.timed.waiting, hmodified.timed.armed⟩,
          hmodified.attended⟩
      · exact hm _ _
  · -- the result is to be sent
    rename_i hd
    have hm : Tended (s.modify sid fun x => { x with state := .uploadingFile }) := by
      refine modify_tended h hq rfl fun hw => .inl ?_
      rcases h.timed.waiting sid hw with hc | hr
      · exact hc
      · rw [hd] at hr
        cases hr
    exact ⟨⟨hm.timed.named, hm.timed.ready, hm.timed.waiting, hm.timed.armed⟩, hm.attended⟩
  · exact sessionDone_tended h.timed fun w hw _ => h.attended w hw
  · exact h
  · exact h

/-- What the message is to spare. -/
def SparesMsg (s : Server) (sid : SessionId) (msg : Msg) : Prop :=
  (msg = .taskFiles → (s.sessions sid).state = .downloadMissingHeaders → s.AtOnce sid →
      (s.sessions sid).cancelPending ∨ (s.sessions sid).task.msvc) ∧
    ∀ data, msg = .chunk data true true → s.Announces sid → s.SparesReady sid (s.sessions sid).task.compilerId

/-- A message is for a session whose timer has not fired: it is armed again. -/
theorem rescheduled (h : Tended s) (hlive : (s.sessions sid).completed = false) :
    ¬ s.Stale sid ∧ (s.rescheduleSelfdestruct sid).2 = false ∧ sid ∈ (s.rescheduleSelfdestruct sid).1.queue ∧
      (s.rescheduleSelfdestruct sid).1.sessions sid = { s.sessions sid with selfdestruct := true } := by
  rcases @rescheduleSelfdestruct_cases s sid with ⟨hstale, -⟩ | h'
  · have hc := completed_of_stale (h.timed.armed sid) hstale
    rw [hlive] at hc
    cases hc
  · exact h'

theorem still_alike {t : Server} {d : Bool} (h : Still sid s t)
    (hx : t.sessions sid = { s.sessions sid with selfdestruct := d }) : Alike sid s t where
  others := h.own.others
  queue := h.own.queue
  session := ⟨d, (s.sessions sid).compilerData, hx⟩
  compilers := compilers_of_common (own_common h.own)
  partialCompilers := by
    change t.shared.partialCompilers = s.shared.partialCompilers
    rw [h.own.shared]
  compilerWaiters := own_compilerWaiters h.own
  files := by
    change t.shared.files = s.shared.files
    rw [h.own.shared]

theorem Alike.atOnce {t : Server} (ha : Alike sid s t) (h : t.AtOnce sid) : s.AtOnce sid := by
  obtain ⟨d, c, hx⟩ := ha.session
  unfold AtOnce HasPch at h ⊢
  rwa [hx, ha.files, ha.compilers] at h

theorem processMsg_tended (hs : Stages s) (h : Tended s) (hsid : sid < s.counter) (msg : Msg)
    (hlive : (s.sessions sid).completed = false) (hspares : s.SparesMsg sid msg) : Tended (s.processMsg sid msg).1 := by
  have hstill : Still sid s (s.rescheduleSelfdestruct sid).1 := rescheduleSelfdestruct_still
  have htended : Tended (s.rescheduleSelfdestruct sid).1 :=
    rescheduleSelfdestruct_tended h.timed fun w hw _ => h.attended w hw
  obtain ⟨hstale, hok, hq, hx⟩ := rescheduled h hlive
  have hs' := hs.still hsid hstill
  have halike := still_alike hstill hx
  unfold processMsg
  rw [Called.andThen, if_neg (by simp [hok])]
  generalize (s.rescheduleSelfdestruct sid).1 = t at *
  dsimp only
  split
  · split
    · exact cancelSession_tended htended
    · exact modify_tended (f := fun x => { x with cancelPending := true }) htended hq rfl fun hw =>
        htended.timed.waiting sid hw
  · split
    · exact cancelSession_tended htended
    · refine stateProcessMsg_tended hs' htended hq msg (by rw [hx]; exact hlive) (fun hmsg hd hat => ?_)
        fun data hmsg hd hdata => ?_
      · rw [hx] at hd ⊢
        exact hspares.1 hmsg hd (halike.atOnce hat)
      · rw [hx] at hd hdata ⊢
        refine halike.sparesReady ?_ (hspares.2 data hmsg ⟨hsid, hlive, hd, hdata, hstale⟩)
        rintro w hmem rfl
        exact (hs.compilerWaiters _ w hmem).1 (.inr (.inr (.inl hd)))

theorem filesUnprepared_tended (hs : Stages s) (h : Tended s) (hlive : (s.sessions sid).completed = false)
    (hd : (s.sessions sid).state = .downloadMissingHeaders) (hspares : s.AtOnce sid → (s.sessions sid).cancelPending) :
    Tended (s.filesUnprepared sid).1 := by
  have hstill : Still sid s (s.rescheduleSelfdestruct sid).1 := rescheduleSelfdestruct_still
  have htended : Tended (s.rescheduleSelfdestruct sid).1 :=
    rescheduleSelfdestruct_tended h.timed fun w hw _ => h.attended w hw
  obtain ⟨-, hok, hq, hx⟩ := rescheduled h hlive
  have hs' := hs.still (hs.lt_counter (by simp [hd])) hstill
  have halike := still_alike hstill hx
  unfold filesUnprepared
  rw [Called.andThen, if_neg (by simp [hok])]
  generalize (s.rescheduleSelfdestruct sid).1 = t at *
  dsimp only
  refine filesReceived_tended hs' htended hq (by rw [hx]; exact hd) .failed fun hat hcut => ?_
  have hcancel := hcut.2.1
  rw [modify_self, hx] at hcancel
  exact absurd (hspares (halike.atOnce hat)) (by simpa using hcancel)

/-! ## Calls that come back -/

/-- It raises if a session it calls does, and leaves the compilers alone. -/
theorem fileCompleted_raises_cases {pch : PchFile} (hs : Stages s) :
    (s.fileCompleted pch).1.compilers = s.compilers ∧ ((s.fileCompleted pch).2 = false →
      ∃ file, s.partialFiles pch = some file ∧ ∀ w ∈ s.pchWaiters pch, ¬ s.CheckRaises w) := by
  cases hp : s.partialFiles pch with
  | none =>
    rw [fileCompleted_raises hp]
    exact ⟨rfl, fun h => by cases h⟩
  | some file =>
    rw [fileCompleted_eq hp]
    obtain ⟨hraises, -, hcommon, -⟩ := invokeAll_handles checkCompilerFiles_handles (s.pchWaiters pch)
      (s.complete pch file) (hs.once.1 pch)
    have hcompilers := compilers_of_common hcommon
    unfold Called.andThen
    split
    · rename_i hraised
      exact ⟨hcompilers, fun hok => by rw [hraised] at hok; cases hok⟩
    · rename_i hok
      exact ⟨hcompilers, fun _ => ⟨file, rfl, fun w hw hr => hok (hraises.2 ⟨w, hw, hr⟩)⟩⟩

theorem pchOpened_tended (names : Names) (h : Tended s) : Tended (s.pchOpened sid names) := by
  unfold pchOpened
  split
  · exact h
  · exact ⟨⟨h.timed.named, h.timed.ready, h.timed.waiting, h.timed.armed⟩, h.attended⟩

theorem pchCompleted_tended (hs : Stages s) (h : Tended s) (hw : sid ∈ s.completions)
    (hspares : ∀ pch, (s.sessions sid).task.pchFile = some pch → s.partialFiles pch ≠ none →
      AllReached s.CheckRaises s.Unhurt (s.pchWaiters pch) ∧
        ((∀ w ∈ s.pchWaiters pch, ¬ s.CheckRaises w) → sid ∉ s.writes → s.Unhurt sid)) :
    Tended (s.pchCompleted sid).1 := by
  cases hk : (s.sessions sid).task.pchFile with
  | none =>
    simp only [pchCompleted, hk]
    exact h
  | some pch =>
    rw [pchCompleted_eq hk]
    have hs' : Stages (s.dropCompletion sid) := hs.move (.dropCompletion sid)
    have hdrop : Tended (s.dropCompletion sid) :=
      ⟨⟨h.timed.named, h.timed.ready, h.timed.waiting, h.timed.armed⟩, h.attended⟩
    have hcompleted := fileCompleted_tended hs' hdrop fun hp => (hspares pch hk hp).1
    obtain ⟨hcompilers, hraises⟩ := @fileCompleted_raises_cases _ pch hs'
    unfold Called.andThen
    split
    · exact hcompleted
    · rename_i hok
      obtain ⟨f, hp, hnone⟩ := hraises (by simpa using hok)
      have hpart : s.partialFiles pch ≠ none := by
        rw [show s.partialFiles pch = some f from hp]
        simp
      have hd := completion_state hs hw hk hpart
      obtain ⟨-, hsame, hwrites, -⟩ := fileCompleted_moves hs' hd hp
      dsimp only
      rw [hwrites]
      split
      · exact hcompleted
      · rename_i hnot
        have hunhurt := (hspares pch hk hpart).2 hnone hnot
        refine compile_tended hcompleted fun _ hc => ?_
        rw [cutShort_congr hsame]
        rw [hsame, hcompilers] at hc
        exact hunhurt hc

/-- A session that waits for nothing changes its state. -/
theorem state_timed (h : Timed s) (hwait : ¬ s.Waiting sid) (state : State) :
    Timed (s.modify sid fun x => { x with state }) := by
  refine ⟨fun id w hw => ?_, fun w hw => ?_, fun w hw => ?_, fun w hc hd => ?_⟩
  · by_cases hne : w = sid
    · subst hne
      simpa using h.named id w hw
    · simpa [modify, hne] using h.named id w hw
  · by_cases hne : w = sid
    · subst hne
      simpa [modify] using h.ready w hw
    · simpa [modify, hne] using h.ready w hw
  · have hne : w ≠ sid := by
      rintro rfl
      exact hwait hw
    simpa [modify, hne] using h.waiting w hw
  · by_cases hne : w = sid
    · subst hne
      exact h.armed w (by simpa using hc) (by simpa using hd)
    · exact h.armed w (by simpa [modify, hne] using hc) (by simpa [modify, hne] using hd)

theorem state_attended (h : ∀ w < s.counter, w ≠ sid → s.Attended w) (state : State) :
    ∀ w < s.counter, w ≠ sid → (s.modify sid fun x => { x with state }).Attended w := by
  intro w hw hne
  have hw' := h w hw hne
  unfold Attended at hw' ⊢
  rwa [modify_other s sid _ hne]

theorem note_timed (h : Timed s) (e : Effect) : Timed (s.note e) := ⟨h.named, h.ready, h.waiting, h.armed⟩

/-- The compiler has ended. -/
theorem compileCompleted_tended (h : Timed s) (hwait : ¬ s.Waiting sid)
    (hothers : ∀ w < s.counter, w ≠ sid → s.Attended w)
    (hsid : (s.sessions sid).state ≠ .runningCompiler → sid < s.counter → s.Attended sid) (outcome : Outcome) :
    Tended (s.compileCompleted sid outcome).1 := by
  unfold compileCompleted
  split
  · split
    · exact sessionDone_tended (note_timed (state_timed h hwait _) _) (state_attended hothers _)
    · split
      · exact rescheduleSelfdestruct_tended (note_timed (state_timed h hwait _) _) (state_attended hothers _)
      · exact sessionDone_tended (note_timed h _) hothers
  · rename_i hd
    refine ⟨h, fun w hw => ?_⟩
    by_cases hne : w = sid
    · subst hne
      exact hsid hd hw
    · exact hothers w hw hne

theorem running_erase (h : Tended s) : Timed { s with running := s.running.erase sid } ∧
    ∀ w < s.counter, w ≠ sid → Attended { s with running := s.running.erase sid } w := by
  refine ⟨⟨h.timed.named, fun w hw => ?_, h.timed.waiting, h.timed.armed⟩, fun w hw hne => ?_⟩
  · exact h.timed.ready w (hw.imp_right List.mem_of_mem_erase)
  · rcases h.attended w hw with hc | hq | ⟨hd, hx | hr⟩
    · exact .inl hc
    · exact .inr (.inl hq)
    · exact .inr (.inr ⟨hd, .inl hx⟩)
    · exact .inr (.inr ⟨hd, .inr ((List.mem_erase_of_ne hne).2 hr)⟩)

theorem execs_erase (h : Tended s) : Timed { s with execs := s.execs.erase sid } ∧
    ∀ w < s.counter, w ≠ sid → Attended { s with execs := s.execs.erase sid } w := by
  refine ⟨⟨h.timed.named, fun w hw => ?_, h.timed.waiting, h.timed.armed⟩, fun w hw hne => ?_⟩
  · exact h.timed.ready w (hw.imp_left List.mem_of_mem_erase)
  · rcases h.attended w hw with hc | hq | ⟨hd, hx | hr⟩
    · exact .inl hc
    · exact .inr (.inl hq)
    · exact .inr (.inr ⟨hd, .inl ((List.mem_erase_of_ne hne).2 hx)⟩)
    · exact .inr (.inr ⟨hd, .inr hr⟩)

/-- Who does not run its compiler has its timer, or is done with. -/
theorem attended_otherwise (h : s.Attended sid) (hd : (s.sessions sid).state ≠ .runningCompiler) :
    (s.sessions sid).completed ∨ sid ∈ s.queue := by
  rcases h with hc | hq | ⟨hr, -⟩
  · exact .inl hc
  · exact .inr hq
  · exact absurd hr hd

theorem compilerEnded_tended (hs : Stages s) (h : Tended s) (hr : sid ∈ s.running) (outcome : Outcome) :
    Tended (Server.compileCompleted { s with running := s.running.erase sid } sid outcome).1 := by
  obtain ⟨htimed, hothers⟩ := @running_erase _ sid h
  refine compileCompleted_tended htimed (ran_not_waiting (s := s) hs h.timed (.inr hr)) hothers
    (fun hd hw => ?_) outcome
  rcases attended_otherwise (h.attended sid hw) hd with hc | hq
  · exact .inl hc
  · exact .inr (.inl hq)

theorem execStart_tended (hs : Stages s) (h : Tended s) (hx : sid ∈ s.execs) (ok : Bool) (traceback : Bytes) :
    Tended (s.execStart sid ok traceback).1 := by
  obtain ⟨htimed, hothers⟩ := @execs_erase _ sid h
  unfold execStart
  dsimp only
  split
  · refine ⟨⟨htimed.named, fun w hw => ?_, htimed.waiting, htimed.armed⟩, fun w hw => ?_⟩
    · rcases hw with hw | hw
      · exact htimed.ready w (.inl hw)
      · rcases List.mem_cons.1 hw with rfl | hw
        · exact h.timed.ready w (.inl hx)
        · exact htimed.ready w (.inr hw)
    · by_cases hne : w = sid
      · subst hne
        rcases h.attended w hw with hc | hq | ⟨hd, -⟩
        · exact .inl hc
        · exact .inr (.inl hq)
        · exact .inr (.inr ⟨hd, .inr (by simp)⟩)
      · rcases hothers w hw hne with hc | hq | ⟨hd, hx | hr⟩
        · exact .inl hc
        · exact .inr (.inl hq)
        · exact .inr (.inr ⟨hd, .inl hx⟩)
        · exact .inr (.inr ⟨hd, .inr (List.mem_cons_of_mem _ hr)⟩)
  · refine compileCompleted_tended htimed (ran_not_waiting (s := s) hs h.timed (.inl hx)) hothers (fun hd hw => ?_) _
    rcases attended_otherwise (h.attended sid hw) hd with hc | hq
    · exact .inl hc
    · exact .inr (.inl hq)

/-- Where the result is not sent, the timer that was armed while the compiler ran must do. -/
theorem resultFails_tended (hs : Stages s) (h : Tended s) (hr : sid ∈ s.running) (retcode : Retcode)
    (hspares : (s.sessions sid).state = .runningCompiler → (s.sessions sid).completed ∨ sid ∈ s.queue) :
    Tended (s.resultFails sid retcode) := by
  obtain ⟨htimed, hothers⟩ := @running_erase _ sid h
  have hsid : sid < s.counter → (s.sessions sid).completed ∨ sid ∈ s.queue := by
    intro hw
    by_cases hd : (s.sessions sid).state = .runningCompiler
    · exact hspares hd
    · exact attended_otherwise (h.attended sid hw) hd
  unfold resultFails
  dsimp only
  split
  · refine ⟨state_timed htimed (ran_not_waiting (s := s) hs h.timed (.inr hr)) _, fun w hw => ?_⟩
    by_cases hne : w = sid
    · subst hne
      unfold Attended
      rw [modify_self]
      rcases hsid hw with hc | hq
      · exact .inl hc
      · exact .inr (.inl hq)
    · exact state_attended hothers _ w hw hne
  · refine ⟨htimed, fun w hw => ?_⟩
    by_cases hne : w = sid
    · subst hne
      rcases hsid hw with hc | hq
      · exact .inl hc
      · exact .inr (.inl hq)
    · exact hothers w hw hne

theorem sendCompressed_tended (h : Tended s) (parts : Option Nat) : Tended (s.sendCompressed sid parts).1 := by
  cases parts with
  | none => exact ⟨⟨h.timed.named, h.timed.ready, h.timed.waiting, h.timed.armed⟩, h.attended⟩
  | some parts =>
    exact sessionDone_tended (s := { s with
      uploads := s.uploads.erase sid
      log := s.log ++ (List.replicate parts (Effect.sent sid (.chunk false)) ++ [Effect.sent sid (.chunk true)]) })
      ⟨h.timed.named, h.timed.ready, h.timed.waiting, h.timed.armed⟩ fun w hw _ => h.attended w hw

theorem selfdestruct_tended (h : Tended s) : Tended (s.selfdestruct sid) := by
  have hown : Own sid s (s.selfdestruct sid) := selfdestruct_own
  have hdone : (s.selfdestruct sid).execs = s.execs ∧ ((s.selfdestruct sid).sessions sid).completed := by
    unfold selfdestruct
    dsimp only
    split
    · exact ⟨rfl, by assumption⟩
    · exact ⟨rfl, by simp [finish]⟩
  exact tended_completed h.timed (fun w hw _ => h.attended w hw) hown hdone.1 hdone.2

/-- The headers of a session have been stored, or not. -/
theorem includeDirs_tended {s' : Server} {i : IncludeDirs} (h : Tended s) (hown : Own sid s s')
    (hexecs : s'.execs = s.execs)
    (hqueue : s'.queue = s.queue) (hx : s'.sessions sid = { s.sessions sid with includeDirs := i }) : Tended s' := by
  refine ⟨h.timed.own hown (.inl hexecs) (fun hw => ?_) fun hc hd => ?_, fun w hw => ?_⟩
  · rw [hx]
    exact h.timed.waiting sid hw
  · rw [hx] at hc hd
    rw [hqueue]
    exact h.timed.armed sid hc hd
  · rw [own_counter hown] at hw
    have hw' := h.attended w hw
    unfold Attended at hw' ⊢
    rw [hqueue, hexecs, own_running hown]
    by_cases hne : w = sid
    · subst hne
      rw [hx]
      exact hw'
    · rw [hown.others w hne]
      exact hw'

theorem prepareDir_tended (h : Tended s) (ok : Bool) : Tended (s.prepareDir sid ok) := by
  have hqueue : (s.prepareDir sid ok).queue = s.queue := by
    unfold prepareDir tempMap tempdir
    split <;> split <;> rfl
  refine includeDirs_tended (i := if ok then .ready else .failed) h (prepareDir_own ok) (prepareDir_still ok).execs
    hqueue ?_
  unfold prepareDir
  rw [modify_self, tempMap_sessions.1, tempdir_sessions.1]

/-! ## New sessions -/

theorem born_tended {names : Names} {task : Task} {s' : Server} (hs : Stages s) (h : Tended s)
    (hb : Born names task s s') : Tended s' := by
  obtain ⟨file, c, p, hsessions, -⟩ := hb.session
  have hother : ∀ w, w ≠ s.counter → s'.sessions w = s.sessions w := fun w hw => by
    rw [hsessions, Function.update_of_ne hw]
  have hnew : ∀ w, ¬ (s.sessions w).Providing → w ≠ s.counter := by
    rintro w hw rfl
    exact hw (hs.fresh_providing (Nat.le_refl _))
  have hran : ∀ w, w ∈ s'.execs ∨ w ∈ s'.running → w ≠ s.counter ∧ (w ∈ s.execs ∨ w ∈ s.running) := by
    intro w hw
    rw [hb.waiters.2.2, hb.lists.2.1] at hw
    exact ⟨hnew w (hw.elim (fun hx => (hs.execs w hx).1) fun hr => (hs.running w hr).1), hw⟩
  have hwaiting : ∀ w, s'.Waiting w → w ≠ s.counter ∧ s.Waiting w := by
    intro w hw
    unfold Waiting at hw
    rw [hb.waiters.1, hb.waiters.2.1, hb.files.1] at hw
    rcases hw with ⟨id, hid, hmem⟩ | ⟨pch, hfile, hmem⟩
    · exact ⟨hnew w (hs.compilerWaiters id w hmem).1, .inl ⟨id, fun hc => hid (hb.compilers hc), hmem⟩⟩
    · exact ⟨hnew w (hs.pchWaiters pch w hmem).1, .inr ⟨pch, hfile, hmem⟩⟩
  refine ⟨⟨fun id w hw => ?_, fun w hw => ?_, fun w hw => ?_, fun w hc hd => ?_⟩, fun w hw => ?_⟩
  · rw [hb.waiters.2.1] at hw
    rw [hother w (hnew w (hs.compilerWaiters id w hw).1)]
    exact h.timed.named id w hw
  · obtain ⟨hne, hw'⟩ := hran w hw
    rw [hother w hne]
    exact hb.compilers (h.timed.ready w hw')
  · obtain ⟨hne, hw'⟩ := hwaiting w hw
    rw [hother w hne]
    exact h.timed.waiting w hw'
  · rw [hb.others.1]
    by_cases hne : w = s.counter
    · simp [hne]
    · rw [hother w hne] at hc hd
      exact List.mem_cons_of_mem _ (h.timed.armed w hc hd)
  · unfold Attended
    rw [hb.others.1, hb.waiters.2.2, hb.lists.2.1]
    by_cases hne : w = s.counter
    · exact .inr (.inl (by simp [hne]))
    · rw [hother w hne]
      rw [hb.counter] at hw
      rcases h.attended w (by omega) with hc | hq | hr
      · exact .inl hc
      · exact .inr (.inl (List.mem_cons_of_mem _ hq))
      · exact .inr (.inr hr)

theorem filesUnprepared_moves (hs : Stages s) (hd : (s.sessions sid).state = .downloadMissingHeaders) :
    Moves s (s.filesUnprepared sid).1 := by
  have hsid : sid < s.counter := hs.lt_counter (by simp [hd])
  have hreschedule : Still sid s (s.rescheduleSelfdestruct sid).1 := rescheduleSelfdestruct_still
  have hfirst : Move s (s.rescheduleSelfdestruct sid).1 := .still hsid hreschedule
  obtain ⟨c, d, i, hx⟩ := hreschedule.session
  refine andThen_moves (.single hfirst) fun _ => ?_
  have hs₁ := hs.move hfirst
  have hd₁ : ((s.rescheduleSelfdestruct sid).1.sessions sid).state = .downloadMissingHeaders := by rw [hx]; exact hd
  generalize (s.rescheduleSelfdestruct sid).1 = t at hs₁ hd₁ ⊢
  have hstill : Still sid t (t.modify sid fun x => { x with includeDirs := .failed }) :=
    ⟨modify_own rfl (.inl rfl),
      ⟨(t.sessions sid).cancelPending, (t.sessions sid).selfdestruct, .failed, modify_self t sid _⟩, rfl⟩
  have hmove : Move t (t.modify sid fun x => { x with includeDirs := .failed }) :=
    .still (hs₁.lt_counter (by simp [hd₁])) hstill
  dsimp only
  split
  · refine (Relation.ReflTransGen.single hmove).tail (.downloadCompiler ?_)
    rw [modify_self]
    exact hd₁
  · rename_i hr
    refine (Relation.ReflTransGen.single hmove).trans (afterCompiler_moves (hs₁.move hmove) (.inl ?_) (.inl ?_))
    · rw [modify_self]
      exact hd₁
    · rw [modify_self]
      simpa using hr

/-! ## Resets -/

/-- When every session is done, nothing is left of them. -/
theorem reset_sessions (hs : Stages s) (h : ∀ w < s.counter, (s.sessions w).completed) (stored : SessionId → Bool)
    (w : SessionId) : (s.reset stored).sessions w = if w < s.counter then { completed := true } else {} := by
  by_cases hw : w < s.counter
  · simp [reset, Session.afterReset, h w hw, hw]
  · simp [reset, Session.afterReset, hs.fresh w (Nat.le_of_not_lt hw), hw]

theorem reset_stages (hs : Stages s) (h : ∀ w < s.counter, (s.sessions w).completed) (stored : SessionId → Bool) :
    Stages (s.reset stored) := by
  refine
    { fresh := fun w hw => ?_
      queue := fun _ hw => by cases hw
      pchWaiters := fun _ _ hw => by cases hw
      compilerWaiters := fun _ _ hw => by cases hw
      execs := fun _ hw => by cases hw
      running := fun _ hw => by cases hw
      uploads := fun _ hw => by cases hw
      writes := fun _ hw => by cases hw
      opened := fun _ hw => by cases hw
      completions := fun _ hw => by cases hw
      nodup := ⟨List.nodup_nil, List.nodup_nil⟩
      once := ⟨fun _ => List.nodup_nil, fun _ => List.nodup_nil⟩
      alone := fun _ hf => absurd rfl hf
      named := fun w hk => ?_
      compilerDone := fun w hd => ?_ }
  · rw [reset_sessions hs h]
    exact if_neg (Nat.not_lt_of_le hw)
  · rw [reset_sessions hs h] at hk
    split at hk <;> exact absurd rfl hk
  · rw [reset_sessions hs h] at hd
    split at hd <;> cases hd

theorem reset_tended (hs : Stages s) (h : ∀ w < s.counter, (s.sessions w).completed) (stored : SessionId → Bool) :
    Tended (s.reset stored) := by
  refine ⟨⟨fun id w hw => by (cases hw), fun w hw => by (rcases hw with hw | hw <;> cases hw), fun w hw => ?_,
    fun w _ hd => ?_⟩, fun w hw => .inl ?_⟩
  · rcases hw with ⟨id, -, hw⟩ | ⟨pch, -, hw⟩ <;> cases hw
  · rw [reset_sessions hs h] at hd
    split at hd <;> cases hd
  · rw [reset_sessions hs h, if_pos (show w < s.counter from hw)]

end Server

/-! ## Runs -/

/-- No call gives up the timer of a session for which it then does not run the compiler, no result is lost before the
timer is armed, and nothing is reset while a session is not finished. -/
def SparesTimers (s : Server) : Happening → Prop
  | .event (.message sid msg) => sid < s.counter → (s.sessions sid).completed = false → s.SparesMsg sid msg
  | .event (.pchCompleted sid) => ∀ pch, (s.sessions sid).task.pchFile = some pch → s.partialFiles pch ≠ none →
    AllReached s.CheckRaises s.Unhurt (s.pchWaiters pch) ∧
      ((∀ w ∈ s.pchWaiters pch, ¬ s.CheckRaises w) → sid ∉ s.writes → s.Unhurt sid)
  | .filesUnprepared sid => s.AtOnce sid → (s.sessions sid).cancelPending
  | .resultFails sid _ => (s.sessions sid).state = .runningCompiler → (s.sessions sid).completed ∨ sid ∈ s.queue
  | .reset _ => ∀ w < s.counter, (s.sessions w).completed
  | _ => True

theorem Stages.happen {names : Names} {limit : Nat} {s s' : Server} {e : Happening} (hs : Stages s)
    (he : SparesTimers s e) (hstep : happen names limit s e = some s') : Stages s' := by
  cases e with
  | event e => exact hs.step hstep
  | unprepared sid =>
    simp only [Runner.happen] at hstep
    split at hstep
    · cases hstep
    · rename_i hset
      cases hstep
      have hsid : sid < s.counter := by
        by_contra hn
        rw [hs.fresh sid (Nat.le_of_not_lt hn)] at hset
        exact hset rfl
      exact hs.still hsid ⟨Server.modify_own rfl (.inl rfl),
        ⟨(s.sessions sid).cancelPending, (s.sessions sid).selfdestruct, .failed, Server.modify_self s sid _⟩, rfl⟩
  | filesUnprepared sid =>
    simp only [Runner.happen] at hstep
    split at hstep
    · rename_i hd
      cases hstep
      exact hs.moves (Server.filesUnprepared_moves hs hd.2)
    · cases hstep
  | resultFails sid retcode =>
    simp only [Runner.happen] at hstep
    split at hstep
    · rename_i hr
      cases hstep
      have hs' : Stages { s with running := s.running.erase sid } := hs.move (.dropRunning sid)
      unfold Server.resultFails
      dsimp only
      split
      · have hown : Own sid { s with running := s.running.erase sid }
            (Server.modify { s with running := s.running.erase sid } sid
              fun x => { x with state := .waitForConfirmation }) :=
          Server.state_own (by simp [Session.Providing])
        exact hs'.move (Server.own_move hown rfl (hs.running sid hr).1)
      · exact hs'
    · cases hstep
  | reset stored =>
    cases hstep
    exact Server.reset_stages hs he stored

theorem happen_tended {names : Names} {limit : Nat} {s s' : Server} {e : Happening} (hs : Stages s)
    (h : Tended s) (he : SparesTimers s e) (hstep : happen names limit s e = some s') : Tended s' := by
  cases e with
  | event e =>
    simp only [happen] at hstep
    cases e with
    | newSession task =>
      cases hstep
      exact Server.born_tended hs h (Server.newSession_born names task)
    | message sid msg =>
      rcases steps_of_step hstep with ⟨hsid, hlive, rfl⟩ | rfl
      · exact Server.processMsg_tended hs h hsid msg hlive (he hsid hlive)
      · exact h
    | prepareDir sid ok =>
      obtain ⟨-, rfl⟩ := steps_of_step hstep
      exact Server.prepareDir_tended h ok
    | pchOpened sid =>
      obtain ⟨-, -, rfl⟩ := steps_of_step hstep
      exact Server.pchOpened_tended names h
    | pchWritten sid ok =>
      obtain ⟨-, -, rfl⟩ := steps_of_step hstep
      exact ⟨⟨h.timed.named, h.timed.ready, h.timed.waiting, h.timed.armed⟩, h.attended⟩
    | pchCompleted sid =>
      obtain ⟨hw, rfl⟩ := steps_of_step hstep
      exact Server.pchCompleted_tended hs h hw he
    | selfdestruct sid =>
      obtain ⟨-, rfl⟩ := steps_of_step hstep
      exact Server.selfdestruct_tended h
    | execStart sid ok traceback =>
      obtain ⟨hx, rfl⟩ := steps_of_step hstep
      exact Server.execStart_tended hs h hx ok traceback
    | compileCompleted sid outcome =>
      obtain ⟨hr, rfl⟩ := steps_of_step hstep
      exact Server.compilerEnded_tended hs h hr outcome
    | sendCompressed sid parts =>
      obtain ⟨-, rfl⟩ := steps_of_step hstep
      exact Server.sendCompressed_tended h parts
  | unprepared sid =>
    simp only [happen] at hstep
    split at hstep
    · cases hstep
    · cases hstep
      exact Server.includeDirs_tended h (Server.modify_own rfl (.inl rfl)) rfl rfl (Server.modify_self s sid _)
  | filesUnprepared sid =>
    simp only [happen] at hstep
    split at hstep
    · rename_i hd
      cases hstep
      exact Server.filesUnprepared_tended hs h hd.1 hd.2 he
    · cases hstep
  | resultFails sid retcode =>
    simp only [happen] at hstep
    split at hstep
    · rename_i hr
      cases hstep
      exact Server.resultFails_tended hs h hr retcode he
    · cases hstep
  | reset stored =>
    cases hstep
    exact Server.reset_tended hs he stored

/-- **No session gets stuck.** In every run whose calls all spare the timers, every session that is not finished has
its self-destruct timer armed, or its compiler waits for a slot, or runs. -/
theorem no_session_stuck {names : Names} {limit : Nat} {dirs : List CompilerId} {es : List Happening}
    {s : Server} (hm : Meets (happen names limit) SparesTimers { compilerDirs := dirs } es)
    (hr : run (happen names limit) { compilerDirs := dirs } es = some s) (sid : SessionId) (hsid : sid < s.counter)
    (hlive : (s.sessions sid).completed = false) : sid ∈ s.queue ∨ sid ∈ s.execs ∨ sid ∈ s.running := by
  have hinit : Tended { compilerDirs := dirs } :=
    { timed :=
        { named := fun _ _ h => by cases h
          ready := fun _ h => by rcases h with h | h <;> cases h
          waiting := fun _ h => by rcases h with ⟨_, -, h⟩ | ⟨_, -, h⟩ <;> cases h
          armed := fun _ _ h => by cases h }
      attended := fun _ h => by cases h }
  obtain ⟨-, htended⟩ := run_inv_of_meets (happen names limit) (I := fun s => Stages s ∧ Tended s)
    (fun s e s' hi he hstep => ⟨hi.1.happen he hstep, happen_tended hi.1 hi.2 he hstep⟩) es _ s
    ⟨Stages.init dirs, hinit⟩ hm hr
  rcases htended.attended sid hsid with hc | hq | ⟨-, hran⟩
  · rw [hlive] at hc
    cases hc
  · exact .inl hq
  · exact .inr hran

/-- Two sessions run their compilers one after the other; the first is heard of while it runs its compiler, and its
result is lost. -/
def slottedEvents : List Happening :=
  [.event (.newSession { compilerId := "cl" }), .event (.newSession { compilerId := "cl" }),
    .event (.message 0 .taskFiles), .event (.message 1 .taskFiles), .event (.execStart 0 true []),
    .event (.message 0 .taskFiles), .resultFails 0 0, .event (.execStart 1 true [])]

theorem no_session_stuck_slotted :
    ∃ s, run (happen ⟨id, id⟩ 1) { compilerDirs := ["cl"] } slottedEvents = some s ∧ s.queue = [0] ∧ s.running = [1] ∧
      ∀ sid < 2, sid ∈ s.queue ∨ sid ∈ s.execs ∨ sid ∈ s.running := by
  have hm : Meets (happen ⟨id, id⟩ 1) SparesTimers { compilerDirs := ["cl"] } slottedEvents := by
    refine ⟨trivial, fun s₁ h₁ => ?_⟩
    cases h₁
    refine ⟨trivial, fun s₂ h₂ => ?_⟩
    cases h₂
    refine ⟨fun _ _ => ⟨fun _ _ _ => by decide, fun _ h => by cases h⟩, fun s₃ h₃ => ?_⟩
    cases h₃
    refine ⟨fun _ _ => ⟨fun _ _ _ => by decide, fun _ h => by cases h⟩, fun s₄ h₄ => ?_⟩
    cases h₄
    refine ⟨trivial, fun s₅ h₅ => ?_⟩
    cases h₅
    refine ⟨fun _ _ => ⟨fun _ _ _ => by decide, fun _ h => by cases h⟩, fun s₆ h₆ => ?_⟩
    cases h₆
    refine ⟨fun _ => by decide, fun s₇ h₇ => ?_⟩
    cases h₇
    exact ⟨trivial, fun _ _ => trivial⟩
  obtain ⟨s, hs⟩ : ∃ s, run (happen ⟨id, id⟩ 1) { compilerDirs := ["cl"] } slottedEvents = some s := ⟨_, rfl⟩
  have hstuck := no_session_stuck hm hs
  cases hs
  refine ⟨_, rfl, by decide, by decide, fun sid hsid => hstuck sid hsid ?_⟩
  match sid, hsid with
  | 0, _ => decide
  | 1, _ => decide

/-- The headers of a session cannot be stored; the result of another is lost; and a third is there when the server is
reset. None is finished, and nothing is to happen to them. -/
theorem sessions_stuck :
    (∃ s, run (happen ⟨id, id⟩ 1) { compilerDirs := ["cl"] }
        [.event (.newSession { compilerId := "cl" }), .filesUnprepared 0] = some s ∧
      0 < s.counter ∧ (s.sessions 0).completed = false ∧ 0 ∉ s.queue ∧ 0 ∉ s.execs ∧ 0 ∉ s.running) ∧
    (∃ s, run (happen ⟨id, id⟩ 1) { compilerDirs := ["cl"] }
        [.event (.newSession { compilerId := "cl" }), .event (.message 0 .taskFiles), .event (.execStart 0 true []),
          .resultFails 0 0] = some s ∧
      0 < s.counter ∧ (s.sessions 0).completed = false ∧ 0 ∉ s.queue ∧ 0 ∉ s.execs ∧ 0 ∉ s.running) ∧
    ∃ s, run (happen ⟨id, id⟩ 1) { compilerDirs := ["cl"] }
        [.event (.newSession { compilerId := "cl" }), .reset fun _ => true] = some s ∧
      0 < s.counter ∧ (s.sessions 0).completed = false ∧ 0 ∉ s.queue ∧ 0 ∉ s.execs ∧ 0 ∉ s.running :=
  ⟨⟨_, rfl, by decide, by decide, by decide, by decide, by decide⟩,
    ⟨_, rfl, by decide, by decide, by decide, by decide, by decide⟩,
    ⟨_, rfl, by decide, by decide, by decide, by decide, by decide⟩⟩

end BuildPal.Runner
