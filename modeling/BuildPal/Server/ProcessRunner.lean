import BuildPal.Server.CreateProcess
/-!
# Slots for compilers

`ProcessRunner.subprocess_exec` of `runner.py` runs at most `limit` compilers at
a time. A coroutine that finds no slot waits for an event that every release
sets and every acquirer clears. We show that no slot is given twice and no
wake-up is lost, in whatever order the coroutines go on.
-/
open BuildPal.Lib
open BuildPal.CreateProcess (Launch Maps)

namespace BuildPal.Subprocess

/-! ## The coroutines -/

/-- Where a coroutine has got to. -/
inductive Phase where
  /-- It has not run yet. -/
  | created
  /-- It waits for `ready`, and its future is not done. -/
  | blocked
  /-- The future is done: it will run again. -/
  | woken
  | launching
  | communicating
  | waiting
  | done
  /-- `ready.wait()` returns at once, time and again. -/
  | spinning
  /-- `assert self.current < self.limit` has failed. -/
  | asserted
  deriving DecidableEq, Repr

/-- It has taken a slot, and not given it back. -/
def Phase.holds : Phase → Bool
  | .launching | .communicating | .waiting => true
  | .created | .blocked | .woken | .done | .spinning | .asserted => false

/-- `launches` are the `OverrideCreateProcess` contexts of the launches, and `trace` what became of them. -/
structure ProcessRunner where
  limit : Nat
  current : Int := 0
  ready : Bool := false
  phases : List Phase := []
  maps : List Maps := []
  launches : CreateProcess.System := {}
  trace : List CreateProcess.Event := []

namespace ProcessRunner
variable (s : ProcessRunner) (i : Nat)

def setPhase (phase : Phase) : ProcessRunner := { s with phases := s.phases.set i phase }

/-- `self.ready.set()`: if the event is not set, every future that is not done gets its result. -/
def setReady : ProcessRunner :=
  if s.ready then s
  else { s with ready := true, phases := s.phases.map fun p => if p = .blocked then .woken else p }

/-- The context of `OverrideCreateProcess` is entered, and left when `create_subprocess_exec` has come back. -/
def enterContext : ProcessRunner :=
  match s.maps[i]? with
  | none => s
  | some maps => { s with launches := s.launches.enter ⟨i, maps⟩, trace := s.trace ++ [.enter ⟨i, maps⟩] }

def leaveContext : ProcessRunner :=
  match s.launches.active.lookup i with
  | none => s
  | some o => { s with launches := s.launches.leave i o, trace := s.trace ++ [.leave i] }

/-- From the loop's condition on, until the next yield. -/
def acquire : ProcessRunner :=
  if s.current = s.limit then s.setPhase i (if s.ready then .spinning else .blocked)
  else
    let s := { s with ready := false }
    if s.current < s.limit then { s with current := s.current + 1 }.enterContext i |>.setPhase i .launching
    else s.setPhase i .asserted

/-- The `finally` block. -/
def release : ProcessRunner := ({ s with current := s.current - 1 }.setPhase i .done).setReady

end ProcessRunner

inductive Event where
  /-- `run_compiler` starts a coroutine. -/
  | start (maps : Maps)
  /-- A coroutine that was created or woken runs. -/
  | run (i : Nat)
  /-- What a coroutine waits for, having a slot, has come. -/
  | proceed (i : Nat)
  /-- It raises instead: the process cannot be launched, or talking to it fails. -/
  | fail (i : Nat)
  deriving DecidableEq, Repr

def step (s : ProcessRunner) : Event → Option ProcessRunner
  | .start maps => some { s with phases := s.phases ++ [.created], maps := s.maps ++ [maps] }
  | .run i =>
    match s.phases[i]? with
    | some .created | some .woken => some (s.acquire i)
    | _ => none
  | .proceed i =>
    match s.phases[i]? with
    | some .launching => some ((s.leaveContext i).setPhase i .communicating)
    | some .communicating => some (s.setPhase i .waiting)
    | some .waiting => some (s.release i)
    | _ => none
  | .fail i =>
    match s.phases[i]? with
    | some .launching => some ((s.leaveContext i).release i)
    | some .communicating | some .waiting => some (s.release i)
    | _ => none

/-- When a step is possible, and what it does. -/
def Steps (s s' : ProcessRunner) : Event → Prop
  | .start maps => s' = { s with phases := s.phases ++ [.created], maps := s.maps ++ [maps] }
  | .run i => (s.phases[i]? = some .created ∨ s.phases[i]? = some .woken) ∧ s' = s.acquire i
  | .proceed i =>
    s.phases[i]? = some .launching ∧ s' = (s.leaveContext i).setPhase i .communicating ∨
      s.phases[i]? = some .communicating ∧ s' = s.setPhase i .waiting ∨
      s.phases[i]? = some .waiting ∧ s' = s.release i
  | .fail i =>
    s.phases[i]? = some .launching ∧ s' = (s.leaveContext i).release i ∨
      (s.phases[i]? = some .communicating ∨ s.phases[i]? = some .waiting) ∧ s' = s.release i

theorem steps_of_step {s s' : ProcessRunner} {e : Event} (hs : step s e = some s') : Steps s s' e := by
  cases e with
  | start maps => exact (Option.some.inj hs).symm
  | run i =>
    simp only [step] at hs
    split at hs
    · next hp => exact ⟨.inl hp, (Option.some.inj hs).symm⟩
    · next hp => exact ⟨.inr hp, (Option.some.inj hs).symm⟩
    · cases hs
  | proceed i =>
    simp only [step] at hs
    split at hs
    · next hp => exact .inl ⟨hp, (Option.some.inj hs).symm⟩
    · next hp => exact .inr (.inl ⟨hp, (Option.some.inj hs).symm⟩)
    · next hp => exact .inr (.inr ⟨hp, (Option.some.inj hs).symm⟩)
    · cases hs
  | fail i =>
    simp only [step] at hs
    split at hs
    · next hp => exact .inl ⟨hp, (Option.some.inj hs).symm⟩
    · next hp => exact .inr ⟨.inl hp, (Option.some.inj hs).symm⟩
    · next hp => exact .inr ⟨.inr hp, (Option.some.inj hs).symm⟩
    · cases hs

/-- As many slots are taken as coroutines hold one, and none waits, awake or not, for what has already come. -/
structure Sound (s : ProcessRunner) : Prop where
  range : 0 ≤ s.current ∧ s.current ≤ s.limit
  held : s.current = s.phases.countP Phase.holds
  clear : s.current = s.limit → s.ready = false
  full : .blocked ∈ s.phases → s.current = s.limit
  yields : .spinning ∉ s.phases
  asserts : .asserted ∉ s.phases

/-! ## No slot is given twice, and no wake-up is lost -/

section Counting
variable {phases : List Phase} {p : Phase} {i : Nat}

/-- A coroutine going on changes the count by what it holds. -/
theorem countP_set (hp : phases[i]? = some p) (q : Phase) :
    (phases.set i q).countP Phase.holds + p.holds.toNat = phases.countP Phase.holds + q.holds.toNat := by
  obtain ⟨hlt, hget⟩ := List.getElem?_eq_some_iff.1 hp
  have hle : p.holds.toNat ≤ phases.countP Phase.holds := by
    cases hholds : p.holds with
    | false => exact Nat.zero_le _
    | true => exact List.countP_pos_iff.2 ⟨p, List.mem_of_getElem? hp, hholds⟩
  rw [List.countP_set hlt, hget]
  cases hp' : p.holds <;> cases hq : q.holds <;> simp only [hp', Bool.toNat_true, Bool.toNat_false] at hle ⊢ <;>
    simp only [Bool.false_eq_true, if_false, if_true] <;> omega

theorem countP_wake :
    (phases.map fun p => if p = .blocked then .woken else p).countP Phase.holds = phases.countP Phase.holds := by
  rw [List.countP_map]
  refine List.countP_congr fun p _ => ?_
  cases p <;> rfl

theorem mem_set {q r : Phase} (h : r ∈ phases.set i q) (hr : r ≠ q) : r ∈ phases :=
  (List.mem_or_eq_of_mem_set h).resolve_right hr

end Counting

section Sound
variable {s s' : ProcessRunner} {i : Nat} {p : Phase}

theorem sound_init (limit : Nat) : Sound { limit } :=
  ⟨⟨Int.le_refl _, by simp⟩, rfl, fun _ => rfl, fun h => (by cases h), fun h => (by cases h), fun h => by cases h⟩

/-- Contexts have nothing to do with slots. -/
theorem enterContext_slots (s : ProcessRunner) (i : Nat) :
    ∃ launches trace, s.enterContext i = { s with launches, trace } := by
  rw [ProcessRunner.enterContext]
  split
  · exact ⟨s.launches, s.trace, rfl⟩
  · exact ⟨_, _, rfl⟩

theorem leaveContext_slots (s : ProcessRunner) (i : Nat) :
    ∃ launches trace, s.leaveContext i = { s with launches, trace } := by
  rw [ProcessRunner.leaveContext]
  split
  · exact ⟨s.launches, s.trace, rfl⟩
  · exact ⟨_, _, rfl⟩

theorem Sound.leaveContext (h : Sound s) (i : Nat) : Sound (s.leaveContext i) := by
  obtain ⟨launches, trace, heq⟩ := leaveContext_slots s i
  rw [heq]
  exact ⟨h.range, h.held, h.clear, h.full, h.yields, h.asserts⟩

theorem acquire_sound (h : Sound s) (hp : s.phases[i]? = some p) (hholds : p.holds = false) : Sound (s.acquire i) := by
  have hle := h.range.2
  rw [ProcessRunner.acquire]
  split
  · next hfull =>
    rw [h.clear hfull]
    refine ⟨h.range, ?_, h.clear, fun _ => hfull, fun hm => h.yields (mem_set hm (by decide)),
      fun hm => h.asserts (mem_set hm (by decide))⟩
    have hsame := countP_set hp .blocked
    rw [hholds] at hsame
    exact h.held.trans (congrArg Nat.cast hsame.symm)
  · next hfree =>
    have hlt : s.current < s.limit := by omega
    dsimp only
    rw [if_pos hlt]
    obtain ⟨launches, trace, heq⟩ := enterContext_slots { s with ready := false, current := s.current + 1 } i
    rw [heq]
    refine ⟨⟨?_, ?_⟩, ?_, fun _ => rfl, fun hm => ?_, fun hm => h.yields (mem_set hm (by decide)),
      fun hm => h.asserts (mem_set hm (by decide))⟩
    · have := h.range.1
      show 0 ≤ s.current + 1
      omega
    · show s.current + 1 ≤ s.limit
      omega
    · have hmore : (s.phases.set i .launching).countP Phase.holds = s.phases.countP Phase.holds + 1 := by
        have := countP_set hp .launching
        rwa [hholds] at this
      show s.current + 1 = ((s.phases.set i .launching).countP Phase.holds : Int)
      rw [hmore, h.held]
      rfl
    · exact absurd (h.full (mem_set hm (by decide))) hfree

/-- Whoever was blocked when a slot is given back is blocked no longer. -/
theorem release_sound (h : Sound s) (hp : s.phases[i]? = some p) (hholds : p.holds = true) : Sound (s.release i) := by
  have hpos : 0 < s.phases.countP Phase.holds := List.countP_pos_iff.2 ⟨p, List.mem_of_getElem? hp, hholds⟩
  have hheld := h.held
  have hle := h.range.2
  have hcount : s.current - 1 = ((s.phases.set i .done).countP Phase.holds : Int) := by
    have hless := countP_set hp .done
    rw [hholds] at hless
    simp only [Phase.holds, Bool.toNat_true, Bool.toNat_false] at hless
    omega
  have hrange : 0 ≤ s.current - 1 ∧ s.current - 1 ≤ s.limit := by omega
  have hnot : s.current - 1 ≠ s.limit := by omega
  rw [ProcessRunner.release, ProcessRunner.setReady]
  split
  · next hready =>
    have hready' : s.ready = true := hready
    refine ⟨hrange, hcount, fun hfull => absurd hfull hnot, fun hm => ?_,
      fun hm => h.yields (mem_set hm (by decide)), fun hm => h.asserts (mem_set hm (by decide))⟩
    -- a set event leaves no one blocked
    have := h.clear (h.full (mem_set hm (by decide)))
    rw [hready'] at this
    cases this
  · refine ⟨hrange, ?_, fun hfull => absurd hfull hnot, fun hm => ?_, fun hm => ?_, fun hm => ?_⟩
    · dsimp only
      rw [countP_wake]
      exact hcount
    · obtain ⟨q, -, hq⟩ := List.mem_map.1 hm
      split at hq
      · cases hq
      · next hne => exact absurd hq hne
    · obtain ⟨q, hmem, hq⟩ := List.mem_map.1 hm
      split at hq
      · cases hq
      · exact h.yields (mem_set (hq ▸ hmem) (by decide))
    · obtain ⟨q, hmem, hq⟩ := List.mem_map.1 hm
      split at hq
      · cases hq
      · exact h.asserts (mem_set (hq ▸ hmem) (by decide))

/-- A coroutine goes on and keeps its slot. -/
theorem setPhase_sound {q : Phase} (h : Sound s) (hp : s.phases[i]? = some p) (hholds : p.holds = true)
    (hq : q.holds = true) : Sound (s.setPhase i q) := by
  refine ⟨h.range, ?_, h.clear, fun hm => h.full (mem_set hm ?_), fun hm => h.yields (mem_set hm ?_),
    fun hm => h.asserts (mem_set hm ?_)⟩
  · have hsame := countP_set hp q
    rw [hholds, hq] at hsame
    exact h.held.trans (congrArg Nat.cast (Nat.add_right_cancel hsame).symm)
  all_goals
    rintro rfl
    cases hq

theorem step_sound {e : Event} (h : Sound s) (hs : step s e = some s') : Sound s' := by
  cases e with
  | start maps =>
    cases hs
    refine ⟨h.range, by simpa [Phase.holds] using h.held, h.clear, fun hm => h.full (by simpa using hm),
      fun hm => h.yields (by simpa using hm), fun hm => h.asserts (by simpa using hm)⟩
  | run i =>
    obtain ⟨hp | hp, rfl⟩ := steps_of_step hs
    · exact acquire_sound h hp rfl
    · exact acquire_sound h hp rfl
  | proceed i =>
    rcases steps_of_step hs with ⟨hp, rfl⟩ | ⟨hp, rfl⟩ | ⟨hp, rfl⟩
    · obtain ⟨launches, trace, heq⟩ := leaveContext_slots s i
      exact setPhase_sound (h.leaveContext i) (by rw [heq]; exact hp) rfl rfl
    · exact setPhase_sound h hp rfl rfl
    · exact release_sound h hp rfl
  | fail i =>
    rcases steps_of_step hs with ⟨hp, rfl⟩ | ⟨hp | hp, rfl⟩
    · obtain ⟨launches, trace, heq⟩ := leaveContext_slots s i
      exact release_sound (h.leaveContext i) (by rw [heq]; exact hp) rfl
    · exact release_sound h hp rfl
    · exact release_sound h hp rfl

end Sound

/-- **The slots are safe and no wake-up is lost**, in every state that any number of coroutines can reach. -/
theorem slots_sound (limit : Nat) (events : List Event) (s : ProcessRunner)
    (hrun : run step { limit } events = some s) : Sound s :=
  run_inv step (fun _ _ _ => step_sound) (sound_init limit) hrun

def someMaps : Maps := ⟨none, 1, 2⟩

/-- One slot and three coroutines: two of them wait, and one of these has the slot before the other runs again. -/
theorem slots_sound_three :
    ∃ s, run step { limit := 1 } [.start someMaps, .start someMaps, .start someMaps, .run 0, .run 1, .run 2, .proceed 0,
        .fail 0, .run 2, .run 1] = some s ∧ s.current = 1 ∧ s.phases = [.done, .blocked, .launching] ∧ Sound s := by
  obtain ⟨s, hs⟩ : ∃ s, run step { limit := 1 } [.start someMaps, .start someMaps, .start someMaps, .run 0, .run 1,
      .run 2, .proceed 0, .fail 0, .run 2, .run 1] = some s := ⟨_, rfl⟩
  have hsound := slots_sound 1 _ s hs
  cases hs
  exact ⟨_, rfl, rfl, rfl, hsound⟩

/-! ## The contexts of the launches -/

/-- It has taken a slot, some time. -/
def Phase.started : Phase → Bool
  | .launching | .communicating | .waiting | .done => true
  | .created | .blocked | .woken | .spinning | .asserted => false

/-- The contexts are a run of the override's own system, and the active ones are those of the coroutines that launch. -/
structure Linked (s : ProcessRunner) : Prop where
  lengths : s.maps.length = s.phases.length
  trace : run CreateProcess.step {} s.trace = some s.launches
  entered : ∀ i ∈ s.launches.entered, ∃ p, s.phases[i]? = some p ∧ p.started = true
  active : ∀ i, i ∈ s.launches.active.map (·.1) ↔ s.phases[i]? = some .launching

section Linked
variable {s s' : ProcessRunner} {i : Nat} {p q : Phase}

theorem linked_init (limit : Nat) : Linked { limit } :=
  ⟨rfl, rfl, fun _ h => (by cases h), fun i => by simp⟩

theorem getElem?_phase {phases : List Phase} (hp : phases[i]? = some p) (q : Phase) (j : Nat) :
    (phases.set i q)[j]? = if i = j then some q else phases[j]? := by
  have hlt := (List.getElem?_eq_some_iff.1 hp).1
  simp only [List.getElem?_set, hlt, if_true]

/-- A coroutine goes on, and neither begins nor ends to launch. -/
theorem Linked.setPhase (h : Linked s) (hp : s.phases[i]? = some p) (hstarted : p.started = true → q.started = true)
    (hlaunch : p = .launching ↔ q = .launching) : Linked (s.setPhase i q) := by
  refine ⟨by simpa [ProcessRunner.setPhase] using h.lengths, h.trace, fun j hj => ?_, fun j => ?_⟩
  · obtain ⟨r, hr, hrs⟩ := h.entered j hj
    simp only [ProcessRunner.setPhase, getElem?_phase hp]
    by_cases hij : i = j
    · subst hij
      obtain rfl : p = r := Option.some.inj (hp.symm.trans hr)
      exact ⟨q, if_pos rfl, hstarted hrs⟩
    · exact ⟨r, by rw [if_neg hij]; exact hr, hrs⟩
  · simp only [ProcessRunner.setPhase, getElem?_phase hp]
    refine (h.active j).trans ?_
    by_cases hij : i = j
    · subst hij
      rw [if_pos rfl, hp]
      simpa using hlaunch
    · rw [if_neg hij]

theorem Linked.setReady (h : Linked s) : Linked s.setReady := by
  rw [ProcessRunner.setReady]
  split
  · exact h
  · refine ⟨by simpa using h.lengths, h.trace, fun i hi => ?_, fun i => ?_⟩
    · obtain ⟨p, hp, hps⟩ := h.entered i hi
      refine ⟨if p = .blocked then .woken else p, by simp [hp], ?_⟩
      split
      · next hblocked =>
        subst hblocked
        cases hps
      · exact hps
    · refine (h.active i).trans ?_
      simp only [List.getElem?_map]
      cases s.phases[i]? with
      | none => simp
      | some p => cases p <;> simp

theorem lookup_isSome {l : List (Nat × CreateProcess.OverrideCreateProcess)} (h : i ∈ l.map (·.1)) :
    ∃ o, l.lookup i = some o := by
  obtain ⟨p, hp, rfl⟩ := List.mem_map.1 h
  exact Option.isSome_iff_exists.1 (List.lookup_isSome_iff.2 ⟨p, hp, beq_self_eq_true _⟩)

theorem Linked.notEntered (h : Linked s) (hp : s.phases[i]? = some p) (hstarted : p.started = false) :
    i ∉ s.launches.entered := by
  intro hi
  obtain ⟨r, hr, hrs⟩ := h.entered i hi
  obtain rfl : p = r := Option.some.inj (hp.symm.trans hr)
  rw [hstarted] at hrs
  cases hrs

theorem enterContext_eq (h : Linked s) (hp : s.phases[i]? = some p) :
    ∃ maps, s.enterContext i =
      { s with launches := s.launches.enter ⟨i, maps⟩, trace := s.trace ++ [.enter ⟨i, maps⟩] } := by
  have hlt := (List.getElem?_eq_some_iff.1 hp).1
  rw [← h.lengths] at hlt
  exact ⟨s.maps[i], by rw [ProcessRunner.enterContext, List.getElem?_eq_getElem hlt]⟩

theorem Linked.enter (h : Linked s) (hp : s.phases[i]? = some p) (hstarted : p.started = false) :
    Linked ((s.enterContext i).setPhase i .launching) := by
  obtain ⟨maps, heq⟩ := enterContext_eq h hp
  have hnew := h.notEntered hp hstarted
  rw [heq]
  refine ⟨by simpa [ProcessRunner.setPhase] using h.lengths, ?_, fun j hj => ?_, fun j => ?_⟩
  · simp only [ProcessRunner.setPhase, run_concat, h.trace, Option.bind_some, CreateProcess.step]
    exact if_neg hnew
  · simp only [ProcessRunner.setPhase, getElem?_phase hp]
    have hj' : j ∈ s.launches.entered ∨ j = i := by
      simpa [ProcessRunner.setPhase, CreateProcess.System.enter] using hj
    by_cases hij : i = j
    · exact ⟨.launching, if_pos hij, rfl⟩
    · obtain ⟨r, hr, hrs⟩ := h.entered j (hj'.resolve_right (Ne.symm hij))
      exact ⟨r, by rw [if_neg hij]; exact hr, hrs⟩
  · simp only [ProcessRunner.setPhase, getElem?_phase hp]
    have hmem : j ∈ (s.launches.enter ⟨i, maps⟩).active.map (·.1) ↔ j ∈ s.launches.active.map (·.1) ∨ j = i := by
      simp [CreateProcess.System.enter]
    refine hmem.trans ?_
    rw [h.active j]
    by_cases hij : i = j
    · simp [hij]
    · simp [hij, Ne.symm hij]

theorem leaveContext_eq (h : Linked s) (hp : s.phases[i]? = some .launching) :
    ∃ o, s.launches.active.lookup i = some o ∧
      s.leaveContext i = { s with launches := s.launches.leave i o, trace := s.trace ++ [.leave i] } := by
  obtain ⟨o, ho⟩ := lookup_isSome ((h.active i).2 hp)
  exact ⟨o, ho, by rw [ProcessRunner.leaveContext, ho]⟩

theorem Linked.leave (h : Linked s) (hp : s.phases[i]? = some .launching) (hstarted : q.started = true)
    (hq : q ≠ .launching) : Linked ((s.leaveContext i).setPhase i q) := by
  obtain ⟨o, ho, heq⟩ := leaveContext_eq h hp
  rw [heq]
  refine ⟨by simpa [ProcessRunner.setPhase] using h.lengths, ?_, fun j hj => ?_, fun j => ?_⟩
  · simp only [ProcessRunner.setPhase, run_concat, h.trace, Option.bind_some, CreateProcess.step, ho, Option.map_some]
  · simp only [ProcessRunner.setPhase, getElem?_phase hp]
    by_cases hij : i = j
    · exact ⟨q, if_pos hij, hstarted⟩
    · obtain ⟨r, hr, hrs⟩ := h.entered j hj
      exact ⟨r, by rw [if_neg hij]; exact hr, hrs⟩
  · simp only [ProcessRunner.setPhase, getElem?_phase hp]
    have hmem : j ∈ (s.launches.leave i o).active.map (·.1) ↔ j ∈ s.launches.active.map (·.1) ∧ j ≠ i := by
      simp only [CreateProcess.System.leave, List.mem_map, List.mem_filter, decide_eq_true_eq]
      constructor
      · rintro ⟨a, ⟨ha, hne⟩, rfl⟩
        exact ⟨⟨a, ha, rfl⟩, hne⟩
      · rintro ⟨⟨a, ha, rfl⟩, hne⟩
        exact ⟨a, ⟨ha, hne⟩, rfl⟩
    refine hmem.trans ?_
    rw [h.active j]
    by_cases hij : i = j
    · subst hij
      simp [hq]
    · simp [hij, Ne.symm hij]

theorem Linked.release (h : Linked (s.setPhase i .done)) : Linked (s.release i) := by
  have hless : Linked ({ s with current := s.current - 1 }.setPhase i .done) :=
    ⟨h.lengths, h.trace, h.entered, h.active⟩
  exact hless.setReady

theorem Linked.acquire (h : Linked s) (hp : s.phases[i]? = some p) (hstarted : p.started = false)
    (hlaunch : p ≠ .launching) : Linked (s.acquire i) := by
  have hidle : ∀ q : Phase, q ≠ .launching → Linked (s.setPhase i q) := fun q hq =>
    h.setPhase hp (fun hps => by rw [hstarted] at hps; cases hps) ⟨fun heq => absurd heq hlaunch, fun heq => absurd heq hq⟩
  rw [ProcessRunner.acquire]
  split
  · split
    · exact hidle .spinning (by decide)
    · exact hidle .blocked (by decide)
  · dsimp only
    split
    · have hfree : Linked { s with ready := false, current := s.current + 1 } :=
        ⟨h.lengths, h.trace, h.entered, h.active⟩
      exact hfree.enter hp hstarted
    · have := hidle .asserted (by decide)
      exact ⟨this.lengths, this.trace, this.entered, this.active⟩

theorem step_linked {e : Event} (h : Linked s) (hs : step s e = some s') : Linked s' := by
  cases e with
  | start maps =>
    cases hs
    refine ⟨by simpa using h.lengths, h.trace, fun i hi => ?_, fun i => ?_⟩
    · obtain ⟨p, hp, hps⟩ := h.entered i hi
      have hlt := (List.getElem?_eq_some_iff.1 hp).1
      exact ⟨p, by rw [List.getElem?_append_left hlt]; exact hp, hps⟩
    · refine (h.active i).trans ?_
      by_cases hlt : i < s.phases.length
      · simp only [List.getElem?_append_left hlt]
      · have hout : s.phases[i]? = none := List.getElem?_eq_none (Nat.not_lt.1 hlt)
        simp only [List.getElem?_append_right (Nat.not_lt.1 hlt), hout]
        cases i - s.phases.length <;> simp
  | run i =>
    obtain ⟨hp | hp, rfl⟩ := steps_of_step hs
    · exact h.acquire hp rfl (by decide)
    · exact h.acquire hp rfl (by decide)
  | proceed i =>
    rcases steps_of_step hs with ⟨hp, rfl⟩ | ⟨hp, rfl⟩ | ⟨hp, rfl⟩
    · exact h.leave hp rfl (by decide)
    · exact h.setPhase hp (fun _ => rfl) (by decide)
    · exact (h.setPhase hp (fun _ => rfl) (by decide)).release
  | fail i =>
    rcases steps_of_step hs with ⟨hp, rfl⟩ | ⟨hp | hp, rfl⟩
    · exact (h.leave hp rfl (by decide)).release
    · exact (h.setPhase hp (fun _ => rfl) (by decide)).release
    · exact (h.setPhase hp (fun _ => rfl) (by decide)).release

end Linked

/-- What the coroutines do to `CreateProcess` is a run of the override's system. -/
theorem launches_run (limit : Nat) (events : List Event) (s : ProcessRunner)
    (hrun : run step { limit } events = some s) : run CreateProcess.step {} s.trace = some s.launches :=
  (run_inv step (fun _ _ _ => step_linked) (linked_init limit) hrun).trace

/-! ## One slot -/

/-- No context was entered while another one was active. -/
structure Alone (s : ProcessRunner) : Prop where
  saved : ∀ p ∈ s.launches.active, p.2.save = some .original
  restored : s.launches.active = [] → s.launches.createProcess = .original

section Alone
variable {s s' : ProcessRunner} {i : Nat} {p : Phase}

/-- With no slot taken, nothing is being launched. -/
theorem Sound.notLaunching (h : Sound s) (hl : Linked s) (hzero : s.current = 0) : s.launches.active = [] := by
  apply List.eq_nil_iff_forall_not_mem.2
  intro p hp
  have hphase := (hl.active p.1).1 (List.mem_map_of_mem hp)
  have hpos : 0 < s.phases.countP Phase.holds :=
    List.countP_pos_iff.2 ⟨.launching, List.mem_of_getElem? hphase, rfl⟩
  have := h.held
  omega

theorem Alone.acquire (h : Alone s) (hsound : Sound s) (hl : Linked s) (hone : s.limit = 1)
    (hp : s.phases[i]? = some p) : Alone (s.acquire i) := by
  rw [ProcessRunner.acquire]
  split
  · exact ⟨h.saved, h.restored⟩
  · next hfree =>
    dsimp only
    split
    · have hrange := hsound.range
      have hzero : s.current = 0 := by omega
      have hnone := hsound.notLaunching hl hzero
      have hfree : Linked { s with ready := false, current := s.current + 1 } :=
        ⟨hl.lengths, hl.trace, hl.entered, hl.active⟩
      obtain ⟨maps, heq⟩ := enterContext_eq hfree hp
      rw [heq, CreateProcess.enter_eq]
      refine ⟨fun q hq => ?_, fun hnil => ?_⟩
      · have hq' : q = (i, ⟨some maps.fileMaps, some s.launches.createProcess⟩) := by
          simpa [ProcessRunner.setPhase, hnone] using hq
        rw [hq', h.restored hnone]
      · simp [ProcessRunner.setPhase] at hnil
    · exact ⟨h.saved, h.restored⟩

theorem Alone.leave (h : Alone s) (hl : Linked s) (hp : s.phases[i]? = some .launching) :
    Alone (s.leaveContext i) := by
  obtain ⟨o, ho, heq⟩ := leaveContext_eq hl hp
  have hmem : (i, o) ∈ s.launches.active := by
    obtain ⟨l₁, l₂, hsplit, -⟩ := List.lookup_eq_some_iff.1 ho
    simp [hsplit]
  have hsave : o.save = some .original := h.saved _ hmem
  rw [heq]
  refine ⟨fun q hq => h.saved q (List.mem_filter.1 hq).1, fun _ => ?_⟩
  simp [CreateProcess.System.leave, CreateProcess.OverrideCreateProcess.exit, hsave]

theorem Alone.setReady (h : Alone s) : Alone s.setReady := by
  rw [ProcessRunner.setReady]
  split
  · exact h
  · exact ⟨h.saved, h.restored⟩

theorem Alone.release (h : Alone s) (i : Nat) : Alone (s.release i) := by
  have hless : Alone ({ s with current := s.current - 1 }.setPhase i .done) := ⟨h.saved, h.restored⟩
  exact hless.setReady

theorem step_alone {e : Event} (h : Alone s) (hsound : Sound s) (hl : Linked s) (hone : s.limit = 1)
    (hs : step s e = some s') : Alone s' := by
  cases e with
  | start maps =>
    cases hs
    exact ⟨h.saved, h.restored⟩
  | run i =>
    obtain ⟨hp | hp, rfl⟩ := steps_of_step hs
    · exact h.acquire hsound hl hone hp
    · exact h.acquire hsound hl hone hp
  | proceed i =>
    rcases steps_of_step hs with ⟨hp, rfl⟩ | ⟨-, rfl⟩ | ⟨-, rfl⟩
    · exact ⟨(h.leave hl hp).saved, (h.leave hl hp).restored⟩
    · exact ⟨h.saved, h.restored⟩
    · exact h.release i
  | fail i =>
    rcases steps_of_step hs with ⟨hp, rfl⟩ | ⟨-, rfl⟩
    · exact (h.leave hl hp).release i
    · exact h.release i

theorem acquire_limit (s : ProcessRunner) (i : Nat) : (s.acquire i).limit = s.limit := by
  rw [ProcessRunner.acquire]
  split
  · rfl
  · obtain ⟨launches, trace, heq⟩ := enterContext_slots { s with ready := false, current := s.current + 1 } i
    dsimp only
    rw [heq]
    split <;> rfl

theorem release_limit (s : ProcessRunner) (i : Nat) : (s.release i).limit = s.limit := by
  rw [ProcessRunner.release, ProcessRunner.setReady]
  split <;> rfl

theorem leaveContext_limit (s : ProcessRunner) (i : Nat) : (s.leaveContext i).limit = s.limit := by
  obtain ⟨launches, trace, heq⟩ := leaveContext_slots s i
  rw [heq]

theorem step_limit {e : Event} (hs : step s e = some s') : s'.limit = s.limit := by
  cases e with
  | start maps =>
    cases hs
    rfl
  | run i =>
    obtain ⟨-, rfl⟩ := steps_of_step hs
    exact acquire_limit s i
  | proceed i =>
    rcases steps_of_step hs with ⟨-, rfl⟩ | ⟨-, rfl⟩ | ⟨-, rfl⟩
    · exact leaveContext_limit s i
    · rfl
    · exact release_limit s i
  | fail i =>
    rcases steps_of_step hs with ⟨-, rfl⟩ | ⟨-, rfl⟩
    · exact (release_limit _ i).trans (leaveContext_limit s i)
    · exact release_limit s i

end Alone

/-- With one slot, `CreateProcess` is the original function whenever no compiler is being launched. -/
theorem one_slot_restored (events : List Event) (s : ProcessRunner) (hrun : run step { limit := 1 } events = some s)
    (hnone : .launching ∉ s.phases) : s.launches.createProcess = .original := by
  have hinv : Sound s ∧ Linked s ∧ Alone s ∧ s.limit = 1 := by
    refine run_inv step (I := fun s => Sound s ∧ Linked s ∧ Alone s ∧ s.limit = 1) ?_ ?_ hrun
    · rintro s e s' ⟨hsound, hl, h, hone⟩ hs
      exact ⟨step_sound hsound hs, step_linked hl hs, step_alone h hsound hl hone hs, (step_limit hs).trans hone⟩
    · exact ⟨sound_init 1, linked_init 1, ⟨fun _ hp => (by cases hp), fun _ => rfl⟩, rfl⟩
  obtain ⟨-, hl, h, -⟩ := hinv
  refine h.restored (List.eq_nil_iff_forall_not_mem.2 fun p hp => hnone ?_)
  exact List.mem_of_getElem? ((hl.active p.1).1 (List.mem_map_of_mem hp))

end BuildPal.Subprocess
