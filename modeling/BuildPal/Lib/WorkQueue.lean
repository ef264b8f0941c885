import BuildPal.Lib.Runs
import Mathlib.Data.List.Perm.Basic
/-!
# Work queues

Workers take items from a queue, first come, first served. To close the queue a
mark is put into it for each worker, and a worker that takes a mark stops. A
worker that fails stops too, and what it was working on is lost.
-/

namespace BuildPal.Lib.WorkQueue

structure State (α : Type*) where
  /-- `none` is a mark. -/
  queue : List (Option α) := []
  idle : Nat
  busy : List α := []
  handled : List α := []
  lost : List α := []
  /-- All items, in the order in which they were added, and those that were taken, in the order in which they were. -/
  added : List α := []
  taken : List α := []
  /-- What had been added when the queue was closed. -/
  closed : Option (List α) := none

/-- A worker is named by its place among the busy ones. -/
inductive Event (α : Type*) where
  | add (a : α)
  | take
  | finish (worker : Nat)
  | fail (worker : Nat)
  | close

section
variable {α : Type*} (workers : Nat)

def start : State α := { idle := workers }

def step (s : State α) : Event α → Option (State α)
  | .add a => some { s with queue := s.queue ++ [some a], added := s.added ++ [a] }
  | .take =>
    if s.idle = 0 then none
    else
      match s.queue with
      | [] => none
      | none :: queue => some { s with queue, idle := s.idle - 1 }
      | some a :: queue => some { s with queue, idle := s.idle - 1, busy := s.busy ++ [a], taken := s.taken ++ [a] }
  | .finish worker => s.busy[worker]?.map fun a =>
    { s with idle := s.idle + 1, busy := s.busy.eraseIdx worker, handled := s.handled ++ [a] }
  | .fail worker => s.busy[worker]?.map fun a => { s with busy := s.busy.eraseIdx worker, lost := s.lost ++ [a] }
  | .close => some { s with
      queue := s.queue ++ List.replicate workers none
      closed := s.closed.or (some s.added) }

end

namespace State

variable {α : Type*}

/-- The workers that have not stopped. -/
def working (s : State α) : Nat := s.idle + s.busy.length

end State

variable {α : Type*} {workers : Nat} {s s' : State α}

/-! ## Nothing is taken twice, nor left -/

structure Inv (workers : Nat) (s : State α) : Prop where
  taken : (s.handled ++ s.busy ++ s.lost).Perm s.taken
  opened : s.closed = none → s.working + s.lost.length = workers ∧
    ∃ waiting, s.added = s.taken ++ waiting ∧ s.queue = waiting.map some
  /-- The marks that are there for the workers still working come after all that was added before them. -/
  closing : ∀ before, s.closed = some before → before <+: s.added ∧ ∃ waiting rest, before = s.taken ++ waiting ∧
    s.queue = waiting.map some ++ (List.replicate (s.working + s.lost.length) none ++ rest) ∧
    (waiting ≠ [] → s.working + s.lost.length = workers)

theorem inv_start : Inv workers (start workers : State α) where
  taken := .refl _
  opened _ := ⟨rfl, [], rfl, rfl⟩
  closing _ h := by cases h

theorem perm_eraseIdx {l : List α} {i : Nat} {a : α} (h : l[i]? = some a) : (l.eraseIdx i ++ [a]).Perm l := by
  obtain ⟨hi, rfl⟩ := List.getElem?_eq_some_iff.1 h
  exact (List.perm_append_singleton _ _).trans (List.getElem_cons_eraseIdx_perm hi)

theorem length_eraseIdx {l : List α} {i : Nat} {a : α} (h : l[i]? = some a) : (l.eraseIdx i).length + 1 = l.length := by
  have hlen := (perm_eraseIdx h).length_eq
  rwa [List.length_append, List.length_singleton] at hlen

/-- What a worker takes is a mark or an item. -/
theorem take_cases (hs : step workers s .take = some s') : s.idle ≠ 0 ∧
    ((∃ queue, s.queue = none :: queue ∧ s' = { s with queue, idle := s.idle - 1 }) ∨
      ∃ a queue, s.queue = some a :: queue ∧
        s' = { s with queue, idle := s.idle - 1, busy := s.busy ++ [a], taken := s.taken ++ [a] }) := by
  simp only [step, Option.ite_none_left_eq_some] at hs
  obtain ⟨hidle, hs⟩ := hs
  refine ⟨hidle, ?_⟩
  split at hs
  · cases hs
  · next queue hqueue =>
    cases hs
    exact .inl ⟨queue, hqueue, rfl⟩
  · next a queue hqueue =>
    cases hs
    exact .inr ⟨a, queue, hqueue, rfl⟩

theorem take_inv (h : Inv workers s) (hs : step workers s .take = some s') : Inv workers s' := by
  obtain ⟨hidle, ⟨queue, hq, rfl⟩ | ⟨a, queue, hq, rfl⟩⟩ := take_cases hs
  · refine ⟨h.taken, ?_, ?_⟩
    · intro hopen
      obtain ⟨-, waiting, -, hwaiting⟩ := h.opened hopen
      rw [hq] at hwaiting
      cases waiting <;> simp at hwaiting
    · intro before hclosed
      obtain ⟨hpre, waiting, rest, hbefore, hqueue, -⟩ := h.closing before hclosed
      rw [hq] at hqueue
      cases waiting with
      | cons a waiting => simp at hqueue
      | nil =>
        refine ⟨hpre, [], rest, hbefore, ?_, by simp⟩
        have hmarks : s.working + s.lost.length = (s.idle - 1 + s.busy.length + s.lost.length) + 1 := by
          rw [State.working]
          omega
        rw [hmarks, List.replicate_succ] at hqueue
        simpa [State.working] using hqueue
  · have hworking : s.working ≠ 0 := by
      rw [State.working]
      omega
    have hsame : s.idle - 1 + (s.busy ++ [a]).length = s.working := by
      rw [State.working, List.length_append, List.length_singleton]
      omega
    have hcount : State.working { s with queue, idle := s.idle - 1, busy := s.busy ++ [a], taken := s.taken ++ [a] } =
        s.working := hsame
    refine ⟨?_, ?_, ?_⟩
    · have hperm : (s.handled ++ (s.busy ++ [a]) ++ s.lost).Perm (s.handled ++ s.busy ++ s.lost ++ [a]) := by
        rw [← List.append_assoc, List.append_assoc _ [a], List.append_assoc _ s.lost]
        exact List.perm_append_comm.append_left _
      exact hperm.trans (h.taken.append_right [a])
    · intro hopen
      obtain ⟨hworkers, waiting, hadded, hwaiting⟩ := h.opened hopen
      rw [hq] at hwaiting
      cases waiting with
      | nil => simp at hwaiting
      | cons b waiting =>
        obtain ⟨hb, rfl⟩ := List.cons.inj hwaiting
        cases hb
        exact ⟨by rw [hcount, hworkers], waiting, by simpa using hadded, rfl⟩
    · intro before hclosed
      obtain ⟨hpre, waiting, rest, hbefore, hqueue, hall⟩ := h.closing before hclosed
      rw [hq] at hqueue
      cases waiting with
      | nil =>
        -- A worker that has not stopped finds its mark.
        obtain ⟨n, hn⟩ := Nat.exists_eq_succ_of_ne_zero hworking
        rw [hn, Nat.succ_add, List.replicate_succ] at hqueue
        simp at hqueue
      | cons b waiting =>
        obtain ⟨hb, rfl⟩ := List.cons.inj hqueue
        cases hb
        refine ⟨hpre, waiting, rest, by simpa using hbefore, ?_, fun _ => ?_⟩
        · rw [hcount]
          rfl
        · rw [hcount]
          exact hall (by simp)

theorem added_step {e : Event α} (hs : step workers s e = some s') : s.added <+: s'.added := by
  cases e with
  | add a =>
    cases hs
    exact List.prefix_append _ _
  | close =>
    cases hs
    exact List.prefix_refl _
  | take => obtain ⟨-, ⟨queue, -, rfl⟩ | ⟨a, queue, -, rfl⟩⟩ := take_cases hs <;> exact List.prefix_refl _
  | finish worker =>
    obtain ⟨a, -, rfl⟩ := Option.map_eq_some_iff.1 hs
    exact List.prefix_refl _
  | fail worker =>
    obtain ⟨a, -, rfl⟩ := Option.map_eq_some_iff.1 hs
    exact List.prefix_refl _

/-- A worker is done with an item, which is now among the `handled` or the `lost`. -/
theorem done_inv {t : State α} {worker : Nat} {a : α} (h : Inv workers s) (ha : s.busy[worker]? = some a)
    (hqueue : t.queue = s.queue) (hadded : t.added = s.added) (htaken : t.taken = s.taken)
    (hclosed : t.closed = s.closed)
    (hcount : t.working + t.lost.length = s.working + s.lost.length)
    (hperm : (t.handled ++ t.busy ++ t.lost).Perm (s.handled ++ (s.busy.eraseIdx worker ++ [a]) ++ s.lost)) :
    Inv workers t := by
  refine ⟨?_, ?_, ?_⟩
  · rw [htaken]
    exact hperm.trans ((((perm_eraseIdx ha).append_left _).append_right _).trans h.taken)
  · rw [hclosed, hcount, hadded, htaken, hqueue]
    exact h.opened
  · rw [hclosed, hcount, hadded, htaken, hqueue]
    exact h.closing

theorem step_inv {e : Event α} (h : Inv workers s) (hs : step workers s e = some s') : Inv workers s' := by
  cases e with
  | add a =>
    cases hs
    refine ⟨h.taken, ?_, ?_⟩
    · intro hopen
      obtain ⟨hcount, waiting, hadded, hqueue⟩ := h.opened hopen
      exact ⟨hcount, waiting ++ [a], by simp [hadded], by simp [hqueue]⟩
    · intro before hclosed
      obtain ⟨hpre, waiting, rest, hbefore, hqueue, hall⟩ := h.closing before hclosed
      exact ⟨hpre.trans (List.prefix_append _ _), waiting, rest ++ [some a], hbefore, by simp [hqueue, State.working],
        hall⟩
  | take => exact take_inv h hs
  | finish worker =>
    obtain ⟨a, ha, rfl⟩ := Option.map_eq_some_iff.1 hs
    have hlen := length_eraseIdx ha
    refine done_inv h ha rfl rfl rfl rfl ?_ ?_
    · simp only [State.working]
      omega
    · simp only [List.append_assoc]
      apply List.Perm.append_left
      simp only [← List.append_assoc]
      exact List.perm_append_comm.append_right _
  | fail worker =>
    obtain ⟨a, ha, rfl⟩ := Option.map_eq_some_iff.1 hs
    have hlen := length_eraseIdx ha
    refine done_inv h ha rfl rfl rfl rfl ?_ ?_
    · simp only [State.working, List.length_append, List.length_singleton]
      omega
    · simp only [List.append_assoc]
      exact ((List.perm_append_comm).append_left _).append_left _
  | close =>
    cases hs
    refine ⟨h.taken, ?_, ?_⟩
    · intro hopen
      simp at hopen
    · intro before hclosed
      cases hold : s.closed with
      | none =>
        rw [hold] at hclosed
        cases hclosed
        obtain ⟨hcount, waiting, hadded, hqueue⟩ := h.opened hold
        refine ⟨List.prefix_refl _, waiting, [], hadded, ?_, fun _ => hcount⟩
        simp only [hqueue, List.append_nil]
        rw [← hcount]
        rfl
      -- Closed once more, the queue gets marks that no worker is left to take.
      | some old =>
        rw [hold] at hclosed
        cases hclosed
        obtain ⟨hpre, waiting, rest, hbefore, hqueue, hall⟩ := h.closing _ hold
        exact ⟨hpre, waiting, rest ++ List.replicate workers none, hbefore, by simp [hqueue, State.working], hall⟩

theorem inv_run {events : List (Event α)} (hr : run (step workers) (start workers) events = some s) : Inv workers s :=
  run_inv (step workers) (fun _ _ _ h hs => step_inv h hs) inv_start hr

/-! ## Main results -/

/-- Of the items that were added, none is worked on twice. -/
theorem Inv.once (h : Inv workers s) : ∃ rest, (s.handled ++ s.busy ++ s.lost ++ rest).Perm s.added := by
  cases hc : s.closed with
  | none =>
    obtain ⟨-, waiting, hadded, -⟩ := h.opened hc
    exact ⟨waiting, hadded ▸ h.taken.append_right waiting⟩
  | some before =>
    obtain ⟨⟨later, hlater⟩, waiting, -, hbefore, -⟩ := h.closing before hc
    refine ⟨waiting ++ later, ?_⟩
    rw [← hlater, hbefore, List.append_assoc s.taken]
    exact h.taken.append_right _

/-- When all workers have stopped, and none of them failed, what was added before the queue was closed has been handled,
and nothing else. -/
theorem Inv.all_handled (h : Inv workers s) (hworkers : 0 < workers) {before : List α}
    (hclosed : s.closed = some before) (hworking : s.working = 0) (hlost : s.lost = []) : s.handled.Perm before := by
  obtain ⟨-, waiting, rest, hbefore, -, hall⟩ := h.closing before hclosed
  have hwaiting : waiting = [] := by
    by_contra hne
    have hcount := hall hne
    rw [hworking, hlost, List.length_nil] at hcount
    omega
  have hbusy : s.busy = [] := by
    rw [State.working] at hworking
    exact List.length_eq_zero_iff.1 (by omega)
  have htaken := h.taken
  rw [hbusy, hlost, List.append_nil, List.append_nil] at htaken
  rw [hbefore, hwaiting, List.append_nil]
  exact htaken

/-- Nothing is taken that was added after the queue was closed. -/
theorem Inv.taken_before (h : Inv workers s) {before : List α} (hclosed : s.closed = some before) :
    s.taken <+: before := by
  obtain ⟨-, waiting, -, hbefore, -⟩ := h.closing before hclosed
  exact ⟨waiting, hbefore.symm⟩

theorem Inv.taken_added (h : Inv workers s) : s.taken <+: s.added := by
  cases hc : s.closed with
  | none =>
    obtain ⟨-, waiting, hadded, -⟩ := h.opened hc
    exact ⟨waiting, hadded.symm⟩
  | some before => exact (h.taken_before hc).trans (h.closing before hc).1

/-- As long as a worker has not stopped, one of them can go on, once the queue is closed. -/
theorem Inv.goes_on (h : Inv workers s) {before : List α} (hclosed : s.closed = some before)
    (hworking : s.working ≠ 0) : (step workers s .take).isSome ∨ (step workers s (.finish 0)).isSome := by
  by_cases hidle : s.idle = 0
  · right
    have hbusy : 0 < s.busy.length := by
      rw [State.working] at hworking
      omega
    simp only [step, List.getElem?_eq_getElem hbusy]
    rfl
  · left
    obtain ⟨-, waiting, rest, -, hqueue, -⟩ := h.closing before hclosed
    obtain ⟨n, hn⟩ := Nat.exists_eq_succ_of_ne_zero hworking
    simp only [step, if_neg hidle, hqueue]
    cases waiting with
    | nil =>
      rw [hn, Nat.succ_add, List.replicate_succ]
      rfl
    | cons a waiting => rfl

/-! ## The end -/

def Event.worker : Event α → Bool
  | .add _ => false
  | .close => false
  | _ => true

/-- What the workers have to do before all of them have stopped, at most. -/
def left (before : List α) (s : State α) : Nat := 2 * (before.length - s.taken.length) + s.busy.length + s.working

theorem closed_step {e : Event α} {before : List α} (hclosed : s.closed = some before)
    (hs : step workers s e = some s') : s'.closed = some before := by
  cases e with
  | add a =>
    cases hs
    exact hclosed
  | close =>
    cases hs
    rw [hclosed]
    rfl
  | finish worker =>
    obtain ⟨a, -, rfl⟩ := Option.map_eq_some_iff.1 hs
    exact hclosed
  | fail worker =>
    obtain ⟨a, -, rfl⟩ := Option.map_eq_some_iff.1 hs
    exact hclosed
  | take => obtain ⟨-, ⟨queue, -, rfl⟩ | ⟨a, queue, -, rfl⟩⟩ := take_cases hs <;> exact hclosed

/-- What a worker does after the queue was closed brings the end closer. -/
theorem Inv.left_step (h : Inv workers s) {e : Event α} {before : List α} (hclosed : s.closed = some before)
    (hs : step workers s e = some s') : left before s' + (if e.worker then 1 else 0) ≤ left before s := by
  have hle := (step_inv h hs).taken_before (closed_step hclosed hs) |>.length_le
  cases e with
  | add a =>
    cases hs
    exact Nat.le_refl _
  | close =>
    cases hs
    exact Nat.le_refl _
  | finish worker =>
    obtain ⟨a, ha, rfl⟩ := Option.map_eq_some_iff.1 hs
    have hlen := length_eraseIdx ha
    simp only [left, State.working, Event.worker, if_true]
    omega
  | fail worker =>
    obtain ⟨a, ha, rfl⟩ := Option.map_eq_some_iff.1 hs
    have hlen := length_eraseIdx ha
    simp only [left, State.working, Event.worker, if_true]
    omega
  | take =>
    obtain ⟨hidle, ⟨queue, -, rfl⟩ | ⟨a, queue, -, rfl⟩⟩ := take_cases hs
    · simp only [left, State.working, Event.worker, if_true]
      omega
    · simp only [List.length_append, List.length_singleton] at hle
      simp only [left, State.working, Event.worker, if_true, List.length_append, List.length_singleton]
      omega

/-- After the queue was closed the workers do only so much. -/
theorem Inv.runs_out {before : List α} (events : List (Event α)) : ∀ {s s' : State α}, Inv workers s →
    s.closed = some before → run (step workers) s events = some s' →
    events.countP Event.worker + left before s' ≤ left before s := by
  induction events with
  | nil =>
    intro s s' _ _ hr
    cases hr
    simp
  | cons e events ih =>
    intro s s' h hclosed hr
    obtain ⟨s₁, hs, hr'⟩ := Option.bind_eq_some_iff.1 hr
    have hfirst := h.left_step hclosed hs
    have hrest := ih (step_inv h hs) (closed_step hclosed hs) hr'
    rw [List.countP_cons]
    omega

/-! ## A single worker -/

/-- It takes an item when it is done with the one before. -/
structure InOrder (s : State α) : Prop where
  taken : s.handled ++ s.busy ++ s.lost = s.taken
  one : s.idle + s.busy.length + s.lost.length ≤ 1

theorem InOrder.of_busy (h : InOrder s) {worker : Nat} {a : α} (ha : s.busy[worker]? = some a) :
    s.busy = [a] ∧ s.busy.eraseIdx worker = [] ∧ s.lost = [] ∧ s.idle = 0 := by
  have hlen := length_eraseIdx ha
  have hone := h.one
  have herase : s.busy.eraseIdx worker = [] := List.length_eq_zero_iff.1 (by omega)
  have hbusy : s.busy = [a] := by
    have hperm := perm_eraseIdx ha
    rw [herase, List.nil_append] at hperm
    exact List.perm_singleton.1 hperm.symm
  exact ⟨hbusy, herase, List.length_eq_zero_iff.1 (by omega), by omega⟩

theorem InOrder.of_idle (h : InOrder s) (hidle : s.idle ≠ 0) : s.busy = [] ∧ s.lost = [] ∧ s.idle = 1 := by
  have hone := h.one
  exact ⟨List.length_eq_zero_iff.1 (by omega), List.length_eq_zero_iff.1 (by omega), by omega⟩

theorem step_inOrder {e : Event α} (h : InOrder s) (hs : step workers s e = some s') : InOrder s' := by
  cases e with
  | add a =>
    cases hs
    exact ⟨h.taken, h.one⟩
  | close =>
    cases hs
    exact ⟨h.taken, h.one⟩
  | take =>
    obtain ⟨hidle, hs⟩ := take_cases hs
    obtain ⟨hbusy, hlost, hone⟩ := h.of_idle hidle
    have htaken := h.taken
    rw [hbusy, hlost, List.append_nil, List.append_nil] at htaken
    obtain ⟨queue, -, rfl⟩ | ⟨a, queue, -, rfl⟩ := hs
    · exact ⟨h.taken, by simp [hone, hbusy, hlost]⟩
    · exact ⟨by simp [hbusy, hlost, htaken], by simp [hone, hbusy, hlost]⟩
  | finish worker =>
    obtain ⟨a, ha, rfl⟩ := Option.map_eq_some_iff.1 hs
    obtain ⟨hbusy, herase, hlost, hidle⟩ := h.of_busy ha
    have htaken := h.taken
    rw [hbusy, hlost, List.append_nil] at htaken
    exact ⟨by simp [herase, hlost, htaken], by simp [herase, hlost, hidle]⟩
  | fail worker =>
    obtain ⟨a, ha, rfl⟩ := Option.map_eq_some_iff.1 hs
    obtain ⟨hbusy, herase, hlost, hidle⟩ := h.of_busy ha
    have htaken := h.taken
    rw [hbusy, hlost, List.append_nil] at htaken
    exact ⟨by simp [herase, hlost, htaken], by simp [herase, hlost, hidle]⟩

end BuildPal.Lib.WorkQueue
