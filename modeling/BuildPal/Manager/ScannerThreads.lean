import BuildPal.Lib.WorkQueue
/-!
# The threads of the source scanner

`SourceScanner` of `source_scanner.py`: threads take tasks from a queue, scan their
headers, and notify the node manager. Scanning is a parameter of the step. What
raises in a thread outside of `header_info` ends it.
-/

namespace BuildPal.SourceScanner

open BuildPal.Lib

/-- How a thread goes on after `header_info`. -/
inductive Outcome where
  | updateUiRaises
  | notifyRaises
  | returns
  deriving DecidableEq

section
variable (Task Info Exception : Type)

structure Scanner where
  /-- The queue, where the marks are `ShutdownThread`, and the threads. -/
  work : WorkQueue.State Task
  /-- The calls of `notify`. -/
  notified : List (Task × Except Exception Info) := []

inductive Event where
  | addTask (task : Task)
  | close
  /-- A thread gets something from the queue. -/
  | get
  | scanned (thread : Nat) (headerInfo : Except Exception Info) (outcome : Outcome)

end

variable {Task Info Exception : Type} {threadCount : Nat} {s s' : Scanner Task Info Exception}

def start (threadCount : Nat) : Scanner Task Info Exception := { work := WorkQueue.start threadCount }

/-- The events of the threads. -/
def Event.ofThread : Event Task Info Exception → Bool
  | .addTask _ => false
  | .close => false
  | _ => true

def step (threadCount : Nat) (s : Scanner Task Info Exception) :
    Event Task Info Exception → Option (Scanner Task Info Exception)
  | .addTask task => (WorkQueue.step threadCount s.work (.add task)).map fun work => { s with work }
  | .close => (WorkQueue.step threadCount s.work .close).map fun work => { s with work }
  | .get => (WorkQueue.step threadCount s.work .take).map fun work => { s with work }
  | .scanned thread headerInfo outcome =>
    match s.work.busy[thread]? with
    | none => none
    | some task =>
      let notified := s.notified ++ [(task, headerInfo)]
      match headerInfo, outcome with
      -- The UI is not told of a task whose headers could not be found out.
      | .error _, .updateUiRaises => none
      | .ok _, .updateUiRaises =>
        (WorkQueue.step threadCount s.work (.fail thread)).map fun work => { s with work }
      | _, .notifyRaises =>
        (WorkQueue.step threadCount s.work (.fail thread)).map fun work => { work, notified }
      | _, .returns => (WorkQueue.step threadCount s.work (.finish thread)).map fun work => { work, notified }

/-! ## The queue of a run -/

theorem scanned_cases {thread : Nat} {headerInfo : Except Exception Info} {outcome : Outcome}
    (hs : step threadCount s (.scanned thread headerInfo outcome) = some s') :
    ∃ task, s.work.busy[thread]? = some task ∧
      ((WorkQueue.step threadCount s.work (.fail thread) = some s'.work ∧
          (s'.notified = s.notified ∨ s'.notified = s.notified ++ [(task, headerInfo)])) ∨
        WorkQueue.step threadCount s.work (.finish thread) = some s'.work ∧
          s'.notified = s.notified ++ [(task, headerInfo)]) := by
  rw [step] at hs
  cases hbusy : s.work.busy[thread]? with
  | none =>
    rw [hbusy] at hs
    cases hs
  | some task =>
    refine ⟨task, rfl, ?_⟩
    simp only [hbusy] at hs
    split at hs
    · cases hs
    · obtain ⟨work, hwork, rfl⟩ := Option.map_eq_some_iff.1 hs
      exact .inl ⟨hwork, .inl rfl⟩
    · obtain ⟨work, hwork, rfl⟩ := Option.map_eq_some_iff.1 hs
      exact .inl ⟨hwork, .inr rfl⟩
    · obtain ⟨work, hwork, rfl⟩ := Option.map_eq_some_iff.1 hs
      exact .inr ⟨hwork, rfl⟩

/-- A step of the scanner is one of its queue. -/
theorem queue_step {e : Event Task Info Exception} (hs : step threadCount s e = some s') :
    ∃ e' : WorkQueue.Event Task, WorkQueue.step threadCount s.work e' = some s'.work ∧ e'.worker = e.ofThread := by
  cases e with
  | addTask task =>
    rw [step] at hs
    obtain ⟨work, hwork, rfl⟩ := Option.map_eq_some_iff.1 hs
    exact ⟨.add task, hwork, rfl⟩
  | close =>
    rw [step] at hs
    obtain ⟨work, hwork, rfl⟩ := Option.map_eq_some_iff.1 hs
    exact ⟨.close, hwork, rfl⟩
  | get =>
    rw [step] at hs
    obtain ⟨work, hwork, rfl⟩ := Option.map_eq_some_iff.1 hs
    exact ⟨.take, hwork, rfl⟩
  | scanned thread headerInfo outcome =>
    obtain ⟨task, -, ⟨hwork, -⟩ | ⟨hwork, -⟩⟩ := scanned_cases hs
    · exact ⟨.fail thread, hwork, rfl⟩
    · exact ⟨.finish thread, hwork, rfl⟩

theorem queue_run (events : List (Event Task Info Exception)) : ∀ {s s' : Scanner Task Info Exception},
    run (step threadCount) s events = some s' →
    ∃ events' : List (WorkQueue.Event Task), run (WorkQueue.step threadCount) s.work events' = some s'.work ∧
      events'.countP WorkQueue.Event.worker = events.countP Event.ofThread := by
  induction events with
  | nil =>
    intro s s' hr
    cases hr
    exact ⟨[], rfl, rfl⟩
  | cons e events ih =>
    intro s s' hr
    obtain ⟨s₁, hs, hr'⟩ := Option.bind_eq_some_iff.1 hr
    obtain ⟨e', he', hworker⟩ := queue_step hs
    obtain ⟨events', hevents', hcount⟩ := ih hr'
    refine ⟨e' :: events', ?_, ?_⟩
    · rw [run, he']
      exact hevents'
    · rw [List.countP_cons, List.countP_cons, hcount, hworker]

/-! ## Notifications -/

/-- The tasks that the node manager was notified of are those that were done with, and some of those whose thread
ended. -/
def Notified (s : Scanner Task Info Exception) : Prop :=
  ∃ told rest, (told ++ rest).Perm s.work.lost ∧ (s.notified.map Prod.fst).Perm (s.work.handled ++ told)

theorem notified_step {e : Event Task Info Exception} (h : Notified s) (hs : step threadCount s e = some s') :
    Notified s' := by
  obtain ⟨told, rest, hlost, hnotified⟩ := h
  cases e with
  | addTask task =>
    rw [step] at hs
    obtain ⟨work, hwork, rfl⟩ := Option.map_eq_some_iff.1 hs
    cases hwork
    exact ⟨told, rest, hlost, hnotified⟩
  | close =>
    rw [step] at hs
    obtain ⟨work, hwork, rfl⟩ := Option.map_eq_some_iff.1 hs
    cases hwork
    exact ⟨told, rest, hlost, hnotified⟩
  | get =>
    rw [step] at hs
    obtain ⟨work, hwork, rfl⟩ := Option.map_eq_some_iff.1 hs
    obtain ⟨-, ⟨queue, -, rfl⟩ | ⟨task, queue, -, rfl⟩⟩ := WorkQueue.take_cases hwork <;>
      exact ⟨told, rest, hlost, hnotified⟩
  | scanned thread headerInfo outcome =>
    obtain ⟨task, hbusy, ⟨hwork, hsame | hmore⟩ | ⟨hwork, hmore⟩⟩ := scanned_cases hs
    all_goals
      rw [WorkQueue.step, hbusy] at hwork
      have hwork := Option.some.inj hwork
    · refine ⟨told, rest ++ [task], ?_, ?_⟩
      · rw [← hwork, ← List.append_assoc]
        exact hlost.append_right _
      · rw [← hwork, hsame]
        exact hnotified
    · refine ⟨told ++ [task], rest, ?_, ?_⟩
      · rw [← hwork, List.append_assoc]
        exact (List.perm_append_comm.append_left told).trans (by
          rw [← List.append_assoc]
          exact hlost.append_right _)
      · rw [← hwork, hmore, List.map_append, ← List.append_assoc]
        exact hnotified.append_right _
    · refine ⟨told, rest, ?_, ?_⟩
      · rw [← hwork]
        exact hlost
      · rw [← hwork, hmore, List.map_append, List.append_assoc]
        exact (hnotified.append_right _).trans (by
          rw [List.append_assoc]
          exact List.perm_append_comm.append_left _)

theorem notified_run {events : List (Event Task Info Exception)}
    (hr : run (step threadCount) (start threadCount) events = some s) : Notified s :=
  run_inv (step threadCount) (fun _ _ _ h hs => notified_step h hs) ⟨[], [], .refl _, .refl _⟩ hr

/-! ## Main results -/

/-- The node manager is notified of a task at most as often as it was added. When all threads have ended, and nothing
has raised in them, it was notified of the tasks that were added before `close`, and of each of them once. -/
theorem notified_once {events : List (Event Task Info Exception)}
    (hr : run (step threadCount) (start threadCount) events = some s) :
    (∃ rest, (s.notified.map Prod.fst ++ rest).Perm s.work.added) ∧
      ∀ before, s.work.closed = some before → 0 < threadCount → s.work.working = 0 → s.work.lost = [] →
        (s.notified.map Prod.fst).Perm before := by
  obtain ⟨events', hqueue, -⟩ := queue_run events hr
  have h := WorkQueue.inv_run hqueue
  obtain ⟨told, rest, hlost, hnotified⟩ := notified_run hr
  constructor
  · obtain ⟨more, hmore⟩ := h.once
    refine ⟨s.work.busy ++ (rest ++ more), List.Perm.trans ?_ hmore⟩
    refine (hnotified.append_right _).trans ?_
    simp only [List.append_assoc]
    apply List.Perm.append_left
    have hswap : (told ++ (s.work.busy ++ (rest ++ more))).Perm (s.work.busy ++ (told ++ (rest ++ more))) := by
      simp only [← List.append_assoc]
      exact (List.perm_append_comm.append_right _).append_right _
    refine hswap.trans ?_
    rw [← List.append_assoc told]
    exact (hlost.append_right _).append_left _
  · intro before hclosed hthreads hworking hnone
    rw [hnone] at hlost
    obtain ⟨rfl, -⟩ := List.append_eq_nil_iff.1 (List.perm_nil.1 hlost)
    rw [List.append_nil] at hnotified
    exact hnotified.trans (h.all_handled hthreads hclosed hworking hnone)

/-- The second of two threads is done first, and `close` comes while both are busy. -/
def twoThreads : List (Event String Nat String) :=
  [.addTask "a.cpp", .addTask "b.cpp", .get, .get, .close, .addTask "c.cpp", .scanned 1 (.ok 2) .returns,
    .scanned 0 (.error "Assertion failed") .returns, .get, .get]

theorem notified_once_two : ∃ s, run (step 2) (start 2) twoThreads = some s ∧
    (s.notified.map Prod.fst).Perm ["a.cpp", "b.cpp"] :=
  ⟨_, rfl, (@notified_once _ _ _ 2 _ twoThreads rfl).2 ["a.cpp", "b.cpp"] rfl (by decide) rfl rfl⟩

/-- `close` returns: the threads can go on as long as one of them has not ended, and there is only so much that they
do. -/
theorem close_returns {events events' : List (Event Task Info Exception)}
    (hr : run (step threadCount) (start threadCount) events = some s) {before : List Task}
    (hclosed : s.work.closed = some before) (hr' : run (step threadCount) s events' = some s') :
    events'.countP Event.ofThread + WorkQueue.left before s'.work ≤ WorkQueue.left before s.work ∧
      (s'.work.working ≠ 0 → ∀ headerInfo, (step threadCount s' .get).isSome ∨
        (step threadCount s' (.scanned 0 headerInfo .returns)).isSome) := by
  obtain ⟨queued, hqueue, -⟩ := queue_run events hr
  obtain ⟨queued', hqueue', hcount⟩ := queue_run events' hr'
  have h := WorkQueue.inv_run hqueue
  refine ⟨?_, fun hworking headerInfo => ?_⟩
  · rw [← hcount]
    exact h.runs_out queued' hclosed hqueue'
  · have h' : WorkQueue.Inv threadCount s'.work :=
      run_inv (WorkQueue.step threadCount) (fun _ _ _ h hs => WorkQueue.step_inv h hs) h hqueue'
    have hclosed' : s'.work.closed = some before :=
      run_inv (WorkQueue.step threadCount) (I := fun t => t.closed = some before)
        (fun _ _ _ h hs => WorkQueue.closed_step h hs) hclosed hqueue'
    obtain hget | hfinish := h'.goes_on hclosed' hworking
    · left
      rw [step, Option.isSome_map]
      exact hget
    · right
      rw [WorkQueue.step, Option.isSome_map] at hfinish
      obtain ⟨task, htask⟩ := Option.isSome_iff_exists.1 hfinish
      simp only [step, WorkQueue.step, htask]
      cases headerInfo <;> rfl

theorem close_returns_two : ∃ s s', run (step 2) (start 2) (twoThreads.take 5) = some s ∧
    run (step 2) s (twoThreads.drop 5) = some s' ∧
    (twoThreads.drop 5).countP Event.ofThread + WorkQueue.left ["a.cpp", "b.cpp"] s'.work ≤
      WorkQueue.left ["a.cpp", "b.cpp"] s.work :=
  ⟨_, _, rfl, rfl,
    (@close_returns _ _ _ 2 _ _ (twoThreads.take 5) (twoThreads.drop 5) rfl ["a.cpp", "b.cpp"] rfl rfl).1⟩

end BuildPal.SourceScanner
