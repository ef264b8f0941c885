import BuildPal.Manager.Database
import BuildPal.Lib.WorkQueue
/-!
# The thread that fills the database

`DatabaseInserter` of `database.py`: commands are queued, and a thread inserts them
into the database. It commits when there was nothing to do for a while, and when it
is told to quit. What raises in the thread, a commit too, ends it, and what was not
committed is rolled back.
-/

namespace BuildPal.Database

open BuildPal.Lib

variable {Time : Type}

/-- What `async_insert` is given. -/
structure Insertion (Time : Type) where
  commandInfo : CommandInfo Time
  /-- Whether there is an `on_completion`. -/
  onCompletion : Bool := false

/-- How an insertion goes on in the thread. -/
inductive Outcome where
  /-- Also where SQLite raises for reasons of its own. -/
  | insertRaises
  | updateUiRaises
  | onCompletionRaises
  | returns
  deriving DecidableEq

structure DatabaseInserter (Time : Type) where
  /-- The queue, where the mark is `Quit`, and the thread. -/
  work : WorkQueue.State (Insertion Time) := WorkQueue.start 1
  /-- The database as the thread's connection sees it. -/
  conn : Tables Time := empty
  /-- The database as it was last committed. -/
  committed : Tables Time := empty
  changed : Bool := false
  /-- Something has raised in the thread. -/
  failed : Bool := false
  /-- The calls of `on_completion`. -/
  completed : List (Insertion Time × Nat) := []

namespace DatabaseInserter

inductive Event (Time : Type) where
  | asyncInsert (insertion : Insertion Time)
  | close
  /-- The thread gets something from the queue. Where that is `Quit`, `commits` is whether the commit returns. -/
  | get (commits : Bool := true)
  /-- `queue.get` raises `Empty`. -/
  | timeout (commits : Bool := true)
  | insert (outcome : Outcome)

section
variable [LinearOrder Time] (sql : Sqlite Time)

/-- The thread raises, and leaves the `with` of its connection. -/
def raised (s : DatabaseInserter Time) : Option (DatabaseInserter Time) :=
  (WorkQueue.step 1 s.work (.fail 0)).map fun work =>
    { s with work, conn := s.committed, failed := true }

/-- The thread goes back to its queue. -/
def inserted (s : DatabaseInserter Time) : Option (DatabaseInserter Time) :=
  (WorkQueue.step 1 s.work (.finish 0)).map fun work => { s with work, changed := true }

def step (s : DatabaseInserter Time) : Event Time → Option (DatabaseInserter Time)
  | .asyncInsert insertion => (WorkQueue.step 1 s.work (.add insertion)).map fun work => { s with work }
  | .close => (WorkQueue.step 1 s.work .close).map fun work => { s with work }
  | .get commits =>
    if s.failed then none
    else (WorkQueue.step 1 s.work .take).map fun work =>
      match work.busy with
      | [] =>
        -- The end of the `with` commits as well, so `changed` does not matter.
        if commits then { s with work, committed := s.conn }
        else { s with work, conn := s.committed, failed := true }
      | _ :: _ => { s with work }
  | .timeout commits =>
    if s.failed ∨ s.work.idle = 0 ∨ ¬ s.work.queue.isEmpty then none
    else if s.changed then
      -- The thread ends here without anything from the queue.
      if commits then some { s with committed := s.conn, changed := false }
      else some { s with conn := s.committed, failed := true }
    else some s
  | .insert outcome =>
    match s.work.busy with
    | [] => none
    | insertion :: _ =>
      match outcome, insertCommand sql insertion.commandInfo s.conn with
      | .insertRaises, _ => s.raised
      | _, .error _ => s.raised
      | .updateUiRaises, .ok _ => s.raised
      | outcome, .ok (conn, commandId) =>
        if insertion.onCompletion then
          let s := { s with conn, completed := s.completed ++ [(insertion, commandId)] }
          if outcome = .onCompletionRaises then s.raised else s.inserted
        else { s with conn }.inserted

end

end DatabaseInserter

/-! ## What insertions return -/

section Insertions
variable [LinearOrder Time] (sql : Sqlite Time)

theorem bind_eq_ok {α β : Type} {x : Except Conversation.Raised α} {f : α → Except Conversation.Raised β} {b : β}
    (h : x >>= f = .ok b) : ∃ a, x = .ok a ∧ f a = .ok b := by
  cases x with
  | error e => cases h
  | ok a => exact ⟨a, rfl, h⟩

/-- What every step keeps, all of them keep. -/
theorem foldlM_keeps {α β : Type} {f : β → α → Except Conversation.Raised β} {I : β → Prop}
    (hstep : ∀ b a b', I b → f b a = .ok b' → I b') (xs : List α) :
    ∀ {b b' : β}, I b → xs.foldlM f b = .ok b' → I b' := by
  induction xs with
  | nil =>
    intro b b' hi h
    cases h
    exact hi
  | cons x xs ih =>
    intro b b' hi h
    rw [List.foldlM_cons] at h
    obtain ⟨b₁, hb₁, h⟩ := bind_eq_ok h
    exact ih (hstep b x b₁ hi hb₁) h

theorem insert_push {table : Table} {data extraData : Entry Time} {db db' : Tables Time} {rowid : Nat}
    (h : insert sql table data extraData db = .ok (db', rowid)) :
    (∃ cells, db' = db.push table cells) ∧ rowid = (db table).length + 1 := by
  obtain ⟨cells, -, h⟩ := bind_eq_ok h
  cases h
  exact ⟨⟨cells, rfl⟩, rfl⟩

theorem insertAll_command {table : Table} (htable : table ≠ .command) {taskId : Nat} {entries : List (Entry Time)}
    {db db' : Tables Time} (h : insertAll sql table taskId entries db = .ok db') : db' .command = db .command := by
  refine foldlM_keeps (I := fun db' : Tables Time => db' .command = db .command) ?_ entries rfl h
  intro db₁ entry db₂ hdb₁ h
  cases hinsert : insert sql table entry [("task_id", .int taskId)] db₁ with
  | error e =>
    rw [hinsert] at h
    cases h
  | ok p =>
    rw [hinsert] at h
    cases h
    obtain ⟨⟨cells, hpush⟩, -⟩ := insert_push sql hinsert
    show p.1 .command = _
    rw [hpush, Tables.push_other _ _ htable.symm, hdb₁]

theorem insertTask_command {commandId : Nat} {db db' : Tables Time} {task : TaskInfo Time}
    (h : insertTask sql commandId db task = .ok db') : db' .command = db .command := by
  obtain ⟨⟨db₁, taskId⟩, htask, h⟩ := bind_eq_ok h
  obtain ⟨db₂, hsessions, h⟩ := bind_eq_ok h
  obtain ⟨⟨cells, hpush⟩, -⟩ := insert_push sql htask
  rw [insertAll_command sql (by decide) h, insertAll_command sql (by decide) hsessions, hpush,
    Tables.push_other _ _ (by decide)]

/-- Commands are numbered one after the other. -/
theorem insertCommand_id {command : CommandInfo Time} {db db' : Tables Time} {commandId : Nat}
    (h : insertCommand sql command db = .ok (db', commandId)) :
    commandId = (db .command).length + 1 ∧ (db' .command).length = (db .command).length + 1 := by
  obtain ⟨⟨db₁, rowid⟩, hcommand, h⟩ := bind_eq_ok h
  obtain ⟨db₂, htasks, h⟩ := bind_eq_ok h
  cases h
  obtain ⟨⟨cells, hpush⟩, hrowid⟩ := insert_push sql hcommand
  have hsame : db' .command = db₁ .command := by
    refine foldlM_keeps (I := fun db' : Tables Time => db' .command = db₁ .command) ?_ command.tasks rfl htasks
    intro db₂ task db₃ hdb₂ htask
    rw [insertTask_command sql htask, hdb₂]
  exact ⟨hrowid, by rw [hsame, hpush, push_command_length]⟩

theorem insertCommands_ids (commands : List (CommandInfo Time)) : ∀ {db db' : Tables Time} {commandIds : List Nat},
    insertCommands sql commands db = .ok (db', commandIds) →
    commandIds = List.range' ((db .command).length + 1) commands.length ∧
      (db' .command).length = (db .command).length + commands.length := by
  induction commands with
  | nil =>
    intro db db' commandIds h
    cases h
    exact ⟨rfl, rfl⟩
  | cons command commands ih =>
    intro db db' commandIds h
    obtain ⟨⟨db₁, commandId⟩, hcommand, h⟩ := bind_eq_ok h
    obtain ⟨⟨db₂, rest⟩, hrest, h⟩ := bind_eq_ok h
    cases h
    obtain ⟨hid, hlength⟩ := insertCommand_id sql hcommand
    obtain ⟨hids, hlength'⟩ := ih hrest
    rw [hlength] at hids hlength'
    refine ⟨?_, ?_⟩
    · rw [hid, hids]
      rfl
    · rw [hlength', List.length_cons]
      omega

theorem insertCommands_concat {command : CommandInfo Time} {db₂ : Tables Time} {commandId : Nat}
    (commands : List (CommandInfo Time)) : ∀ {db db₁ : Tables Time} {commandIds : List Nat},
    insertCommands sql commands db = .ok (db₁, commandIds) → insertCommand sql command db₁ = .ok (db₂, commandId) →
    insertCommands sql (commands ++ [command]) db = .ok (db₂, commandIds ++ [commandId]) := by
  induction commands with
  | nil =>
    intro db db₁ commandIds h hcommand
    cases h
    rw [List.nil_append, insertCommands, hcommand]
    rfl
  | cons first commands ih =>
    intro db db₁ commandIds h hcommand
    obtain ⟨⟨db₀, firstId⟩, hfirst, h⟩ := bind_eq_ok h
    obtain ⟨⟨db₁', rest⟩, hrest, h⟩ := bind_eq_ok h
    cases h
    rw [List.cons_append, insertCommands, hfirst]
    show (insertCommands sql (commands ++ [command]) db₀ >>= _) = _
    rw [ih hrest hcommand]
    rfl

end Insertions

namespace DatabaseInserter

/-! ## What the thread keeps -/

/-- `on_completion` for each of these insertions, with the place it has among them. -/
def calls (insertions : List (Insertion Time)) : List (Insertion Time × Nat) :=
  (insertions.zipIdx 1).filter (·.1.onCompletion)

theorem calls_concat (insertions : List (Insertion Time)) (insertion : Insertion Time) :
    calls (insertions ++ [insertion]) =
      calls insertions ++ if insertion.onCompletion then [(insertion, insertions.length + 1)] else [] := by
  rw [calls, List.zipIdx_append, List.filter_append, calls, Nat.add_comm 1, List.zipIdx_singleton,
    List.filter_singleton, cond_eq_ite]

section Inserter
variable [LinearOrder Time] {sql : Sqlite Time} {s s' : DatabaseInserter Time}

/-- A database with what was inserted, and nothing else. -/
def Filled (sql : Sqlite Time) (insertions : List (Insertion Time)) (db : Tables Time) : Prop :=
  ∃ commandIds, insertCommands sql (insertions.map (·.commandInfo)) empty = .ok (db, commandIds)

structure Inv (sql : Sqlite Time) (s : DatabaseInserter Time) : Prop where
  queue : WorkQueue.Inv 1 s.work
  order : WorkQueue.InOrder s.work
  failed : s.failed = true → s.work.busy = []
  running : s.failed = false → s.work.lost = [] ∧ Filled sql s.work.handled s.conn ∧
    s.completed = calls s.work.handled ∧ (s.changed = false ∨ s.work.working = 0 → s.committed = s.conn)
  committed : ∃ n ≤ s.work.handled.length, Filled sql (s.work.handled.take n) s.committed
  completed : ∃ done, done <+: s.work.taken ∧ s.completed = calls done

/-- What has raised is not at work. -/
theorem Inv.running_of_busy (h : Inv sql s) (hbusy : s.work.busy ≠ []) : s.failed = false := by
  cases hfailed : s.failed with
  | false => rfl
  | true => exact absurd (h.failed hfailed) hbusy

theorem Filled.length {insertions : List (Insertion Time)} {db : Tables Time} (h : Filled sql insertions db) :
    (db .command).length = insertions.length := by
  obtain ⟨commandIds, h⟩ := h
  rw [(insertCommands_ids sql _ h).2, List.length_map]
  exact Nat.zero_add _

theorem Filled.concat {insertions : List (Insertion Time)} {db db' : Tables Time} (h : Filled sql insertions db)
    {insertion : Insertion Time} {commandId : Nat}
    (hcommand : insertCommand sql insertion.commandInfo db = .ok (db', commandId)) :
    Filled sql (insertions ++ [insertion]) db' ∧ commandId = insertions.length + 1 := by
  obtain ⟨commandIds, hall⟩ := h
  refine ⟨⟨commandIds ++ [commandId], ?_⟩, ?_⟩
  · rw [List.map_append]
    exact insertCommands_concat sql _ hall hcommand
  · rw [(insertCommand_id sql hcommand).1, Filled.length ⟨commandIds, hall⟩]

/-- Either the thread ends, and the insertion is rolled back, or it has inserted the command. -/
theorem insert_cases {outcome : Outcome} (hs : step sql s (.insert outcome) = some s') :
    ∃ insertion, s.work.busy[0]? = some insertion ∧
      ((∃ work completed, WorkQueue.step 1 s.work (.fail 0) = some work ∧
          s' = { s with work, conn := s.committed, completed, failed := true } ∧
          (completed = s.completed ∨ ∃ conn commandId,
            insertCommand sql insertion.commandInfo s.conn = .ok (conn, commandId) ∧
              completed = s.completed ++ if insertion.onCompletion then [(insertion, commandId)] else [])) ∨
        ∃ work conn commandId completed, WorkQueue.step 1 s.work (.finish 0) = some work ∧
          insertCommand sql insertion.commandInfo s.conn = .ok (conn, commandId) ∧
          completed = s.completed ++ (if insertion.onCompletion then [(insertion, commandId)] else []) ∧
          s' = { s with work, conn, completed, changed := true }) := by
  rw [step] at hs
  cases hbusy : s.work.busy with
  | nil =>
    rw [hbusy] at hs
    cases hs
  | cons insertion rest =>
    refine ⟨insertion, rfl, ?_⟩
    have hraised : ∀ {completed : List (Insertion Time × Nat)} {conn : Tables Time},
        raised { s with conn, completed } = some s' → ∃ work, WorkQueue.step 1 s.work (.fail 0) = some work ∧
          s' = { s with work, conn := s.committed, completed, failed := true } := by
      intro completed conn h
      obtain ⟨work, hwork, rfl⟩ := Option.map_eq_some_iff.1 h
      exact ⟨work, hwork, rfl⟩
    have hinserted : ∀ {completed : List (Insertion Time × Nat)} {conn : Tables Time},
        inserted { s with conn, completed } = some s' → ∃ work, WorkQueue.step 1 s.work (.finish 0) = some work ∧
          s' = { s with work, conn, completed, changed := true } := by
      intro completed conn h
      obtain ⟨work, hwork, rfl⟩ := Option.map_eq_some_iff.1 h
      exact ⟨work, hwork, rfl⟩
    simp only [hbusy] at hs
    split at hs
    · obtain ⟨work, hwork, h⟩ := hraised hs
      exact .inl ⟨work, s.completed, hwork, h, .inl rfl⟩
    · obtain ⟨work, hwork, h⟩ := hraised hs
      exact .inl ⟨work, s.completed, hwork, h, .inl rfl⟩
    · obtain ⟨work, hwork, h⟩ := hraised hs
      exact .inl ⟨work, s.completed, hwork, h, .inl rfl⟩
    · next conn commandId _ _ hcommand =>
      split at hs
      · next hcallback =>
        split at hs
        · obtain ⟨work, hwork, h⟩ := hraised hs
          exact .inl ⟨work, _, hwork, h, .inr ⟨conn, commandId, hcommand, by rw [if_pos hcallback]⟩⟩
        · obtain ⟨work, hwork, h⟩ := hinserted hs
          exact .inr ⟨work, conn, commandId, _, hwork, hcommand, by rw [if_pos hcallback], h⟩
      · next hcallback =>
        obtain ⟨work, hwork, h⟩ := hinserted hs
        exact .inr ⟨work, conn, commandId, _, hwork, hcommand, by rw [if_neg hcallback, List.append_nil], h⟩

theorem init_inv : Inv sql {} where
  queue := WorkQueue.inv_start
  order := ⟨rfl, Nat.le_refl _⟩
  failed h := by cases h
  running _ := ⟨rfl, ⟨[], rfl⟩, rfl, fun _ => rfl⟩
  committed := ⟨0, Nat.le_refl _, [], rfl⟩
  completed := ⟨[], List.nil_prefix, rfl⟩

theorem insert_inv {outcome : Outcome} (h : Inv sql s) (hs : step sql s (.insert outcome) = some s') : Inv sql s' := by
  obtain ⟨insertion, hbusy, ⟨work, completed, hwork, rfl, hcompleted⟩ |
    ⟨work, conn, commandId, completed, hwork, hcommand, rfl, rfl⟩⟩ := insert_cases hs
  all_goals
    obtain ⟨hone, herase, hlost, hidle⟩ := h.order.of_busy hbusy
    have hrunning := h.running_of_busy (s := s) (by simp [hone])
    obtain ⟨-, hconn, hcalls, hchanged⟩ := h.running hrunning
    have htaken : s.work.handled ++ [insertion] = s.work.taken := by
      rw [← h.order.taken, hone, hlost, List.append_nil]
    have hqueue := WorkQueue.step_inv h.queue hwork
    have horder := WorkQueue.step_inOrder h.order hwork
    rw [WorkQueue.step, hbusy] at hwork
    cases hwork
  · refine ⟨hqueue, horder, fun _ => herase, (fun hnone => by cases hnone), h.committed, ?_⟩
    obtain hsame | ⟨conn, commandId, hcommand, hmore⟩ := hcompleted
    · exact ⟨s.work.handled, ⟨[insertion], htaken⟩, hsame.trans hcalls⟩
    · refine ⟨s.work.handled ++ [insertion], htaken ▸ List.prefix_refl _, ?_⟩
      rw [calls_concat, ← hcalls, ← (hconn.concat hcommand).2]
      exact hmore
  · obtain ⟨hfilled, hid⟩ := hconn.concat hcommand
    have hcalls' : s.completed ++ (if insertion.onCompletion then [(insertion, commandId)] else []) =
        calls (s.work.handled ++ [insertion]) := by
      rw [calls_concat, hcalls, hid]
    refine ⟨hqueue, horder, fun _ => herase, fun _ => ⟨hlost, hfilled, hcalls', ?_⟩, ?_, ?_⟩
    · intro hnone
      simp [WorkQueue.State.working] at hnone
    · obtain ⟨n, hn, hcommitted⟩ := h.committed
      refine ⟨n, hn.trans (by simp), ?_⟩
      rwa [List.take_append_of_le_length hn]
    · exact ⟨s.work.handled ++ [insertion], htaken ▸ List.prefix_refl _, hcalls'⟩

theorem get_cases {commits : Bool} (hs : step sql s (.get commits) = some s') : s.failed = false ∧
    ∃ work, WorkQueue.step 1 s.work .take = some work ∧
      ((work.busy = [] ∧ commits = true ∧ s' = { s with work, committed := s.conn }) ∨
        (work.busy = [] ∧ commits = false ∧ s' = { s with work, conn := s.committed, failed := true }) ∨
        work.busy ≠ [] ∧ s' = { s with work }) := by
  simp only [step, Option.ite_none_left_eq_some] at hs
  obtain ⟨hfailed, hs⟩ := hs
  obtain ⟨work, hwork, rfl⟩ := Option.map_eq_some_iff.1 hs
  refine ⟨Bool.eq_false_of_not_eq_true hfailed, work, hwork, ?_⟩
  split
  · next hbusy =>
    cases commits
    · exact .inr (.inl ⟨hbusy, rfl, rfl⟩)
    · exact .inl ⟨hbusy, rfl, rfl⟩
  · next hbusy => exact .inr (.inr ⟨by simp [hbusy], rfl⟩)

theorem timeout_cases {commits : Bool} (hs : step sql s (.timeout commits) = some s') : s.failed = false ∧
    s.work.idle ≠ 0 ∧ ((commits = true ∧ s' = { s with committed := s.conn, changed := false }) ∨
      (commits = false ∧ s' = { s with conn := s.committed, failed := true }) ∨ s' = s) := by
  simp only [step, Option.ite_none_left_eq_some, not_or] at hs
  obtain ⟨⟨hfailed, hidle, -⟩, hs⟩ := hs
  refine ⟨Bool.eq_false_of_not_eq_true hfailed, hidle, ?_⟩
  split at hs
  · cases commits <;> cases hs
    · exact .inr (.inl ⟨rfl, rfl⟩)
    · exact .inl ⟨rfl, rfl⟩
  · cases hs
    exact .inr (.inr rfl)

theorem get_inv {commits : Bool} (h : Inv sql s) (hs : step sql s (.get commits) = some s') : Inv sql s' := by
  obtain ⟨hrunning, work, hwork, hs'⟩ := get_cases hs
  obtain ⟨hlost, hconn, hcalls, hchanged⟩ := h.running hrunning
  have hqueue := WorkQueue.step_inv h.queue hwork
  have horder := WorkQueue.step_inOrder h.order hwork
  obtain ⟨hidle, htake⟩ := WorkQueue.take_cases hwork
  have hsame : work.lost = s.work.lost ∧ work.handled = s.work.handled ∧ s.work.taken <+: work.taken := by
    obtain ⟨queue, -, rfl⟩ | ⟨insertion, queue, -, rfl⟩ := htake
    · exact ⟨rfl, rfl, List.prefix_refl _⟩
    · exact ⟨rfl, rfl, List.prefix_append _ _⟩
  obtain ⟨hlost', hhandled, htaken⟩ := hsame
  have hcompleted : ∃ done, done <+: work.taken ∧ s.completed = calls done := by
    obtain ⟨done, hdone, hcompleted⟩ := h.completed
    exact ⟨done, hdone.trans htaken, hcompleted⟩
  have hfilled : ∃ n ≤ work.handled.length, Filled sql (work.handled.take n) s.committed := hhandled ▸ h.committed
  rw [← hhandled] at hconn hcalls
  obtain ⟨hbusy, -, rfl⟩ | ⟨hbusy, -, rfl⟩ | ⟨hbusy, rfl⟩ := hs'
  · refine ⟨hqueue, horder, fun _ => hbusy, fun _ => ⟨hlost'.trans hlost, hconn, hcalls, fun _ => rfl⟩, ?_, hcompleted⟩
    exact ⟨work.handled.length, Nat.le_refl _, by rwa [List.take_length]⟩
  · exact ⟨hqueue, horder, fun _ => hbusy, (fun hnone => by cases hnone), hfilled, hcompleted⟩
  · refine ⟨hqueue, horder, fun hfailed => ?_, fun _ => ⟨hlost'.trans hlost, hconn, hcalls, ?_⟩, hfilled,
      hcompleted⟩
    · rw [hrunning] at hfailed
      cases hfailed
    · intro hsame
      apply hchanged
      refine hsame.imp_right fun hzero => ?_
      have hzero : work.idle + work.busy.length = 0 := hzero
      exact absurd (List.length_eq_zero_iff.1 (by omega)) hbusy

theorem timeout_inv {commits : Bool} (h : Inv sql s) (hs : step sql s (.timeout commits) = some s') : Inv sql s' := by
  obtain ⟨hrunning, hidle, hs'⟩ := timeout_cases hs
  obtain ⟨hlost, hconn, hcalls, hchanged⟩ := h.running hrunning
  obtain ⟨-, rfl⟩ | ⟨-, rfl⟩ | rfl := hs'
  · refine ⟨h.queue, h.order, h.failed, fun _ => ⟨hlost, hconn, hcalls, fun _ => rfl⟩, ?_, h.completed⟩
    exact ⟨s.work.handled.length, Nat.le_refl _, by rwa [List.take_length]⟩
  · exact ⟨h.queue, h.order, fun _ => (h.order.of_idle hidle).1, (fun hnone => by cases hnone), h.committed, h.completed⟩
  · exact h

theorem step_inv {e : Event Time} (h : Inv sql s) (hs : step sql s e = some s') : Inv sql s' := by
  cases e with
  | asyncInsert insertion =>
    rw [step] at hs
    obtain ⟨work, hwork, rfl⟩ := Option.map_eq_some_iff.1 hs
    have hqueue := WorkQueue.step_inv h.queue hwork
    have horder := WorkQueue.step_inOrder h.order hwork
    cases hwork
    exact ⟨hqueue, horder, h.failed, h.running, h.committed, h.completed⟩
  | close =>
    rw [step] at hs
    obtain ⟨work, hwork, rfl⟩ := Option.map_eq_some_iff.1 hs
    have hqueue := WorkQueue.step_inv h.queue hwork
    have horder := WorkQueue.step_inOrder h.order hwork
    cases hwork
    exact ⟨hqueue, horder, h.failed, h.running, h.committed, h.completed⟩
  | get commits => exact get_inv h hs
  | timeout commits => exact timeout_inv h hs
  | insert outcome => exact insert_inv h hs

theorem inv_run {events : List (Event Time)} (hr : run (step sql) {} events = some s) : Inv sql s :=
  run_inv (step sql) (fun _ _ _ h hs => step_inv h hs) init_inv hr

/-! ## Main results -/

theorem Inv.committed_added (h : Inv sql s) :
    ∃ n, n ≤ s.work.added.length ∧ Filled sql (s.work.added.take n) s.committed := by
  obtain ⟨n, hn, hfilled⟩ := h.committed
  have hprefix : s.work.handled <+: s.work.added := by
    refine List.IsPrefix.trans ⟨s.work.busy ++ s.work.lost, ?_⟩ h.queue.taken_added
    rw [← List.append_assoc, h.order.taken]
  refine ⟨n, hn.trans hprefix.length_le, ?_⟩
  obtain ⟨rest, hrest⟩ := hprefix
  rw [← hrest, List.take_append_of_le_length hn]
  exact hfilled

/-- What is committed are the first insertions that were asked for, in order, and `on_completion` was called with the
places of insertions. When the thread has ended, and nothing has raised, that is all that was asked for before it was
told to quit. -/
theorem committed_in_order {events : List (Event Time)} (hr : run (step sql) {} events = some s) :
    (∃ n, n ≤ s.work.added.length ∧ Filled sql (s.work.added.take n) s.committed) ∧
      (∃ done, done <+: s.work.added ∧ s.completed = calls done) ∧
      ∀ before, s.work.closed = some before → s.work.working = 0 → s.failed = false →
        Filled sql before s.committed ∧ s.completed = calls before := by
  have h := inv_run hr
  refine ⟨h.committed_added, ?_, ?_⟩
  · obtain ⟨done, hdone, hcompleted⟩ := h.completed
    exact ⟨done, hdone.trans h.queue.taken_added, hcompleted⟩
  · intro before hclosed hworking hrunning
    obtain ⟨hlost, hconn, hcalls, hchanged⟩ := h.running hrunning
    have hbusy : s.work.busy = [] := by
      rw [WorkQueue.State.working] at hworking
      exact List.length_eq_zero_iff.1 (by omega)
    have hhandled : s.work.handled = before := by
      have hlength := (h.queue.all_handled Nat.one_pos hclosed hworking hlost).length_eq
      have hprefix := h.queue.taken_before hclosed
      rw [← h.order.taken, hbusy, hlost, List.append_nil, List.append_nil] at hprefix
      exact hprefix.eq_of_length hlength
    rw [hhandled] at hconn hcalls
    rw [hchanged (.inr hworking)]
    exact ⟨hconn, hcalls⟩

def commandOf (source : String) : Command Nat := ⟨[source], []⟩

def insertionOf (source : String) : Insertion Nat := ⟨(commandOf source).getInfo, true⟩

/-- The thread is told to quit while it inserts the first of two commands. -/
def quitEarly : List (Event Nat) :=
  [.asyncInsert (insertionOf "a.cpp"), .get, .close, .insert .returns, .asyncInsert (insertionOf "b.cpp"), .get]

theorem committed_in_order_two : ∃ s, run (step Sqlite.plain) {} quitEarly = some s ∧
    Filled Sqlite.plain [insertionOf "a.cpp"] s.committed ∧ s.completed = [(insertionOf "a.cpp", 1)] :=
  ⟨_, rfl, (@committed_in_order Nat _ Sqlite.plain _ quitEarly rfl).2.2 _ rfl rfl rfl⟩

/-! ### Commands that are looked up -/

theorem added_step {e : Event Time} (hs : step sql s e = some s') : s.work.added <+: s'.work.added := by
  cases e with
  | asyncInsert insertion =>
    rw [step] at hs
    obtain ⟨work, hwork, rfl⟩ := Option.map_eq_some_iff.1 hs
    exact WorkQueue.added_step hwork
  | close =>
    rw [step] at hs
    obtain ⟨work, hwork, rfl⟩ := Option.map_eq_some_iff.1 hs
    exact WorkQueue.added_step hwork
  | insert outcome =>
    obtain ⟨insertion, -, ⟨work, completed, hwork, rfl, -⟩ | ⟨work, conn, commandId, completed, hwork, -, -, rfl⟩⟩ :=
      insert_cases hs <;> exact WorkQueue.added_step hwork
  | get commits =>
    obtain ⟨-, work, hwork, ⟨-, -, rfl⟩ | ⟨-, -, rfl⟩ | ⟨-, rfl⟩⟩ := get_cases hs <;>
      exact WorkQueue.added_step hwork
  | timeout commits =>
    obtain ⟨-, -, ⟨-, rfl⟩ | ⟨-, rfl⟩ | rfl⟩ := timeout_cases hs <;> exact List.prefix_refl _

theorem Filled.stored {insertions : List (Insertion Time)} {commands : List (Command Time)} {db : Tables Time}
    (h : Filled sql insertions db) (hinfo : insertions.map (·.commandInfo) = commands.map Command.getInfo) :
    Stored db commands := by
  obtain ⟨commandIds, hall⟩ := h
  rw [hinfo, insertCommands_eq] at hall
  cases hall
  exact stored_run commands stored_empty

theorem getCommand_none {db : Tables Time} {commands : List (Command Time)} (h : Stored db commands) {n : Nat}
    (hn : commands.length ≤ n) : getCommand sql (n + 1) db = .ok none := by
  have hcommand : select sql .command "rowid" (n + 1) none db = .ok [] := by
    show (owned db .command (n + 1)).mapM (readRow .command) = _
    rw [h.fresh.command (n + 1) (by rw [h.length]; omega)]
    rfl
  rw [getCommand, if_neg (Nat.succ_ne_zero n)]
  show (select sql .command "rowid" (n + 1) none db >>= _) = _
  rw [hcommand]
  rfl

theorem committed_step {e : Event Time} (h : Inv sql s) (hs : step sql s e = some s') :
    (s.committed .command).length ≤ (s'.committed .command).length := by
  have hconn : s.failed = false → (s.committed .command).length ≤ (s.conn .command).length := by
    intro hrunning
    obtain ⟨n, hn, hcommitted⟩ := h.committed
    rw [hcommitted.length, (h.running hrunning).2.1.length, List.length_take]
    exact Nat.min_le_right _ _
  cases e with
  | asyncInsert insertion =>
    rw [step] at hs
    obtain ⟨work, -, rfl⟩ := Option.map_eq_some_iff.1 hs
    exact Nat.le_refl _
  | close =>
    rw [step] at hs
    obtain ⟨work, -, rfl⟩ := Option.map_eq_some_iff.1 hs
    exact Nat.le_refl _
  | insert outcome =>
    obtain ⟨insertion, -, ⟨work, completed, -, rfl, -⟩ | ⟨work, conn, commandId, completed, -, -, -, rfl⟩⟩ :=
      insert_cases hs <;> exact Nat.le_refl _
  | get commits =>
    obtain ⟨hrunning, work, -, ⟨-, -, rfl⟩ | ⟨-, -, rfl⟩ | ⟨-, rfl⟩⟩ := get_cases hs
    · exact hconn hrunning
    · exact Nat.le_refl _
    · exact Nat.le_refl _
  | timeout commits =>
    obtain ⟨hrunning, -, ⟨-, rfl⟩ | ⟨-, rfl⟩ | rfl⟩ := timeout_cases hs
    · exact hconn hrunning
    · exact Nat.le_refl _
    · exact Nat.le_refl _

theorem committed_run {events : List (Event Time)} (h : Inv sql s) (hr : run (step sql) s events = some s') :
    Inv sql s' ∧ (s.committed .command).length ≤ (s'.committed .command).length ∧ s.work.added <+: s'.work.added := by
  let I (t : DatabaseInserter Time) : Prop :=
    Inv sql t ∧ (s.committed .command).length ≤ (t.committed .command).length ∧ s.work.added <+: t.work.added
  have hstep : ∀ t e t', I t → step sql t e = some t' → I t' := by
    rintro t e t' ⟨ht, hlength, hadded⟩ hs
    exact ⟨step_inv ht hs, hlength.trans (committed_step ht hs), hadded.trans (added_step hs)⟩
  exact run_inv (step sql) hstep (show I s from ⟨h, Nat.le_refl _, List.prefix_refl _⟩) hr

/-- When a number finds a command in what is committed, it is that of the command's place among those that were to be
inserted, and it finds that command ever after. -/
theorem found_ever_after {events events' : List (Event Time)} {commands : List (Command Time)} {n : Nat}
    (hr : run (step sql) {} events = some s) (hr' : run (step sql) s events' = some s')
    (hinfo : s'.work.added.map (·.commandInfo) = commands.map Command.getInfo)
    (hfound : getCommand sql (n + 1) s.committed ≠ .ok none) :
    ∃ c r, commands[n]? = some c ∧ getCommand sql (n + 1) s'.committed = .ok (some r) ∧
      ReturnsCommand storedEntry r c := by
  obtain ⟨h', hlength, hadded⟩ := committed_run (inv_run hr) hr'
  have hstored : ∀ {t : DatabaseInserter Time}, Inv sql t → t.work.added <+: s'.work.added →
      Stored t.committed (commands.take (t.committed .command).length) := by
    intro t ht hprefix
    obtain ⟨m, hm, hfilled⟩ := ht.committed_added
    have hcount : (t.committed .command).length = m := by
      rw [hfilled.length, List.length_take, Nat.min_eq_left hm]
    refine hfilled.stored ?_
    obtain ⟨rest, hrest⟩ := hprefix
    rw [hcount, List.map_take, List.map_take, ← hinfo, ← hrest, List.map_append,
      List.take_append_of_le_length (by rwa [List.length_map])]
  have hlt : n < (s.committed .command).length := by
    by_contra hle
    apply hfound
    apply getCommand_none (hstored (inv_run hr) hadded)
    rw [List.length_take]
    omega
  have hlater := hstored h' (List.prefix_refl _)
  have hsome : n < (commands.take (s'.committed .command).length).length := by
    rw [← hlater.length]
    omega
  have hget := List.getElem?_eq_getElem hsome
  obtain ⟨r, hr, hreturns⟩ := getCommand_of_holds sql (hlater.holds n _ hget)
  rw [List.getElem?_take_of_lt (by omega)] at hget
  exact ⟨_, r, hget, hr, hreturns⟩

/-- The thread commits a command. -/
def committedFirst : List (Event Nat) := [.asyncInsert (insertionOf "a.cpp"), .get, .insert .returns, .timeout]

/-- It inserts another. -/
def insertedSecond : List (Event Nat) := [.asyncInsert (insertionOf "b.cpp"), .get, .insert .returns]

theorem found_ever_after_two : ∃ s s', run (step Sqlite.plain) {} committedFirst = some s ∧
    run (step Sqlite.plain) s insertedSecond = some s' ∧ ∃ c r, [commandOf "a.cpp", commandOf "b.cpp"][0]? = some c ∧
      getCommand Sqlite.plain 1 s'.committed = .ok (some r) ∧ ReturnsCommand storedEntry r c := by
  refine ⟨_, _, rfl, rfl, ?_⟩
  apply @found_ever_after Nat _ Sqlite.plain _ _ committedFirst insertedSecond _ 0 rfl rfl rfl
  intro hnone
  cases hnone

end Inserter

end DatabaseInserter

end BuildPal.Database
