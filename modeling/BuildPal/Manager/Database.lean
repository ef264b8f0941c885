import BuildPal.Manager.CompileOptions
import BuildPal.Manager.ServerSession
import Mathlib.Order.Defs.LinearOrder
import Mathlib.Data.List.Forall2
import Mathlib.Data.List.Perm.Basic
import Mathlib.Data.List.Sort
/-!
# The database of finished commands

`Database` of `database.py`, over what `get_info` of the command, its tasks and
its sessions gives it. SQLite is a parameter: it stores a value as the type of its
column asks for, and orders rows by one of their values. Without an `ORDER BY`
rows come by their number.
-/

namespace BuildPal.Database

open Conversation (Raised)

/-! ## SQLite -/

section Sqlite
variable (Time : Type)

inductive Value where
  | null
  | integer (n : Int)
  | real (t : Time)
  | text (s : String)
  deriving DecidableEq, Repr

inductive ColType where
  | text
  | integer
  | real
  deriving DecidableEq, Repr

structure Row where
  rowid : Nat
  cells : List (Value Time)
  deriving DecidableEq, Repr

variable {Time} in
/-- Of two integers or two reals, the first is the smaller or they are equal. -/
def Value.LE [LinearOrder Time] : Value Time → Value Time → Prop
  | .integer m, .integer n => m ≤ n
  | .real t, .real u => t ≤ u
  | _, _ => False

/-- What is used of SQLite. Only conversions that arise are fixed. -/
structure Sqlite [LinearOrder Time] where
  store : ColType → Value Time → Value Time
  orderBy : (Row Time → Value Time) → List (Row Time) → List (Row Time)
  store_null : ∀ type, store type .null = .null
  store_text : ∀ s, store .text (.text s) = .text s
  store_integer : ∀ n, store .integer (.integer n) = .integer n
  store_real : ∀ t, store .real (.real t) = .real t
  /-- A number in a `TEXT` column is converted to text. -/
  store_number : ∀ n, store .text (.integer n) = .text (toString n)
  orderBy_perm : ∀ key rows, (orderBy key rows).Perm rows
  orderBy_sorted : ∀ key rows, (∀ r ∈ rows, ∀ r' ∈ rows, (key r).LE (key r') ∨ (key r').LE (key r)) →
    (orderBy key rows).Pairwise fun r r' => (key r).LE (key r')

end Sqlite

/-! ## Python's side -/

section Python
variable (Time : Type)

inductive PyValue where
  | none
  | int (n : Int)
  | float (t : Time)
  | str (s : String)
  | result (r : SessionResult)
  deriving DecidableEq, Repr

/-- A dictionary. -/
abbrev Entry := List (String × PyValue Time)

variable {Time}

def Entry.get : Entry Time → String → PyValue Time
  | [], _ => .none
  | (k, v) :: e, key => if k = key then v else Entry.get e key

/-- Equal as dictionaries, where `None` is as good as nothing. -/
def Entry.Same (e e' : Entry Time) : Prop := ∀ key, e.get key = e'.get key

def resultValue : SessionResult → Int
  | .success => 1
  | .failure => 2
  | .cancelled => 3
  | .tooLate => 4
  | .timedOut => 5
  | .terminated => 6

def resultOf : Int → Except Raised SessionResult
  | 1 => .ok .success
  | 2 => .ok .failure
  | 3 => .ok .cancelled
  | 4 => .ok .tooLate
  | 5 => .ok .timedOut
  | 6 => .ok .terminated
  | _ => .error .valueError

/-- `convert_enum(SessionResult)`. -/
def enumToDb : PyValue Time → Except Raised (Value Time)
  | .result r => .ok (.integer (resultValue r))
  | _ => .error .attributeError

def enumFromDb : Value Time → Except Raised (PyValue Time)
  | .integer n => (resultOf n).map .result
  | _ => .error .valueError

/-- What the driver binds a parameter to. -/
def bindParam : PyValue Time → Except Raised (Value Time)
  | .none => .ok .null
  | .int n => .ok (.integer n)
  | .float t => .ok (.real t)
  | .str s => .ok (.text s)
  | .result _ => .error (.exception "Error binding parameter")

def fetch : Value Time → PyValue Time
  | .null => .none
  | .integer n => .int n
  | .real t => .float t
  | .text s => .str s

end Python

/-! ## Tables -/

inductive Table where
  | command
  | task
  | session
  | times
  deriving DecidableEq, Repr

/-- A column with an enumeration has a converter, and its type is the converter's. -/
structure ColDesc where
  colName : String
  colType : ColType
  null : Bool := false
  ref : Option (String × String) := none
  converter : Bool := false
  deriving DecidableEq, Repr

def descForTable : Table → List ColDesc
  | .command => [{ colName := "command", colType := .text }]
  | .task => [
      { colName := "command_id", colType := .integer, ref := some ("command", "rowid") },
      { colName := "source", colType := .text },
      { colName := "pch_file", colType := .text, null := true }]
  | .times => [
      { colName := "task_id", colType := .integer, ref := some ("task", "rowid") },
      { colName := "time_point_ord", colType := .integer },
      { colName := "time_point_name", colType := .text },
      { colName := "time_point", colType := .real }]
  | .session => [
      { colName := "task_id", colType := .integer, ref := some ("task", "rowid") },
      { colName := "hostname", colType := .text },
      { colName := "port", colType := .text },
      { colName := "started", colType := .real },
      { colName := "completed", colType := .real },
      { colName := "result", colType := .integer, converter := true }]

abbrev Tables (Time : Type) := Table → List (Row Time)

variable {Time : Type}

def Tables.push (db : Tables Time) (table : Table) (cells : List (Value Time)) : Tables Time :=
  fun t => if t = table then db t ++ [⟨(db t).length + 1, cells⟩] else db t

section Operations
variable [LinearOrder Time] (sql : Sqlite Time)

/-- One column of `__insert`. -/
def convert (data extraData : Entry Time) (desc : ColDesc) : Except Raised (Value Time) :=
  let colData := match data.get desc.colName with
    | .none => extraData.get desc.colName
    | v => v
  if colData = .none ∧ ¬ desc.null then
    .error (.exception ("Missing non-nullable column value \x27" ++ desc.colName ++ "\x27"))
  else (if desc.converter then enumToDb colData else bindParam colData).map (sql.store desc.colType)

/-- `__insert`, with the number of the new row. Rows are never deleted. -/
def insert (table : Table) (data extraData : Entry Time) (db : Tables Time) : Except Raised (Tables Time × Nat) := do
  let cells ← (descForTable table).mapM (convert sql data extraData)
  return (db.push table cells, (db table).length + 1)

/-- The value of a row in the column that a condition or an order names. -/
def cell (table : Table) (col : String) (row : Row Time) : Value Time :=
  if col = "rowid" then .integer row.rowid
  else (((descForTable table).zip row.cells).find? (·.1.colName = col)).elim .null (·.2)

/-- One column of `__select`, where it is in the entry. -/
def readCell (desc : ColDesc) (col : Value Time) : Except Raised (Option (String × PyValue Time)) :=
  if desc.ref.isSome then .ok none
  else if col = .null then if desc.null then .ok none else .error .assertionError
  else (if desc.converter then enumFromDb col else .ok (fetch col)).map fun v => some (desc.colName, v)

def readRow (table : Table) (row : Row Time) : Except Raised (Entry Time × Nat) := do
  let cols ← ((descForTable table).zip row.cells).mapM fun (desc, col) => readCell desc col
  return (cols.reduceOption, row.rowid)

/-- `__select`. -/
def select (table : Table) (col : String) (value : Nat) (orderby : Option String) (db : Tables Time) :
    Except Raised (List (Entry Time × Nat)) :=
  let rows := (db table).filter (cell table col · = .integer value)
  (orderby.elim rows fun column => sql.orderBy (cell table column) rows).mapM (readRow table)

end Operations

/-! ## Commands -/

/-- A task as `Task.get_info` gives it. -/
structure TaskInfo (Time : Type) where
  entry : Entry Time
  sessions : List (Entry Time)
  times : List (Entry Time)
  deriving DecidableEq, Repr

structure CommandInfo (Time : Type) where
  entry : Entry Time
  tasks : List (TaskInfo Time)
  deriving DecidableEq, Repr

section Commands
variable [LinearOrder Time] (sql : Sqlite Time)

/-- The loop over the sessions of a task, and that over its time points. -/
def insertAll (table : Table) (taskId : Nat) (entries : List (Entry Time)) (db : Tables Time) :
    Except Raised (Tables Time) :=
  entries.foldlM (fun db entry => (insert sql table entry [("task_id", .int taskId)] db).map (·.1)) db

def insertTask (commandId : Nat) (db : Tables Time) (task : TaskInfo Time) : Except Raised (Tables Time) := do
  let (db, taskId) ← insert sql .task task.entry [("command_id", .int commandId)] db
  let db ← insertAll sql .session taskId task.sessions db
  insertAll sql .times taskId task.times db

def insertCommand (command : CommandInfo Time) (db : Tables Time) : Except Raised (Tables Time × Nat) := do
  let (db, commandId) ← insert sql .command command.entry [] db
  let db ← command.tasks.foldlM (insertTask sql commandId) db
  return (db, commandId)

def getTask (db : Tables Time) (task : Entry Time × Nat) : Except Raised (TaskInfo Time) := do
  let sessions ← select sql .session "task_id" task.2 (some "started") db
  let times ← select sql .times "task_id" task.2 (some "time_point_ord") db
  return { entry := task.1, sessions := sessions.map (·.1), times := times.map (·.1) }

def getCommand (rowid : Nat) (db : Tables Time) : Except Raised (Option (CommandInfo Time)) := do
  if rowid = 0 then throw .assertionError
  match ← select sql .command "rowid" rowid none db with
  | [] => return none
  | [(entry, _)] =>
    let tasks ← select sql .task "command_id" rowid none db
    let tasks ← tasks.mapM (getTask sql db)
    return some { entry, tasks }
  | _ => throw .assertionError

/-- Commands inserted one after the other, with what each insertion returned. -/
def insertCommands : List (CommandInfo Time) → Tables Time → Except Raised (Tables Time × List Nat)
  | [], db => .ok (db, [])
  | command :: commands, db => do
    let (db, commandId) ← insertCommand sql command db
    let (db, commandIds) ← insertCommands commands db
    return (db, commandId :: commandIds)

end Commands

/-! ## What is stored -/

structure Session (Time : Type) where
  hostname : String
  port : Int
  started : Time
  completed : Time
  result : SessionResult
  deriving DecidableEq, Repr

structure Task (Time : Type) where
  source : String
  pchFile : Option String
  sessions : List (Session Time)
  timePoints : List (String × Time)
  deriving DecidableEq, Repr

structure Command (Time : Type) where
  sourceFiles : List String
  tasks : List (Task Time)
  deriving DecidableEq, Repr

/-- The entry of a session, with the port as it is given. -/
def Session.entry (s : Session Time) (port : PyValue Time) : Entry Time :=
  [("hostname", .str s.hostname), ("port", port), ("started", .float s.started), ("completed", .float s.completed),
    ("result", .result s.result)]

/-- `ServerSession.get_info`. -/
def Session.getInfo (s : Session Time) : Entry Time := s.entry (.int s.port)

def timeEntry (ord : Nat) (point : String × Time) : Entry Time :=
  [("time_point_ord", .int ord), ("time_point_name", .str point.1), ("time_point", .float point.2)]

/-- `Task.get_info`. -/
def Task.getInfo (t : Task Time) : TaskInfo Time where
  entry := [("source", .str t.source), ("pch_file", t.pchFile.elim .none .str)]
  sessions := t.sessions.map Session.getInfo
  times := t.timePoints.mapIdx timeEntry

/-- `CommandProcessor.get_info`. -/
def Command.getInfo (c : Command Time) : CommandInfo Time where
  entry := [("command", .str (", ".intercalate c.sourceFiles))]
  tasks := c.tasks.map Task.getInfo

/-! ## What is to be returned -/

section Expected
variable [LinearOrder Time]

/-- The sessions of a task, given by their entries, ordered by start time. -/
def OrderedSessions (asEntry : Session Time → Entry Time) (entries : List (Entry Time))
    (sessions : List (Session Time)) :
    Prop :=
  ∃ ordered, ordered.Perm sessions ∧ ordered.Pairwise (·.started ≤ ·.started) ∧
    List.Forall₂ (fun e s => e.Same (asEntry s)) entries ordered

structure ReturnsTask (asEntry : Session Time → Entry Time) (r : TaskInfo Time) (t : Task Time) : Prop where
  entry : r.entry.Same t.getInfo.entry
  sessions : OrderedSessions asEntry r.sessions t.sessions
  times : List.Forall₂ Entry.Same r.times t.getInfo.times

/-- A command comes back, with its sessions as such entries. -/
structure ReturnsCommand (asEntry : Session Time → Entry Time) (r : CommandInfo Time) (c : Command Time) : Prop where
  entry : r.entry.Same c.getInfo.entry
  tasks : List.Forall₂ (ReturnsTask asEntry) r.tasks c.tasks

end Expected

/-! ## Rows -/

def commandCells (c : Command Time) : List (Value Time) := [.text (", ".intercalate c.sourceFiles)]

def taskCells (commandId : Nat) (t : Task Time) : List (Value Time) :=
  [.integer commandId, .text t.source, t.pchFile.elim .null .text]

def sessionCells (taskId : Nat) (s : Session Time) : List (Value Time) :=
  [.integer taskId, .text s.hostname, .text (toString s.port), .real s.started, .real s.completed,
    .integer (resultValue s.result)]

def timeCells (taskId ord : Nat) (point : String × Time) : List (Value Time) :=
  [.integer taskId, .integer ord, .text point.1, .real point.2]

/-- What a task comes back as. -/
def taskEntry (t : Task Time) : Entry Time :=
  ("source", .str t.source) :: t.pchFile.elim [] fun file => [("pch_file", .str file)]

/-- A port comes back as the text it was converted to. -/
def storedEntry (s : Session Time) : Entry Time := s.entry (.str (toString s.port))

theorem taskEntry_same (t : Task Time) : (taskEntry t).Same t.getInfo.entry := by
  intro key
  cases h : t.pchFile <;> simp [taskEntry, Task.getInfo, Entry.get, h]

section Cells
variable [LinearOrder Time] (sql : Sqlite Time)

theorem insert_command (c : Command Time) (db : Tables Time) :
    insert sql .command c.getInfo.entry [] db = .ok (db.push .command (commandCells c), (db .command).length + 1) := by
  simp [insert, descForTable, convert, Command.getInfo, Entry.get, bindParam, Except.map, sql.store_text, commandCells]

theorem insert_task (commandId : Nat) (t : Task Time) (db : Tables Time) :
    insert sql .task t.getInfo.entry [("command_id", .int commandId)] db =
      .ok (db.push .task (taskCells commandId t), (db .task).length + 1) := by
  cases h : t.pchFile <;>
  simp [insert, descForTable, convert, Task.getInfo, Entry.get, bindParam, Except.map, sql.store_text,
    sql.store_integer,
    sql.store_null, taskCells, h] <;>
  rfl

theorem insert_session (taskId : Nat) (s : Session Time) (db : Tables Time) :
    insert sql .session s.getInfo [("task_id", .int taskId)] db =
      .ok (db.push .session (sessionCells taskId s), (db .session).length + 1) := by
  simp [insert, descForTable, convert, Session.getInfo, Session.entry, Entry.get, bindParam, enumToDb, Except.map,
    sql.store_text, sql.store_integer, sql.store_number, sql.store_real, sessionCells]
  rfl

theorem insert_time (taskId ord : Nat) (point : String × Time) (db : Tables Time) :
    insert sql .times (timeEntry ord point) [("task_id", .int taskId)] db =
      .ok (db.push .times (timeCells taskId ord point), (db .times).length + 1) := by
  simp [insert, descForTable, convert, timeEntry, Entry.get, bindParam, Except.map, sql.store_text, sql.store_integer,
    sql.store_real, timeCells]
  rfl

/-! ### Reading them back -/

theorem resultOf_value (r : SessionResult) : resultOf (resultValue r) = .ok r := by cases r <;> rfl

theorem readRow_command (n : Nat) (c : Command Time) :
    readRow .command ⟨n, commandCells c⟩ = .ok (c.getInfo.entry, n) := rfl

theorem readRow_task (n commandId : Nat) (t : Task Time) :
    readRow .task ⟨n, taskCells commandId t⟩ = .ok (taskEntry t, n) := by
  cases h : t.pchFile <;>
  simp [readRow, descForTable, taskCells, readCell, taskEntry, fetch, Except.map, h] <;>
  rfl

theorem readRow_session (n taskId : Nat) (s : Session Time) :
    readRow .session ⟨n, sessionCells taskId s⟩ = .ok (storedEntry s, n) := by
  simp [readRow, descForTable, sessionCells, readCell, storedEntry, Session.entry, fetch, enumFromDb, resultOf_value,
    Except.map]
  rfl

theorem readRow_time (n taskId ord : Nat) (point : String × Time) :
    readRow .times ⟨n, timeCells taskId ord point⟩ = .ok (timeEntry ord point, n) := by
  simp [readRow, descForTable, timeCells, readCell, timeEntry, fetch, Except.map]
  rfl

end Cells

/-! ## Whose rows they are -/

/-- The column by which the rows of a table are looked up. -/
def ownerCol : Table → String
  | .command => "rowid"
  | .task => "command_id"
  | .session | .times => "task_id"

/-- Rows with these cells are looked up by this number. -/
def Belongs (table : Table) (k : Nat) (cells : List (Value Time)) : Prop :=
  ∀ n, cell table (ownerCol table) ⟨n, cells⟩ = .integer k

theorem belongs_task (commandId : Nat) (t : Task Time) : Belongs .task commandId (taskCells commandId t) := fun _ => rfl

theorem belongs_session (taskId : Nat) (s : Session Time) :
    Belongs .session taskId (sessionCells taskId s) := fun _ => rfl

theorem belongs_time (taskId ord : Nat) (point : String × Time) : Belongs .times taskId (timeCells taskId ord point) :=
  fun _ => rfl

namespace Tables

def pushAll (db : Tables Time) (table : Table) (rows : List (List (Value Time))) : Tables Time :=
  rows.foldl (fun db cells => db.push table cells) db

theorem push_self (db : Tables Time) (table : Table) (cells : List (Value Time)) :
    db.push table cells table = db table ++ [⟨(db table).length + 1, cells⟩] := if_pos rfl

theorem push_other (db : Tables Time) {table t : Table} (cells : List (Value Time)) (h : t ≠ table) :
    db.push table cells t = db t := if_neg h

theorem pushAll_other {table t : Table} (h : t ≠ table) (rows : List (List (Value Time))) :
    ∀ db : Tables Time, db.pushAll table rows t = db t := by
  induction rows with
  | nil => exact fun _ => rfl
  | cons cells rows ih => exact fun db => (ih _).trans (db.push_other cells h)

end Tables

/-! ## What an insertion stores -/

def sessionRows (taskId : Nat) (t : Task Time) : List (List (Value Time)) := t.sessions.map (sessionCells taskId)

def timeRows (taskId : Nat) (t : Task Time) : List (List (Value Time)) := t.timePoints.mapIdx (timeCells taskId)

def storeTask (commandId : Nat) (db : Tables Time) (t : Task Time) : Tables Time :=
  let taskId := (db .task).length + 1
  ((db.push .task (taskCells commandId t)).pushAll .session (sessionRows taskId t)).pushAll .times (timeRows taskId t)

def storeCommand (db : Tables Time) (c : Command Time) : Tables Time :=
  c.tasks.foldl (storeTask ((db .command).length + 1)) (db.push .command (commandCells c))

theorem push_command_length (db : Tables Time) (cells : List (Value Time)) :
    (db.push .command cells .command).length = (db .command).length + 1 := by
  rw [Tables.push_self, List.length_append, List.length_singleton]

theorem sessionRows_belong (taskId : Nat) (t : Task Time) :
    ∀ cells ∈ sessionRows taskId t, Belongs .session taskId cells := by
  intro cells h
  obtain ⟨s, -, rfl⟩ := List.mem_map.mp h
  exact belongs_session taskId s

theorem timeRows_belong (taskId : Nat) (t : Task Time) : ∀ cells ∈ timeRows taskId t, Belongs .times taskId cells := by
  intro cells h
  obtain ⟨ord, hord, rfl⟩ := List.mem_mapIdx.mp h
  exact belongs_time taskId ord _

theorem storeTask_command (commandId : Nat) (db : Tables Time) (t : Task Time) :
    storeTask commandId db t .command = db .command := by
  rw [storeTask, Tables.pushAll_other (by decide), Tables.pushAll_other (by decide), Tables.push_other _ _ (by decide)]

theorem storeTask_task (commandId : Nat) (db : Tables Time) (t : Task Time) :
    storeTask commandId db t .task = db.push .task (taskCells commandId t) .task := by
  rw [storeTask, Tables.pushAll_other (by decide), Tables.pushAll_other (by decide)]

theorem storeTask_length (commandId : Nat) (db : Tables Time) (t : Task Time) :
    (storeTask commandId db t .task).length = (db .task).length + 1 := by
  rw [storeTask_task, Tables.push_self, List.length_append, List.length_singleton]

theorem foldl_storeTask_command (commandId : Nat) (ts : List (Task Time)) : ∀ db : Tables Time,
    ts.foldl (storeTask commandId) db .command = db .command := by
  induction ts with
  | nil => exact fun _ => rfl
  | cons t ts ih => exact fun db => (ih _).trans (storeTask_command commandId db t)

theorem storeCommand_command (db : Tables Time) (c : Command Time) :
    storeCommand db c .command = db.push .command (commandCells c) .command := foldl_storeTask_command _ _ _

/-- Rows with the cells of these, with their numbers. -/
theorem exists_rows {α : Type} {cells : α → List (Value Time)} (xs : List α) : ∀ {rows : List (Row Time)},
    rows.map Row.cells = xs.map cells →
    ∃ numbered : List (Nat × α), rows = numbered.map (fun p => ⟨p.1, cells p.2⟩) ∧ numbered.map Prod.snd = xs := by
  induction xs with
  | nil =>
    intro rows h
    exact ⟨[], List.map_eq_nil_iff.mp h, rfl⟩
  | cons x xs ih =>
    intro rows h
    cases rows with
    | nil => cases h
    | cons row rows =>
      obtain ⟨hhead, htail⟩ := List.cons.inj h
      obtain ⟨numbered, rfl, rfl⟩ := ih htail
      exact ⟨(row.rowid, x) :: numbered, by rw [List.map_cons, ← hhead], rfl⟩

/-! ## Rows of an owner -/

variable [LinearOrder Time]

def owned (db : Tables Time) (table : Table) (k : Nat) : List (Row Time) :=
  (db table).filter (cell table (ownerCol table) · = .integer k)

theorem owned_push (db : Tables Time) (table : Table) (cells : List (Value Time)) (k : Nat) :
    owned (db.push table cells) table k = owned db table k ++
      if cell table (ownerCol table) ⟨(db table).length + 1, cells⟩ = .integer k then [⟨(db table).length + 1, cells⟩]
      else [] := by
  rw [owned, Tables.push_self, List.filter_append, owned, List.filter_singleton]
  simp

theorem owned_congr {db db' : Tables Time} {table : Table} (h : db' table = db table) (k : Nat) :
    owned db' table k = owned db table k := by
  rw [owned, owned, h]

/-- Rows that belong elsewhere do not show. -/
theorem owned_pushAll_ne {table : Table} {k k' : Nat} (hk : k ≠ k') {rows : List (List (Value Time))}
    (hrows : ∀ cells ∈ rows, Belongs table k' cells) : ∀ db : Tables Time,
    owned (db.pushAll table rows) table k = owned db table k := by
  induction rows with
  | nil => exact fun _ => rfl
  | cons cells rows ih =>
    intro db
    have hne : (.integer k' : Value Time) ≠ .integer k := fun h => hk (Int.ofNat.inj (Value.integer.inj h)).symm
    refine (ih (fun c hc => hrows c (List.mem_cons_of_mem _ hc)) (db.push table cells)).trans ?_
    rw [owned_push, hrows cells List.mem_cons_self, if_neg hne, List.append_nil]

theorem owned_pushAll_self {table : Table} {k : Nat} {rows : List (List (Value Time))}
    (hrows : ∀ cells ∈ rows, Belongs table k cells) : ∀ db : Tables Time,
    (owned (db.pushAll table rows) table k).map Row.cells = (owned db table k).map Row.cells ++ rows := by
  induction rows with
  | nil => exact fun _ => (List.append_nil _).symm
  | cons cells rows ih =>
    intro db
    refine (ih (fun c hc => hrows c (List.mem_cons_of_mem _ hc)) (db.push table cells)).trans ?_
    rw [owned_push, hrows cells List.mem_cons_self, if_pos rfl]
    simp

/-! ## Insertions -/

section Insert
variable (sql : Sqlite Time)

theorem insertAll_eq {α : Type} {table : Table} {taskId : Nat} {entry : α → Entry Time} {cells : α → List (Value Time)}
    (h : ∀ x db, insert sql table (entry x) [("task_id", .int taskId)] db =
      .ok (db.push table (cells x), (db table).length + 1)) (xs : List α) : ∀ db,
    insertAll sql table taskId (xs.map entry) db = .ok (db.pushAll table (xs.map cells)) := by
  induction xs with
  | nil => exact fun _ => rfl
  | cons x xs ih =>
    intro db
    rw [List.map_cons, insertAll, List.foldlM_cons, h]
    exact ih (db.push table (cells x))

theorem insertTask_eq (commandId : Nat) (db : Tables Time) (t : Task Time) :
    insertTask sql commandId db t.getInfo = .ok (storeTask commandId db t) := by
  have hsessions := insertAll_eq sql (insert_session sql ((db .task).length + 1)) t.sessions
  have htimes := insertAll_eq sql (fun (x : (String × Time) × Nat) => insert_time sql ((db .task).length + 1) x.2 x.1)
    t.timePoints.zipIdx
  rw [← List.mapIdx_eq_zipIdx_map, ← List.mapIdx_eq_zipIdx_map] at htimes
  rw [insertTask, insert_task]
  show (insertAll sql .session _ (t.sessions.map Session.getInfo) _ >>= fun db' =>
    insertAll sql .times _ (t.timePoints.mapIdx timeEntry) db') = _
  rw [hsessions]
  exact htimes _

theorem foldlM_insertTask (commandId : Nat) (ts : List (Task Time)) : ∀ db,
    (ts.map Task.getInfo).foldlM (insertTask sql commandId) db = .ok (ts.foldl (storeTask commandId) db) := by
  induction ts with
  | nil => exact fun _ => rfl
  | cons t ts ih =>
    intro db
    rw [List.map_cons, List.foldlM_cons, insertTask_eq]
    exact ih _

theorem insertCommand_eq (c : Command Time) (db : Tables Time) :
    insertCommand sql c.getInfo db = .ok (storeCommand db c, (db .command).length + 1) := by
  rw [insertCommand, insert_command]
  show (((c.tasks.map Task.getInfo).foldlM (insertTask sql _) _) >>= _) = _
  rw [foldlM_insertTask]
  rfl

/-- Insertions do not fail, and number the commands one after the other. -/
theorem insertCommands_eq (cs : List (Command Time)) : ∀ db, insertCommands sql (cs.map Command.getInfo) db =
    .ok (cs.foldl storeCommand db, List.range' ((db .command).length + 1) cs.length) := by
  induction cs with
  | nil => exact fun _ => rfl
  | cons c cs ih =>
    intro db
    have hlen : (storeCommand db c .command).length = (db .command).length + 1 := by
      rw [storeCommand_command, Tables.push_self, List.length_append, List.length_singleton]
    rw [List.map_cons, insertCommands, insertCommand_eq]
    show (insertCommands sql (cs.map Command.getInfo) (storeCommand db c) >>= _) = _
    rw [ih, hlen]
    rfl

end Insert

/-! ## What is held of a command -/

/-- The rows of a task, looked up by its number. -/
structure HoldsTask (db : Tables Time) (commandId : Nat) (row : Row Time) (t : Task Time) : Prop where
  cells : row.cells = taskCells commandId t
  known : row.rowid ≤ (db .task).length
  sessions : (owned db .session row.rowid).map Row.cells = sessionRows row.rowid t
  times : (owned db .times row.rowid).map Row.cells = timeRows row.rowid t

structure Holds (db : Tables Time) (commandId : Nat) (c : Command Time) : Prop where
  known : commandId ≤ (db .command).length
  command : owned db .command commandId = [⟨commandId, commandCells c⟩]
  tasks : List.Forall₂ (HoldsTask db commandId) (owned db .task commandId) c.tasks

/-- No row belongs to what is not there yet. -/
structure Fresh (db : Tables Time) : Prop where
  command : ∀ k, (db .command).length < k → owned db .command k = []
  task : ∀ k, (db .command).length < k → owned db .task k = []
  session : ∀ k, (db .task).length < k → owned db .session k = []
  times : ∀ k, (db .task).length < k → owned db .times k = []

/-- What inserting tasks of a command leaves as it is. -/
structure Kept (commandId : Nat) (db db' : Tables Time) : Prop where
  command : db' .command = db .command
  grows : (db .task).length ≤ (db' .task).length
  task : ∀ k, k ≠ commandId → owned db' .task k = owned db .task k
  session : ∀ k, k ≤ (db .task).length → owned db' .session k = owned db .session k
  times : ∀ k, k ≤ (db .task).length → owned db' .times k = owned db .times k

/-! ### One task -/

theorem owned_storeTask_task (commandId : Nat) (db : Tables Time) (t : Task Time) (k : Nat) :
    owned (storeTask commandId db t) .task k = owned db .task k ++
      if commandId = k then [⟨(db .task).length + 1, taskCells commandId t⟩] else [] := by
  rw [owned_congr (storeTask_task commandId db t), owned_push, belongs_task]
  simp

theorem owned_storeTask_session (commandId : Nat) (db : Tables Time) (t : Task Time) (k : Nat) :
    owned (storeTask commandId db t) .session k =
      owned ((db.push .task (taskCells commandId t)).pushAll .session (sessionRows ((db .task).length + 1) t))
        .session k :=
  owned_congr (Tables.pushAll_other (by decide) _ _) k

theorem owned_storeTask_times (commandId : Nat) (db : Tables Time) (t : Task Time) (k : Nat) :
    owned (storeTask commandId db t) .times k =
      owned (((db.push .task (taskCells commandId t)).pushAll .session (sessionRows ((db .task).length + 1) t)).pushAll
        .times (timeRows ((db .task).length + 1) t)) .times k := rfl

/-- The rows of a task are new, so that of other tasks nothing changes. -/
theorem owned_storeTask_other (commandId : Nat) (db : Tables Time) (t : Task Time) {k : Nat}
    (hk : k ≠ (db .task).length + 1) :
    owned (storeTask commandId db t) .session k = owned db .session k ∧
      owned (storeTask commandId db t) .times k = owned db .times k := by
  rw [owned_storeTask_session, owned_storeTask_times, owned_pushAll_ne hk (sessionRows_belong _ t),
    owned_pushAll_ne hk (timeRows_belong _ t)]
  exact ⟨owned_congr (Tables.push_other _ _ (by decide)) k,
    owned_congr ((Tables.pushAll_other (by decide) _ _).trans (Tables.push_other _ _ (by decide))) k⟩

theorem owned_storeTask_self (commandId : Nat) {db : Tables Time} (hfresh : Fresh db) (t : Task Time) :
    (owned (storeTask commandId db t) .session ((db .task).length + 1)).map Row.cells =
      sessionRows ((db .task).length + 1) t ∧
      (owned (storeTask commandId db t) .times ((db .task).length + 1)).map Row.cells =
        timeRows ((db .task).length + 1) t := by
  rw [owned_storeTask_session, owned_storeTask_times, owned_pushAll_self (sessionRows_belong _ t),
    owned_pushAll_self (timeRows_belong _ t), owned_congr (Tables.push_other _ _ (by decide)),
    owned_congr ((Tables.pushAll_other (by decide) _ _).trans (Tables.push_other _ _ (by decide))),
    hfresh.session _ (Nat.lt_succ_self _), hfresh.times _ (Nat.lt_succ_self _)]
  exact ⟨rfl, rfl⟩

theorem kept_storeTask (commandId : Nat) (db : Tables Time) (t : Task Time) :
    Kept commandId db (storeTask commandId db t) where
  command := storeTask_command commandId db t
  grows := by rw [storeTask_length]; exact Nat.le_succ _
  task k hk := by rw [owned_storeTask_task, if_neg hk.symm, List.append_nil]
  session k hk := (owned_storeTask_other commandId db t (by omega)).1
  times k hk := (owned_storeTask_other commandId db t (by omega)).2

theorem fresh_storeTask {commandId : Nat} {db : Tables Time} (h : Fresh db) (hid : commandId ≤ (db .command).length)
    (t : Task Time) : Fresh (storeTask commandId db t) where
  command k hk := by
    rw [storeTask_command] at hk
    rw [owned_congr (storeTask_command commandId db t), h.command k hk]
  task k hk := by
    rw [storeTask_command] at hk
    rw [owned_storeTask_task, h.task k hk, if_neg (by omega)]
    rfl
  session k hk := by
    rw [storeTask_length] at hk
    rw [(owned_storeTask_other commandId db t (by omega)).1, h.session k (by omega)]
  times k hk := by
    rw [storeTask_length] at hk
    rw [(owned_storeTask_other commandId db t (by omega)).2, h.times k (by omega)]

theorem Kept.trans {commandId : Nat} {db db' db'' : Tables Time} (h : Kept commandId db db')
    (h' : Kept commandId db' db'') :
    Kept commandId db db'' where
  command := h'.command.trans h.command
  grows := h.grows.trans h'.grows
  task k hk := (h'.task k hk).trans (h.task k hk)
  session k hk := (h'.session k (hk.trans h.grows)).trans (h.session k hk)
  times k hk := (h'.times k (hk.trans h.grows)).trans (h.times k hk)

theorem HoldsTask.kept {commandId k : Nat} {db db' : Tables Time} {row : Row Time} {t : Task Time}
    (h : HoldsTask db k row t) (hkept : Kept commandId db db') : HoldsTask db' k row t where
  cells := h.cells
  known := h.known.trans hkept.grows
  sessions := by rw [hkept.session _ h.known, h.sessions]
  times := by rw [hkept.times _ h.known, h.times]

theorem holdsTask_storeTask (commandId : Nat) {db : Tables Time} (h : Fresh db) (t : Task Time) :
    HoldsTask (storeTask commandId db t) commandId ⟨(db .task).length + 1, taskCells commandId t⟩ t where
  cells := rfl
  known := (storeTask_length commandId db t).ge
  sessions := (owned_storeTask_self commandId h t).1
  times := (owned_storeTask_self commandId h t).2

/-! ### One command -/

/-- While the tasks of a command are inserted: those done are held, and nothing else has changed. -/
theorem foldl_storeTask {commandId : Nat} (ts : List (Task Time)) : ∀ {db : Tables Time} {done : List (Task Time)},
    Fresh db → commandId ≤ (db .command).length →
    List.Forall₂ (HoldsTask db commandId) (owned db .task commandId) done →
    Fresh (ts.foldl (storeTask commandId) db) ∧ Kept commandId db (ts.foldl (storeTask commandId) db) ∧
      List.Forall₂ (HoldsTask (ts.foldl (storeTask commandId) db) commandId)
        (owned (ts.foldl (storeTask commandId) db) .task commandId) (done ++ ts) := by
  induction ts with
  | nil =>
    intro db done hfresh _ hdone
    rw [List.append_nil]
    exact ⟨hfresh, ⟨rfl, Nat.le_refl _, fun _ _ => rfl, fun _ _ => rfl, fun _ _ => rfl⟩, hdone⟩
  | cons t ts ih =>
    intro db done hfresh hid hdone
    have hkept := kept_storeTask commandId db t
    have hstep : List.Forall₂ (HoldsTask (storeTask commandId db t) commandId)
        (owned (storeTask commandId db t) .task commandId) (done ++ [t]) := by
      rw [owned_storeTask_task, if_pos rfl]
      refine List.rel_append (hdone.imp fun _ _ h => h.kept hkept) ?_
      exact .cons (holdsTask_storeTask commandId hfresh t) .nil
    obtain ⟨hfresh', hkept', hall⟩ :=
      ih (fresh_storeTask hfresh hid t) (hid.trans_eq (congrArg _ hkept.command.symm)) hstep
    rw [List.append_assoc] at hall
    exact ⟨hfresh', hkept.trans hkept', hall⟩

theorem owned_push_command (db : Tables Time) (cells : List (Value Time)) (k : Nat) :
    owned (db.push .command cells) .command k = owned db .command k ++
      if k = (db .command).length + 1 then [⟨(db .command).length + 1, cells⟩] else [] := by
  rw [owned_push]
  refine congrArg _ (if_congr ?_ rfl rfl)
  rw [cell, ownerCol, if_pos rfl, Value.integer.injEq, Int.natCast_inj]
  exact eq_comm

theorem fresh_push_command {db : Tables Time} (h : Fresh db) (cells : List (Value Time)) :
    Fresh (db.push .command cells) where
  command k hk := by
    rw [push_command_length] at hk
    rw [owned_push_command, h.command k (by omega), if_neg (by omega)]
    rfl
  task k hk := by
    rw [push_command_length] at hk
    rw [owned_congr (Tables.push_other _ _ (by decide)), h.task k (by omega)]
  session k hk := h.session k hk
  times k hk := h.times k hk

theorem storeCommand_spec {db : Tables Time} (h : Fresh db) (c : Command Time) :
    Fresh (storeCommand db c) ∧ Holds (storeCommand db c) ((db .command).length + 1) c ∧
      ∀ k c', Holds db k c' → Holds (storeCommand db c) k c' := by
  have hlen := push_command_length db (commandCells c)
  have hnone : owned (db.push .command (commandCells c)) .task ((db .command).length + 1) = [] :=
    h.task _ (Nat.lt_succ_self _)
  have hstart : List.Forall₂ (HoldsTask (db.push .command (commandCells c)) ((db .command).length + 1))
      (owned (db.push .command (commandCells c)) .task ((db .command).length + 1)) [] := by
    rw [hnone]
    exact .nil
  obtain ⟨hfresh, hkept, htasks⟩ := foldl_storeTask c.tasks (fresh_push_command h (commandCells c)) hlen.ge hstart
  refine ⟨hfresh, ⟨?_, ?_, htasks⟩, fun k c' hc' => ?_⟩
  · rw [storeCommand, hkept.command, hlen]
  · rw [storeCommand, owned_congr hkept.command, owned_push_command, h.command _ (Nat.lt_succ_self _), if_pos rfl]
    rfl
  · have hne : k ≠ (db .command).length + 1 := by have := hc'.known; omega
    refine ⟨?_, ?_, ?_⟩
    · rw [storeCommand, hkept.command, hlen]
      exact hc'.known.trans (Nat.le_succ _)
    · rw [storeCommand, owned_congr hkept.command, owned_push_command, if_neg hne, List.append_nil, hc'.command]
    · rw [storeCommand, hkept.task k hne]
      exact hc'.tasks.imp fun row t ht => HoldsTask.kept ⟨ht.cells, ht.known, ht.sessions, ht.times⟩ hkept

/-! ### A sequence of commands -/

/-- Each command is held under its number. -/
structure Stored (db : Tables Time) (cs : List (Command Time)) : Prop where
  fresh : Fresh db
  length : (db .command).length = cs.length
  holds : ∀ i c, cs[i]? = some c → Holds db (i + 1) c

theorem stored_step {db : Tables Time} {cs : List (Command Time)} (h : Stored db cs) (c : Command Time) :
    Stored (storeCommand db c) (cs ++ [c]) := by
  obtain ⟨hfresh, hnew, hold⟩ := storeCommand_spec h.fresh c
  refine ⟨hfresh, ?_, fun i c' hi => ?_⟩
  · rw [storeCommand_command, push_command_length, h.length, List.length_append, List.length_singleton]
  · rw [List.getElem?_append] at hi
    split at hi
    · exact hold _ _ (h.holds i c' hi)
    · rw [List.getElem?_singleton, Option.ite_none_right_eq_some, Option.some.injEq] at hi
      obtain ⟨hzero, rfl⟩ := hi
      rw [h.length] at hnew
      rwa [show i = cs.length by omega]

theorem stored_run (cs : List (Command Time)) : ∀ {db : Tables Time} {done : List (Command Time)}, Stored db done →
    Stored (cs.foldl storeCommand db) (done ++ cs) := by
  induction cs with
  | nil =>
    intro db done h
    rwa [List.append_nil]
  | cons c cs ih =>
    intro db done h
    rw [List.append_cons]
    exact ih (stored_step h c)

/-- A database with its structure, and no rows. -/
def empty : Tables Time := fun _ => []

theorem stored_empty : Stored (empty : Tables Time) [] :=
  ⟨⟨fun _ _ => rfl, fun _ _ => rfl, fun _ _ => rfl, fun _ _ => rfl⟩, rfl, nofun⟩

/-! ## What comes back -/

theorem mapM_map_ok {α β γ : Type} {f : α → β} {g : β → Except Raised γ} {h : α → γ} (hg : ∀ x, g (f x) = .ok (h x))
    (xs : List α) : (xs.map f).mapM g = .ok (xs.map h) := by
  induction xs with
  | nil => rfl
  | cons x xs ih =>
    rw [List.map_cons, List.mapM_cons, hg, ih]
    rfl

/-- Another order of images is the images in another order. -/
theorem exists_of_perm_map {α β : Type} {f : α → β} {xs : List α} {ys : List β} (h : ys.Perm (xs.map f)) :
    ∃ xs' : List α, ys = xs'.map f ∧ xs'.Perm xs := by
  have hall : List.Forall₂ (fun y x => y = f x) (xs.map f) xs := by simp [List.forall₂_same]
  obtain ⟨xs', hxs', hperm⟩ := List.perm_comp_forall₂ h hall
  rw [← List.forall₂_map_right_iff (R := Eq), List.forall₂_eq_eq_eq] at hxs'
  exact ⟨xs', hxs', hperm⟩

/-- Rows that were stored for these, read in the order of one of their values. -/
theorem read_ordered (sql : Sqlite Time) {α : Type} {table : Table} {cells : α → List (Value Time)}
    {entry : α → Entry Time}
    (key : Row Time → Value Time) (le : α → α → Prop) (hread : ∀ n x, readRow table ⟨n, cells x⟩ = .ok (entry x, n))
    (hkey : ∀ m n x y, (key ⟨m, cells x⟩).LE (key ⟨n, cells y⟩) ↔ le x y)
    (htotal : ∀ x y, le x y ∨ le y x) {xs : List α}
    {rows : List (Row Time)} (hrows : rows.map Row.cells = xs.map cells) :
    ∃ read ordered, (sql.orderBy key rows).mapM (readRow table) = .ok read ∧ read.map Prod.fst = ordered.map entry ∧
      List.Perm ordered xs ∧ ordered.Pairwise le := by
  obtain ⟨numbered, rfl, rfl⟩ := exists_rows xs hrows
  obtain ⟨sorted, hsorted, hperm⟩ := exists_of_perm_map (sql.orderBy_perm key _)
  refine ⟨sorted.map fun p => (entry p.2, p.1), sorted.map Prod.snd, ?_, ?_, hperm.map _, ?_⟩
  · rw [hsorted]
    exact mapM_map_ok (fun p => hread p.1 p.2) sorted
  · rw [List.map_map, List.map_map]
    rfl
  · have hpairwise := sql.orderBy_sorted key (numbered.map fun p => ⟨p.1, cells p.2⟩) fun r hr r' hr' => by
      obtain ⟨p, -, rfl⟩ := List.mem_map.mp hr
      obtain ⟨p', -, rfl⟩ := List.mem_map.mp hr'
      rw [hkey, hkey]
      exact htotal p.2 p'.2
    rw [hsorted, List.pairwise_map] at hpairwise
    rw [List.pairwise_map]
    exact hpairwise.imp fun h => (hkey _ _ _ _).mp h

/-- Time points come in the order in which they were noted. -/
theorem ordered_points {α : Type} {xs : List α} {ordered : List (α × Nat)} (hperm : ordered.Perm xs.zipIdx)
    (hsorted : ordered.Pairwise (·.2 ≤ ·.2)) : ordered = xs.zipIdx := by
  refine hperm.eq_of_pairwise (fun p q hp hq hpq hqp => ?_) hsorted ?_
  · have hp' := List.mem_zipIdx_iff_getElem?.mp (hperm.subset hp)
    have hq' := List.mem_zipIdx_iff_getElem?.mp hq
    have hord : p.2 = q.2 := Nat.le_antisymm hpq hqp
    rw [hord, hq'] at hp'
    exact Prod.ext (Option.some.inj hp').symm hord
  · have hords : (xs.zipIdx.map Prod.snd).Pairwise (· ≤ ·) := by
      rw [List.zipIdx_map_snd]
      exact List.pairwise_le_range'
    exact List.pairwise_map.mp hords

section Get
variable (sql : Sqlite Time)

theorem getTask_of_holds {db : Tables Time} {commandId : Nat} {row : Row Time} {t : Task Time}
    (h : HoldsTask db commandId row t) :
    ∃ r, getTask sql db (taskEntry t, row.rowid) = .ok r ∧ ReturnsTask storedEntry r t := by
  obtain ⟨read, ordered, hread, hentries, hperm, hsorted⟩ := read_ordered sql (cell .session "started")
    (fun s s' : Session Time => s.started ≤ s'.started) (fun n s => readRow_session n row.rowid s)
    (fun _ _ _ _ => Iff.rfl)
    (fun s s' => le_total s.started s'.started) h.sessions
  have htimes : (owned db .times row.rowid).map Row.cells =
      t.timePoints.zipIdx.map fun p => timeCells row.rowid p.2 p.1 := by
    rw [h.times, timeRows, List.mapIdx_eq_zipIdx_map]
  obtain ⟨points, orderedPoints, hpoints, hpointEntries, hpointPerm, hpointSorted⟩ :=
    read_ordered sql (cell .times "time_point_ord") (fun p p' : (String × Time) × Nat => p.2 ≤ p'.2)
      (fun n p => readRow_time n row.rowid p.2 p.1) (fun _ _ _ _ => Int.ofNat_le)
      (fun p p' => Nat.le_total p.2 p'.2) htimes
  refine ⟨⟨taskEntry t, read.map Prod.fst, points.map Prod.fst⟩, ?_, taskEntry_same t, ?_, ?_⟩
  · have hs : select sql .session "task_id" row.rowid (some "started") db = .ok read := hread
    have ht : select sql .times "task_id" row.rowid (some "time_point_ord") db = .ok points := hpoints
    rw [getTask]
    simp only [hs, ht]
    rfl
  · refine ⟨ordered, hperm, hsorted, ?_⟩
    rw [hentries, List.forall₂_map_left_iff, List.forall₂_same]
    exact fun s _ key => rfl
  · have hsame : points.map Prod.fst = t.getInfo.times := by
      rw [hpointEntries, ordered_points hpointPerm hpointSorted, Task.getInfo, List.mapIdx_eq_zipIdx_map]
    rw [hsame, List.forall₂_same]
    exact fun _ _ _ => rfl

/-- The tasks of a command are read one after the other. -/
theorem getTasks_of_holds {db : Tables Time} {commandId : Nat} {rows : List (Row Time)} {ts : List (Task Time)}
    (h : List.Forall₂ (HoldsTask db commandId) rows ts) : ∃ read rs, rows.mapM (readRow .task) = .ok read ∧
      read.mapM (getTask sql db) = .ok rs ∧ List.Forall₂ (ReturnsTask storedEntry) rs ts := by
  induction h with
  | nil => exact ⟨[], [], rfl, rfl, .nil⟩
  | @cons row t rows ts hrow _ ih =>
    obtain ⟨read, rs, hread, hrs, hall⟩ := ih
    obtain ⟨r, hr, hreturns⟩ := getTask_of_holds sql hrow
    have hfirst : readRow .task row = .ok (taskEntry t, row.rowid) := by
      rw [← readRow_task row.rowid commandId t, ← hrow.cells]
    refine ⟨(taskEntry t, row.rowid) :: read, r :: rs, ?_, ?_, .cons hreturns hall⟩
    · rw [List.mapM_cons, hfirst, hread]
      rfl
    · rw [List.mapM_cons, hr, hrs]
      rfl

/-- A command that is held is returned, with its ports as text. -/
theorem getCommand_of_holds {db : Tables Time} {n : Nat} {c : Command Time} (h : Holds db (n + 1) c) :
    ∃ r, getCommand sql (n + 1) db = .ok (some r) ∧ ReturnsCommand storedEntry r c := by
  obtain ⟨read, rs, hread, hrs, hall⟩ := getTasks_of_holds sql h.tasks
  have hcommand : select sql .command "rowid" (n + 1) none db = .ok [(c.getInfo.entry, n + 1)] := by
    show (owned db .command (n + 1)).mapM (readRow .command) = _
    rw [h.command, List.mapM_cons, readRow_command]
    rfl
  have htasks : select sql .task "command_id" (n + 1) none db = .ok read := hread
  refine ⟨⟨c.getInfo.entry, rs⟩, ?_, fun _ => rfl, hall⟩
  rw [getCommand, if_neg (Nat.succ_ne_zero n)]
  show (select sql .command "rowid" (n + 1) none db >>= _) = _
  rw [hcommand]
  show (select sql .task "command_id" (n + 1) none db >>= fun tasks => tasks.mapM (getTask sql db) >>= _) = _
  rw [htasks]
  show (read.mapM (getTask sql db) >>= _) = _
  rw [hrs]
  rfl

/-- What `get_command` returns for a number is this command. -/
def Returned (db : Tables Time) (commandId : Nat) (c : Command Time) : Prop :=
  ∃ r, getCommand sql commandId db = .ok (some r) ∧ ReturnsCommand Session.getInfo r c

end Get

/-! ## Ports -/

/-- A port that is a number is not the text of it. -/
theorem no_session_of_both {asked : List (Entry Time)} {sessions : List (Session Time)}
    (h : OrderedSessions storedEntry asked sessions) (h' : OrderedSessions Session.getInfo asked sessions) :
    sessions = [] := by
  obtain ⟨ordered, hperm, -, hall⟩ := h
  obtain ⟨ordered', -, -, hall'⟩ := h'
  cases hall with
  | nil => exact List.nil_perm.mp hperm
  | cons hport _ =>
    cases hall' with
    | cons hgiven _ => cases (hport "port").symm.trans (hgiven "port")

theorem OrderedSessions.of_nil {asEntry asEntry' : Session Time → Entry Time} {asked : List (Entry Time)}
    (h : OrderedSessions asEntry asked []) : OrderedSessions asEntry' asked [] := by
  obtain ⟨ordered, hperm, hsorted, hall⟩ := h
  obtain rfl := List.perm_nil.mp hperm
  cases hall
  exact ⟨[], .nil, .nil, .nil⟩

theorem returnsTasks_iff {rs : List (TaskInfo Time)} {ts : List (Task Time)}
    (h : List.Forall₂ (ReturnsTask storedEntry) rs ts) :
    List.Forall₂ (ReturnsTask Session.getInfo) rs ts ↔ ∀ t ∈ ts, t.sessions = [] := by
  induction h with
  | nil => simp
  | @cons r t rs ts hr _ ih =>
    rw [List.forall₂_cons, ih, List.forall_mem_cons]
    refine and_congr_left' ⟨fun hr' => no_session_of_both hr.sessions hr'.sessions, fun hnil => ?_⟩
    refine ⟨hr.entry, ?_, hr.times⟩
    have hsessions := hr.sessions
    rw [hnil] at hsessions ⊢
    exact hsessions.of_nil

theorem returned_of_holds (sql : Sqlite Time) {db : Tables Time} {n : Nat} {c : Command Time} (h : Holds db (n + 1) c) :
    Returned sql db (n + 1) c ↔ ∀ t ∈ c.tasks, t.sessions = [] := by
  obtain ⟨r, hr, hreturns⟩ := getCommand_of_holds sql h
  rw [← returnsTasks_iff hreturns.tasks]
  constructor
  · rintro ⟨r', hr', hreturns'⟩
    obtain rfl : r = r' := Option.some.inj (Except.ok.inj (hr.symm.trans hr'))
    exact hreturns'.tasks
  · exact fun htasks => ⟨r, hr, hreturns.entry, htasks⟩

/-- The commands inserted in a database are numbered and held. -/
theorem insertCommands_holds (sql : Sqlite Time) (cs : List (Command Time)) : ∃ db,
    insertCommands sql (cs.map Command.getInfo) empty = .ok (db, List.range' 1 cs.length) ∧
      ∀ i c, cs[i]? = some c → Holds db (i + 1) c := by
  have hstored := stored_run cs stored_empty
  exact ⟨_, insertCommands_eq sql cs empty, hstored.holds⟩

/-- Of the commands inserted in a database, in whatever company, those are returned as they were whose tasks have no
sessions. -/
theorem returned_iff (sql : Sqlite Time) (cs : List (Command Time)) : ∃ db commandIds,
    insertCommands sql (cs.map Command.getInfo) empty = .ok (db, commandIds) ∧ commandIds.length = cs.length ∧
      ∀ c commandId, (c, commandId) ∈ cs.zip commandIds →
        (Returned sql db commandId c ↔ ∀ t ∈ c.tasks, t.sessions = []) := by
  obtain ⟨db, hdb, hholds⟩ := insertCommands_holds sql cs
  refine ⟨db, _, hdb, List.length_range', fun c commandId hmem => ?_⟩
  obtain ⟨i, hi⟩ := List.mem_iff_getElem?.mp hmem
  rw [List.getElem?_zip_eq_some] at hi
  obtain ⟨hc, hid⟩ := hi
  have hlt : i < cs.length := (List.getElem?_eq_some_iff.mp hc).1
  rw [List.getElem?_range' hlt, Nat.one_mul, Nat.add_comm, Option.some.injEq] at hid
  obtain rfl : i + 1 = commandId := hid
  exact returned_of_holds sql (hholds i c hc)

/-! ## A database -/

/-- Where a value stands among all values. -/
def Value.rank : Value Time → Nat
  | .null => 0
  | .integer _ => 1
  | .real _ => 2
  | .text _ => 3

/-- As `Value.LE`, with values of other types by their types. -/
def Value.le : Value Time → Value Time → Bool
  | .integer m, .integer n => m ≤ n
  | .real t, .real u => t ≤ u
  | v, w => v.rank ≤ w.rank

theorem Value.trans_le (u v w : Value Time) (h : u.le v) (h' : v.le w) : u.le w := by
  cases u <;> cases v <;> cases w <;> simp_all [Value.le, Value.rank]
  · exact Int.le_trans h h'
  · exact le_trans h h'

theorem Value.total_le (v w : Value Time) : v.le w || w.le v := by
  cases v <;> cases w <;> simp [Value.le, Value.rank]
  · exact Int.le_total _ _
  · exact le_total _ _

theorem Value.LE_of_le {v w : Value Time} (h : v.le w) (hor : v.LE w ∨ w.LE v) : v.LE w := by
  cases v <;> cases w <;> simp_all [Value.le, Value.LE]

/-- A database that converts nothing but numbers to text. -/
def Sqlite.plain : Sqlite Time where
  store
    | .text, .integer n => .text (toString n)
    | _, v => v
  orderBy key rows := rows.mergeSort fun r r' => (key r).le (key r')
  store_null type := by cases type <;> rfl
  store_text _ := rfl
  store_integer _ := rfl
  store_real _ := rfl
  store_number _ := rfl
  orderBy_perm _ rows := List.mergeSort_perm rows _
  orderBy_sorted key rows h := by
    have hsorted := @List.pairwise_mergeSort _ (fun r r' : Row Time => (key r).le (key r'))
      (fun _ _ _ => Value.trans_le _ _ _) (fun _ _ => Value.total_le _ _) rows
    refine hsorted.imp_of_mem fun hr hr' hle => Value.LE_of_le hle ?_
    exact h _ (List.mem_mergeSort.mp hr) _ (List.mem_mergeSort.mp hr')

/-- A session on port 12345 comes back with the port `'12345'`. -/
theorem port_as_text : ∃ (c : Command Nat) (db : Tables Nat),
    insertCommands Sqlite.plain [c.getInfo] empty = .ok (db, [1]) ∧ ¬ Returned Sqlite.plain db 1 c := by
  let c : Command Nat := ⟨["a.cpp"], [⟨"a.cpp", none, [⟨"node", 12345, 0, 1, .success⟩], []⟩]⟩
  obtain ⟨db, hdb, hholds⟩ := insertCommands_holds Sqlite.plain [c]
  refine ⟨c, db, hdb, fun h => ?_⟩
  have hnone := (returned_of_holds Sqlite.plain (hholds 0 c rfl)).mp h _ List.mem_cons_self
  cases hnone

end BuildPal.Database
