import Mathlib.Logic.Function.Basic
import Mathlib.Data.List.Nodup
import Mathlib.Data.List.Perm.Basic
import Mathlib.Data.Set.Function
import BuildPal.Lib.Runs
/-!
# The shared header repository

`buildpal/server/header_repository.py`: headers that do not belong to the
source's own directory are stored once for each client machine and shared by
the sessions of that machine; a session whose version differs, or that arrives
while the shared file is still being written, keeps its own copy.

The code runs in a thread pool. A session's upload is taken apart into the
steps other sessions can see: the first locked section of `create_shared`, the
creation of the file, and the second locked section.
-/
open BuildPal.Lib

namespace BuildPal.Headers

abbrev MachineId := Nat
abbrev SessionId := Nat
/-- A header's `(remote_dir, name)`. -/
abbrev Key := String × String

/-- A file `_create_virtual_file` wrote: every call of `mkstemp` gives a new name, and no file is
written again. -/
structure RealFile (κ : Type) where
  name : Nat
  content : κ

/-- A value of the `checksums` dictionary. -/
inductive Checksum where
  | inProgress
  | sum (c : Nat)
  deriving DecidableEq, Repr

section Model
variable {κ Path : Type}
-- `checksum` is the content's Adler-32; `vpath` is where a key is mapped, `os.path.join` of
-- its parts as `map_file` normalises it.
variable (checksum : κ → Nat) (vpath : Key → Path)

/-! ## The manager's side -/

/-- What the scanner found for a source: for every directory its headers, each
with its name, whether it is relative to the source, and its content; and the
source with the content it is sent with. -/
structure Task (κ : Type) where
  headerInfo : List (String × List (String × Bool × κ))
  source : String
  sourceContent : κ

namespace Task
variable (t : Task κ)

/-- The headers of the task as `(key, relative, content)`. -/
def headers : List (Key × Bool × κ) :=
  t.headerInfo.flatMap fun (dir, data) => data.map fun (file, relative, content) => ((dir, file), relative, content)

/-- `header_info`'s `shared_file_list`, flattened: the headers not relative to
the source, with their checksums. -/
def filelist : List (Key × Nat) :=
  t.headers.filterMap fun (key, relative, content) => if relative then none else some (key, checksum content)

/-- `ServerSession.task_files_bundle`: the relative headers, those reported
missing, and the source. -/
def bundle (missing : List Key) : List (Key × κ) :=
  (t.headers.filterMap fun (key, relative, content) =>
    if relative = false ∧ key ∉ missing then none else some (key, content)) ++ [(("", t.source), t.sourceContent)]

def keys : List Key := t.headers.map (·.1) ++ [("", t.source)]

/-- The headers come out of a set ordered by directory and name, and the source,
should it be listed as one of its own headers, is sent as it was listed. -/
structure Ok : Prop where
  nodup : (t.headers.map (·.1)).Nodup
  source : ∀ c, (("", t.source), c) ∈ t.filelist checksum → checksum t.sourceContent = c

end Task

/-- The dictionary `StateDownloadMissingHeaders` builds from the bundle: a later
part with the same key replaces an earlier one. -/
def newFiles : List (Key × κ) → List (Key × κ)
  | [] => []
  | (key, content) :: rest => if key ∈ rest.map (·.1) then newFiles rest else (key, content) :: newFiles rest

/-! ## The repository -/

structure HeaderRepository (κ Path : Type) where
  checksums : MachineId → Key → Option Checksum := fun _ _ => none
  sessionData : SessionId → Option (List (Key × Nat)) := fun _ => none
  globalMap : MachineId → Path → Option (RealFile κ) := fun _ _ => none
  tempMap : SessionId → Path → Option (RealFile κ) := fun _ _ => none
  /-- The name the next `mkstemp` gives. -/
  nextName : Nat := 0

namespace HeaderRepository
variable [DecidableEq Path] (r : HeaderRepository κ Path)

/-- `create_temp_file`. -/
def createTempFile (sid : SessionId) (key : Key) (content : κ) : HeaderRepository κ Path :=
  { r with
    nextName := r.nextName + 1
    tempMap := Function.update r.tempMap sid <|
      Function.update (r.tempMap sid) (vpath key) (some ⟨r.nextName, content⟩) }

/-- `create_shared_file`. -/
def createSharedFile (mid : MachineId) (key : Key) (content : κ) : HeaderRepository κ Path :=
  { r with
    nextName := r.nextName + 1
    globalMap := Function.update r.globalMap mid <|
      Function.update (r.globalMap mid) (vpath key) (some ⟨r.nextName, content⟩) }

/-- The keys of `in_list` whose checksum is not the stored one. -/
def neededFiles (mid : MachineId) (inList : List (Key × Nat)) : List (Key × Nat) :=
  inList.filter fun (key, c) => r.checksums mid key ≠ some (.sum c)

/-- `missing_files`; the missing keys are those of the stored `needed_files`. -/
def missingFiles (mid : MachineId) (sid : SessionId) (inList : List (Key × Nat)) : HeaderRepository κ Path :=
  { r with sessionData := Function.update r.sessionData sid (some (r.neededFiles mid inList)) }

def setChecksum (mid : MachineId) (key : Key) (c : Checksum) : HeaderRepository κ Path :=
  { r with checksums := Function.update r.checksums mid (Function.update (r.checksums mid) key (some c)) }

/-- `session_complete`, as far as the maps go. -/
def sessionComplete (sid : SessionId) : HeaderRepository κ Path :=
  { r with tempMap := Function.update r.tempMap sid fun _ => none }

/-- `_process_temp_files`. A file without a directory is mapped at its name, which is also what
joining it to the empty directory gives. -/
def processTempFiles (sid : SessionId) (temps : List (Key × κ)) : HeaderRepository κ Path :=
  temps.foldl (fun r (key, content) => r.createTempFile vpath sid key content) r

/-- The file a session sees at `path`: `global_map[machine]` overridden by `temp_map[session]`. -/
def mapped (mid : MachineId) (sid : SessionId) (path : Path) : Option (RealFile κ) :=
  (r.tempMap sid path).orElse fun _ => r.globalMap mid path

end HeaderRepository

/-! ## Sessions -/

/-- Where an upload of one shared header stands. -/
inductive Upload where
  /-- The first locked section chose a file of its own. -/
  | createLocal
  /-- The first locked section marked the key as in progress. -/
  | createShared
  /-- The shared file is mapped; the second locked section is still to come. -/
  | publish
  deriving DecidableEq, Repr

/-- A file on its way through `create_shared`. -/
structure Current (κ : Type) where
  key : Key
  sum : Nat
  content : κ
  upload : Upload

/-- What a session is doing with the repository. -/
inductive Phase (κ : Type) where
  /-- `missing_files` has run. -/
  | listed
  /-- In the loop of `prepare_dir`: the files still to come, the one being
  uploaded, and the `temp_files` so far. -/
  | preparing (needed : List (Key × Nat)) (todo : List (Key × κ)) (cur : Option (Current κ)) (temps : List (Key × κ))
  /-- `prepare_dir` has returned. -/
  | prepared
  /-- Creating a file raised. -/
  | failed
  /-- The compiler has been started. -/
  | compiling

/-- `completed` is set once `session_complete` has run, which a time-out can cause at any moment; the
thread that stores the session's files does not notice. -/
structure Session (κ : Type) where
  machine : MachineId
  task : Task κ
  phase : Phase κ := .listed
  completed : Bool := false

structure State (κ Path : Type) where
  repo : HeaderRepository κ Path := {}
  sessions : SessionId → Option (Session κ) := fun _ => none

/-- One step of one session, as other sessions can observe it. -/
inductive Event (κ : Type) where
  | missingFiles (sid : SessionId) (mid : MachineId) (task : Task κ)
  /-- `prepare_dir` starts; `files` is `new_files.items()` in the order of the dictionary. -/
  | prepareDir (sid : SessionId) (files : List (Key × κ))
  /-- The next file: a header that was needed enters `create_shared` and runs
  its first locked section, another is put aside. -/
  | nextFile (sid : SessionId)
  /-- The file creation of `create_shared`, which may fail. -/
  | createFile (sid : SessionId) (ok : Bool)
  /-- The second locked section of `create_shared`. -/
  | publish (sid : SessionId)
  /-- The files put aside are stored, up to the first `stored` of them, and `prepare_dir` returns
  if these are all. -/
  | processTempFiles (sid : SessionId) (stored : Nat)
  | compile (sid : SessionId)
  | sessionComplete (sid : SessionId)

def State.withPhase (s : State κ Path) (sid : SessionId) (session : Session κ) (phase : Phase κ) : State κ Path :=
  { s with sessions := Function.update s.sessions sid (some { session with phase }) }

/-- The first locked section of `create_shared`. -/
def lockFirst (r : HeaderRepository κ Path) (mid : MachineId) (key : Key) (c : Nat) :
    HeaderRepository κ Path × Option Upload :=
  match r.checksums mid key with
  | none => (r.setChecksum mid key .inProgress, some .createShared)
  | some old => (r, if old ≠ .sum c then some .createLocal else none)

def step [DecidableEq κ] [DecidableEq Path] (s : State κ Path) : Event κ → Option (State κ Path)
  | .missingFiles sid mid task =>
    match s.sessions sid with
    | some _ => none
    | none =>
      some { repo := s.repo.missingFiles mid sid (task.filelist checksum)
             sessions := Function.update s.sessions sid (some { machine := mid, task }) }
  | .prepareDir sid files => do
    let session ← s.sessions sid
    let needed ← s.repo.sessionData sid
    match session.phase, session.completed with
    | .listed, false =>
      if files.Perm (newFiles (session.task.bundle (needed.map (·.1)))) then
        some <| State.withPhase
          { s with repo := { s.repo with sessionData := Function.update s.repo.sessionData sid none } }
          sid session (.preparing needed files none [])
      else none
    | _, _ => none
  | .nextFile sid => do
    let session ← s.sessions sid
    match session.phase with
    | .preparing needed ((key, content) :: todo) none temps =>
      match needed.lookup key with
      | none => some (s.withPhase sid session (.preparing needed todo none (temps ++ [(key, content)])))
      | some c =>
        let (repo, upload) := lockFirst s.repo session.machine key c
        some <| State.withPhase { s with repo } sid session
          (.preparing needed todo (upload.map fun upload => ⟨key, c, content, upload⟩) temps)
    | _ => none
  | .createFile sid ok => do
    let session ← s.sessions sid
    match session.phase with
    | .preparing needed todo (some cur) temps =>
      match cur.upload, ok with
      | .publish, _ => none
      | _, false => some (s.withPhase sid session .failed)
      | .createLocal, true =>
        some <| State.withPhase { s with repo := s.repo.createTempFile vpath sid cur.key cur.content } sid session
          (.preparing needed todo none temps)
      | .createShared, true =>
        some <| State.withPhase
          { s with repo := s.repo.createSharedFile vpath session.machine cur.key cur.content } sid session
          (.preparing needed todo (some { cur with upload := .publish }) temps)
    | _ => none
  | .publish sid => do
    let session ← s.sessions sid
    match session.phase with
    | .preparing needed todo (some cur) temps =>
      if cur.upload = .publish then
        some <| State.withPhase { s with repo := s.repo.setChecksum session.machine cur.key (.sum cur.sum) } sid session
          (.preparing needed todo none temps)
      else none
    | _ => none
  | .processTempFiles sid stored => do
    let session ← s.sessions sid
    match session.phase with
    | .preparing _ [] none temps =>
      some <| State.withPhase { s with repo := s.repo.processTempFiles vpath sid (temps.take stored) } sid session
        (if temps.length ≤ stored then .prepared else .failed)
    | _ => none
  | .compile sid => do
    let session ← s.sessions sid
    match session.phase with
    | .prepared => some (s.withPhase sid session .compiling)
    | _ => none
  | .sessionComplete sid => do
    let session ← s.sessions sid
    if session.completed then none
    else some { repo := s.repo.sessionComplete sid
                sessions := Function.update s.sessions sid (some { session with completed := true }) }

section Steps
variable [DecidableEq κ] [DecidableEq Path]

/-- When a step is possible, and what it does. -/
def Steps (s s' : State κ Path) : Event κ → Prop
  | .missingFiles sid mid task => s.sessions sid = none ∧
    s' = { repo := s.repo.missingFiles mid sid (task.filelist checksum)
           sessions := Function.update s.sessions sid (some { machine := mid, task }) }
  | .prepareDir sid files => ∃ x needed, s.sessions sid = some x ∧ s.repo.sessionData sid = some needed ∧
    x.phase = .listed ∧ files.Perm (newFiles (x.task.bundle (needed.map (·.1)))) ∧
    s' = State.withPhase { s with repo := { s.repo with sessionData := Function.update s.repo.sessionData sid none } }
      sid x (.preparing needed files none [])
  | .nextFile sid => ∃ x needed key content todo temps, s.sessions sid = some x ∧
    x.phase = .preparing needed ((key, content) :: todo) none temps ∧
    (needed.lookup key = none ∧ s' = s.withPhase sid x (.preparing needed todo none (temps ++ [(key, content)])) ∨
      ∃ c, needed.lookup key = some c ∧
        s' = State.withPhase { s with repo := (lockFirst s.repo x.machine key c).1 } sid x (.preparing needed todo
          ((lockFirst s.repo x.machine key c).2.map fun upload => ⟨key, c, content, upload⟩) temps))
  | .createFile sid ok => ∃ x needed todo cur temps, s.sessions sid = some x ∧
    x.phase = .preparing needed todo (some cur) temps ∧
    (ok = false ∧ s' = s.withPhase sid x .failed ∨
      cur.upload = .createLocal ∧
        s' = State.withPhase { s with repo := s.repo.createTempFile vpath sid cur.key cur.content } sid x
          (.preparing needed todo none temps) ∨
      cur.upload = .createShared ∧
        s' = State.withPhase { s with repo := s.repo.createSharedFile vpath x.machine cur.key cur.content } sid x
          (.preparing needed todo (some { cur with upload := .publish }) temps))
  | .publish sid => ∃ x needed todo cur temps, s.sessions sid = some x ∧
    x.phase = .preparing needed todo (some cur) temps ∧ cur.upload = .publish ∧
    s' = State.withPhase { s with repo := s.repo.setChecksum x.machine cur.key (.sum cur.sum) } sid x
      (.preparing needed todo none temps)
  | .processTempFiles sid stored => ∃ x needed temps, s.sessions sid = some x ∧ x.phase = .preparing needed [] none temps ∧
    s' = State.withPhase { s with repo := s.repo.processTempFiles vpath sid (temps.take stored) } sid x
      (if temps.length ≤ stored then .prepared else .failed)
  | .compile sid => ∃ x, s.sessions sid = some x ∧ x.phase = .prepared ∧ s' = s.withPhase sid x .compiling
  | .sessionComplete sid => ∃ x, s.sessions sid = some x ∧
    s' = { repo := s.repo.sessionComplete sid
           sessions := Function.update s.sessions sid (some { x with completed := true }) }

variable {checksum vpath}

theorem steps_of_step {s s' : State κ Path} {e : Event κ} (hs : step checksum vpath s e = some s') :
    Steps checksum vpath s s' e := by
  cases e with
  | missingFiles sid mid task =>
    simp only [step] at hs
    split at hs
    · cases hs
    · next hnone => exact ⟨hnone, (Option.some.inj hs).symm⟩
  | prepareDir sid files =>
    simp only [step] at hs
    obtain ⟨x, hx, hs⟩ := Option.bind_eq_some_iff.1 hs
    obtain ⟨needed, hneed, hs⟩ := Option.bind_eq_some_iff.1 hs
    split at hs
    · next hphase _ =>
      obtain ⟨hperm, heq⟩ := Option.ite_none_right_eq_some.1 hs
      exact ⟨x, needed, hx, hneed, hphase, hperm, (Option.some.inj heq).symm⟩
    · cases hs
  | nextFile sid =>
    simp only [step] at hs
    obtain ⟨x, hx, hs⟩ := Option.bind_eq_some_iff.1 hs
    split at hs
    · next needed key content todo temps hphase =>
      refine ⟨x, needed, key, content, todo, temps, hx, hphase, ?_⟩
      split at hs
      · next hnone => exact .inl ⟨hnone, (Option.some.inj hs).symm⟩
      · next c hsome => exact .inr ⟨c, hsome, (Option.some.inj hs).symm⟩
    · cases hs
  | createFile sid ok =>
    simp only [step] at hs
    obtain ⟨x, hx, hs⟩ := Option.bind_eq_some_iff.1 hs
    split at hs
    · next needed todo cur temps hphase =>
      refine ⟨x, needed, todo, cur, temps, hx, hphase, ?_⟩
      split at hs
      · cases hs
      · exact .inl ⟨rfl, (Option.some.inj hs).symm⟩
      · next hup _ => exact .inr (.inl ⟨hup, (Option.some.inj hs).symm⟩)
      · next hup _ => exact .inr (.inr ⟨hup, (Option.some.inj hs).symm⟩)
    · cases hs
  | publish sid =>
    simp only [step] at hs
    obtain ⟨x, hx, hs⟩ := Option.bind_eq_some_iff.1 hs
    split at hs
    · next needed todo cur temps hphase =>
      obtain ⟨hup, heq⟩ := Option.ite_none_right_eq_some.1 hs
      exact ⟨x, needed, todo, cur, temps, hx, hphase, hup, (Option.some.inj heq).symm⟩
    · cases hs
  | processTempFiles sid stored =>
    simp only [step] at hs
    obtain ⟨x, hx, hs⟩ := Option.bind_eq_some_iff.1 hs
    split at hs
    · next needed temps hphase => exact ⟨x, needed, temps, hx, hphase, (Option.some.inj hs).symm⟩
    · cases hs
  | compile sid =>
    simp only [step] at hs
    obtain ⟨x, hx, hs⟩ := Option.bind_eq_some_iff.1 hs
    split at hs
    · next hphase => exact ⟨x, hx, hphase, (Option.some.inj hs).symm⟩
    · cases hs
  | sessionComplete sid =>
    simp only [step] at hs
    obtain ⟨x, hx, hs⟩ := Option.bind_eq_some_iff.1 hs
    split at hs
    · cases hs
    · exact ⟨x, hx, (Option.some.inj hs).symm⟩

end Steps

/-! ## What the manager sends -/

section Bundle
variable {checksum} {t : Task κ} {missing : List Key} {key : Key} {content : κ} {c : Nat}

theorem mem_filelist : (key, c) ∈ t.filelist checksum ↔ ∃ x, (key, false, x) ∈ t.headers ∧ checksum x = c := by
  unfold Task.filelist
  rw [List.mem_filterMap]
  constructor
  · rintro ⟨⟨k, relative, x⟩, hmem, h⟩
    cases relative
    · simp only [Bool.false_eq_true, if_false, Option.some.injEq, Prod.mk.injEq] at h
      obtain ⟨rfl, rfl⟩ := h
      exact ⟨x, hmem, rfl⟩
    · simp at h
  · rintro ⟨x, hmem, rfl⟩
    exact ⟨_, hmem, by simp⟩

theorem filelist_unique {c' : Nat} (h : (t.headers.map (·.1)).Nodup) (hc : (key, c) ∈ t.filelist checksum)
    (hc' : (key, c') ∈ t.filelist checksum) : c = c' := by
  obtain ⟨y, hy, rfl⟩ := mem_filelist.1 hc
  obtain ⟨y', hy', rfl⟩ := mem_filelist.1 hc'
  have hpair := List.inj_on_of_nodup_map h hy hy' rfl
  rw [(Prod.mk.inj (Prod.mk.inj hpair).2).2]

/-- The task lists a header once. -/
theorem headers_unique (h : t.Ok checksum) {a b : Bool × κ} (ha : (key, a) ∈ t.headers) (hb : (key, b) ∈ t.headers) :
    a = b := by
  have := List.inj_on_of_nodup_map h.nodup ha hb rfl
  exact (Prod.mk.inj this).2

/-- What the bundle holds under a listed key has the listed checksum. -/
theorem bundle_checksum (h : t.Ok checksum) (hmem : (key, content) ∈ t.bundle missing)
    (hc : (key, c) ∈ t.filelist checksum) : checksum content = c := by
  unfold Task.bundle at hmem
  rcases List.mem_append.1 hmem with hmem | hmem
  · obtain ⟨⟨k, relative, x⟩, hx, hk⟩ := List.mem_filterMap.1 hmem
    obtain ⟨y, hy, rfl⟩ := mem_filelist.1 hc
    obtain ⟨rfl, rfl⟩ := (by simpa using hk : _ ∧ k = key ∧ x = content).2
    rw [(Prod.mk.inj (headers_unique h hx hy)).2]
  · obtain ⟨rfl, rfl⟩ : key = ("", t.source) ∧ content = t.sourceContent := by simpa using hmem
    exact h.source c hc

theorem bundle_keys (hmem : (key, content) ∈ t.bundle missing) : key ∈ t.keys := by
  unfold Task.bundle at hmem
  unfold Task.keys
  rcases List.mem_append.1 hmem with hmem | hmem
  · obtain ⟨⟨k, relative, x⟩, hx, hk⟩ := List.mem_filterMap.1 hmem
    obtain ⟨rfl, rfl⟩ := (by simpa using hk : _ ∧ k = key ∧ x = content).2
    exact List.mem_append_left _ (List.mem_map.2 ⟨_, hx, rfl⟩)
  · exact List.mem_append_right _ (by simp_all)

theorem filelist_keys (hmem : (key, c) ∈ t.filelist checksum) : key ∈ t.keys := by
  obtain ⟨x, hx, -⟩ := mem_filelist.1 hmem
  exact List.mem_append_left _ (List.mem_map.2 ⟨_, hx, rfl⟩)

/-- A listed header that was reported missing is in the bundle. -/
theorem bundle_missing (hmem : (key, c) ∈ t.filelist checksum) (hmiss : key ∈ missing) :
    key ∈ (t.bundle missing).map (·.1) := by
  obtain ⟨x, hx, -⟩ := mem_filelist.1 hmem
  refine List.mem_map.2 ⟨(key, x), List.mem_append_left _ (List.mem_filterMap.2 ⟨_, hx, ?_⟩), rfl⟩
  simp [hmiss]

theorem newFiles_subset (l : List (Key × κ)) : newFiles l ⊆ l := by
  induction l with
  | nil => exact fun _ h => h
  | cons p rest ih =>
    unfold newFiles
    split
    · exact fun _ h => List.mem_cons_of_mem _ (ih h)
    · exact List.cons_subset_cons _ ih

theorem newFiles_keys (l : List (Key × κ)) : key ∈ (newFiles l).map (·.1) ↔ key ∈ l.map (·.1) := by
  induction l with
  | nil => rfl
  | cons p rest ih =>
    unfold newFiles
    split
    · rename_i hdup
      rw [ih, List.map_cons, List.mem_cons]
      constructor
      · exact Or.inr
      · rintro (rfl | h)
        · exact hdup
        · exact h
    · rw [List.map_cons, List.mem_cons, ih, List.map_cons, List.mem_cons]

end Bundle

/-! ## The invariant -/

-- `good content c`: a session that listed the checksum `c` may find the content.
variable (good : κ → Nat → Prop)

/-- The key is one of the task's, and the content is good for whatever the task listed at its path. -/
def Right (task : Task κ) (key : Key) (content : κ) : Prop :=
  key ∈ task.keys ∧ ∀ key' c, vpath key' = vpath key → (key', c) ∈ task.filelist checksum → good content c

/-- What the task sends is good for what it lists. -/
def Task.Agrees (task : Task κ) : Prop :=
  ∀ missing key content, (key, content) ∈ task.bundle missing → Right checksum vpath good task key content

/-- An upload in `create_shared`: between the two locked sections the key is marked as in progress, and
after the file creation it is mapped. -/
structure UploadOk (r : HeaderRepository κ Path) (session : Session κ) (u : Current κ) : Prop where
  right : Right checksum vpath good session.task u.key u.content
  listed : (u.key, u.sum) ∈ session.task.filelist checksum
  inProgress : u.upload ≠ .createLocal → r.checksums session.machine u.key = some .inProgress
  mapped : u.upload = .publish → ∃ f, r.globalMap session.machine (vpath u.key) = some f ∧ good f.content u.sum

/-- The files a session still has to store are what it listed. -/
def PhaseOk (r : HeaderRepository κ Path) (session : Session κ) : Prop :=
  match session.phase with
  | .preparing needed todo cur temps =>
    needed ⊆ session.task.filelist checksum ∧ (∀ p ∈ todo, Right checksum vpath good session.task p.1 p.2) ∧
      (∀ p ∈ temps, Right checksum vpath good session.task p.1 p.2) ∧ ∀ u ∈ cur, UploadOk checksum vpath good r session u
  | _ => True

/-- The key's file is still on its way to the maps; `missing` is what `session_data` has for the session. -/
def Phase.Waits (missing : Option (List (Key × Nat))) : Phase κ → Key → Prop
  | .listed, key => ∃ l, missing = some l ∧ key ∈ l.map (·.1)
  | .preparing _ todo cur temps, key => key ∈ todo.map (·.1) ∨ key ∈ temps.map (·.1) ∨ ∃ u ∈ cur, u.key = key
  | .prepared, _ | .compiling, _ => False
  | .failed, _ => True

structure SessionOk (r : HeaderRepository κ Path) (sid : SessionId) (session : Session κ) : Prop where
  unique : ∀ key c c', (key, c) ∈ session.task.filelist checksum → (key, c') ∈ session.task.filelist checksum → c = c'
  agrees : session.task.Agrees checksum vpath good
  needed : ∀ l, r.sessionData sid = some l → l ⊆ session.task.filelist checksum
  phase : PhaseOk checksum vpath good r session
  temp : ∀ path f, r.tempMap sid path = some f →
    ∃ key, vpath key = path ∧ Right checksum vpath good session.task key f.content
  /-- Every listed key is published, mapped for the session alone, or on its way. -/
  backed : session.completed = false → ∀ key c, (key, c) ∈ session.task.filelist checksum →
    r.checksums session.machine key = some (.sum c) ∨ (∃ f, r.tempMap sid (vpath key) = some f) ∨
      session.phase.Waits (r.sessionData sid) key

def Phase.cur : Phase κ → Option (Current κ)
  | .preparing _ _ cur _ => cur
  | _ => none

/-- The session is the one that marked the key as in progress. -/
def Session.Owns (session : Session κ) (key : Key) : Prop :=
  ∃ u ∈ session.phase.cur, u.key = key ∧ u.upload ≠ .createLocal

structure Inv (s : State κ Path) : Prop where
  published : ∀ mid key c, s.repo.checksums mid key = some (.sum c) →
    ∃ f, s.repo.globalMap mid (vpath key) = some f ∧ good f.content c
  sessions : ∀ sid session, s.sessions sid = some session → SessionOk checksum vpath good s.repo sid session
  owner : ∀ sid sid' x x', s.sessions sid = some x → s.sessions sid' = some x' → x.machine = x'.machine →
    ∀ key, x.Owns key → x'.Owns key → sid = sid'
  unused : ∀ sid, s.sessions sid = none → ∀ path, s.repo.tempMap sid path = none

/-- The invariant holds of `s'`, and what was published in `s` still is. -/
structure Next (s s' : State κ Path) : Prop where
  inv : Inv checksum vpath good s'
  kept : ∀ mid key c, s.repo.checksums mid key = some (.sum c) → s'.repo.checksums mid key = some (.sum c)

/-! ## One session steps, the others do not notice -/

section Steps
variable {checksum vpath good} {s : State κ Path} {sid : SessionId} {x x' : Session κ}
  {r' : HeaderRepository κ Path}

/-- What a step of the session `sid` leaves alone. -/
structure Frame (good : κ → Nat → Prop) (s : State κ Path) (sid : SessionId) (r' : HeaderRepository κ Path) : Prop where
  sums : ∀ mid key c, s.repo.checksums mid key = some (.sum c) → r'.checksums mid key = some (.sum c)
  /-- A shared file stays, or makes way for one that is as good. -/
  shared : ∀ mid path f, s.repo.globalMap mid path = some f →
    ∃ f', r'.globalMap mid path = some f' ∧ ∀ c, good f.content c → good f'.content c
  temps : ∀ sid', sid' ≠ sid → r'.tempMap sid' = s.repo.tempMap sid'
  data : ∀ sid', sid' ≠ sid → r'.sessionData sid' = s.repo.sessionData sid'
  owned : ∀ sid' y, sid' ≠ sid → s.sessions sid' = some y → ∀ key, y.Owns key →
    r'.checksums y.machine key = s.repo.checksums y.machine key

/-- A step that leaves `checksums` and `global_map` alone and touches only its own session's data. -/
theorem Frame.of_local (hc : r'.checksums = s.repo.checksums) (hg : r'.globalMap = s.repo.globalMap)
    (ht : ∀ sid', sid' ≠ sid → r'.tempMap sid' = s.repo.tempMap sid')
    (hd : ∀ sid', sid' ≠ sid → r'.sessionData sid' = s.repo.sessionData sid') : Frame good s sid r' where
  sums mid key c h := by rw [hc]; exact h
  shared mid path f hf := ⟨f, by rw [hg]; exact hf, fun _ h => h⟩
  temps := ht
  data := hd
  owned sid' y _ _ key _ := by rw [hc]

theorem update_cases {α : Type} {f : SessionId → Option α} {sid sid' : SessionId} {a b : α}
    (h : Function.update f sid (some a) sid' = some b) : sid' = sid ∧ b = a ∨ sid' ≠ sid ∧ f sid' = some b := by
  by_cases heq : sid' = sid
  · subst heq
    rw [Function.update_self] at h
    exact .inl ⟨rfl, (Option.some.inj h).symm⟩
  · rw [Function.update_of_ne heq] at h
    exact .inr ⟨heq, h⟩

theorem UploadOk.owns {u : Current κ} (hu : x.phase.cur = some u) (h : u.upload ≠ .createLocal) : x.Owns u.key :=
  ⟨u, hu, rfl, h⟩

theorem PhaseOk.cur {u : Current κ} {r : HeaderRepository κ Path} (h : PhaseOk checksum vpath good r x)
    (hu : x.phase.cur = some u) : UploadOk checksum vpath good r x u := by
  unfold PhaseOk at h
  unfold Phase.cur at hu
  split at hu
  · rename_i hp
    rw [hp] at h
    exact h.2.2.2 u hu
  · cases hu

theorem PhaseOk.congr {r : HeaderRepository κ Path} (h : PhaseOk checksum vpath good r x) (hp : x'.phase = x.phase)
    (hm : x'.machine = x.machine) (ht : x'.task = x.task) (hc : r'.checksums = r.checksums)
    (hg : r'.globalMap = r.globalMap) : PhaseOk checksum vpath good r' x' := by
  have hcur : ∀ u, x'.phase.cur = some u → UploadOk checksum vpath good r' x' u := by
    intro u hu
    rw [hp] at hu
    obtain ⟨hright, hlisted, hprog, hmap⟩ := h.cur hu
    exact ⟨ht ▸ hright, ht ▸ hlisted, by rw [hc, hm]; exact hprog, by rw [hg, hm]; exact hmap⟩
  unfold PhaseOk at h ⊢
  rw [hp] at hcur ⊢
  split at h
  · rename_i hp'
    rw [hp'] at hcur
    rw [ht]
    exact ⟨h.1, h.2.1, h.2.2.1, hcur⟩
  · trivial

theorem PhaseOk.frame {sid' : SessionId} {y : Session κ} (h : PhaseOk checksum vpath good s.repo y)
    (hf : Frame good s sid r') (hne : sid' ≠ sid) (hy : s.sessions sid' = some y) :
    PhaseOk checksum vpath good r' y := by
  have hcur : ∀ u, y.phase.cur = some u → UploadOk checksum vpath good r' y u := by
    intro u hu
    have hok := h.cur hu
    refine ⟨hok.right, hok.listed, fun hl => ?_, fun hp => ?_⟩
    · rw [hf.owned sid' y hne hy u.key (UploadOk.owns hu hl)]
      exact hok.inProgress hl
    · obtain ⟨f, hmap, hgood⟩ := hok.mapped hp
      obtain ⟨f', hmap', hgood'⟩ := hf.shared _ _ f hmap
      exact ⟨f', hmap', hgood' _ hgood⟩
  unfold PhaseOk at h ⊢
  split at h
  · rename_i hp
    rw [hp] at hcur
    exact ⟨h.1, h.2.1, h.2.2.1, hcur⟩
  · trivial

theorem SessionOk.frame {sid' : SessionId} {y : Session κ} (h : SessionOk checksum vpath good s.repo sid' y)
    (hf : Frame good s sid r') (hne : sid' ≠ sid) (hy : s.sessions sid' = some y) :
    SessionOk checksum vpath good r' sid' y where
  unique := h.unique
  agrees := h.agrees
  needed := by rw [hf.data sid' hne]; exact h.needed
  phase := h.phase.frame hf hne hy
  temp := by rw [hf.temps sid' hne]; exact h.temp
  backed hcomp key c hmem := by
    rw [hf.temps sid' hne, hf.data sid' hne]
    rcases h.backed hcomp key c hmem with hs | hw
    · exact .inl (hf.sums _ _ _ hs)
    · exact .inr hw

/-- A step of one session keeps the invariant if it leaves the others alone, keeps its own part, and
takes over only keys that were free. -/
theorem Inv.of_frame (h : Inv checksum vpath good s) (hf : Frame good s sid r')
    (hx' : SessionOk checksum vpath good r' sid x')
    (howns : ∀ key, x'.Owns key → s.repo.checksums x'.machine key = none ∨
      ∃ x, s.sessions sid = some x ∧ x.machine = x'.machine ∧ x.Owns key)
    (hpub : ∀ mid key c, r'.checksums mid key = some (.sum c) → s.repo.checksums mid key = some (.sum c) ∨
      ∃ f, r'.globalMap mid (vpath key) = some f ∧ good f.content c) :
    Inv checksum vpath good { repo := r', sessions := Function.update s.sessions sid (some x') } where
  published mid key c hc := by
    rcases hpub mid key c hc with hold | hnew
    · obtain ⟨f, hmap, hgood⟩ := h.published mid key c hold
      obtain ⟨f', hmap', hgood'⟩ := hf.shared _ _ f hmap
      exact ⟨f', hmap', hgood' c hgood⟩
    · exact hnew
  sessions sid' y hy := by
    rcases update_cases hy with ⟨rfl, rfl⟩ | ⟨hne, hy⟩
    · exact hx'
    · exact (h.sessions sid' y hy).frame hf hne hy
  owner sid₁ sid₂ y₁ y₂ h₁ h₂ hm key ho₁ ho₂ := by
    -- the stepping session cannot own a key that another session owns
    have hother : ∀ sid' y, sid' ≠ sid → s.sessions sid' = some y → y.machine = x'.machine → x'.Owns key →
        ¬ y.Owns key := by
      intro sid' y hne hy hmach hown ⟨u, hu, hk, hl⟩
      rcases howns key hown with hnone | ⟨x, hx, hxm, hxo⟩
      · have hprog := ((h.sessions sid' y hy).phase.cur hu).inProgress hl
        rw [hk, hmach, hnone] at hprog
        cases hprog
      · exact hne (h.owner sid' sid y x hy hx (hmach.trans hxm.symm) key ⟨u, hu, hk, hl⟩ hxo)
    rcases update_cases h₁ with ⟨rfl, rfl⟩ | ⟨he₁, hy₁⟩ <;> rcases update_cases h₂ with ⟨rfl, rfl⟩ | ⟨he₂, hy₂⟩
    · rfl
    · exact absurd ho₂ (hother sid₂ y₂ he₂ hy₂ hm.symm ho₁)
    · exact absurd ho₁ (hother sid₁ y₁ he₁ hy₁ hm ho₂)
    · exact h.owner sid₁ sid₂ y₁ y₂ hy₁ hy₂ hm key ho₁ ho₂
  unused sid' hnone path := by
    by_cases heq : sid' = sid
    · subst heq
      simp at hnone
    · have hold : s.sessions sid' = none := by simpa [heq] using hnone
      show r'.tempMap sid' path = none
      rw [hf.temps sid' heq]
      exact h.unused sid' hold path

theorem Inv.step (h : Inv checksum vpath good s) (hf : Frame good s sid r')
    (hx' : SessionOk checksum vpath good r' sid x')
    (howns : ∀ key, x'.Owns key → s.repo.checksums x'.machine key = none ∨
      ∃ x, s.sessions sid = some x ∧ x.machine = x'.machine ∧ x.Owns key)
    (hpub : ∀ mid key c, r'.checksums mid key = some (.sum c) → s.repo.checksums mid key = some (.sum c) ∨
      ∃ f, r'.globalMap mid (vpath key) = some f ∧ good f.content c) :
    Next checksum vpath good s { repo := r', sessions := Function.update s.sessions sid (some x') } where
  inv := h.of_frame hf hx' howns hpub
  kept := hf.sums

/-- The case of a step that leaves `checksums` and `global_map` alone: the session may only let go of the
keys it owns. -/
theorem Inv.step_local (h : Inv checksum vpath good s) (hc : r'.checksums = s.repo.checksums)
    (hg : r'.globalMap = s.repo.globalMap) (ht : ∀ sid', sid' ≠ sid → r'.tempMap sid' = s.repo.tempMap sid')
    (hd : ∀ sid', sid' ≠ sid → r'.sessionData sid' = s.repo.sessionData sid')
    (hx' : SessionOk checksum vpath good r' sid x')
    (howns : ∀ key, x'.Owns key → ∃ x, s.sessions sid = some x ∧ x.machine = x'.machine ∧ x.Owns key) :
    Next checksum vpath good s { repo := r', sessions := Function.update s.sessions sid (some x') } := by
  refine h.step (.of_local hc hg ht hd) hx' (fun key ho => .inr (howns key ho)) fun mid key c hs => ?_
  rw [hc] at hs
  exact .inl hs

/-! ## The steps -/

theorem missingFiles_inv {mid : MachineId} {task : Task κ} (h : Inv checksum vpath good s) (hnew : s.sessions sid = none)
    (hunique : ∀ key c c', (key, c) ∈ task.filelist checksum → (key, c') ∈ task.filelist checksum → c = c')
    (hagrees : task.Agrees checksum vpath good) :
    Next checksum vpath good s
      { repo := s.repo.missingFiles mid sid (task.filelist checksum)
        sessions := Function.update s.sessions sid (some { machine := mid, task }) } := by
  refine h.step_local rfl rfl (fun _ _ => rfl) (fun sid' hne => Function.update_of_ne hne _ _) ?_ ?_
  · refine ⟨hunique, hagrees, ?_, trivial, ?_, ?_⟩
    · intro l hl
      have : s.repo.neededFiles mid (task.filelist checksum) = l := by
        simpa [HeaderRepository.missingFiles] using hl
      rw [← this]
      exact List.filter_sublist.subset
    · intro key f hf
      rw [show (s.repo.missingFiles mid sid (task.filelist checksum)).tempMap = s.repo.tempMap from rfl,
        h.unused sid hnew] at hf
      cases hf
    · intro _ key c hmem
      by_cases hs : s.repo.checksums mid key = some (.sum c)
      · exact .inl hs
      · refine .inr (.inr ⟨s.repo.neededFiles mid (task.filelist checksum), by simp [HeaderRepository.missingFiles], ?_⟩)
        exact List.mem_map.2 ⟨(key, c), List.mem_filter.2 ⟨hmem, by simpa using hs⟩, rfl⟩
  · rintro key ⟨u, hu, -⟩
    cases hu

theorem prepareDir_inv {needed : List (Key × Nat)} {files : List (Key × κ)} (h : Inv checksum vpath good s)
    (hx : s.sessions sid = some x) (hlist : x.phase = .listed) (hneed : s.repo.sessionData sid = some needed)
    (hfiles : files.Perm (newFiles (x.task.bundle (needed.map (·.1))))) :
    Next checksum vpath good s
      { repo := { s.repo with sessionData := Function.update s.repo.sessionData sid none }
        sessions := Function.update s.sessions sid (some { x with phase := .preparing needed files none [] }) } := by
  have hok := h.sessions sid x hx
  have hsub : ∀ p ∈ files, p ∈ x.task.bundle (needed.map (·.1)) := fun p hp => newFiles_subset _ (hfiles.subset hp)
  refine h.step_local rfl rfl (fun _ _ => rfl) (fun sid' hne => Function.update_of_ne hne _ _) ?_ ?_
  · refine ⟨hok.unique, hok.agrees, ?_, ⟨hok.needed _ hneed, ?_, by simp, by simp⟩, hok.temp, ?_⟩
    · intro l hl
      simp at hl
    · exact fun p hp => hok.agrees _ p.1 p.2 (hsub p hp)
    · intro hcomp key c hmem
      rcases hok.backed hcomp key c hmem with hs | hf | hw
      · exact .inl hs
      · exact .inr (.inl hf)
      · rw [hlist, hneed] at hw
        obtain ⟨l, hl, hk⟩ := hw
        cases hl
        refine .inr (.inr (.inl ?_))
        rw [(hfiles.map _).mem_iff, newFiles_keys]
        exact bundle_missing hmem hk
  · rintro key ⟨u, hu, -⟩
    cases hu

theorem setChecksum_checksums (r : HeaderRepository κ Path) (mid mid' : MachineId) (key key' : Key) (v : Checksum) :
    (r.setChecksum mid key v).checksums mid' key' =
      if mid' = mid ∧ key' = key then some v else r.checksums mid' key' := by
  unfold HeaderRepository.setChecksum
  by_cases hm : mid' = mid
  · subst hm
    by_cases hk : key' = key
    · subst hk
      simp
    · simp [hk]
  · simp [hm]

/-- A session may set the checksum of a key that is not published and that no other session owns. -/
theorem Frame.setChecksum {mid : MachineId} {key : Key} (v : Checksum)
    (hfree : ∀ c, s.repo.checksums mid key ≠ some (.sum c))
    (hown : ∀ sid' y, sid' ≠ sid → s.sessions sid' = some y → y.machine = mid → ¬ y.Owns key) :
    Frame good s sid (s.repo.setChecksum mid key v) where
  sums mid' key' c hc := by
    rw [setChecksum_checksums, if_neg]
    · exact hc
    · rintro ⟨rfl, rfl⟩
      exact hfree c hc
  shared _ _ f hf := ⟨f, hf, fun _ h => h⟩
  temps _ _ := rfl
  data _ _ := rfl
  owned sid' y hne hy key' ho := by
    rw [setChecksum_checksums, if_neg]
    rintro ⟨hm, rfl⟩
    exact hown sid' y hne hy hm ho

/-- The key an upload is in the middle of is owned by no other session. -/
theorem Inv.not_owned (h : Inv checksum vpath good s) (hx : s.sessions sid = some x) {key : Key} (ho : x.Owns key) :
    ∀ sid' y, sid' ≠ sid → s.sessions sid' = some y → y.machine = x.machine → ¬ y.Owns key :=
  fun sid' y hne hy hm ho' => hne (h.owner sid' sid y x hy hx hm key ho' ho)

theorem Inv.not_owned_of_none (h : Inv checksum vpath good s) {mid : MachineId} {key : Key}
    (hnone : s.repo.checksums mid key = none) :
    ∀ sid' y, sid' ≠ sid → s.sessions sid' = some y → y.machine = mid → ¬ y.Owns key := by
  rintro sid' y - hy rfl ⟨u, hu, rfl, hl⟩
  have hprog := ((h.sessions sid' y hy).phase.cur hu).inProgress hl
  rw [hnone] at hprog
  cases hprog

section Preparing
variable {needed : List (Key × Nat)} {todo temps : List (Key × κ)} {key : Key} {content : κ} {c : Nat}

theorem Inv.preparing (h : Inv checksum vpath good s) (hx : s.sessions sid = some x) {cur : Option (Current κ)}
    (hp : x.phase = .preparing needed todo cur temps) :
    needed ⊆ x.task.filelist checksum ∧ (∀ p ∈ todo, Right checksum vpath good x.task p.1 p.2) ∧
      (∀ p ∈ temps, Right checksum vpath good x.task p.1 p.2) ∧ ∀ u ∈ cur, UploadOk checksum vpath good s.repo x u := by
  have := (h.sessions sid x hx).phase
  unfold PhaseOk at this
  rwa [hp] at this

theorem waits_cons {l : Option (List (Key × Nat))} {k : Key}
    (h : (Phase.preparing needed ((key, content) :: todo) none temps).Waits l k) :
    k = key ∨ k ∈ todo.map (·.1) ∨ k ∈ temps.map (·.1) := by
  rcases h with h | h | ⟨u, hu, -⟩
  · rcases List.mem_cons.1 h with h | h
    · exact .inl h
    · exact .inr (.inl h)
  · exact .inr (.inr h)
  · cases hu

/-- A file that was not needed is put aside. -/
theorem putAside_inv (h : Inv checksum vpath good s) (hx : s.sessions sid = some x)
    (hp : x.phase = .preparing needed ((key, content) :: todo) none temps) :
    Next checksum vpath good s (s.withPhase sid x (.preparing needed todo none (temps ++ [(key, content)]))) := by
  have hok := h.sessions sid x hx
  obtain ⟨hneed, htodo, htemps, -⟩ := h.preparing hx hp
  refine h.step_local rfl rfl (fun _ _ => rfl) (fun _ _ => rfl) ?_ ?_
  · refine ⟨hok.unique, hok.agrees, hok.needed, ⟨hneed, fun p hm => htodo p (by simp [hm]), ?_, by simp⟩, hok.temp, ?_⟩
    · intro p hm
      rcases List.mem_append.1 hm with hm | hm
      · exact htemps p hm
      · exact htodo p (by simp_all)
    · intro hcomp k c hmem
      rcases hok.backed hcomp k c hmem with hs | hf | hw
      · exact .inl hs
      · exact .inr (.inl hf)
      · rw [hp] at hw
        rcases waits_cons hw with rfl | hk | hk
        · exact .inr (.inr (.inr (.inl (by simp))))
        · exact .inr (.inr (.inl hk))
        · exact .inr (.inr (.inr (.inl (by simp only [List.map_append, List.mem_append]; exact .inl hk))))
  · rintro key ⟨u, hu, -⟩
    cases hu

/-- The first locked section, for a key nobody has stored. -/
theorem lockFree_inv (h : Inv checksum vpath good s) (hx : s.sessions sid = some x)
    (hp : x.phase = .preparing needed ((key, content) :: todo) none temps) (hmem : (key, c) ∈ needed)
    (hnone : s.repo.checksums x.machine key = none) :
    Next checksum vpath good s
      (State.withPhase { s with repo := s.repo.setChecksum x.machine key .inProgress } sid x
        (.preparing needed todo (some ⟨key, c, content, .createShared⟩) temps)) := by
  have hok := h.sessions sid x hx
  obtain ⟨hneed, htodo, htemps, -⟩ := h.preparing hx hp
  have hright : Right checksum vpath good x.task key content := htodo (key, content) (by simp)
  have hfree : ∀ c, s.repo.checksums x.machine key ≠ some (.sum c) := by
    intro c hc
    rw [hnone] at hc
    cases hc
  have hframe : Frame good s sid (s.repo.setChecksum x.machine key .inProgress) :=
    .setChecksum _ hfree (h.not_owned_of_none hnone)
  refine h.step hframe ?_ ?_ ?_
  · refine ⟨hok.unique, hok.agrees, hok.needed, ⟨hneed, fun p hm => htodo p (by simp [hm]), htemps, ?_⟩, hok.temp, ?_⟩
    · rintro u ⟨⟩
      exact ⟨hright, hneed hmem, fun _ => by simp [setChecksum_checksums], fun hpub => by cases hpub⟩
    · intro hcomp k c' hmem'
      rcases hok.backed hcomp k c' hmem' with hs | hf | hw
      · exact .inl (hframe.sums _ _ _ hs)
      · exact .inr (.inl hf)
      · rw [hp] at hw
        rcases waits_cons hw with rfl | hk | hk
        · exact .inr (.inr (.inr (.inr ⟨_, rfl, rfl⟩)))
        · exact .inr (.inr (.inl hk))
        · exact .inr (.inr (.inr (.inl hk)))
  · rintro k ⟨u, ⟨⟩, rfl, -⟩
    exact .inl hnone
  · intro mid k c' hc
    rw [setChecksum_checksums] at hc
    split at hc
    · cases hc
    · exact .inl hc

/-- The first locked section, for a key that is stored or being stored. -/
theorem lockTaken_inv (h : Inv checksum vpath good s) (hx : s.sessions sid = some x)
    (hp : x.phase = .preparing needed ((key, content) :: todo) none temps) (hmem : (key, c) ∈ needed)
    {cur : Option (Current κ)}
    (hcur : cur = some ⟨key, c, content, .createLocal⟩ ∨ cur = none ∧ s.repo.checksums x.machine key = some (.sum c)) :
    Next checksum vpath good s (s.withPhase sid x (.preparing needed todo cur temps)) := by
  have hok := h.sessions sid x hx
  obtain ⟨hneed, htodo, htemps, -⟩ := h.preparing hx hp
  have hright : Right checksum vpath good x.task key content := htodo (key, content) (by simp)
  refine h.step_local rfl rfl (fun _ _ => rfl) (fun _ _ => rfl) ?_ ?_
  · refine ⟨hok.unique, hok.agrees, hok.needed, ⟨hneed, fun p hm => htodo p (by simp [hm]), htemps, ?_⟩, hok.temp, ?_⟩
    · intro u hu
      rcases hcur with rfl | ⟨rfl, -⟩
      · cases hu
        exact ⟨hright, hneed hmem, fun hl => absurd rfl hl, fun hpub => by cases hpub⟩
      · cases hu
    · intro hcomp k c' hmem'
      rcases hok.backed hcomp k c' hmem' with hs | hf | hw
      · exact .inl hs
      · exact .inr (.inl hf)
      · rw [hp] at hw
        rcases waits_cons hw with rfl | hk | hk
        · rcases hcur with rfl | ⟨rfl, hs⟩
          · exact .inr (.inr (.inr (.inr ⟨_, rfl, rfl⟩)))
          · left
            show s.repo.checksums x.machine k = some (.sum c')
            rw [hs, hok.unique k c c' (hneed hmem) hmem']
        · exact .inr (.inr (.inl hk))
        · exact .inr (.inr (.inr (.inl hk)))
  · rintro k ⟨u, hu, -, hl⟩
    rcases hcur with rfl | ⟨rfl, -⟩
    · cases hu
      exact absurd rfl hl
    · cases hu

end Preparing

section Store
variable [DecidableEq Path] {stored : List (Key × κ)}

/-- What `_process_temp_files` does to the maps. -/
structure Stored (vpath : Key → Path) (r : HeaderRepository κ Path) (sid : SessionId) (stored : List (Key × κ))
    (r' : HeaderRepository κ Path) : Prop where
  checksums : r'.checksums = r.checksums
  globalMap : r'.globalMap = r.globalMap
  sessionData : r'.sessionData = r.sessionData
  others : ∀ sid', sid' ≠ sid → r'.tempMap sid' = r.tempMap sid'
  mapped : ∀ key, (∃ f, r.tempMap sid (vpath key) = some f) ∨ key ∈ stored.map (·.1) →
    ∃ f, r'.tempMap sid (vpath key) = some f
  content : ∀ path f, r'.tempMap sid path = some f →
    r.tempMap sid path = some f ∨ ∃ p ∈ stored, vpath p.1 = path ∧ f.content = p.2

theorem processTempFiles_stored (r : HeaderRepository κ Path) :
    Stored vpath r sid stored (r.processTempFiles vpath sid stored) := by
  induction stored generalizing r with
  | nil => exact ⟨rfl, rfl, rfl, fun _ _ => rfl, fun _ h => h.resolve_right (by simp), fun _ _ h => .inl h⟩
  | cons p rest ih =>
    have hrest := ih (r.createTempFile vpath sid p.1 p.2)
    have hself : (r.createTempFile vpath sid p.1 p.2).tempMap sid =
        Function.update (r.tempMap sid) (vpath p.1) (some ⟨r.nextName, p.2⟩) := Function.update_self ..
    refine ⟨hrest.checksums, hrest.globalMap, hrest.sessionData, ?_, ?_, ?_⟩
    · intro sid' hne
      exact (hrest.others sid' hne).trans (Function.update_of_ne hne _ _)
    · intro key h
      apply hrest.mapped key
      rw [hself]
      by_cases hk : vpath key = vpath p.1
      · rw [hk]
        exact .inl ⟨_, Function.update_self ..⟩
      · rw [Function.update_of_ne hk]
        rcases h with h | h
        · exact .inl h
        · rcases List.mem_cons.1 h with rfl | h
          · exact absurd rfl hk
          · exact .inr h
    · intro path f hf
      rcases hrest.content path f hf with hold | ⟨q, hq, hpath, hc⟩
      · rw [hself] at hold
        by_cases hk : path = vpath p.1
        · subst hk
          rw [Function.update_self] at hold
          cases hold
          exact .inr ⟨p, by simp, rfl, rfl⟩
        · rw [Function.update_of_ne hk] at hold
          exact .inl hold
      · exact .inr ⟨q, by simp [hq], hpath, hc⟩

/-- A session that maps files for itself and moves on to a phase with no upload. -/
theorem store_inv (h : Inv checksum vpath good s) (hx : s.sessions sid = some x)
    (stored : List (Key × κ)) (phase : Phase κ) (hstored : ∀ p ∈ stored, Right checksum vpath good x.task p.1 p.2)
    (hcur : phase.cur = none)
    (hphase : ∀ r, PhaseOk checksum vpath good r { x with phase })
    (hwaits : ∀ key, x.phase.Waits (s.repo.sessionData sid) key →
      key ∈ stored.map (·.1) ∨ phase.Waits (s.repo.sessionData sid) key) :
    Next checksum vpath good s
      (State.withPhase { s with repo := s.repo.processTempFiles vpath sid stored } sid x phase) := by
  have hok := h.sessions sid x hx
  have hst : Stored vpath s.repo sid stored (s.repo.processTempFiles vpath sid stored) := processTempFiles_stored _
  refine h.step_local hst.checksums hst.globalMap hst.others (fun sid' _ => by rw [hst.sessionData]) ?_ ?_
  · refine ⟨hok.unique, hok.agrees, by rw [hst.sessionData]; exact hok.needed, hphase _, ?_, ?_⟩
    · intro path f hf
      rcases hst.content path f hf with hold | ⟨p, hp, hpath, hc⟩
      · exact hok.temp path f hold
      · exact ⟨p.1, hpath, hc ▸ hstored p hp⟩
    · intro hcomp key c hmem
      rw [hst.checksums, hst.sessionData]
      rcases hok.backed hcomp key c hmem with hs | hf | hw
      · exact .inl hs
      · exact .inr (.inl (hst.mapped key (.inl hf)))
      · rcases hwaits key hw with hk | hk
        · exact .inr (.inl (hst.mapped key (.inr hk)))
        · exact .inr (.inr hk)
  · rintro key ⟨u, hu, -⟩
    rw [hcur] at hu
    cases hu

section Uploads
variable {needed : List (Key × Nat)} {todo temps : List (Key × κ)} {u : Current κ}

/-- The file creation of a header that is to be shared. What it replaces, if anything, was no better. -/
theorem createShared_inv (h : Inv checksum vpath good s) (hx : s.sessions sid = some x)
    (hp : x.phase = .preparing needed todo (some u) temps) (hup : u.upload = .createShared)
    (hgood : ∀ f, s.repo.globalMap x.machine (vpath u.key) = some f → ∀ c, good f.content c → good u.content c) :
    Next checksum vpath good s
      (State.withPhase { s with repo := s.repo.createSharedFile vpath x.machine u.key u.content } sid x
        (.preparing needed todo (some { u with upload := .publish }) temps)) := by
  have hok := h.sessions sid x hx
  obtain ⟨hneed, htodo, htemps, hcur⟩ := h.preparing hx hp
  have hu := hcur u rfl
  have hlocal : u.upload ≠ .createLocal := by rw [hup]; decide
  have hprog := hu.inProgress hlocal
  have howns : x.Owns u.key := ⟨u, by rw [hp]; rfl, rfl, hlocal⟩
  have hframe : Frame good s sid (s.repo.createSharedFile vpath x.machine u.key u.content) := by
    refine ⟨fun _ _ _ h => h, fun mid path f hf => ?_, fun _ _ => rfl, fun _ _ => rfl, fun _ _ _ _ _ _ => rfl⟩
    unfold HeaderRepository.createSharedFile
    by_cases hm : mid = x.machine
    · subst hm
      by_cases hpath : path = vpath u.key
      · subst hpath
        exact ⟨⟨s.repo.nextName, u.content⟩, by simp, hgood f hf⟩
      · exact ⟨f, by simpa [hpath] using hf, fun _ h => h⟩
    · exact ⟨f, by simpa [hm] using hf, fun _ h => h⟩
  refine h.step hframe ?_ ?_ (fun mid key c hc => .inl hc)
  · refine ⟨hok.unique, hok.agrees, hok.needed, ⟨hneed, htodo, htemps, ?_⟩, hok.temp, ?_⟩
    · rintro v ⟨⟩
      exact ⟨hu.right, hu.listed, fun _ => hprog, fun _ =>
        ⟨⟨s.repo.nextName, u.content⟩, by simp [HeaderRepository.createSharedFile], hu.right.2 u.key u.sum rfl hu.listed⟩⟩
    · intro hcomp key c hmem
      rcases hok.backed hcomp key c hmem with hs | hf | hw
      · exact .inl hs
      · exact .inr (.inl hf)
      · rw [hp] at hw
        rcases hw with hk | hk | ⟨v, ⟨⟩, rfl⟩
        · exact .inr (.inr (.inl hk))
        · exact .inr (.inr (.inr (.inl hk)))
        · exact .inr (.inr (.inr (.inr ⟨_, rfl, rfl⟩)))
  · rintro key ⟨v, ⟨⟩, rfl, -⟩
    exact .inr ⟨x, hx, rfl, howns⟩

omit [DecidableEq Path] in
/-- The second locked section of `create_shared`. -/
theorem publish_inv (h : Inv checksum vpath good s) (hx : s.sessions sid = some x)
    (hp : x.phase = .preparing needed todo (some u) temps) (hup : u.upload = .publish) :
    Next checksum vpath good s
      (State.withPhase { s with repo := s.repo.setChecksum x.machine u.key (.sum u.sum) } sid x
        (.preparing needed todo none temps)) := by
  have hok := h.sessions sid x hx
  obtain ⟨hneed, htodo, htemps, hcur⟩ := h.preparing hx hp
  have hu := hcur u rfl
  have hlocal : u.upload ≠ .createLocal := by rw [hup]; decide
  have hprog := hu.inProgress hlocal
  have howns : x.Owns u.key := ⟨u, by rw [hp]; rfl, rfl, hlocal⟩
  have hframe : Frame good s sid (s.repo.setChecksum x.machine u.key (.sum u.sum)) := by
    refine .setChecksum _ (fun c hc => ?_) (h.not_owned hx howns)
    rw [hprog] at hc
    cases hc
  refine h.step hframe ?_ ?_ ?_
  · refine ⟨hok.unique, hok.agrees, hok.needed, ⟨hneed, htodo, htemps, by simp⟩, hok.temp, ?_⟩
    intro hcomp key c hmem
    rcases hok.backed hcomp key c hmem with hs | hf | hw
    · exact .inl (hframe.sums _ _ _ hs)
    · exact .inr (.inl hf)
    · rw [hp] at hw
      rcases hw with hk | hk | ⟨v, ⟨⟩, rfl⟩
      · exact .inr (.inr (.inl hk))
      · exact .inr (.inr (.inr (.inl hk)))
      · left
        rw [setChecksum_checksums, if_pos ⟨rfl, rfl⟩, hok.unique u.key u.sum c hu.listed hmem]
  · rintro key ⟨v, hv, -⟩
    cases hv
  · intro mid key c hc
    rw [setChecksum_checksums] at hc
    split at hc
    · rename_i heq
      obtain ⟨rfl, rfl⟩ := heq
      cases hc
      exact .inr (hu.mapped hup)
    · exact .inl hc

end Uploads

omit [DecidableEq Path] in
theorem sessionComplete_inv (h : Inv checksum vpath good s) (hx : s.sessions sid = some x) :
    Next checksum vpath good s
      { repo := s.repo.sessionComplete sid
        sessions := Function.update s.sessions sid (some { x with completed := true }) } := by
  have hok := h.sessions sid x hx
  refine h.step_local rfl rfl (fun sid' hne => Function.update_of_ne hne _ _) (fun _ _ => rfl) ?_ ?_
  · refine ⟨hok.unique, hok.agrees, hok.needed, hok.phase.congr rfl rfl rfl rfl rfl, ?_, fun hcomp => by cases hcomp⟩
    intro key f hf
    simp [HeaderRepository.sessionComplete] at hf
  · exact fun key ho => ⟨x, hx, rfl, ho⟩

end Store

end Steps

/-! ## Every run -/

section Run
variable [DecidableEq κ] [DecidableEq Path] {checksum vpath good} {K : Set Key} {s s' : State κ Path}

/-- The tasks are well formed, and their keys are in `K`. -/
def Event.Ok (checksum : κ → Nat) (K : Set Key) : Event κ → Prop
  | .missingFiles _ _ task => task.Ok checksum ∧ ∀ key ∈ task.keys, key ∈ K
  | _ => True

/-- The task lists a key once and sends what it lists, and a shared file takes no place of a better one. -/
def Harmless (checksum : κ → Nat) (vpath : Key → Path) (good : κ → Nat → Prop) (s : State κ Path) : Event κ → Prop
  | .missingFiles _ _ task =>
    (∀ key c c', (key, c) ∈ task.filelist checksum → (key, c') ∈ task.filelist checksum → c = c') ∧
      task.Agrees checksum vpath good
  | .createFile sid _ => ∀ x u, s.sessions sid = some x → x.phase.cur = some u → u.upload = .createShared →
    ∀ f, s.repo.globalMap x.machine (vpath u.key) = some f → ∀ c, good f.content c → good u.content c
  | _ => True

omit [DecidableEq κ] [DecidableEq Path] in
theorem init_inv : Inv checksum vpath good ({} : State κ Path) where
  published _ _ _ h := by cases h
  sessions _ _ h := by cases h
  owner _ _ _ _ h := by cases h
  unused _ _ _ := rfl

theorem mem_of_lookup {α β : Type} [BEq α] [LawfulBEq α] {l : List (α × β)} {a : α} {b : β} (h : l.lookup a = some b) :
    (a, b) ∈ l := by
  obtain ⟨l₁, l₂, rfl, -⟩ := List.lookup_eq_some_iff.1 h
  simp

theorem nextFile_inv (h : Inv checksum vpath good s) {sid : SessionId}
    (hs : step checksum vpath s (.nextFile sid) = some s') : Next checksum vpath good s s' := by
  obtain ⟨x, needed, key, content, todo, temps, hx, hp, ⟨-, rfl⟩ | ⟨c, hlook, rfl⟩⟩ := steps_of_step hs
  · exact putAside_inv h hx hp
  · have hmem : (key, c) ∈ needed := mem_of_lookup hlook
    unfold lockFirst
    split
    · rename_i hnone
      exact lockFree_inv h hx hp hmem hnone
    · rename_i old hold
      refine lockTaken_inv h hx hp hmem ?_
      by_cases hne : old = .sum c
      · subst hne
        exact .inr ⟨by simp, hold⟩
      · exact .inl (by simp [hne])

theorem createFile_inv (h : Inv checksum vpath good s) {sid : SessionId} {ok : Bool}
    (he : Harmless checksum vpath good s (.createFile sid ok))
    (hs : step checksum vpath s (.createFile sid ok) = some s') : Next checksum vpath good s s' := by
  obtain ⟨x, needed, todo, u, temps, hx, hp, hcases⟩ := steps_of_step hs
  obtain ⟨hneed, htodo, htemps, hcur⟩ := h.preparing hx hp
  rcases hcases with ⟨-, rfl⟩ | ⟨-, rfl⟩ | ⟨hup, rfl⟩
  · exact store_inv h hx [] .failed (by simp) rfl (fun _ => trivial) (fun _ _ => .inr trivial)
  · refine store_inv h hx [(u.key, u.content)] (.preparing needed todo none temps) ?_ rfl
      (fun _ => ⟨hneed, htodo, htemps, by simp⟩) ?_
    · intro p hmem
      obtain rfl : p = (u.key, u.content) := by simpa using hmem
      exact (hcur u rfl).right
    · intro key hw
      rw [hp] at hw
      rcases hw with hk | hk | ⟨v, ⟨⟩, rfl⟩
      · exact .inr (.inl hk)
      · exact .inr (.inr (.inl hk))
      · exact .inl (by simp)
  · exact createShared_inv h hx hp hup (he x u hx (by rw [hp]; rfl) hup)

theorem processTempFiles_inv (h : Inv checksum vpath good s) {sid : SessionId} {stored : Nat}
    (hs : step checksum vpath s (.processTempFiles sid stored) = some s') : Next checksum vpath good s s' := by
  obtain ⟨x, needed, temps, hx, hp, rfl⟩ := steps_of_step hs
  obtain ⟨hneed, -, htemps, -⟩ := h.preparing hx hp
  refine store_inv h hx (temps.take stored) _ (fun p hmem => htemps p (List.mem_of_mem_take hmem)) ?_ ?_ ?_
  · split <;> rfl
  · intro r
    split <;> trivial
  · intro key hw
    split
    · rename_i hle
      rw [hp] at hw
      rcases hw with hk | hk | ⟨v, hv, -⟩
      · cases hk
      · rw [List.take_of_length_le hle]
        exact .inl hk
      · cases hv
    · exact .inr trivial

theorem step_inv {e : Event κ} (h : Inv checksum vpath good s) (he : Harmless checksum vpath good s e)
    (hs : step checksum vpath s e = some s') : Next checksum vpath good s s' := by
  cases e with
  | missingFiles sid mid task =>
    obtain ⟨hnone, rfl⟩ := steps_of_step hs
    exact missingFiles_inv h hnone he.1 he.2
  | prepareDir sid files =>
    obtain ⟨x, needed, hx, hneed, hp, hperm, rfl⟩ := steps_of_step hs
    exact prepareDir_inv h hx hp hneed hperm
  | nextFile sid => exact nextFile_inv h hs
  | createFile sid ok => exact createFile_inv h he hs
  | publish sid =>
    obtain ⟨x, needed, todo, u, temps, hx, hp, hup, rfl⟩ := steps_of_step hs
    exact publish_inv h hx hp hup
  | processTempFiles sid stored => exact processTempFiles_inv h hs
  | compile sid =>
    obtain ⟨x, hx, hp, rfl⟩ := steps_of_step hs
    refine store_inv h hx [] .compiling (by simp) rfl (fun _ => trivial) ?_
    intro key hw
    rw [hp] at hw
    exact hw.elim
  | sessionComplete sid =>
    obtain ⟨x, hx, rfl⟩ := steps_of_step hs
    exact sessionComplete_inv h hx

omit [DecidableEq κ] [DecidableEq Path] in
/-- What a compiling session finds at a key it listed. -/
theorem Inv.serves (h : Inv checksum vpath good s) {sid : SessionId} {x : Session κ} (hx : s.sessions sid = some x)
    (hp : x.phase = .compiling) (hcomp : x.completed = false) {key : Key} {c : Nat}
    (hmem : (key, c) ∈ x.task.filelist checksum) :
    ∃ f, s.repo.mapped x.machine sid (vpath key) = some f ∧ good f.content c := by
  have hok := h.sessions sid x hx
  unfold HeaderRepository.mapped
  cases htemp : s.repo.tempMap sid (vpath key) with
  | some f =>
    obtain ⟨key', hpath, hright⟩ := hok.temp _ f htemp
    exact ⟨f, rfl, hright.2 key c hpath.symm hmem⟩
  | none =>
    rcases hok.backed hcomp key c hmem with hs | ⟨f, hf⟩ | hw
    · exact h.published x.machine key c hs
    · rw [htemp] at hf
      cases hf
    · rw [hp] at hw
      exact hw.elim

/-- How a session of the task goes on. -/
inductive Moves (task : Task κ) : Phase κ → Phase κ → Prop where
  | start {needed : List (Key × Nat)} {files : List (Key × κ)}
      (order : files.Perm (newFiles (task.bundle (needed.map (·.1))))) :
    Moves task .listed (.preparing needed files none [])
  | putAside {needed : List (Key × Nat)} {todo temps : List (Key × κ)} {key : Key} {content : κ}
    (free : needed.lookup key = none) : Moves task (.preparing needed ((key, content) :: todo) none temps)
      (.preparing needed todo none (temps ++ [(key, content)]))
  | upload {needed : List (Key × Nat)} {todo temps : List (Key × κ)} {key : Key} {content : κ} {c : Nat}
    (listed : needed.lookup key = some c) (cur : Option (Current κ)) :
    Moves task (.preparing needed ((key, content) :: todo) none temps) (.preparing needed todo cur temps)
  | uploading {needed : List (Key × Nat)} {todo temps : List (Key × κ)} {cur : Current κ} (cur' : Option (Current κ)) :
    Moves task (.preparing needed todo (some cur) temps) (.preparing needed todo cur' temps)
  | failed (phase : Phase κ) : Moves task phase .failed
  | prepared (phase : Phase κ) : Moves task phase .prepared
  | compiling : Moves task .prepared .compiling
  | completed (phase : Phase κ) : Moves task phase phase

/-- A step is one session's: it begins, or goes on with its task. -/
theorem step_moves {e : Event κ} (hs : step checksum vpath s e = some s') :
    ∃ sid y, s'.sessions = Function.update s.sessions sid (some y) ∧
      ((∃ mid task, e = .missingFiles sid mid task ∧ y = { machine := mid, task }) ∨
        ∃ x, s.sessions sid = some x ∧ y.task = x.task ∧ Moves x.task x.phase y.phase) := by
  cases e with
  | missingFiles sid mid task =>
    obtain ⟨-, rfl⟩ := steps_of_step hs
    exact ⟨sid, _, rfl, .inl ⟨mid, task, rfl, rfl⟩⟩
  | prepareDir sid files =>
    obtain ⟨x, needed, hx, -, hp, hperm, rfl⟩ := steps_of_step hs
    exact ⟨sid, _, rfl, .inr ⟨x, hx, rfl, by rw [hp]; exact .start hperm⟩⟩
  | nextFile sid =>
    obtain ⟨x, needed, key, content, todo, temps, hx, hp, ⟨hnone, rfl⟩ | ⟨c, hsome, rfl⟩⟩ := steps_of_step hs
    · exact ⟨sid, _, rfl, .inr ⟨x, hx, rfl, by rw [hp]; exact .putAside hnone⟩⟩
    · exact ⟨sid, _, rfl, .inr ⟨x, hx, rfl, by rw [hp]; exact .upload hsome _⟩⟩
  | createFile sid ok =>
    obtain ⟨x, needed, todo, u, temps, hx, hp, ⟨-, rfl⟩ | ⟨-, rfl⟩ | ⟨-, rfl⟩⟩ := steps_of_step hs
    · exact ⟨sid, _, rfl, .inr ⟨x, hx, rfl, .failed _⟩⟩
    · exact ⟨sid, _, rfl, .inr ⟨x, hx, rfl, by rw [hp]; exact .uploading _⟩⟩
    · exact ⟨sid, _, rfl, .inr ⟨x, hx, rfl, by rw [hp]; exact .uploading _⟩⟩
  | publish sid =>
    obtain ⟨x, needed, todo, u, temps, hx, hp, -, rfl⟩ := steps_of_step hs
    exact ⟨sid, _, rfl, .inr ⟨x, hx, rfl, by rw [hp]; exact .uploading _⟩⟩
  | processTempFiles sid stored =>
    obtain ⟨x, needed, temps, hx, -, rfl⟩ := steps_of_step hs
    refine ⟨sid, _, rfl, .inr ⟨x, hx, rfl, ?_⟩⟩
    dsimp only
    split
    · exact .prepared _
    · exact .failed _
  | compile sid =>
    obtain ⟨x, hx, hp, rfl⟩ := steps_of_step hs
    exact ⟨sid, _, rfl, .inr ⟨x, hx, rfl, by rw [hp]; exact .compiling⟩⟩
  | sessionComplete sid =>
    obtain ⟨x, hx, rfl⟩ := steps_of_step hs
    exact ⟨sid, _, rfl, .inr ⟨x, hx, rfl, .completed _⟩⟩

/-! ## Keys that have their paths to themselves -/

/-- The path of a key is mapped once the upload of the key is past the file creation, and not before. -/
structure Apart (vpath : Key → Path) (K : Set Key) (s : State κ Path) : Prop where
  keys : ∀ sid x, s.sessions sid = some x → ∀ key ∈ x.task.keys, key ∈ K
  taken : ∀ mid, ∀ key ∈ K, s.repo.globalMap mid (vpath key) ≠ none → s.repo.checksums mid key ≠ none
  created : ∀ sid x u, s.sessions sid = some x → x.phase.cur = some u → u.upload = .createShared →
    s.repo.globalMap x.machine (vpath u.key) = none

section Apart
variable {sid : SessionId} {x x' : Session κ} {r' : HeaderRepository κ Path}

omit [DecidableEq κ] [DecidableEq Path] in
/-- One session goes on, and no file is shared. -/
theorem Apart.of_local (h : Apart vpath K s) (hg : r'.globalMap = s.repo.globalMap)
    (hc : ∀ mid key, s.repo.checksums mid key ≠ none → r'.checksums mid key ≠ none)
    (hkeys : ∀ key ∈ x'.task.keys, key ∈ K)
    (hcur : ∀ u, x'.phase.cur = some u → u.upload = .createShared →
      s.repo.globalMap x'.machine (vpath u.key) = none) :
    Apart vpath K { repo := r', sessions := Function.update s.sessions sid (some x') } where
  keys sid' y hy := by
    rcases update_cases hy with ⟨rfl, rfl⟩ | ⟨-, hy⟩
    · exact hkeys
    · exact h.keys sid' y hy
  taken mid key hk hne := hc mid key (h.taken mid key hk (hg ▸ hne))
  created sid' y u hy hu hup := by
    change r'.globalMap y.machine (vpath u.key) = none
    rw [hg]
    rcases update_cases hy with ⟨rfl, rfl⟩ | ⟨-, hy⟩
    · exact hcur u hu hup
    · exact h.created sid' y u hy hu hup

omit [DecidableEq κ] in
/-- A shared file is created where no other key is mapped. -/
theorem Apart.shared (hK : Set.InjOn vpath K) (hi : Inv checksum vpath good s) (h : Apart vpath K s)
    (hx : s.sessions sid = some x) {needed : List (Key × Nat)} {todo temps : List (Key × κ)} {u : Current κ}
    (hp : x.phase = .preparing needed todo (some u) temps) (hup : u.upload = .createShared) :
    Apart vpath K
      (State.withPhase { s with repo := s.repo.createSharedFile vpath x.machine u.key u.content } sid x
        (.preparing needed todo (some { u with upload := .publish }) temps)) := by
  have hcur : x.phase.cur = some u := by rw [hp]; rfl
  have hok := (hi.sessions sid x hx).phase.cur hcur
  have hlocal : u.upload ≠ .createLocal := by rw [hup]; decide
  have hkey : u.key ∈ K := h.keys sid x hx _ (filelist_keys hok.listed)
  have hmap : ∀ mid path, (mid = x.machine → path ≠ vpath u.key) →
      (s.repo.createSharedFile vpath x.machine u.key u.content).globalMap mid path = s.repo.globalMap mid path := by
    intro mid path hne
    unfold HeaderRepository.createSharedFile
    by_cases hm : mid = x.machine
    · subst hm
      simp [hne rfl]
    · simp [hm]
  refine ⟨fun sid' y hy => ?_, fun mid key hk hne => ?_, fun sid' y v hy hv hvp => ?_⟩
  · rcases update_cases hy with ⟨rfl, rfl⟩ | ⟨-, hy⟩
    · exact h.keys sid' x hx
    · exact h.keys sid' y hy
  · by_cases hsame : mid = x.machine ∧ key = u.key
    · obtain ⟨rfl, rfl⟩ := hsame
      change s.repo.checksums x.machine u.key ≠ none
      rw [hok.inProgress hlocal]
      simp
    · refine h.taken mid key hk ?_
      change (s.repo.createSharedFile vpath x.machine u.key u.content).globalMap mid (vpath key) ≠ none at hne
      rwa [hmap mid (vpath key) fun hm hpath => hsame ⟨hm, hK hk hkey hpath⟩] at hne
  · rcases update_cases hy with ⟨rfl, rfl⟩ | ⟨hne, hy⟩
    · cases hv
      cases hvp
    · have hvok := (hi.sessions sid' y hy).phase.cur hv
      change (s.repo.createSharedFile vpath x.machine u.key u.content).globalMap y.machine (vpath v.key) = none
      rw [hmap y.machine (vpath v.key) fun hm hpath => ?_]
      · exact h.created sid' y v hy hv hvp
      · -- two sessions of one machine do not upload the same key
        have hkeys : v.key = u.key := hK (h.keys sid' y hy _ (filelist_keys hvok.listed)) hkey hpath
        refine hne (hi.owner sid' sid y x hy hx hm u.key ⟨v, hv, hkeys, ?_⟩ ⟨u, hcur, rfl, hlocal⟩)
        rw [hvp]
        decide

theorem step_apart (hK : Set.InjOn vpath K) {e : Event κ} (hi : Inv checksum vpath good s) (h : Apart vpath K s)
    (he : e.Ok checksum K) (hs : step checksum vpath s e = some s') :
    Apart vpath K s' ∧ ∀ mid path f, s.repo.globalMap mid path = some f → s'.repo.globalMap mid path = some f := by
  cases e with
  | missingFiles sid mid task =>
    obtain ⟨-, rfl⟩ := steps_of_step hs
    exact ⟨h.of_local rfl (fun _ _ hc => hc) he.2 fun u hu => by (cases hu), fun _ _ _ hf => hf⟩
  | prepareDir sid files =>
    obtain ⟨x, needed, hx, -, -, -, rfl⟩ := steps_of_step hs
    exact ⟨h.of_local rfl (fun _ _ hc => hc) (h.keys sid x hx) fun u hu => by (cases hu), fun _ _ _ hf => hf⟩
  | nextFile sid =>
    obtain ⟨x, needed, key, content, todo, temps, hx, hp, ⟨-, rfl⟩ | ⟨c, hlook, rfl⟩⟩ := steps_of_step hs
    · exact ⟨h.of_local rfl (fun _ _ hc => hc) (h.keys sid x hx) fun u hu => by (cases hu), fun _ _ _ hf => hf⟩
    · have hkey : key ∈ K :=
        h.keys sid x hx key (filelist_keys ((hi.preparing hx hp).1 (mem_of_lookup hlook)))
      unfold lockFirst
      split
      · rename_i hnone
        refine ⟨h.of_local rfl (fun mid k hc => ?_) (h.keys sid x hx) fun u hu _ => ?_, fun _ _ _ hf => hf⟩
        · rw [setChecksum_checksums]
          split
          · simp
          · exact hc
        · cases hu
          by_contra hne
          exact h.taken x.machine key hkey hne hnone
      · refine ⟨h.of_local rfl (fun _ _ hc => hc) (h.keys sid x hx) fun u hu hup => ?_, fun _ _ _ hf => hf⟩
        split at hu
        · cases hu
          cases hup
        · cases hu
  | createFile sid ok =>
    obtain ⟨x, needed, todo, u, temps, hx, hp, ⟨-, rfl⟩ | ⟨-, rfl⟩ | ⟨hup, rfl⟩⟩ := steps_of_step hs
    · exact ⟨h.of_local rfl (fun _ _ hc => hc) (h.keys sid x hx) fun v hv => by (cases hv), fun _ _ _ hf => hf⟩
    · exact ⟨h.of_local rfl (fun _ _ hc => hc) (h.keys sid x hx) fun v hv => by (cases hv), fun _ _ _ hf => hf⟩
    · refine ⟨h.shared hK hi hx hp hup, fun mid path f hf => ?_⟩
      -- The one who creates the file was the first to take its lock, so that nothing stood at its path.
      have hnone := h.created sid x u hx (by rw [hp]; rfl) hup
      change (s.repo.createSharedFile vpath x.machine u.key u.content).globalMap mid path = some f
      unfold HeaderRepository.createSharedFile
      by_cases hm : mid = x.machine
      · subst hm
        have hpath : path ≠ vpath u.key := by
          rintro rfl
          rw [hnone] at hf
          cases hf
        simpa [hpath] using hf
      · simpa [hm] using hf
  | publish sid =>
    obtain ⟨x, needed, todo, u, temps, hx, -, -, rfl⟩ := steps_of_step hs
    refine ⟨h.of_local rfl (fun mid k hc => ?_) (h.keys sid x hx) fun u hu => by (cases hu), fun _ _ _ hf => hf⟩
    rw [setChecksum_checksums]
    split
    · simp
    · exact hc
  | processTempFiles sid stored =>
    obtain ⟨x, needed, temps, hx, -, rfl⟩ := steps_of_step hs
    have hst : Stored vpath s.repo sid (temps.take stored) (s.repo.processTempFiles vpath sid (temps.take stored)) :=
      processTempFiles_stored _
    refine ⟨h.of_local hst.globalMap (fun _ _ hc => by rw [hst.checksums]; exact hc) (h.keys sid x hx) fun u hu => ?_,
      fun mid path f hf => ?_⟩
    · dsimp only at hu
      split at hu <;> cases hu
    · change (s.repo.processTempFiles vpath sid (temps.take stored)).globalMap mid path = some f
      rw [hst.globalMap]
      exact hf
  | compile sid =>
    obtain ⟨x, hx, -, rfl⟩ := steps_of_step hs
    exact ⟨h.of_local rfl (fun _ _ hc => hc) (h.keys sid x hx) fun u hu => by (cases hu), fun _ _ _ hf => hf⟩
  | sessionComplete sid =>
    obtain ⟨x, hx, rfl⟩ := steps_of_step hs
    exact ⟨h.of_local rfl (fun _ _ hc => hc) (h.keys sid x hx) fun u hu hup => h.created sid x u hx hu hup,
      fun _ _ _ hf => hf⟩

omit [DecidableEq κ] [DecidableEq Path] in
/-- Where the keys have their paths to themselves, nothing harmful happens. -/
theorem Apart.harmless (hK : Set.InjOn vpath K) (h : Apart vpath K s) {e : Event κ} (he : e.Ok checksum K) :
    Harmless checksum vpath (fun x c => checksum x = c) s e := by
  cases e with
  | missingFiles sid mid task =>
    refine ⟨fun _ _ _ => filelist_unique he.1.nodup, fun missing key content hmem =>
      ⟨bundle_keys hmem, fun key' c hpath hc => ?_⟩⟩
    have hkey : key' = key := hK (he.2 key' (filelist_keys hc)) (he.2 key (bundle_keys hmem)) hpath
    exact bundle_checksum he.1 hmem (hkey ▸ hc)
  | createFile sid ok =>
    intro x u hx hu hup f hf
    rw [h.created sid x u hx hu hup] at hf
    cases hf
  | _ => trivial

end Apart

/-- The invariants hold of `s'`, and what was published or shared in `s` still is. -/
structure Kept (checksum : κ → Nat) (vpath : Key → Path) (K : Set Key) (s s' : State κ Path) : Prop where
  next : Next checksum vpath (fun x c => checksum x = c) s s'
  apart : Apart vpath K s'
  shared : ∀ mid path f, s.repo.globalMap mid path = some f → s'.repo.globalMap mid path = some f

theorem run_kept (hK : Set.InjOn vpath K) {es : List (Event κ)} (hes : ∀ e ∈ es, e.Ok checksum K)
    (h : Inv checksum vpath (fun x c => checksum x = c) s) (ha : Apart vpath K s)
    (hr : run (step checksum vpath) s es = some s') : Kept checksum vpath K s s' := by
  refine run_inv_of_meets (step checksum vpath) (I := Kept checksum vpath K s) ?_ es s s'
    ⟨⟨h, fun _ _ _ hc => hc⟩, ha, fun _ _ _ hf => hf⟩ (meets_of_forall _ fun _ e he => hes e he) hr
  intro t e t' ht he hstep
  have hn := step_inv ht.next.inv (ht.apart.harmless hK he) hstep
  obtain ⟨hapart, hshared⟩ := step_apart hK ht.next.inv ht.apart he hstep
  exact ⟨⟨hn.inv, fun mid key c hc => hn.kept mid key c (ht.next.kept mid key c hc)⟩, hapart,
    fun mid path f hf => hshared mid path f (ht.shared mid path f hf)⟩

/-- **The repository serves what the sessions named.** In every reachable state, a session that compiles
finds content with the listed checksum at every key of its `filelist`; and a published checksum is the one
of the shared file, which no later step replaces. -/
theorem sessions_see_listed_content (hK : Set.InjOn vpath K) {es : List (Event κ)}
    (hes : ∀ e ∈ es, e.Ok checksum K) (hr : run (step checksum vpath) {} es = some s) :
    (∀ sid session, s.sessions sid = some session → session.phase = .compiling → session.completed = false →
      ∀ key c, (key, c) ∈ session.task.filelist checksum →
        ∃ f, s.repo.mapped session.machine sid (vpath key) = some f ∧ checksum f.content = c) ∧
    ∀ mid key c, s.repo.checksums mid key = some (.sum c) →
      ∃ f, s.repo.globalMap mid (vpath key) = some f ∧ checksum f.content = c ∧
        ∀ (es' : List (Event κ)) s', (∀ e ∈ es', e.Ok checksum K) → run (step checksum vpath) s es' = some s' →
          s'.repo.checksums mid key = some (.sum c) ∧ s'.repo.globalMap mid (vpath key) = some f := by
  have hapart : Apart vpath K ({} : State κ Path) :=
    ⟨fun _ _ h => by (cases h), fun _ _ _ h => absurd rfl h, fun _ _ _ h => by (cases h)⟩
  have hkept := run_kept hK hes init_inv hapart hr
  have hinv := hkept.next.inv
  refine ⟨fun sid x hx hp hcomp key c hmem => hinv.serves hx hp hcomp hmem, ?_⟩
  intro mid key c hc
  obtain ⟨f, hf, hsum⟩ := hinv.published mid key c hc
  refine ⟨f, hf, hsum, ?_⟩
  intro es' s' hes' hr'
  have hlater := run_kept hK hes' hinv hkept.apart hr'
  exact ⟨hlater.next.kept mid key c hc, hlater.shared mid _ f hf⟩

end Run

end Model

/-! ## Two versions of a header -/

/-- The checksum the scanner takes of a header: Adler-32, here for bytes below 128 (the scanner's `char`s are signed). -/
def adler32 (data : List Nat) : Nat :=
  let (a, b) := data.foldl (fun (a, b) d => ((a + d) % 65521, (b + (a + d)) % 65521)) (1, 0)
  b * 65536 + a

def joinPath (key : Key) : String := if key.1 = "" then key.2 else key.1 ++ "\\" ++ key.2

/-- A source that includes `inc\a.h` with the given content. -/
def oneHeader (content : List Nat) : Task (List Nat) where
  headerInfo := [("inc", [("a.h", false, content)])]
  source := "a.cpp"
  sourceContent := [0]

/-- The second session asks while the first is still uploading, and gets a file of its own. -/
def twoVersions : List (Event (List Nat)) :=
  [.missingFiles 1 0 (oneHeader [1]), .missingFiles 2 0 (oneHeader [2]),
    .prepareDir 1 [(("inc", "a.h"), [1]), (("", "a.cpp"), [0])], .nextFile 1,
    .prepareDir 2 [(("", "a.cpp"), [0]), (("inc", "a.h"), [2])], .nextFile 2, .nextFile 2,
    .createFile 1 true, .createFile 2 true, .publish 1, .processTempFiles 2 1, .compile 2]

theorem oneHeader_ok (content : List Nat) : (oneHeader content).Ok adler32 where
  nodup := by simp [oneHeader, Task.headers]
  source c h := by simp [oneHeader, Task.filelist, Task.headers] at h

theorem sessions_see_listed_content_two :
    ∃ s, run (step adler32 joinPath) {} twoVersions = some s ∧
      (∃ f, s.repo.mapped 0 2 "inc\\a.h" = some f ∧ adler32 f.content = adler32 [2]) ∧
      ∃ f, s.repo.globalMap 0 "inc\\a.h" = some f ∧ adler32 f.content = adler32 [1] := by
  have hK : Set.InjOn joinPath {("inc", "a.h"), ("", "a.cpp")} := by
    rintro k (rfl | rfl) k' (rfl | rfl) h <;> first | rfl | exact absurd h (by decide)
  have hes : ∀ e ∈ twoVersions, e.Ok adler32 {("inc", "a.h"), ("", "a.cpp")} := by
    intro e he
    simp only [twoVersions, List.mem_cons, List.not_mem_nil, or_false] at he
    rcases he with rfl | rfl | rfl | rfl | rfl | rfl | rfl | rfl | rfl | rfl | rfl | rfl <;>
      first | trivial | exact ⟨oneHeader_ok _, by simp [oneHeader, Task.keys, Task.headers]⟩
  obtain ⟨s, hs⟩ : ∃ s, run (step adler32 joinPath) {} twoVersions = some s := ⟨_, rfl⟩
  obtain ⟨hsees, hpub⟩ := sessions_see_listed_content hK hes hs
  cases hs
  refine ⟨_, rfl, hsees 2 _ rfl rfl rfl ("inc", "a.h") _ (by decide), ?_⟩
  obtain ⟨f, hf, hsum, -⟩ := hpub 0 ("inc", "a.h") (adler32 [1]) rfl
  exact ⟨f, hf, hsum⟩

end BuildPal.Headers
