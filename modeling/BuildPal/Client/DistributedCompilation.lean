import BuildPal.Lib.Runs
/-!
# Compilations that are short-circuited

A `DistributedCompilation` of `Extensions/Client/hookProcess.cpp` stands for a
compiler process that was never started. Its handle is an event; a worker thread
compiles, and the hooks of `GetExitCodeProcess`, `TerminateProcess` and
`CloseHandle` answer for the process. The worker has a plain pointer to the
compilation, which belongs to `distributedCompilationInfo`, and uses its
parameters without the mutex. We say in which interleavings this goes well.
-/
open BuildPal.Lib

namespace BuildPal.Client.ShortCircuit

abbrev DWORD := UInt32
abbrev BOOL := Int

def TRUE : BOOL := 1

/-- `STATUS_PENDING`, the exit code of a process that runs. -/
def STILL_ACTIVE : DWORD := 259

structure DistributedCompilation where
  /-- `cpParams_` is not null. -/
  cpParams : Bool := true
  completed : Bool := false
  exitCode : DWORD := 0
deriving DecidableEq

def DistributedCompilation.complete (dc : DistributedCompilation) (exitCode : DWORD) : DistributedCompilation × Bool :=
  if dc.completed then (dc, false) else ({ cpParams := false, completed := true, exitCode }, true)

/-! ## The worker -/

/-- What the worker is about to do. -/
inductive Worker where
  /-- To convert `lpCommandLine`. -/
  | commandLine
  /-- To convert `lpCurrentDirectory`. -/
  | currentPath
  /-- To call `::distributedCompile`. -/
  | call
  /-- In `::distributedCompile`, which has the environment and the output handles of the parameters. -/
  | compiling
  /-- In the `CreateProcessW` of `fallback`, which has pointers into the parameters. -/
  | fallback
  /-- `::distributedCompile` is to return, and needs the parameters no more. -/
  | returning
  /-- To call `complete`. -/
  | complete (result : DWORD)
  /-- To set the event. -/
  | setEvent
  | ended
  /-- It has used what was not there any more, and what it does is not defined. -/
  | lost
deriving DecidableEq

inductive Part where
  /-- The `DistributedCompilation`. -/
  | object
  /-- What `cpParams_` points to. -/
  | params
deriving DecidableEq

inductive Work where
  | readCommandLine
  | readCurrentPath
  | call
  /-- The environment is read or changed, or output is written. -/
  | useParams
  /-- The same, and there will be no more of it. -/
  | lastUse
  | fallback
  /-- `CreateProcessW` has returned. -/
  | processCreated
  | returns (result : DWORD)
  | complete
  | setEvent
deriving DecidableEq

/-- What the worker needs for the next piece of its work, and where this leads; `complete` is decided under the
lock. -/
def Worker.next : Worker → Work → Option (List Part × Worker)
  | .commandLine, .readCommandLine => some ([.object, .params], .currentPath)
  | .currentPath, .readCurrentPath => some ([.object, .params], .call)
  | .call, .call => some ([.object, .params], .compiling)
  | .compiling, .useParams => some ([.params], .compiling)
  | .compiling, .lastUse => some ([.params], .returning)
  | .compiling, .fallback => some ([.object, .params], .fallback)
  | .fallback, .processCreated => some ([.params], .returning)
  | .returning, .returns result => some ([], .complete result)
  | .complete _, .complete => some ([.object], .setEvent)
  | .setEvent, .setEvent => some ([.object], .ended)
  | _, _ => none

/-- The worker is still to use the parameters. -/
def Worker.NeedsParams : Worker → Prop
  | .commandLine | .currentPath | .call | .compiling | .fallback => True
  | .returning | .complete _ | .setEvent | .ended | .lost => False

instance (w : Worker) : Decidable w.NeedsParams := by
  cases w <;> first | exact isTrue trivial | exact isFalse id

/-! ## The system -/

/-- What `GetExitCodeProcess` stores in `*lpExitCode`, if anything, and what it returns. -/
structure Answer where
  stored : Option DWORD
  result : BOOL
deriving DecidableEq

inductive Entry where
  /-- The hook has answered for the compilation. -/
  | query (answer : Answer)
  /-- `complete` has been called, and whether it returned true. -/
  | complete (exitCode : DWORD) (first : Bool)
  /-- The worker has used a part, and whether it was there. -/
  | use (part : Part) (there : Bool)
deriving DecidableEq

/-- `info` is the entry of `distributedCompilationInfo`, the only owner of the compilation once `shortCircuit` has
returned. `signalled` is the state of the event, and `signalling` counts the `TerminateProcess` that are to set it.
`log` is not in the code. -/
structure System where
  info : Option DistributedCompilation := some {}
  worker : Worker := .commandLine
  signalling : Nat := 0
  signalled : Bool := false
  log : List Entry := []
deriving DecidableEq

namespace System
variable (s : System)

def note (e : Entry) : System := { s with log := s.log ++ [e] }

/-- Whether a part is there. -/
def there : Part → Bool
  | .object => s.info.isSome
  | .params => s.info.any (·.cpParams)

def use (parts : List Part) : System := { s with log := s.log ++ parts.map fun part => .use part (s.there part) }

/-- A piece of the worker's work, up to the first part that is not there. -/
def work (w : Work) : Option System :=
  (s.worker.next w).map fun (parts, worker) =>
    if ∃ part ∈ parts, s.there part = false then { s.use parts with worker := .lost }
    else
      let s := s.use parts
      match s.worker, s.info with
      | .complete result, some dc =>
        { s with
          info := some (dc.complete result).1
          worker := if (dc.complete result).2 then worker else .ended
          log := s.log ++ [.complete result (dc.complete result).2] }
      | .setEvent, _ => { s with worker, signalled := true }
      | _, _ => { s with worker }

/-- What the hook does for a handle it does not know is left to Windows. -/
def getExitCodeProcess : System :=
  match s.info with
  | none => s
  | some dc =>
    if dc.completed = false then s.note (.query ⟨none, STILL_ACTIVE.toNat⟩)
    else s.note (.query ⟨some dc.exitCode, TRUE⟩)

def closeHandle : System := { s with info := none }

def terminateProcess (exitCode : DWORD) : System :=
  match s.info with
  | none => s
  | some dc =>
    { s.note (.complete exitCode (dc.complete exitCode).2) with
      info := some (dc.complete exitCode).1
      signalling := s.signalling + 1 }

end System

inductive Event where
  | work (w : Work)
  | getExitCodeProcess
  | closeHandle
  | terminateProcess (exitCode : DWORD)
  /-- `TerminateProcess` has released the mutex, and sets the event. -/
  | setEvent
deriving DecidableEq

/-- One thread goes on to where it takes or releases the mutex, or uses what others may destroy. -/
def step (s : System) : Event → Option System
  | .work w => s.work w
  | .getExitCodeProcess => some s.getExitCodeProcess
  | .closeHandle => some s.closeHandle
  | .terminateProcess exitCode => some (s.terminateProcess exitCode)
  | .setEvent => if s.signalling = 0 then none else some { s with signalling := s.signalling - 1, signalled := true }

/-! ## What is expected -/

/-- The exit code given to the first `complete` that returned true. -/
def firstCode : List Entry → Option DWORD
  | [] => none
  | .complete exitCode true :: _ => some exitCode
  | _ :: log => firstCode log

/-- A query after completion has the exit code of the first successful `complete`, and every later one has the same;
a query before completion finds the process running; the worker uses what is there. -/
structure Consistent (log : List Entry) : Prop where
  same : ∀ l₁ a l₂ b l₃, log = l₁ ++ .query a :: (l₂ ++ .query b :: l₃) → firstCode l₁ ≠ none → b = a
  first : ∀ l₁ a l₂ exitCode, log = l₁ ++ .query a :: l₂ → firstCode l₁ = some exitCode → a = ⟨some exitCode, TRUE⟩
  active : ∀ l₁ a l₂, log = l₁ ++ .query a :: l₂ → firstCode l₁ = none → a = ⟨some STILL_ACTIVE, TRUE⟩
  exist : ∀ part b, .use part b ∈ log → b = true

/-! ## Logs -/

theorem firstCode_append (l₁ l₂ : List Entry) : firstCode (l₁ ++ l₂) = (firstCode l₁).or (firstCode l₂) := by
  induction l₁ with
  | nil => rfl
  | cons e l₁ ih =>
    cases e with
    | complete exitCode first =>
      cases first with
      | true => rfl
      | false => exact ih
    | query a => exact ih
    | use part b => exact ih

/-- Every entry meets `P`, given those before it. -/
def Each (P : List Entry → Entry → Prop) (log : List Entry) : Prop := ∀ l₁ e l₂, log = l₁ ++ e :: l₂ → P l₁ e

theorem Each.nil (P : List Entry → Entry → Prop) : Each P [] := by
  intro l₁ e l₂ h
  simp at h

theorem Each.append {P : List Entry → Entry → Prop} {log new : List Entry} (h : Each P log)
    (hnew : ∀ l₁ e l₂, new = l₁ ++ e :: l₂ → P (log ++ l₁) e) : Each P (log ++ new) := by
  intro l₁ e l₂ heq
  rcases List.append_eq_append_iff.1 heq with ⟨k, rfl, hk⟩ | ⟨k, rfl, hk⟩
  · exact hnew k e l₂ hk
  · cases k with
    | nil =>
      have hfirst := hnew [] e l₂ (by simpa using hk.symm)
      simpa using hfirst
    | cons x k =>
      obtain ⟨rfl, -⟩ : e = x ∧ _ := by simpa using hk
      exact h l₁ e k rfl

theorem Each.append_one {P : List Entry → Entry → Prop} {log : List Entry} {e : Entry} (h : Each P log) (he : P log e) :
    Each P (log ++ [e]) := by
  refine h.append fun l₁ e' l₂ heq => ?_
  obtain ⟨rfl, rfl, -⟩ : l₁ = [] ∧ e' = e ∧ _ := by
    cases l₁ with
    | nil => simpa using heq.symm
    | cons x l₁ => simp at heq
  rwa [List.append_nil]

/-- The worker's entries are of no concern to the queries. -/
theorem firstCode_uses (s : System) (parts : List Part) :
    firstCode (parts.map fun part => .use part (s.there part)) = none := by
  induction parts with
  | nil => rfl
  | cons part parts ih => exact ih

/-! ## What a step does -/

namespace System
variable {s s' : System}

/-- The next piece of work needs the object, and the parameters as long as the worker does. -/
theorem next_needs {w : Worker} {a : Work} {parts : List Part} {w' : Worker} (h : w.next a = some (parts, w')) :
    (.params ∈ parts → w.NeedsParams) ∧ (w'.NeedsParams → w.NeedsParams) ∧ w ≠ .ended ∧ w' ≠ .lost := by
  cases w <;> cases a <;> cases h <;> simp [Worker.NeedsParams]

/-- A piece of the worker's work. -/
theorem work_cases {a : Work} (h : s.work a = some s') :
    ∃ parts w', s.worker.next a = some (parts, w') ∧
      ((∃ part ∈ parts, s.there part = false) ∧ s' = { s.use parts with worker := .lost } ∨
        (∀ part ∈ parts, s.there part = true) ∧
          ((∃ result dc, s.worker = .complete result ∧ s.info = some dc ∧ s' = { s.use parts with
              info := some (dc.complete result).1
              worker := if (dc.complete result).2 then w' else .ended
              log := (s.use parts).log ++ [.complete result (dc.complete result).2] }) ∨
            ∃ b, s' = { s.use parts with worker := w', signalled := b })) := by
  unfold work at h
  obtain ⟨⟨parts, w'⟩, hnext, heq⟩ := Option.map_eq_some_iff.1 h
  refine ⟨parts, w', hnext, ?_⟩
  dsimp only at heq
  split at heq
  · rename_i hgone
    exact .inl ⟨hgone, heq.symm⟩
  · rename_i hthere
    refine .inr ⟨fun part hp => ?_, ?_⟩
    · by_contra hn
      exact hthere ⟨part, hp, by simpa using hn⟩
    · split at heq
      · rename_i result dc hw hi
        exact .inl ⟨result, dc, hw, hi, heq.symm⟩
      · exact .inr ⟨true, heq.symm⟩
      · exact .inr ⟨(s.use parts).signalled, heq.symm⟩

end System

/-! ## Exit codes -/

/-- What the hooks tell is what `complete` was given. -/
structure Told (s : System) : Prop where
  code : ∀ dc, s.info = some dc → firstCode s.log = if dc.completed then some dc.exitCode else none
  queries : Each (fun l e => ∀ a exitCode, e = .query a → firstCode l = some exitCode → a = ⟨some exitCode, TRUE⟩) s.log

theorem Told.init : Told {} where
  code := by
    rintro dc h
    cases h
    rfl
  queries := Each.nil _

/-- A call of `complete` is noted. -/
theorem Told.complete {s s' : System} {dc : DistributedCompilation} {l : List Entry} (h : Told s)
    (hi : s.info = some dc)
    (hl : firstCode l = none) (hq : ∀ a, .query a ∉ l) (exitCode : DWORD)
    (hi' : s'.info = some (dc.complete exitCode).1)
    (hlog : s'.log = s.log ++ l ++ [.complete exitCode (dc.complete exitCode).2]) : Told s' where
  code := by
    intro dc' hdc
    rw [hi'] at hdc
    cases hdc
    rw [hlog, firstCode_append, firstCode_append, h.code dc hi, hl]
    unfold DistributedCompilation.complete
    split
    · simp
    · simp [firstCode]
  queries := by
    rw [hlog, List.append_assoc]
    refine h.queries.append fun l₁ e l₂ heq a code he => ?_
    subst he
    have hmem : Entry.query a ∈ l ++ [.complete exitCode (dc.complete exitCode).2] := by
      rw [heq]
      simp
    rcases List.mem_append.1 hmem with hm | hm
    · exact absurd hm (hq a)
    · simp at hm

theorem Told.uses {s s' : System} {l : List Entry} (h : Told s) (hl : firstCode l = none) (hq : ∀ a, .query a ∉ l)
    (hi : s'.info = s.info ∨ s'.info = none) (hlog : s'.log = s.log ++ l) : Told s' where
  code := by
    intro dc hdc
    rcases hi with hi | hi
    · rw [hi] at hdc
      rw [hlog, firstCode_append, h.code dc hdc, hl]
      split <;> rfl
    · rw [hi] at hdc
      cases hdc
  queries := by
    rw [hlog]
    refine h.queries.append fun l₁ e l₂ heq a code he => ?_
    subst he
    refine absurd ?_ (hq a)
    rw [heq]
    simp

theorem Told.step {s s' : System} {e : Event} (h : Told s) (hstep : step s e = some s') : Told s' := by
  cases e with
  | work a =>
    obtain ⟨parts, w', -, hcases⟩ := System.work_cases hstep
    have hq : ∀ a, Entry.query a ∉ parts.map fun part => Entry.use part (s.there part) := by simp
    have hl := firstCode_uses s parts
    rcases hcases with ⟨-, rfl⟩ | ⟨-, ⟨result, dc, -, hi, rfl⟩ | ⟨b, rfl⟩⟩
    · exact h.uses hl hq (.inl rfl) rfl
    · exact h.complete hi hl hq result rfl rfl
    · exact h.uses hl hq (.inl rfl) rfl
  | getExitCodeProcess =>
    cases hstep
    unfold System.getExitCodeProcess
    cases hi : s.info with
    | none => exact h
    | some dc =>
      have hcode := h.code dc hi
      -- A query ends no compilation, so that the first code stays the same.
      have hsame : ∀ a, firstCode (s.note (.query a)).log = firstCode s.log := fun a => by
        rw [System.note, firstCode_append]
        cases firstCode s.log <;> rfl
      dsimp only
      split
      · rename_i hc
        rw [hc] at hcode
        refine ⟨fun dc' hdc => ?_, h.queries.append_one fun a code he hf => ?_⟩
        · rw [hsame]
          exact h.code dc' hdc
        · rw [hcode] at hf
          cases hf
      · rename_i hc
        rw [show dc.completed = true by simpa using hc] at hcode
        refine ⟨fun dc' hdc => ?_, h.queries.append_one fun a code he hf => ?_⟩
        · rw [hsame]
          exact h.code dc' hdc
        · rw [hcode] at hf
          cases hf
          cases he
          rfl
  | closeHandle =>
    cases hstep
    exact h.uses (l := []) rfl (by simp) (.inr rfl) (by simp [System.closeHandle])
  | terminateProcess exitCode =>
    cases hstep
    unfold System.terminateProcess
    cases hi : s.info with
    | none => exact h
    | some dc => exact h.complete (l := []) hi rfl (by simp) exitCode rfl (by simp [System.note])
  | setEvent =>
    simp only [ShortCircuit.step] at hstep
    split at hstep
    · cases hstep
    · cases hstep
      exact ⟨h.code, h.queries⟩

/-- In every interleaving, a query after completion is answered with the exit code of the first successful `complete`. -/
theorem exit_code_told {es : List Event} {s : System} (hr : run step {} es = some s) : Told s :=
  run_inv step (fun _ _ _ h hstep => h.step hstep) Told.init hr

/-! ## Runs -/

/-- No query comes before completion; the process is not terminated while the worker needs the parameters, nor its
handle closed before the worker has ended. -/
def Spares (s : System) : Event → Prop
  | .getExitCodeProcess => ∀ dc, s.info = some dc → dc.completed
  | .terminateProcess _ => ∀ dc, s.info = some dc → dc.completed = false → ¬ s.worker.NeedsParams
  | .closeHandle => s.info.isSome → s.worker = .ended
  | .work _ | .setEvent => True

/-- The worker has what it needs, and had it so far. -/
structure Intact (s : System) : Prop where
  params : ∀ dc, s.info = some dc → dc.cpParams = !dc.completed
  needs : s.worker.NeedsParams → s.there .params = true
  alive : s.worker ≠ .ended → s.there .object = true
  notLost : s.worker ≠ .lost
  active : Each (fun l e => ∀ a, e = .query a → firstCode l ≠ none) s.log
  exist : ∀ part b, .use part b ∈ s.log → b = true

theorem Intact.init : Intact {} where
  params := by
    rintro dc h
    cases h
    rfl
  needs _ := rfl
  alive _ := rfl
  notLost h := by cases h
  active := Each.nil _
  exist _ _ h := by cases h

/-- What the worker uses is noted as there. -/
theorem Intact.uses {s : System} (h : Intact s) {parts : List Part} (hthere : ∀ part ∈ parts, s.there part = true)
    {l : List Entry} (hl : ∀ e ∈ l, ∃ code b, e = .complete code b) :
    Each (fun l e => ∀ a, e = .query a → firstCode l ≠ none) ((s.use parts).log ++ l) ∧
      ∀ part b, .use part b ∈ (s.use parts).log ++ l → b = true := by
  have hmem : ∀ e ∈ (parts.map fun part => Entry.use part (s.there part)) ++ l,
      (∃ part, e = .use part true) ∨ ∃ code b, e = .complete code b := by
    intro e he
    rcases List.mem_append.1 he with he | he
    · obtain ⟨part, hpart, rfl⟩ := List.mem_map.1 he
      exact .inl ⟨part, by rw [hthere part hpart]⟩
    · exact .inr (hl e he)
  have hlog : (s.use parts).log ++ l = s.log ++ ((parts.map fun part => Entry.use part (s.there part)) ++ l) :=
    List.append_assoc ..
  rw [hlog]
  refine ⟨h.active.append fun l₁ e l₂ heq a he => ?_, fun part b hp => ?_⟩
  · subst he
    rcases hmem (.query a) (by rw [heq]; simp) with ⟨_, he⟩ | ⟨_, _, he⟩ <;> cases he
  · rcases List.mem_append.1 hp with hp | hp
    · exact h.exist part b hp
    · rcases hmem _ hp with ⟨_, he⟩ | ⟨_, _, he⟩
      · cases he
        rfl
      · cases he

/-- `complete` takes the parameters away. -/
theorem DistributedCompilation.complete_params {dc : DistributedCompilation} (h : dc.cpParams = !dc.completed)
    (exitCode : DWORD) : (dc.complete exitCode).1.cpParams = !(dc.complete exitCode).1.completed := by
  unfold DistributedCompilation.complete
  split
  · exact h
  · rfl

theorem Intact.exist_note {s : System} (h : Intact s) {e : Entry} (he : ∀ part b, e ≠ .use part b) {part : Part}
    {b : Bool} (hp : .use part b ∈ (s.note e).log) : b = true := by
  simp only [System.note, List.mem_append, List.mem_singleton] at hp
  rcases hp with hp | hp
  · exact h.exist part b hp
  · exact absurd hp.symm (he part b)

theorem Intact.work {s s' : System} {a : Work} (h : Intact s) (hstep : s.work a = some s') : Intact s' := by
  obtain ⟨parts, w', hnext, hcases⟩ := System.work_cases hstep
  obtain ⟨hparams, hneeds, hended, hlost⟩ := System.next_needs hnext
  rcases hcases with ⟨⟨part, hpart, hgone⟩, -⟩ | ⟨hthere, ⟨result, dc, hw, hi, rfl⟩ | ⟨b, rfl⟩⟩
  · -- what the worker needs is there
    cases part with
    | object =>
      rw [h.alive hended] at hgone
      cases hgone
    | params =>
      rw [h.needs (hparams hpart)] at hgone
      cases hgone
  · obtain ⟨hactive, hexist⟩ := h.uses hthere (l := [.complete result (dc.complete result).2])
      fun e hmem => ⟨result, _, List.mem_singleton.1 hmem⟩
    refine ⟨fun dc' hdc => ?_, fun hn => ?_, fun _ => rfl, ?_, hactive, hexist⟩
    · cases hdc
      exact DistributedCompilation.complete_params (h.params dc hi) result
    · rw [hw] at hnext hneeds
      dsimp only at hn
      split at hn
      · exact absurd (hneeds hn) id
      · exact absurd hn id
    · dsimp only
      split
      · exact hlost
      · simp
  · obtain ⟨hactive, hexist⟩ := h.uses hthere (l := []) (by simp)
    rw [List.append_nil] at hactive hexist
    exact ⟨h.params, fun hn => h.needs (hneeds hn), fun _ => h.alive hended, hlost, hactive, hexist⟩

/-- A query after completion is told the exit code. -/
theorem Intact.getExitCodeProcess {s : System} (h : Intact s) (ht : Told s)
    (hcompleted : ∀ dc, s.info = some dc → dc.completed) : Intact s.getExitCodeProcess := by
  unfold System.getExitCodeProcess
  cases hi : s.info with
  | none => exact h
  | some dc =>
    have hc := hcompleted dc hi
    have hcode := ht.code dc hi
    rw [if_pos hc] at hcode
    dsimp only
    rw [if_neg (by simp [hc])]
    refine ⟨h.params, h.needs, h.alive, h.notLost, h.active.append_one fun _ _ => ?_, fun _ _ => h.exist_note (by simp)⟩
    rw [hcode]
    simp

theorem Intact.closeHandle {s : System} (h : Intact s) (hended : s.info.isSome → s.worker = .ended) :
    Intact s.closeHandle := by
  cases hi : s.info with
  | none =>
    have hsame : s.closeHandle = s := by
      unfold System.closeHandle
      rw [← hi]
    rw [hsame]
    exact h
  | some dc =>
    have hended := hended (by rw [hi]; rfl)
    refine ⟨fun _ hd => (by cases hd), fun hn => ?_, fun hn => absurd hended hn, h.notLost, h.active, h.exist⟩
    rw [show s.closeHandle.worker = s.worker from rfl, hended] at hn
    exact absurd hn id

theorem Intact.terminateProcess {s : System} (h : Intact s) (exitCode : DWORD)
    (hspares : ∀ dc, s.info = some dc → dc.completed = false → ¬ s.worker.NeedsParams) :
    Intact (s.terminateProcess exitCode) := by
  unfold System.terminateProcess
  cases hi : s.info with
  | none => exact h
  | some dc =>
    refine ⟨fun dc' hdc => ?_, fun hn => ?_, fun _ => rfl, h.notLost, ?_, fun _ _ => h.exist_note (by simp)⟩
    · cases hdc
      exact DistributedCompilation.complete_params (h.params dc hi) exitCode
    · have hn' : s.worker.NeedsParams := hn
      have hc : dc.completed = true := by
        by_contra hc
        exact hspares dc hi (by simpa using hc) hn'
      have hthere := h.needs hn'
      simp only [System.there, hi, Option.any_some] at hthere
      rw [h.params dc hi, hc] at hthere
      cases hthere
    · exact h.active.append_one fun a he => by cases he

theorem Intact.step {s s' : System} {e : Event} (h : Intact s) (ht : Told s) (he : Spares s e)
    (hstep : step s e = some s') : Intact s' := by
  cases e with
  | work a => exact h.work hstep
  | getExitCodeProcess =>
    cases hstep
    exact h.getExitCodeProcess ht he
  | closeHandle =>
    cases hstep
    exact h.closeHandle he
  | terminateProcess exitCode =>
    cases hstep
    exact h.terminateProcess exitCode he
  | setEvent =>
    simp only [ShortCircuit.step] at hstep
    split at hstep
    · cases hstep
    · cases hstep
      exact ⟨h.params, h.needs, h.alive, h.notLost, h.active, h.exist⟩

/-- **Exit codes are consistent.** In every interleaving of the worker with the hooks whose calls all spare the
worker, and ask for the exit code after completion only, every answer is the code of the first successful `complete`,
and the worker uses nothing that is not there any more. -/
theorem exit_codes_consistent {es : List Event} {s : System} (hm : Meets step Spares {} es)
    (hr : run step {} es = some s) : Consistent s.log := by
  obtain ⟨ht, hi⟩ := run_inv_of_meets step (I := fun s => Told s ∧ Intact s)
    (fun s e s' h he hstep => ⟨h.1.step hstep, h.2.step h.1 he hstep⟩) es {} s ⟨Told.init, Intact.init⟩ hm hr
  refine ⟨fun l₁ a l₂ b l₃ heq hne => ?_, fun l₁ a l₂ code heq hcode => ht.queries l₁ _ l₂ heq a code rfl hcode,
    fun l₁ a l₂ heq hnone => absurd hnone (hi.active l₁ _ l₂ heq a rfl), hi.exist⟩
  obtain ⟨code, hcode⟩ := Option.ne_none_iff_exists'.1 hne
  have hcode' : firstCode (l₁ ++ .query a :: l₂) = some code := by
    rw [firstCode_append, hcode]
    rfl
  rw [ht.queries l₁ _ _ heq a code rfl hcode]
  exact ht.queries (l₁ ++ .query a :: l₂) _ l₃ (by rw [heq, List.append_assoc]; rfl) b code rfl hcode'

/-- The compiler runs elsewhere; the caller terminates the process when its output is written, asks for the exit
code twice, and closes the handle. -/
def sparingEvents : List Event :=
  [.work .readCommandLine, .work .readCurrentPath, .work .call, .work .useParams, .work .lastUse,
    .terminateProcess 2, .setEvent, .getExitCodeProcess, .work (.returns 0), .work .complete, .getExitCodeProcess,
    .closeHandle]

theorem exit_codes_consistent_terminated :
    ∃ s, run step {} sparingEvents = some s ∧ .query ⟨some 2, TRUE⟩ ∈ s.log ∧ .complete 0 false ∈ s.log ∧
      Consistent s.log := by
  have hm : Meets step Spares {} sparingEvents := by
    refine ⟨trivial, fun s₁ h₁ => ?_⟩
    cases h₁
    refine ⟨trivial, fun s₂ h₂ => ?_⟩
    cases h₂
    refine ⟨trivial, fun s₃ h₃ => ?_⟩
    cases h₃
    refine ⟨trivial, fun s₄ h₄ => ?_⟩
    cases h₄
    refine ⟨trivial, fun s₅ h₅ => ?_⟩
    cases h₅
    refine ⟨fun _ _ _ => by decide, fun s₆ h₆ => ?_⟩
    cases h₆
    refine ⟨trivial, fun s₇ h₇ => ?_⟩
    cases h₇
    refine ⟨fun dc hdc => (by cases hdc; rfl), fun s₈ h₈ => ?_⟩
    cases h₈
    refine ⟨trivial, fun s₉ h₉ => ?_⟩
    cases h₉
    refine ⟨trivial, fun s₁₀ h₁₀ => ?_⟩
    cases h₁₀
    refine ⟨fun dc hdc => (by cases hdc; rfl), fun s₁₁ h₁₁ => ?_⟩
    cases h₁₁
    exact ⟨fun _ => rfl, fun _ _ => trivial⟩
  obtain ⟨s, hs⟩ : ∃ s, run step {} sparingEvents = some s := ⟨_, rfl⟩
  have hconsistent := exit_codes_consistent hm hs
  cases hs
  exact ⟨_, rfl, by decide, by decide, hconsistent⟩

/-- A query while the compiler runs returns `STILL_ACTIVE` and stores nothing; a process that is terminated early takes
the worker's parameters away, and a handle that is closed early the compilation. -/
theorem exit_codes_inconsistent :
    (∃ s, run step {} [.getExitCodeProcess] = some s ∧ s.log = [.query ⟨none, 259⟩] ∧ ¬ Consistent s.log) ∧
    (∃ s, run step {} [.terminateProcess 1, .work .readCommandLine] = some s ∧ .use .params false ∈ s.log ∧
      ¬ Consistent s.log) ∧
    ∃ s, run step {} [.closeHandle, .work .readCommandLine] = some s ∧ .use .object false ∈ s.log ∧
      ¬ Consistent s.log := by
  refine ⟨⟨_, rfl, rfl, fun h => ?_⟩, ⟨_, rfl, by decide, fun h => ?_⟩, ⟨_, rfl, by decide, fun h => ?_⟩⟩
  · exact absurd (h.active [] _ [] rfl rfl) (by decide)
  · exact absurd (h.exist .params false (by decide)) (by decide)
  · exact absurd (h.exist .object false (by decide)) (by decide)

end BuildPal.Client.ShortCircuit
