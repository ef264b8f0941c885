import BuildPal.Server.Downloads
import BuildPal.Server.Waiters
/-!
# What is ready is stored

The server takes a compiler for ready once it has unpacked it, or once its
directory exists; and a PCH file once `pch_completed` has been called. We keep
a record of what was received and of what was stored, over restarts of the
server too, and say when both agree for whatever is ready.
-/
open BuildPal.Lib BuildPal.Message
open BuildPal.CompileSession (State Outcome)

namespace BuildPal.Runner

/-! ## What is stored -/

/-- What was received, and what of it was stored. -/
structure Transfer (α : Type) where
  received : List α
  stored : List α
  deriving DecidableEq, Repr

namespace Transfer
variable {α : Type}

/-- Storing what was received may fail after some part of it. -/
def store (received : List α) (ok : Bool) (n : Nat) : Transfer α :=
  ⟨received, if ok then received else received.take n⟩

def Complete (t : Transfer α) : Prop := t.stored = t.received

instance [DecidableEq α] (t : Transfer α) : Decidable t.Complete := inferInstanceAs (Decidable (_ = _))

theorem store_complete (received : List α) (n : Nat) : (store received true n).Complete := rfl

end Transfer

/-- A file of a compiler's archive. -/
structure Member where
  name : String
  content : Bytes
  deriving DecidableEq, Repr

/-- The server, and what it has stored. -/
structure Storage where
  server : Server := {}
  /-- The archive that was unpacked into a compiler's directory, and the files that are there. -/
  unpacked : CompilerId → Option (Transfer Member) := fun _ => none
  /-- The bytes for a key's file, and those that were written. -/
  written : PchFile → Option (Transfer UInt8) := fun _ => none
  /-- The sessions that could not provide a file. -/
  failed : List SessionId := []

instance (s : Server) (sid : SessionId) : Decidable (s.Owes sid) :=
  decidable_of_iff ((s.sessions sid).compilerRequired ∧ (s.sessions sid).task.compilerId ∈ s.partialCompilers ∨
    (s.sessions sid).pchRequired ∧ ∃ pch ∈ (s.sessions sid).task.pchFile, s.partialFiles pch ≠ none) Iff.rfl

instance (s : Server) (sid : SessionId) : Decidable (s.Announces sid) := inferInstanceAs (Decidable (_ ∧ _))

namespace Server
variable (s : Server)

/-- The session is sent a part of a file and cannot use it: it does not unpack or decompress, or an exception has
left the session waiting for a compiler it has provided. -/
def ChunkLost (sid : SessionId) (last ok : Bool) : Prop :=
  sid < s.counter ∧ (s.sessions sid).completed = false ∧ ¬ s.Stale sid ∧
    ((s.sessions sid).state = .downloadingCompiler ∧
        (if (s.sessions sid).compilerData then last ∧ ok = false else s.Owes sid) ∨
      (s.sessions sid).state = .downloadingPCH ∧ sid ∉ s.writes ∧ ok = false)

instance (sid : SessionId) (last ok : Bool) : Decidable (s.ChunkLost sid last ok) :=
  inferInstanceAs (Decidable (_ ∧ _))

/-- The session that, with this call, has failed to provide a file. -/
def failing : Event → Option SessionId
  | .message sid (.chunk _ last ok) => if s.ChunkLost sid last ok then some sid else none
  | .pchWritten sid ok => if ok then none else some sid
  | .selfdestruct sid => if (s.sessions sid).completed = false ∧ s.Owes sid then some sid else none
  | _ => none

end Server

namespace Storage
variable (t : Storage)

/-- The directories of the compilers after a call, if what was sent is `archive`. -/
def unpackedAfter (archive : List Member) (n : Nat) : Event → CompilerId → Option (Transfer Member)
  | .message sid (.chunk _ true ok) =>
    if t.server.Announces sid then
      Function.update t.unpacked (t.server.sessions sid).task.compilerId (some (.store archive ok n))
    else t.unpacked
  | _ => t.unpacked

def writtenAfter (n : Nat) : Event → PchFile → Option (Transfer UInt8)
  | .pchWritten sid ok =>
    match (t.server.sessions sid).task.pchFile with
    | some pch => Function.update t.written pch (some (.store (t.server.sessions sid).pchDesc ok n))
    | none => t.written
  | _ => t.written

end Storage

inductive Call where
  /-- `archive` is what a compiler is sent as. A call that fails to store what was received has stored `n` files or
  bytes of it. -/
  | event (e : Event) (archive : List Member) (n : Nat)
  /-- `RESET`, or a new process: everything is made anew, except for the compilers' directory. The sessions of
  before are gone; where a `RESET` leaves one in `sessions`, its timer's event is not the new scheduler's. -/
  | restart

def Storage.step (names : Names) (limit : Nat) (t : Storage) : Call → Option Storage
  | .event e archive n => (Runner.step names limit t.server e).map fun s =>
    { server := s
      unpacked := t.unpackedAfter archive n e
      written := t.writtenAfter n e
      failed := (t.server.failing e).toList ++ t.failed }
  | .restart => some { server := { compilerDirs := t.server.compilerDirs }, unpacked := t.unpacked }

/-- What is ready is completely stored, and what is not ready yet is still to come: from a live session that was told
to provide it, and has not failed to. -/
structure Storage.Sound (t : Storage) : Prop where
  compilers : ∀ id ∈ t.server.compilers, ∃ x, t.unpacked id = some x ∧ x.Complete
  files : ∀ pch, t.server.files pch ≠ none → ∃ x, t.written pch = some x ∧ x.Complete
  partialCompilers : ∀ id ∈ t.server.partialCompilers, ∃ sid, t.server.ToldCompiler sid id ∧ sid ∉ t.failed
  partialFiles : ∀ pch, t.server.partialFiles pch ≠ none → ∃ sid, t.server.ToldPch sid pch ∧ sid ∉ t.failed

/-! ## What a call adds to what is ready -/

namespace Server
variable {s s' : Server} {sid : SessionId}

/-- A session is sent the last part of this compiler. -/
def Unpacks (s : Server) (e : Event) (id : CompilerId) : Prop :=
  ∃ sid data ok, e = .message sid (.chunk data true ok) ∧ s.Announces sid ∧ (s.sessions sid).task.compilerId = id

/-- A session's file for this key has been written, or could not be, and `pch_completed` is called. -/
def Completes (s : Server) (e : Event) (pch : PchFile) : Prop :=
  ∃ sid, e = .pchCompleted sid ∧ sid ∈ s.completions ∧ (s.sessions sid).task.pchFile = some pch

/-- What was ready stays so, directories may become ready, and what was `unpacked` or `completed` in between. -/
structure Adds (s s' : Server) (unpacked : CompilerId → Prop) (completed : PchFile → Prop) : Prop where
  compilers : ∀ id ∈ s'.compilers, id ∈ s.compilers ∨ id ∈ s.compilerDirs ∨ unpacked id
  compilerDirs : ∀ id ∈ s'.compilerDirs, id ∈ s.compilerDirs ∨ unpacked id
  files : ∀ pch, s'.files pch ≠ none → s.files pch ≠ none ∨ completed pch

namespace Adds
variable {t : Server} {unpacked : CompilerId → Prop} {completed : PchFile → Prop}

theorem of_same (hc : s'.compilers = s.compilers) (hd : s'.compilerDirs = s.compilerDirs) (hf : s'.files = s.files) :
    Adds s s' unpacked completed where
  compilers _ h := .inl (hc ▸ h)
  compilerDirs _ h := .inl (hd ▸ h)
  files _ h := .inl (hf ▸ h)

theorem refl (s : Server) : Adds s s unpacked completed := of_same rfl rfl rfl

/-- What only steps of the repositories change is all that counts. -/
theorem common (h : Adds s t unpacked completed) (hc : s'.common = t.common) : Adds s s' unpacked completed where
  compilers id hid := by
    change id ∈ s'.common.compilers at hid
    rw [hc] at hid
    exact h.compilers id hid
  compilerDirs id hid := by
    change id ∈ s'.common.compilerDirs at hid
    rw [hc] at hid
    exact h.compilerDirs id hid
  files pch hf := by
    change s'.common.files pch ≠ none at hf
    rw [hc] at hf
    exact h.files pch hf

theorem own (h : Own sid s s') : Adds s s' unpacked completed := (refl s).common (own_common h)

/-- Calls that concern the session alone come first. -/
theorem after (h : Adds t s' unpacked completed) (hc : t.common = s.common) : Adds s s' unpacked completed where
  compilers id hid := by
    have := h.compilers id hid
    change id ∈ t.common.compilers ∨ id ∈ t.common.compilerDirs ∨ _ at this
    rwa [hc] at this
  compilerDirs id hid := by
    have := h.compilerDirs id hid
    change id ∈ t.common.compilerDirs ∨ _ at this
    rwa [hc] at this
  files pch hf := by
    have := h.files pch hf
    change t.common.files pch ≠ none ∨ _ at this
    rwa [hc] at this

end Adds

theorem andThen_common {c : Called} {next : Server → Called} (hc : c.1.common = s.common)
    (hnext : (next c.1).1.common = c.1.common) : (c.andThen next).1.common = s.common := by
  unfold Called.andThen
  split
  · exact hc
  · exact hnext.trans hc

theorem whenPchIsAvailable_common (s : Server) (sid : SessionId) :
    (s.whenPchIsAvailable sid).1.common = s.common := by
  unfold whenPchIsAvailable
  split
  · exact checkCompilerFiles_handles.common s sid
  · split
    · exact checkCompilerFiles_handles.common s sid
    · rfl

theorem compile_common (s : Server) (sid : SessionId) : (s.compile sid).1.common = s.common :=
  whenPchIsAvailable_common (s.enterRunningCompiler sid) sid

theorem afterCompiler_common (s : Server) (sid : SessionId) : (s.afterCompiler sid).1.common = s.common := by
  unfold afterCompiler
  split
  · rfl
  · exact compile_common s sid

theorem invokeAll_common {handler : Server → SessionId → Called} {R : Server → SessionId → Prop}
    (hh : Handles handler R) (ws : List SessionId) : ∀ s, (invokeAll handler ws s).1.common = s.common := by
  induction ws with
  | nil =>
    intro s
    rfl
  | cons w ws ih =>
    intro s
    have hfirst : (handler (s.note (.invoked w)) w).1.common = s.common := hh.common (s.note (.invoked w)) w
    exact andThen_common hfirst (ih _)

/-- Only the compiler itself becomes ready. -/
theorem setCompilerReady_common (s : Server) (id : CompilerId) : ∃ ps cs,
    (s.setCompilerReady id).1.common = Server.common { s with partialCompilers := ps, compilers := cs } ∧
      ∀ id' ∈ cs, id' = id ∨ id' ∈ s.compilers := by
  unfold setCompilerReady
  split
  · refine ⟨_, id :: s.compilers, andThen_common (invokeAll_common runCompiler_handles _ _) rfl, fun id' hid => ?_⟩
    exact List.mem_cons.1 hid
  · exact ⟨s.partialCompilers, s.compilers, rfl, fun id' hid => .inr hid⟩

/-- Only the key itself becomes ready. -/
theorem fileCompleted_common (s : Server) (pch : PchFile) : ∃ fs ps,
    (s.fileCompleted pch).1.common = Server.common { s with files := fs, partialFiles := ps } ∧
      ∀ k, fs k ≠ none → k = pch ∨ s.files k ≠ none := by
  unfold fileCompleted
  split
  · exact ⟨s.files, s.partialFiles, rfl, fun k hk => .inr hk⟩
  · rename_i file hpart
    refine ⟨Function.update s.files pch (some file), _,
      andThen_common (invokeAll_common checkCompilerFiles_handles _ _) rfl, fun k hk => ?_⟩
    by_cases heq : k = pch
    · exact .inl heq
    · rw [Function.update_of_ne heq] at hk
      exact .inr hk

theorem pchOpened_adds (names : Names) (s : Server) (sid : SessionId) {unpacked : CompilerId → Prop}
    {completed : PchFile → Prop} : Adds s (s.pchOpened sid names) unpacked completed := by
  unfold pchOpened
  split
  · exact Adds.refl s
  · exact Adds.of_same rfl rfl rfl

theorem pchCompleted_adds (s : Server) (sid : SessionId) (hw : sid ∈ s.completions) :
    Adds s (s.pchCompleted sid).1 (s.Unpacks (.pchCompleted sid)) (s.Completes (.pchCompleted sid)) := by
  unfold pchCompleted
  split
  · exact Adds.refl s
  · rename_i pch hk
    obtain ⟨fs, ps, hcommon, hfs⟩ := fileCompleted_common (s.dropCompletion sid) pch
    have hfiles : Adds s { s.dropCompletion sid with files := fs, partialFiles := ps }
        (s.Unpacks (.pchCompleted sid)) (s.Completes (.pchCompleted sid)) := by
      refine ⟨fun _ h => .inl h, fun _ h => .inl h, fun k hne => ?_⟩
      rcases hfs k hne with rfl | hne
      · exact .inr ⟨sid, rfl, hw, hk⟩
      · exact .inl hne
    refine hfiles.common (andThen_common hcommon ?_)
    split
    · rfl
    · exact compile_common _ sid

/-- The last part of a compiler is unpacked into its directory. -/
theorem lastChunk_adds {unpacked : CompilerId → Prop} {completed : PchFile → Prop} (s : Server) (sid : SessionId)
    (data : Bytes) (last ok : Bool) (hd : (s.sessions sid).state = .downloadingCompiler)
    (hu : last = true → (s.sessions sid).compilerData = true → unpacked (s.sessions sid).task.compilerId) :
    Adds s (s.stateProcessMsg sid (.chunk data last ok)).1 unpacked completed := by
  simp only [stateProcessMsg, hd]
  split
  · exact Adds.refl s
  · rename_i hdata
    split
    · exact Adds.refl s
    · rename_i hlast
      have hid := hu (by simpa using hlast) (by simpa using hdata)
      -- the directory is there even if unpacking into it fails
      have hdir : Adds s { s with compilerDirs := (s.sessions sid).task.compilerId :: s.compilerDirs }
          unpacked completed := by
        refine { Adds.refl s with compilerDirs := fun id hmem => ?_ }
        rcases List.mem_cons.1 hmem with rfl | hmem
        · exact .inr hid
        · exact .inl hmem
      split
      · exact hdir
      · obtain ⟨ps, cs, hcommon, hcs⟩ := setCompilerReady_common (Server.modify { s with
          compilerDirs := (s.sessions sid).task.compilerId :: s.compilerDirs } sid
            fun x => { x with compilerData := false }) (s.sessions sid).task.compilerId
        refine Adds.common ?_ (andThen_common hcommon (afterCompiler_common _ sid))
        refine { hdir with compilers := fun id hmem => ?_ }
        rcases hcs id hmem with rfl | hmem
        · exact .inr (.inr hid)
        · exact .inl hmem

theorem stateProcessMsg_adds {unpacked : CompilerId → Prop} {completed : PchFile → Prop} (s : Server) (sid : SessionId)
    (msg : Msg) (hu : ∀ data ok, msg = .chunk data true ok → (s.sessions sid).state = .downloadingCompiler →
      (s.sessions sid).compilerData = true → unpacked (s.sessions sid).task.compilerId) :
    Adds s (s.stateProcessMsg sid msg).1 unpacked completed := by
  by_cases hd : (s.sessions sid).state = .downloadingCompiler
  · cases msg with
    | chunk data last ok =>
      refine lastChunk_adds s sid data last ok hd fun hlast hdata => ?_
      subst hlast
      exact hu data ok rfl hd hdata
    | _ => simpa [stateProcessMsg, hd] using Adds.refl s
  · unfold stateProcessMsg
    dsimp only
    split
    · split
      · exact Adds.of_same rfl rfl rfl
      · exact (Adds.refl s).common (afterCompiler_common _ sid)
    · exact absurd (by assumption) hd
    · split
      · exact Adds.refl s
      · split <;> exact Adds.of_same rfl rfl rfl
    · exact Adds.of_same rfl rfl rfl
    · exact Adds.own sessionDone_own
    · exact Adds.refl s
    · exact Adds.refl s

theorem processMsg_adds (s : Server) (sid : SessionId) (msg : Msg) (hsid : sid < s.counter)
    (hlive : (s.sessions sid).completed = false) :
    Adds s (s.processMsg sid msg).1 (s.Unpacks (.message sid msg)) (s.Completes (.message sid msg)) := by
  have hown : Own sid s (s.rescheduleSelfdestruct sid).1 := rescheduleSelfdestruct_own
  have hstill : Still sid s (s.rescheduleSelfdestruct sid).1 := rescheduleSelfdestruct_still
  obtain ⟨c, d, i, hx⟩ := hstill.session
  unfold processMsg Called.andThen
  split
  · exact Adds.own hown
  · rename_i hok
    -- a message that comes too late for the timer ends the session before it is looked at
    have hstale : ¬ s.Stale sid := by
      rw [← cancelSelfdestruct_raises]
      intro hraised
      exact hok (by simp [rescheduleSelfdestruct, Called.andThen, hraised])
    refine Adds.after ?_ (own_common hown)
    dsimp only
    split
    · split
      · exact Adds.own cancelSession_own
      · exact Adds.of_same rfl rfl rfl
    · split
      · exact Adds.own cancelSession_own
      · refine stateProcessMsg_adds _ sid msg ?_
        rw [hx]
        rintro data ok rfl hd hdata
        exact ⟨sid, data, ok, rfl, ⟨hsid, hlive, hd, hdata, hstale⟩, rfl⟩

/-- Directories count as ready compilers. -/
theorem newSession_adds (names : Names) (s : Server) (task : Task) {unpacked : CompilerId → Prop}
    {completed : PchFile → Prop} : Adds s (s.newSession names task) unpacked completed := by
  let s₁ : Server := { s with counter := s.counter + 1, queue := s.counter :: s.queue }
  have hrequired : Adds s (s₁.compilerRequired task.compilerId).2 unpacked completed := by
    unfold compilerRequired
    split
    · exact Adds.of_same rfl rfl rfl
    · split
      · rename_i hdir
        refine ⟨fun id hmem => ?_, fun _ h => .inl h, fun _ h => .inl h⟩
        rcases List.mem_cons.1 hmem with rfl | hmem
        · exact .inr (.inl hdir)
        · exact .inl hmem
      · split <;> exact Adds.of_same rfl rfl rfl
  have hregister := registerPch_cases (s₁.compilerRequired task.compilerId).2 names task
  unfold newSession
  dsimp only
  rcases hregister with ⟨file, hp, -⟩ | ⟨pch, -, -, -, hp⟩
  · rw [hp]
    exact { hrequired with }
  · rw [hp]
    exact { hrequired with }

end Server

/-- A step makes ready what was ready or unpacked before, and the file that is completed in it. -/
theorem step_adds {names : Names} {limit : Nat} {s s' : Server} {e : Event} (h : step names limit s e = some s') :
    Server.Adds s s' (s.Unpacks e) (s.Completes e) := by
  cases e with
  | newSession task =>
    cases h
    exact Server.newSession_adds names s task
  | message sid msg =>
    rcases steps_of_step h with ⟨hsid, hlive, rfl⟩ | rfl
    · exact Server.processMsg_adds s sid msg hsid hlive
    · exact Server.Adds.refl s'
  | prepareDir sid ok =>
    obtain ⟨-, rfl⟩ := steps_of_step h
    exact Server.Adds.own (Server.prepareDir_own ok)
  | pchOpened sid =>
    obtain ⟨-, -, rfl⟩ := steps_of_step h
    exact Server.pchOpened_adds names s sid
  | pchWritten sid ok =>
    obtain ⟨-, -, rfl⟩ := steps_of_step h
    exact Server.Adds.of_same rfl rfl rfl
  | pchCompleted sid =>
    obtain ⟨hw, rfl⟩ := steps_of_step h
    exact Server.pchCompleted_adds s sid hw
  | selfdestruct sid =>
    obtain ⟨-, rfl⟩ := steps_of_step h
    exact Server.Adds.own Server.selfdestruct_own
  | execStart sid ok traceback =>
    obtain ⟨-, rfl⟩ := steps_of_step h
    unfold Server.execStart
    dsimp only
    split
    · exact Server.Adds.of_same rfl rfl rfl
    · refine Server.Adds.common ?_ (Server.own_common (Server.compileCompleted_own _))
      exact Server.Adds.of_same rfl rfl rfl
  | compileCompleted sid outcome =>
    obtain ⟨-, rfl⟩ := steps_of_step h
    refine Server.Adds.common ?_ (Server.own_common (Server.compileCompleted_own outcome))
    exact Server.Adds.of_same rfl rfl rfl
  | sendCompressed sid parts =>
    obtain ⟨-, rfl⟩ := steps_of_step h
    cases parts with
    | none => exact Server.Adds.of_same rfl rfl rfl
    | some parts =>
      refine Server.Adds.common ?_ (Server.own_common Server.sessionDone_own)
      exact Server.Adds.of_same rfl rfl rfl

/-! ## Runs -/

/-- No session fails to provide a file. -/
def Storage.NoFailure (t : Storage) : Call → Prop
  | .event e _ _ => t.server.failing e = none
  | .restart => True

instance (t : Storage) : DecidablePred t.NoFailure
  | .event e _ _ => inferInstanceAs (Decidable (t.server.failing e = none))
  | .restart => inferInstanceAs (Decidable True)

namespace Server
variable {s : Server} {e : Event}

theorem owesNothing_of_failing (h : s.failing e = none) : OwesNothing s e := by
  cases e with
  | selfdestruct sid =>
    intro hlive howes
    simp [failing, hlive, howes] at h
  | _ => trivial

/-- What the session unpacks does unpack. -/
theorem unpacks_of_failing {sid : SessionId} {data : Bytes} {ok : Bool}
    (h : s.failing (.message sid (.chunk data true ok)) = none) (ha : s.Announces sid) : ok = true := by
  by_contra hok
  obtain ⟨hsid, hlive, hd, hdata, hstale⟩ := ha
  simp [failing, ChunkLost, hsid, hlive, hd, hdata, hstale, hok] at h

theorem written_of_failing {sid : SessionId} {ok : Bool} (h : s.failing (.pchWritten sid ok) = none) : ok = true := by
  simpa [failing] using h

end Server

namespace Storage

/-- The directories count, as any of them may become ready. -/
structure Inv (t : Storage) : Prop where
  stages : Stages t.server
  owned : Owned t.server
  failed : t.failed = []
  compilers : ∀ id, id ∈ t.server.compilers ∨ id ∈ t.server.compilerDirs →
    ∃ x, t.unpacked id = some x ∧ x.Complete
  completions : ∀ sid ∈ t.server.completions, ∀ pch, (t.server.sessions sid).task.pchFile = some pch →
    ∃ x, t.written pch = some x ∧ x.Complete
  files : ∀ pch, t.server.files pch ≠ none → ∃ x, t.written pch = some x ∧ x.Complete

variable {t t' : Storage} {e : Event}

/-- Directories that were complete stay complete, and so is the one that is unpacked into. -/
theorem unpackedAfter_complete (archive : List Member) (n : Nat) (h : t.server.failing e = none) {id : CompilerId}
    (hid : (∃ x, t.unpacked id = some x ∧ x.Complete) ∨ t.server.Unpacks e id) :
    ∃ x, t.unpackedAfter archive n e id = some x ∧ x.Complete := by
  unfold unpackedAfter
  split
  · rename_i sid data ok
    split
    · rename_i ha
      obtain rfl := Server.unpacks_of_failing h ha
      by_cases heq : id = (t.server.sessions sid).task.compilerId
      · rw [heq, Function.update_self]
        exact ⟨_, rfl, Transfer.store_complete archive n⟩
      · rw [Function.update_of_ne heq]
        refine hid.resolve_right ?_
        rintro ⟨sid', data', ok', he, -, hid'⟩
        cases he
        exact heq hid'.symm
    · rename_i ha
      refine hid.resolve_right ?_
      rintro ⟨sid', data', ok', he, ha', -⟩
      cases he
      exact ha ha'
  · rename_i hne
    refine hid.resolve_right ?_
    rintro ⟨sid', data', ok', he, -, -⟩
    exact hne sid' data' ok' he

/-- Files that were complete stay so, and so is the one that is written. -/
theorem writtenAfter_complete (n : Nat) (h : t.server.failing e = none) {pch : PchFile}
    (hp : (∃ x, t.written pch = some x ∧ x.Complete) ∨
      ∃ sid ok, e = .pchWritten sid ok ∧ (t.server.sessions sid).task.pchFile = some pch) :
    ∃ x, t.writtenAfter n e pch = some x ∧ x.Complete := by
  unfold writtenAfter
  split
  · rename_i sid ok
    obtain rfl := Server.written_of_failing h
    cases hk : (t.server.sessions sid).task.pchFile with
    | none =>
      refine hp.resolve_right ?_
      rintro ⟨sid', ok', he, hk'⟩
      cases he
      exact absurd (hk.symm.trans hk') (by simp)
    | some key =>
      by_cases heq : pch = key
      · subst heq
        exact ⟨_, Function.update_self .., Transfer.store_complete _ n⟩
      · simp only [Function.update_of_ne heq]
        refine hp.resolve_right ?_
        rintro ⟨sid', ok', he, hk'⟩
        cases he
        exact heq (Option.some.inj (hk'.symm.trans hk))
  · rename_i hne
    refine hp.resolve_right ?_
    rintro ⟨sid', ok', he, -⟩
    exact hne sid' ok' he

theorem step_stages {names : Names} {limit : Nat} {c : Call} (h : Stages t.server)
    (hstep : t.step names limit c = some t') : Stages t'.server := by
  cases c with
  | restart =>
    cases hstep
    exact Stages.init _
  | event e archive n =>
    obtain ⟨s', hs', rfl⟩ := Option.map_eq_some_iff.1 hstep
    exact h.step hs'

theorem Inv.step {names : Names} {limit : Nat} {c : Call} (h : Inv t) (hc : t.NoFailure c)
    (hstep : t.step names limit c = some t') : Inv t' := by
  have hstages := step_stages h.stages hstep
  cases c with
  | restart =>
    cases hstep
    -- nothing is ready any more but what the directories give
    exact {
      stages := hstages
      owned := ⟨fun id hid => by (cases hid), fun pch hp => absurd rfl hp⟩
      failed := rfl
      compilers := fun id hid => h.compilers id (.inr (hid.resolve_left (by simp)))
      completions := fun sid hw => by (cases hw)
      files := fun pch hp => absurd rfl hp }
  | event e archive n =>
    obtain ⟨s', hs', rfl⟩ := Option.map_eq_some_iff.1 hstep
    have hfailing : t.server.failing e = none := hc
    have hadds := step_adds hs'
    refine
      { stages := hstages
        owned := step_owned h.stages h.owned (Server.owesNothing_of_failing hfailing) hs'
        failed := by simp [hfailing, h.failed]
        compilers := fun id hid => unpackedAfter_complete archive n hfailing ?_
        completions := fun sid hw pch hk => writtenAfter_complete n hfailing ?_
        files := fun pch hp => writtenAfter_complete n hfailing (.inl ?_) }
    · -- ready as before, by its directory, or unpacked just now
      rcases hid with hid | hid
      · rcases hadds.compilers id hid with hid | hid | hid
        · exact .inl (h.compilers id (.inl hid))
        · exact .inl (h.compilers id (.inr hid))
        · exact .inr hid
      · exact (hadds.compilerDirs id hid).imp_left fun hid => h.compilers id (.inr hid)
    · obtain ⟨htask, hwritten⟩ := step_completions h.stages hs' hw
      have hk' : (t.server.sessions sid).task.pchFile = some pch := htask ▸ hk
      rcases hwritten with hw | ⟨ok, rfl⟩
      · exact .inl (h.completions sid hw pch hk')
      · exact .inr ⟨sid, ok, rfl, hk'⟩
    · rcases hadds.files pch hp with hp | ⟨sid, -, hw, hk⟩
      · exact h.files pch hp
      · exact h.completions sid hw pch hk

end Storage

/-- **What is ready is completely stored.** In every run, over restarts too, in which no session fails to provide a
file it owes, a compiler that is ready has its whole archive in its directory, a PCH file that is ready has all its
bytes, and any other that was asked for is still on its way. -/
theorem ready_completely_stored {names : Names} {limit : Nat} {cs : List Call} {t : Storage}
    (hm : Meets (Storage.step names limit) Storage.NoFailure {} cs)
    (hr : run (Storage.step names limit) {} cs = some t) :
    t.Sound := by
  have hinit : Storage.Inv {} := {
    stages := Stages.init []
    owned := ⟨fun id hid => by (cases hid), fun pch hp => absurd rfl hp⟩
    failed := rfl
    compilers := fun id hid => by (rcases hid with hid | hid <;> cases hid)
    completions := fun sid hw => by (cases hw)
    files := fun pch hp => absurd rfl hp }
  have h : Storage.Inv t := run_inv_of_meets (Storage.step names limit)
    (fun t c t' ht hc hstep => ht.step hc hstep) cs {} t hinit hm hr
  refine ⟨fun id hid => h.compilers id (.inl hid), h.files, fun id hid => ?_, fun pch hp => ?_⟩
  · obtain ⟨sid, hsid⟩ := h.owned.compiler id hid
    exact ⟨sid, hsid, by simp [h.failed]⟩
  · obtain ⟨sid, hsid⟩ := h.owned.pch pch hp
    exact ⟨sid, hsid, by simp [h.failed]⟩

/-- A compiler and a PCH file are provided, and the compiler is there again after a restart. -/
def storedCalls : List Call :=
  [.event (.newSession { compilerId := "cl", pchFile := some ⟨"c:\\x.pch", 1, 1⟩ }) [] 0,
    .event (.message 0 .taskFiles) [] 0,
    .event (.message 0 (.chunk [] true true)) [⟨"cl.exe", [1]⟩, ⟨"c1.dll", [2]⟩] 0,
    .event (.message 0 (.chunk [7, 8] true true)) [] 0, .event (.pchOpened 0) [] 0,
    .event (.pchWritten 0 true) [] 0, .event (.pchCompleted 0) [] 0, .restart,
    .event (.newSession { compilerId := "cl" }) [] 0]

theorem ready_completely_stored_restarted :
    ∃ t, run (Storage.step ⟨id, id⟩ 1) {} storedCalls = some t ∧ "cl" ∈ t.server.compilers ∧ t.Sound := by
  have hm : Meets (Storage.step ⟨id, id⟩ 1) Storage.NoFailure {} storedCalls := by decide
  obtain ⟨t, hr⟩ : ∃ t, run (Storage.step ⟨id, id⟩ 1) {} storedCalls = some t := ⟨_, rfl⟩
  have hsound := ready_completely_stored hm hr
  cases hr
  exact ⟨_, rfl, by decide, hsound⟩

/-- One file of two is unpacked, and the next server finds the directory. -/
def halfUnpacked : List Call :=
  [.event (.newSession { compilerId := "cl" }) [] 0, .event (.message 0 .taskFiles) [] 0,
    .event (.message 0 (.chunk [] true false)) [⟨"cl.exe", [1]⟩, ⟨"c1.dll", [2]⟩] 1, .restart,
    .event (.newSession { compilerId := "cl" }) [] 0]

/-- A PCH file of two bytes; the compiler is provided before. -/
def pchCalls : List Call :=
  [.event (.newSession { compilerId := "cl", pchFile := some ⟨"c:\\x.pch", 1, 1⟩ }) [] 0,
    .event (.message 0 .taskFiles) [] 0,
    .event (.message 0 (.chunk [] true true)) [⟨"cl.exe", [1]⟩] 0]

/-- A compiler is ready that is unpacked in part, and a PCH file that is written in part; and a PCH file that does not
decompress stays marked as partial. -/
theorem ready_not_stored :
    (∃ t, run (Storage.step ⟨id, id⟩ 1) {} halfUnpacked = some t ∧ "cl" ∈ t.server.compilers ∧
      t.unpacked "cl" = some ⟨[⟨"cl.exe", [1]⟩, ⟨"c1.dll", [2]⟩], [⟨"cl.exe", [1]⟩]⟩) ∧
    (∃ t, run (Storage.step ⟨id, id⟩ 1) {} (pchCalls ++
        [.event (.message 0 (.chunk [7, 8] true true)) [] 0, .event (.pchOpened 0) [] 0,
          .event (.pchWritten 0 false) [] 1, .event (.pchCompleted 0) [] 0]) = some t ∧
      t.server.files ⟨"c:\\x.pch", 1, 1⟩ ≠ none ∧ t.written ⟨"c:\\x.pch", 1, 1⟩ = some ⟨[7, 8], [7]⟩) ∧
    ∃ t, run (Storage.step ⟨id, id⟩ 1) {} (pchCalls ++ [.event (.message 0 (.chunk [7, 8] true false)) [] 0]) = some t ∧
      t.server.partialFiles ⟨"c:\\x.pch", 1, 1⟩ ≠ none ∧
      ¬ ∃ sid, t.server.ToldPch sid ⟨"c:\\x.pch", 1, 1⟩ ∧ sid ∉ t.failed := by
  refine ⟨⟨_, rfl, by decide, by decide⟩, ⟨_, rfl, by decide, by decide⟩, ?_⟩
  obtain ⟨t, hr⟩ : ∃ t, run (Storage.step ⟨id, id⟩ 1) {}
    (pchCalls ++ [.event (.message 0 (.chunk [7, 8] true false)) [] 0]) = some t := ⟨_, rfl⟩
  have hs : Stages t.server :=
    run_inv (Storage.step ⟨id, id⟩ 1) (fun _ _ _ h hstep => Storage.step_stages h hstep) (Stages.init []) hr
  cases hr
  refine ⟨_, rfl, by decide, ?_⟩
  rintro ⟨sid, ⟨⟨-, hk, -⟩, -⟩, hnot⟩
  by_cases hsid : sid = 0
  · subst hsid
    exact hnot (by decide)
  · rw [hs.fresh sid (Nat.pos_of_ne_zero hsid)] at hk
    cases hk

end BuildPal.Runner
