import BuildPal.Client.Compilers
import BuildPal.Client.MappedFiles
/-!
# Injecting a process

`injectLibrary` in `Extensions/Common/dllInject.cpp` makes the main thread of a
process, which was made suspended, call `Initialize` before anything else. What
`Initialize` is to know comes through a pipe. The hook of the client writes it
before it injects the library, the one for mapped files by a `localInitFunc`,
while the thread runs. A process that is to stay suspended tells by an event
that it has been initialised, and is suspended again. Much of this can fail, and
whoever makes a process does not look at what `injectLibrary` returns.
-/
open BuildPal.Lib BuildPal.Message

namespace BuildPal.Client.Inject

/-! ## What can fail -/

/-- What `injectLibrary` finds, and the loader in the new process. -/
structure Host where
  /-- `GetModuleHandleEx` finds the library in the process that injects it. -/
  currentLoaded : Bool := true
  /-- The library is compiled for 64 bits. -/
  win64 : Bool := true
  fnIsWow64 : Bool := true
  osIs64Bit : Bool := true
  /-- `IsWow64Process` says so of the new process. -/
  isWow64 : Bool := false
  /-- Which calls of `VirtualAllocEx` succeed, in their order. -/
  allocates : Nat → Bool := fun _ => true
  /-- Which calls of `WriteProcessMemory` succeed. -/
  writes : Nat → Bool := fun _ => true
  /-- The memory for the loader and for its parameters is below 4 GiB. -/
  lowMemory : Bool := true
  /-- What the loader finds: two exports of `kernel32.dll`, the library, and its function. -/
  loadLibrary : Bool := true
  getProcAddress : Bool := true
  mydll : Bool := true
  initFunc : Bool := true

namespace Host
variable (host : Host)

def targetProcessIs64Bit : Bool := host.fnIsWow64 && (host.win64 || host.osIs64Bit) && !host.isWow64

/-- How many of the loader's six parameters are written, once the main thread is set to it; it is not where
`injectLibrary` fails before. -/
def paramsWritten : Option Nat :=
  if host.currentLoaded ∧ ¬(host.targetProcessIs64Bit ∧ ¬host.win64) ∧ host.allocates 0 ∧ (∀ i < 3, host.writes i) ∧
      host.allocates 1 then
    some (((List.range 6).takeWhile fun i => host.writes (3 + i)).length)
  else none

/-- The code that `runDLL` returns before it calls `Initialize`, if it does. A parameter that was not written is zero. -/
def runDLL (written : Nat) : Option Int :=
  let needGetProcAddress := 2 ≤ written
  if ¬host.loadLibrary then some (-2)
  else if needGetProcAddress ∧ ¬host.getProcAddress then some (-3)
  else if written < 1 ∨ ¬host.mydll then some (-4)
  else if needGetProcAddress then if ¬host.initFunc then some (-5) else none
  else some 0

/-- `STATUS_ACCESS_VIOLATION`. -/
def accessViolation : Int := 0xC0000005 - 2 ^ 32

/-- The code the process ends with before `Initialize` is called, if it does. A 64-bit thread is given 32 bits of the
addresses of the loader and its parameters. -/
def load (written : Nat) : Option Int :=
  if host.targetProcessIs64Bit ∧ ¬host.lowMemory then some accessViolation else host.runDLL written

/-- Nothing fails. -/
structure Ready : Prop where
  written : host.paramsWritten = some 6
  loads : host.load 6 = none

end Host

structure Injection where
  /-- What is written before the library is injected, and what `localInitFunc` writes. -/
  before : Bytes
  after : Bytes
  resumeAfterInitialization : Bool
  /-- `Initialize` has read enough when its reads have returned these bytes. -/
  done : List Bytes → Bool
  /-- `Initialize` returns when a read fails. -/
  givesUp : Bool := false
  host : Host := {}

/-- The thread that calls `injectLibrary`. A write that has still bytes left waits for room in the pipe. -/
inductive Parent
  | writes (rest : Bytes)
  | resumes
  | tells (rest : Bytes)
  | waits
  | suspends
  | signals
  | returned
  /-- The caller has resumed the thread it wanted suspended. -/
  | resumed
  /-- `injectLibrary` has returned before it resumed the thread. -/
  | failed
  /-- Then the caller has resumed the thread it wanted suspended. -/
  | overlooked

/-- The main thread of the new process: the loader, `Initialize`, and then what it was made for. -/
inductive Child
  | starts
  | reads
  | enables
  | signals
  | waits
  | runs
  /-- The thread has ended before or in the loader, and the process is over. -/
  | ended (code : Int)
deriving DecidableEq

/-- The new process can read from the pipe, now or later. -/
def Child.isOpen : Child → Bool
  | .starts => true
  | .reads => true
  | _ => false

structure State where
  parent : Parent
  child : Child := .starts
  pipe : Bytes := []
  /-- What the reads of `Initialize` have returned. -/
  reads : List Bytes := []
  suspendCount : Nat := 1
  /-- The event `initDone` is set; nothing resets it. -/
  initDone : Bool := false
  hooked : Bool := false
  /-- What `injectLibrary` will return. -/
  result : Bool := true

inductive Event
  | write (n : Nat)
  | parent
  | read (n : Nat)
  | child

section
variable (inj : Injection) (capacity : Nat)

def start : State := { parent := .writes inj.before }

/-- A write moves some of its bytes into the pipe. -/
def write (s : State) (rest : Bytes) (n : Nat) (parent : Bytes → Parent) : Option State :=
  if 1 ≤ n ∧ n ≤ rest.length ∧ s.pipe.length + n ≤ capacity then
    some { s with parent := parent (rest.drop n), pipe := s.pipe ++ rest.take n }
  else none

def stepParent (s : State) : Option State :=
  match s.parent with
  | .writes rest =>
    if rest = [] then
      some (if inj.host.paramsWritten = some 6 then { s with parent := .resumes }
        else { s with parent := .failed, result := false })
    else none
  | .resumes => some { s with parent := .tells inj.after, suspendCount := s.suspendCount - 1 }
  | .tells rest =>
    -- a write fails when the other end is closed
    if rest = [] ∨ s.child.isOpen = false then
      let parent := if inj.resumeAfterInitialization then Parent.returned else .waits
      some { s with parent, result := decide (rest = []) }
    else none
  | .waits => if s.initDone then some { s with parent := .suspends } else none
  | .suspends => some { s with parent := .signals, suspendCount := s.suspendCount + 1 }
  | .signals => some { s with parent := .returned, initDone := true }
  | .returned =>
    if inj.resumeAfterInitialization then none
    else some { s with parent := .resumed, suspendCount := s.suspendCount - 1 }
  | .failed =>
    -- nobody resumes a process that was not to stay suspended
    if inj.resumeAfterInitialization then none
    else some { s with parent := .overlooked, suspendCount := s.suspendCount - 1 }
  | .resumed => none
  | .overlooked => none

/-- What the thread does after `Initialize`: it has `chainFunc` if at least four of the parameters were written. -/
def chain (written : Nat) : Child := if 4 ≤ written then .runs else .ended 0

/-- `initDone`, the last parameter, is only given to a process that is to stay suspended, and `initArgs`, the third one,
is the end of the pipe. -/
def stepChild (s : State) : Option State :=
  let written := inj.host.paramsWritten.getD 0
  match s.child with
  | .starts =>
    some { s with child :=
      -- where the thread was not set to the loader, it starts with what it was made for
      match inj.host.paramsWritten with
      | none => .runs
      | some written =>
        match inj.host.load written with
        | some code => .ended code
        | none => .reads }
  | .reads => if written < 3 ∧ inj.givesUp then some { s with child := .ended (-6) } else none
  | .enables =>
    let child := if 6 ≤ written ∧ inj.resumeAfterInitialization = false then .signals else chain written
    some { s with child, hooked := true }
  | .signals => some { s with child := .waits, initDone := true }
  | .waits => if s.initDone then some { s with child := chain written } else none
  | .runs => none
  | .ended _ => none

def step (s : State) : Event → Option State
  | .write n =>
    match s.parent with
    | .writes rest => write capacity s rest n .writes
    | .tells rest => if s.child.isOpen then write capacity s rest n .tells else none
    | _ => none
  | .parent => stepParent inj s
  | .read n =>
    if s.suspendCount = 0 ∧ s.child = .reads ∧ 3 ≤ inj.host.paramsWritten.getD 0 ∧ 1 ≤ n ∧ n ≤ s.pipe.length then
      let reads := s.reads ++ [s.pipe.take n]
      some { s with pipe := s.pipe.drop n, reads, child := if inj.done reads then .enables else .reads }
    else none
  | .child => if s.suspendCount = 0 then stepChild inj s else none

/-- The process runs, hooked, and nobody waits for it. -/
structure Finished (s : State) : Prop where
  parent : s.parent = if inj.resumeAfterInitialization then .returned else .resumed
  child : s.child = .runs
  hooked : s.hooked = true
  running : s.suspendCount = 0

end

/-! ## What holds in between -/

/-- What is still to be written. -/
def Parent.rest (after : Bytes) : Parent → Bytes
  | .writes rest => rest ++ after
  | .resumes => after
  | .tells rest => rest
  | _ => []

/-- How often the thread is suspended. -/
def Parent.suspended (resume : Bool) : Parent → Nat
  | .writes _ => 1
  | .resumes => 1
  | .signals => 1
  | .returned => if resume then 0 else 1
  | .failed => 1
  | _ => 0

/-- The thread has not run yet. -/
def Parent.early : Parent → Bool
  | .writes _ => true
  | .resumes => true
  | .failed => true
  | _ => false

/-- `injectLibrary` has set the thread to the loader. -/
def Parent.prepared : Parent → Bool
  | .writes _ => false
  | .failed => false
  | .overlooked => false
  | _ => true

/-- `injectLibrary` has failed. -/
def Parent.fails : Parent → Bool
  | .failed => true
  | .overlooked => true
  | _ => false

/-- The process has told that it is initialised. -/
def Parent.late (resume : Bool) : Parent → Bool
  | .suspends => true
  | .signals => true
  | .returned => !resume
  | .resumed => true
  | _ => false

/-- Nothing fails, and nothing has. -/
structure Inv (inj : Injection) (s : State) : Prop where
  suspended : s.suspendCount = s.parent.suspended inj.resumeAfterInitialization
  early : s.parent.early → s.child = .starts ∧ s.reads = []
  late : s.parent.late inj.resumeAfterInitialization → s.initDone
  bytes : s.child.isOpen → s.reads.flatten ++ s.pipe ++ s.parent.rest inj.after = inj.before ++ inj.after
  reading : s.child.isOpen → s.reads = [] ∨ inj.done s.reads = false
  done : s.child.isOpen = false → inj.done s.reads = true
  hooked : s.child = .signals ∨ s.child = .waits ∨ s.child = .runs → s.hooked = true
  told : s.initDone → s.child = .waits ∨ s.child = .runs
  tells : inj.resumeAfterInitialization = false → s.child = .waits ∨ s.child = .runs → s.initDone
  left : inj.resumeAfterInitialization = true → (s.child ≠ .signals ∧ s.child ≠ .waits) ∧
    s.parent ≠ .waits ∧ s.parent ≠ .suspends ∧ s.parent ≠ .signals ∧ s.parent ≠ .resumed
  unfailed : s.parent.fails = false
  going : ∀ code, s.child ≠ .ended code

section
variable {inj : Injection} {capacity : Nat} {s s' : State}

theorem inv_start : Inv inj (start inj) where
  suspended := rfl
  early _ := ⟨rfl, rfl⟩
  late h := by cases h
  bytes _ := rfl
  reading _ := .inl rfl
  done h := by cases h
  hooked h := by rcases h with h | h | h <;> cases h
  told h := by cases h
  tells _ h := by rcases h with h | h <;> cases h
  left _ := by simp [start]
  unfailed := rfl
  going _ h := by cases h

theorem take_drop_append (l r : Bytes) (n : Nat) : l.take n ++ (l.drop n ++ r) = l ++ r := by
  rw [← List.append_assoc, List.take_append_drop]

theorem write_inv {n : Nat} (h : Inv inj s) (hs : step inj capacity s (.write n) = some s') : Inv inj s' := by
  simp only [step] at hs
  cases hp : s.parent with
  | writes rest =>
    simp only [hp, write, Option.ite_none_right_eq_some, Option.some.injEq] at hs
    obtain ⟨-, rfl⟩ := hs
    have hearly := h.early (by rw [hp]; rfl)
    have hsuspended := h.suspended
    have hbytes := h.bytes (by rw [hearly.1]; rfl)
    rw [hp] at hbytes hsuspended
    refine ⟨hsuspended, fun _ => hearly, by simp [Parent.late], fun _ => ?_, h.reading, h.done, h.hooked, h.told,
      h.tells, fun hr => ⟨(h.left hr).1, by simp⟩, rfl, h.going⟩
    rw [← hbytes]
    simp [Parent.rest, take_drop_append]
  | tells rest =>
    simp only [hp, write, Option.ite_none_right_eq_some, Option.some.injEq] at hs
    obtain ⟨hreads, -, rfl⟩ := hs
    have hsuspended := h.suspended
    have hbytes := h.bytes hreads
    rw [hp] at hbytes hsuspended
    refine ⟨hsuspended, by simp [Parent.early], by simp [Parent.late], fun _ => ?_, h.reading, h.done, h.hooked, h.told,
      h.tells, fun hr => ⟨(h.left hr).1, by simp⟩, rfl, h.going⟩
    rw [← hbytes]
    simp [Parent.rest]
  | _ =>
    rw [hp] at hs
    cases hs

theorem parent_inv (hready : inj.host.Ready) (h : Inv inj s) (hs : step inj capacity s .parent = some s') :
    Inv inj s' := by
  simp only [step, stepParent] at hs
  have hsuspended := h.suspended
  have hearly := h.early
  have hlate := h.late
  have hbytes := h.bytes
  have hleft := h.left
  have hunfailed := h.unfailed
  cases hp : s.parent with
  | writes rest =>
    simp only [hp, hready.written, if_true, Option.ite_none_right_eq_some, Option.some.injEq] at hs
    obtain ⟨rfl, rfl⟩ := hs
    rw [hp] at hsuspended hearly hbytes
    exact ⟨hsuspended, hearly, by simp [Parent.late], hbytes, h.reading, h.done, h.hooked, h.told, h.tells,
      fun hr => ⟨(hleft hr).1, by simp⟩, rfl, h.going⟩
  | resumes =>
    simp only [hp, Option.some.injEq] at hs
    subst hs
    rw [hp] at hsuspended hbytes
    have hcount : s.suspendCount - 1 = 0 := by rw [hsuspended]; rfl
    exact ⟨hcount, by simp [Parent.early], by simp [Parent.late], hbytes, h.reading, h.done, h.hooked, h.told,
      h.tells, fun hr => ⟨(hleft hr).1, by simp⟩, rfl, h.going⟩
  | tells rest =>
    simp only [hp, Option.ite_none_right_eq_some, Option.some.injEq] at hs
    obtain ⟨hrest, rfl⟩ := hs
    rw [hp] at hsuspended hbytes
    -- As long as the child's end is open, the parent goes on only when everything is written.
    have hnone : s.child.isOpen → rest = [] := fun hc => hrest.resolve_right fun hclosed => by
      rw [hc] at hclosed
      cases hclosed
    cases hr : inj.resumeAfterInitialization with
    | true =>
      refine ⟨?_, by simp [Parent.early], by simp [Parent.late, hr], ?_, h.reading, h.done, h.hooked, h.told,
        h.tells, fun _ => ⟨(hleft hr).1, by simp⟩, rfl, h.going⟩
      · rw [hr]
        exact hsuspended
      · intro hc
        rw [← hbytes hc, hnone hc]
        rfl
    | false =>
      refine ⟨hsuspended, by simp [Parent.early], by simp [Parent.late], ?_, h.reading, h.done, h.hooked, h.told,
        h.tells, fun hr' => absurd (hr.symm.trans hr') Bool.false_ne_true, rfl, h.going⟩
      intro hc
      rw [← hbytes hc, hnone hc]
      rfl
  | waits =>
    simp only [hp, Option.ite_none_right_eq_some, Option.some.injEq] at hs
    obtain ⟨hdone, rfl⟩ := hs
    rw [hp] at hsuspended hbytes
    exact ⟨hsuspended, by simp [Parent.early], fun _ => hdone, hbytes, h.reading, h.done, h.hooked, h.told, h.tells,
      fun hr => absurd hp (hleft hr).2.1, rfl, h.going⟩
  | suspends =>
    simp only [hp, Option.some.injEq] at hs
    subst hs
    rw [hp] at hsuspended hbytes hlate
    exact ⟨congrArg (· + 1) hsuspended, by simp [Parent.early], hlate, hbytes, h.reading, h.done, h.hooked, h.told,
      h.tells, fun hr => absurd hp (hleft hr).2.2.1, rfl, h.going⟩
  | signals =>
    simp only [hp, Option.some.injEq] at hs
    subst hs
    rw [hp] at hsuspended hbytes hlate
    -- The parent signals only where the process is to stay suspended.
    have hr : inj.resumeAfterInitialization = false := by
      rw [← Bool.not_eq_true]
      exact fun hr => (hleft hr).2.2.2.1 hp
    refine ⟨?_, by simp [Parent.early], fun _ => rfl, hbytes, h.reading, h.done, h.hooked,
      fun _ => h.told (hlate rfl), fun _ _ => rfl, fun hr' => absurd (hr.symm.trans hr') Bool.false_ne_true, rfl,
        h.going⟩
    rw [hr]
    exact hsuspended
  | returned =>
    simp only [hp, Option.ite_none_left_eq_some, Option.some.injEq] at hs
    obtain ⟨hr, rfl⟩ := hs
    rw [Bool.not_eq_true] at hr
    rw [hp] at hsuspended hbytes hlate
    refine ⟨?_, by simp [Parent.early], fun _ => hlate (by simp [Parent.late, hr]), hbytes, h.reading, h.done, h.hooked,
      h.told, h.tells, fun hr' => absurd (hr.symm.trans hr') Bool.false_ne_true, rfl, h.going⟩
    rw [hsuspended, hr]
    rfl
  | failed | overlooked =>
    rw [hp] at hunfailed
    cases hunfailed
  | resumed =>
    rw [hp] at hs
    cases hs

/-- The thread runs, so that it was resumed. -/
theorem not_early (h : Inv inj s) (hcount : s.suspendCount = 0) : s.parent.early ≠ true := by
  intro he
  have hsuspended := h.suspended
  cases hp : s.parent <;> rw [hp] at he hsuspended <;>
    simp [Parent.early, Parent.suspended, hcount] at he hsuspended

theorem read_inv {n : Nat} (h : Inv inj s) (hs : step inj capacity s (.read n) = some s') : Inv inj s' := by
  simp only [step, Option.ite_none_right_eq_some, Option.some.injEq] at hs
  obtain ⟨⟨hcount, hchild, -, -, -⟩, rfl⟩ := hs
  have hbytes := h.bytes (by rw [hchild]; rfl)
  have hnotTold : s.initDone ≠ true := by
    intro ht
    rcases h.told ht with hc | hc <;> rw [hchild] at hc <;> cases hc
  have hbytes' : (s.reads ++ [s.pipe.take n]).flatten ++ s.pipe.drop n ++ s.parent.rest inj.after =
      inj.before ++ inj.after := by
    rw [← hbytes]
    simp
  have hnotEarly := not_early h hcount
  cases hd : inj.done (s.reads ++ [s.pipe.take n]) with
  | true =>
    exact ⟨h.suspended, fun he => absurd he hnotEarly, h.late, by simp [Child.isOpen], by simp [Child.isOpen],
      fun _ => hd, by simp, fun ht => absurd ht hnotTold, by simp, fun hr => ⟨by simp, (h.left hr).2⟩, h.unfailed,
      by simp⟩
  | false =>
    exact ⟨h.suspended, fun he => absurd he hnotEarly, h.late, fun _ => hbytes', fun _ => .inr hd,
      by simp [Child.isOpen], by simp, fun ht => absurd ht hnotTold, by simp, fun hr => ⟨by simp, (h.left hr).2⟩,
      h.unfailed, by simp⟩

theorem child_inv (hready : inj.host.Ready) (h : Inv inj s) (hs : step inj capacity s .child = some s') :
    Inv inj s' := by
  simp only [step, stepChild, hready.written, Option.getD_some, Option.ite_none_right_eq_some] at hs
  obtain ⟨hcount, hs⟩ := hs
  have hnotEarly := not_early h hcount
  have hdone := h.done
  cases hc : s.child with
  | starts =>
    simp only [hc, hready.loads, Option.some.injEq] at hs
    subst hs
    have hopen : s.child.isOpen = true := by rw [hc]; rfl
    -- `InitDone` is said only when the hooks are in place.
    have hnotTold : s.initDone ≠ true := by
      intro ht
      rcases h.told ht with hw | hw <;> rw [hc] at hw <;> cases hw
    exact ⟨h.suspended, fun he => absurd he hnotEarly, h.late, fun _ => h.bytes hopen, fun _ => h.reading hopen,
      by simp [Child.isOpen], by simp, fun ht => absurd ht hnotTold, by simp, fun hr => ⟨by simp, (h.left hr).2⟩,
      h.unfailed, by simp⟩
  | reads =>
    simp [hc] at hs
  | enables =>
    simp only [hc, Nat.le_refl, true_and, Option.some.injEq] at hs
    subst hs
    rw [hc] at hdone
    have hnotTold : s.initDone ≠ true := by
      intro ht
      rcases h.told ht with hw | hw <;> rw [hc] at hw <;> cases hw
    cases hr : inj.resumeAfterInitialization with
    | true =>
      exact ⟨h.suspended, fun he => absurd he hnotEarly, h.late, by simp [chain, Child.isOpen],
        by simp [chain, Child.isOpen], fun _ => hdone rfl, fun _ => rfl, fun ht => absurd ht hnotTold, by simp [hr],
        fun _ => ⟨by simp [chain], (h.left hr).2⟩, h.unfailed, by simp [chain]⟩
    | false =>
      exact ⟨h.suspended, fun he => absurd he hnotEarly, h.late, by simp [Child.isOpen], by simp [Child.isOpen],
        fun _ => hdone rfl, fun _ => rfl, fun ht => absurd ht hnotTold, by simp, by simp [hr], h.unfailed, by simp⟩
  | signals =>
    simp only [hc, Option.some.injEq] at hs
    subst hs
    rw [hc] at hdone
    have hhooked := h.hooked (by simp [hc])
    exact ⟨h.suspended, fun he => absurd he hnotEarly, fun _ => rfl, by simp [Child.isOpen], by simp [Child.isOpen],
      fun _ => hdone rfl, fun _ => hhooked, fun _ => .inl rfl, fun _ _ => rfl, fun hr => absurd hc (h.left hr).1.1,
      h.unfailed, by simp⟩
  | waits =>
    simp only [hc, Option.ite_none_right_eq_some, Option.some.injEq] at hs
    obtain ⟨hset, rfl⟩ := hs
    rw [hc] at hdone
    have hhooked := h.hooked (by simp [hc])
    exact ⟨h.suspended, fun he => absurd he hnotEarly, h.late, by simp [chain, Child.isOpen],
      by simp [chain, Child.isOpen], fun _ => hdone rfl, fun _ => hhooked, fun _ => .inr rfl, fun _ _ => hset,
      fun hr => ⟨by simp [chain], (h.left hr).2⟩, h.unfailed, by simp [chain]⟩
  | runs | ended =>
    rw [hc] at hs
    cases hs

theorem step_inv (hready : inj.host.Ready) {e : Event} (h : Inv inj s) (hs : step inj capacity s e = some s') :
    Inv inj s' := by
  cases e with
  | write n => exact write_inv h hs
  | parent => exact parent_inv hready h hs
  | read n => exact read_inv h hs
  | child => exact child_inv hready h hs

/-! ## What holds where something fails -/

theorem Host.paramsWritten_le {host : Host} {written : Nat} (h : host.paramsWritten = some written) : written ≤ 6 := by
  unfold Host.paramsWritten at h
  obtain ⟨-, heq⟩ := Option.ite_none_right_eq_some.1 h
  rw [← Option.some.inj heq]
  exact (List.takeWhile_sublist _).length_le.trans_eq (by simp)

/-- Something fails: the thread either stays as it was made or ends in the loader, unless somebody else resumes it. -/
structure Failing (inj : Injection) (s : State) : Prop where
  early : s.parent.early → s.suspendCount = 1 ∧ s.child = .starts
  unhooked : s.parent ≠ .overlooked → s.initDone = false ∧ s.hooked = false ∧
    (s.child = .starts ∨ ∃ code, s.child = .ended code)
  waiting : s.parent.late inj.resumeAfterInitialization = false
  prepared : s.parent.prepared → inj.host.paramsWritten = some 6
  unprepared : s.parent.fails → inj.host.paramsWritten ≠ some 6
  asked : s.parent = .overlooked → inj.resumeAfterInitialization = false
  done : s.child = .enables ∨ s.hooked → inj.done s.reads = true
  unread : s.child.isOpen → s.hooked = false
  hooked : s.child = .signals ∨ s.child = .waits → s.hooked = true
  runs : s.child = .runs → s.hooked = true ∨ inj.host.paramsWritten = none

theorem failing_start : Failing inj (start inj) where
  early _ := ⟨rfl, rfl⟩
  unhooked _ := ⟨rfl, rfl, .inl rfl⟩
  waiting := rfl
  prepared h := by cases h
  unprepared h := by cases h
  asked h := by cases h
  done h := by rcases h with h | h <;> cases h
  unread _ := rfl
  hooked h := by rcases h with h | h <;> cases h
  runs h := by cases h

/-- The thread of the parent goes on. -/
theorem Failing.parent (h : Failing inj s) {parent : Parent} {suspendCount : Nat} {pipe : Bytes} {result : Bool}
    (hearly : parent.early → s.parent.early ∧ suspendCount = s.suspendCount) (hsame : s.parent ≠ .overlooked)
    (hwaiting : parent.late inj.resumeAfterInitialization = false)
    (hprepared : parent.prepared → inj.host.paramsWritten = some 6)
    (hunprepared : parent.fails → inj.host.paramsWritten ≠ some 6)
    (hasked : parent = .overlooked → inj.resumeAfterInitialization = false) :
    Failing inj { s with parent, suspendCount, pipe, result } where
  early he := by
    obtain ⟨hold, rfl⟩ := hearly he
    exact h.early hold
  unhooked _ := h.unhooked hsame
  waiting := hwaiting
  prepared := hprepared
  unprepared := hunprepared
  asked := hasked
  done := h.done
  unread := h.unread
  hooked := h.hooked
  runs := h.runs

theorem write_failing {n : Nat} (h : Failing inj s) (hs : step inj capacity s (.write n) = some s') :
    Failing inj s' := by
  have hprepared := h.prepared
  simp only [step] at hs
  cases hp : s.parent with
  | writes rest =>
    simp only [hp, write, Option.ite_none_right_eq_some, Option.some.injEq] at hs
    obtain ⟨-, rfl⟩ := hs
    exact h.parent (fun _ => by simp [hp, Parent.early]) (by simp [hp]) rfl (by simp [Parent.prepared])
      (by simp [Parent.fails]) (by simp)
  | tells rest =>
    simp only [hp, write, Option.ite_none_right_eq_some, Option.some.injEq] at hs
    obtain ⟨-, -, rfl⟩ := hs
    rw [hp] at hprepared
    exact h.parent (by simp [Parent.early]) (by simp [hp]) rfl hprepared (by simp [Parent.fails]) (by simp)
  | _ =>
    rw [hp] at hs
    cases hs

theorem parent_failing (h : Failing inj s) (hs : step inj capacity s .parent = some s') : Failing inj s' := by
  have hwaiting := h.waiting
  have hprepared := h.prepared
  have hunprepared := h.unprepared
  simp only [step, stepParent] at hs
  cases hp : s.parent with
  | writes rest =>
    simp only [hp, Option.ite_none_right_eq_some, Option.some.injEq] at hs
    obtain ⟨-, rfl⟩ := hs
    by_cases hwritten : inj.host.paramsWritten = some 6
    · rw [if_pos hwritten]
      exact h.parent (fun _ => by simp [hp, Parent.early]) (by simp [hp]) rfl (fun _ => hwritten)
        (by simp [Parent.fails]) (by simp)
    · rw [if_neg hwritten]
      exact h.parent (fun _ => by simp [hp, Parent.early]) (by simp [hp]) rfl (by simp [Parent.prepared])
        (fun _ => hwritten) (by simp)
  | resumes =>
    simp only [hp, Option.some.injEq] at hs
    subst hs
    rw [hp] at hprepared
    exact h.parent (by simp [Parent.early]) (by simp [hp]) rfl hprepared (by simp [Parent.fails]) (by simp)
  | tells rest =>
    simp only [hp, Option.ite_none_right_eq_some, Option.some.injEq] at hs
    obtain ⟨-, rfl⟩ := hs
    rw [hp] at hprepared
    cases hr : inj.resumeAfterInitialization with
    | true =>
      exact h.parent (by simp [Parent.early]) (by simp [hp]) (by simp [hr, Parent.late]) hprepared
        (by simp [Parent.fails]) (by simp)
    | false =>
      exact h.parent (by simp [Parent.early]) (by simp [hp]) rfl hprepared (by simp [Parent.fails]) (by simp)
  | waits =>
    -- nobody sets the event
    simp [hp, (h.unhooked (by simp [hp])).1] at hs
  | returned =>
    simp only [hp, Option.ite_none_left_eq_some] at hs
    rw [hp] at hwaiting
    exact absurd (Bool.not_eq_false' .. ▸ hwaiting) hs.1
  | failed =>
    simp only [hp, Option.ite_none_left_eq_some, Option.some.injEq] at hs
    obtain ⟨hr, rfl⟩ := hs
    rw [hp] at hunprepared
    exact h.parent (by simp [Parent.early]) (by simp [hp]) rfl (by simp [Parent.prepared]) hunprepared
      fun _ => Bool.not_eq_true _ ▸ hr
  | suspends | signals =>
    rw [hp] at hwaiting
    cases hwaiting
  | resumed | overlooked =>
    rw [hp] at hs
    cases hs

/-- The thread of the new process runs: somebody else has resumed it, or it ends in the loader. -/
theorem Failing.running (h : Failing inj s) (hcount : s.suspendCount = 0) :
    s.parent = .overlooked ∧ inj.host.paramsWritten ≠ some 6 ∨
      s.parent ≠ .overlooked ∧ inj.host.paramsWritten = some 6 := by
  have hearly := h.early
  have hprepared := h.prepared
  have hunprepared := h.unprepared
  cases hp : s.parent with
  | writes | resumes | failed =>
    rw [hp] at hearly
    rw [(hearly rfl).1] at hcount
    cases hcount
  | overlooked =>
    rw [hp] at hunprepared
    exact .inl ⟨rfl, hunprepared rfl⟩
  | tells | waits | suspends | signals | returned | resumed =>
    rw [hp] at hprepared
    exact .inr ⟨by simp, hprepared rfl⟩

/-- The thread of the new process goes on, which somebody else has resumed. -/
theorem Failing.child (h : Failing inj s) (hover : s.parent = .overlooked) {child : Child} {pipe : Bytes}
    {reads : List Bytes} {initDone hooked : Bool}
    (hdone : child = .enables ∨ hooked → inj.done reads = true) (hunread : child.isOpen → hooked = false)
    (hhooked : child = .signals ∨ child = .waits → hooked = true)
    (hruns : child = .runs → hooked = true ∨ inj.host.paramsWritten = none) :
    Failing inj { s with child, pipe, reads, initDone, hooked } where
  early he := by
    simp [hover, Parent.early] at he
  unhooked hne := absurd hover hne
  waiting := h.waiting
  prepared := h.prepared
  unprepared := h.unprepared
  asked := h.asked
  done := hdone
  unread := hunread
  hooked := hhooked
  runs := hruns

theorem read_failing {n : Nat} (h : Failing inj s) (hs : step inj capacity s (.read n) = some s') : Failing inj s' := by
  simp only [step, Option.ite_none_right_eq_some, Option.some.injEq] at hs
  obtain ⟨⟨-, hchild, -, -, -⟩, rfl⟩ := hs
  have hunhooked : s.hooked = false := h.unread (by rw [hchild]; rfl)
  have hover : s.parent = .overlooked := by
    by_contra hne
    obtain ⟨-, -, hstays | ⟨code, hstays⟩⟩ := h.unhooked hne <;> rw [hchild] at hstays <;> cases hstays
  apply h.child hover
  · rintro (henables | hhooked)
    · by_contra hnot
      rw [if_neg hnot] at henables
      cases henables
    · rw [hunhooked] at hhooked
      cases hhooked
  · exact fun _ => hunhooked
  · split <;> simp
  · split <;> simp

theorem chain_cases (written : Nat) : chain written = .runs ∨ chain written = .ended 0 := by
  unfold chain
  split
  · exact .inl rfl
  · exact .inr rfl

theorem child_failing (hfails : ¬ inj.host.Ready) (h : Failing inj s) (hs : step inj capacity s .child = some s') :
    Failing inj s' := by
  simp only [step, Option.ite_none_right_eq_some] at hs
  obtain ⟨hcount, hs⟩ := hs
  rcases h.running hcount with ⟨hover, hwritten⟩ | ⟨hover, hwritten⟩
  · have hless : ¬ 6 ≤ inj.host.paramsWritten.getD 0 := by
      cases hp : inj.host.paramsWritten with
      | none => simp
      | some written =>
        have hle := Host.paramsWritten_le hp
        have hne : written ≠ 6 := fun heq => hwritten (by rw [hp, heq])
        simp only [Option.getD_some]
        omega
    simp only [stepChild] at hs
    cases hc : s.child with
    | starts =>
      have hunhooked : s.hooked = false := h.unread (by rw [hc]; rfl)
      simp only [hc, Option.some.injEq] at hs
      subst hs
      apply h.child hover
      · rintro (henables | hhooked)
        · repeat' split at henables
          all_goals cases henables
        · rw [hunhooked] at hhooked
          cases hhooked
      · exact fun _ => hunhooked
      · repeat' split
        all_goals simp
      · split
        · next hnone => exact fun _ => .inr hnone
        · split <;> simp
    | reads =>
      have hunhooked : s.hooked = false := h.unread (by rw [hc]; rfl)
      simp only [hc, Option.ite_none_right_eq_some, Option.some.injEq] at hs
      obtain ⟨-, rfl⟩ := hs
      exact h.child hover (by simp [hunhooked]) (by simp [Child.isOpen]) (by simp) (by simp)
    | enables =>
      simp only [hc, hless, false_and, if_false, Option.some.injEq] at hs
      subst hs
      have hdone := h.done (.inl hc)
      rcases chain_cases (inj.host.paramsWritten.getD 0) with heq | heq <;> rw [heq]
      · exact h.child hover (fun _ => hdone) (by simp [Child.isOpen]) (by simp) fun _ => .inl rfl
      · exact h.child hover (fun _ => hdone) (by simp [Child.isOpen]) (by simp) (by simp)
    | signals =>
      simp only [hc, Option.some.injEq] at hs
      subst hs
      have hhooked := h.hooked (.inl hc)
      exact h.child hover (fun _ => h.done (.inr hhooked)) (by simp [Child.isOpen]) (fun _ => hhooked) (by simp)
    | waits =>
      simp only [hc, Option.ite_none_right_eq_some, Option.some.injEq] at hs
      obtain ⟨-, rfl⟩ := hs
      have hhooked := h.hooked (.inr hc)
      rcases chain_cases (inj.host.paramsWritten.getD 0) with heq | heq <;> rw [heq]
      · exact h.child hover (fun _ => h.done (.inr hhooked)) (by simp [Child.isOpen]) (by simp) fun _ => .inl hhooked
      · exact h.child hover (fun _ => h.done (.inr hhooked)) (by simp [Child.isOpen]) (by simp) (by simp)
    | runs | ended =>
      rw [hc] at hs
      cases hs
  · -- the loader does not come to `Initialize`
    obtain ⟨hnotTold, hunhooked, hstarts | ⟨code, hended⟩⟩ := h.unhooked hover
    · cases hloads : inj.host.load 6 with
      | none => exact absurd ⟨hwritten, hloads⟩ hfails
      | some code =>
        simp only [stepChild, hstarts, hwritten, hloads, Option.some.injEq] at hs
        subst hs
        have hearly : s.parent.early = false := by
          rw [← Bool.not_eq_true]
          intro he
          rw [(h.early he).1] at hcount
          cases hcount
        exact { h with
          early := fun he => by rw [hearly] at he; cases he
          unhooked := fun _ => ⟨hnotTold, hunhooked, .inr ⟨code, rfl⟩⟩
          done := by simp [hunhooked]
          unread := fun he => by cases he
          hooked := by simp
          runs := by simp }
    · simp [stepChild, hended] at hs

theorem step_failing (hfails : ¬ inj.host.Ready) {e : Event} (h : Failing inj s)
    (hs : step inj capacity s e = some s') : Failing inj s' := by
  cases e with
  | write n => exact write_failing h hs
  | parent => exact parent_failing h hs
  | read n => exact read_failing h hs
  | child => exact child_failing hfails h hs

/-! ## Nobody waits for ever -/

/-- While the process reads, it is told what it has not read yet. -/
theorem reads_or_told (h : Inv inj s) (hne : inj.before ++ inj.after ≠ [])
    (hdone : ∀ reads, reads.flatten = inj.before ++ inj.after → inj.done reads = true) (hchild : s.child.isOpen)
    (hrest : s.parent.rest inj.after = []) : s.pipe ≠ [] := by
  intro hpipe
  have hbytes := h.bytes hchild
  rw [hrest, hpipe, List.append_nil, List.append_nil] at hbytes
  rcases h.reading hchild with hnil | hnot
  · rw [hnil] at hbytes
    exact hne hbytes.symm
  · rw [hdone _ hbytes] at hnot
    cases hnot

/-- A process that is not suspended goes on, unless it runs already, or has nothing to read. -/
theorem child_goes_on (hready : inj.host.Ready) (h : Inv inj s) (hcount : s.suspendCount = 0) (hruns : s.child ≠ .runs)
    (hpipe : s.child = .reads → s.pipe ≠ []) : ∃ e, (step inj capacity s e).isSome := by
  cases hc : s.child with
  | starts => exact ⟨.child, by simp [step, stepChild, hcount, hc]⟩
  | reads =>
    have hlen := List.length_pos_iff.2 (hpipe hc)
    refine ⟨.read 1, ?_⟩
    have hguard : s.suspendCount = 0 ∧ s.child = .reads ∧ 3 ≤ inj.host.paramsWritten.getD 0 ∧ 1 ≤ 1 ∧
        1 ≤ s.pipe.length := ⟨hcount, hc, by simp [hready.written], Nat.le_refl _, hlen⟩
    simp only [step, if_pos hguard, Option.isSome_some]
  | enables => exact ⟨.child, by simp [step, stepChild, hcount, hc]⟩
  | signals => exact ⟨.child, by simp [step, stepChild, hcount, hc]⟩
  | waits =>
    have hr : inj.resumeAfterInitialization = false := by
      rw [← Bool.not_eq_true]
      exact fun hr => (h.left hr).1.2 hc
    have hset := h.tells hr (.inl hc)
    exact ⟨.child, by simp [step, stepChild, hcount, hc, hset]⟩
  | runs => exact absurd hc hruns
  | ended code => exact absurd hc (h.going code)

theorem goes_on (hready : inj.host.Ready) (h : Inv inj s) (hfits : inj.before.length ≤ capacity)
    (hcapacity : 0 < capacity)
    (hne : inj.before ++ inj.after ≠ [])
    (hdone : ∀ reads, reads.flatten = inj.before ++ inj.after → inj.done reads = true) :
    Finished inj s ∨ ∃ e, (step inj capacity s e).isSome := by
  have hsuspended := h.suspended
  have htold := reads_or_told h hne hdone
  cases hp : s.parent with
  | writes rest =>
    refine .inr ?_
    cases hrest : rest with
    | nil => exact ⟨.parent, by simp [step, stepParent, hp, hrest]⟩
    | cons b rest' =>
      -- what is in the pipe and what is left fit into it together
      obtain ⟨hchild, hreads⟩ := h.early (by rw [hp]; rfl)
      have hbytes := h.bytes (by rw [hchild]; rfl)
      rw [hp, hreads, Parent.rest, List.flatten_nil, List.nil_append, ← List.append_assoc] at hbytes
      have hlen := congrArg List.length (List.append_cancel_right hbytes)
      rw [List.length_append, hrest, List.length_cons] at hlen
      refine ⟨.write 1, ?_⟩
      have hguard : 1 ≤ 1 ∧ 1 ≤ (b :: rest').length ∧ s.pipe.length + 1 ≤ capacity := ⟨Nat.le_refl _, by simp, by omega⟩
      simp only [step, hp, hrest, write, if_pos hguard, Option.isSome_some]
  | resumes => exact .inr ⟨.parent, by simp [step, stepParent, hp]⟩
  | tells rest =>
    refine .inr ?_
    by_cases hgo : rest = [] ∨ s.child.isOpen = false
    · exact ⟨.parent, by simp [step, stepParent, hp, hgo]⟩
    obtain ⟨hrest, hreads⟩ := not_or.1 hgo
    rw [Bool.not_eq_false] at hreads
    by_cases hroom : s.pipe.length + 1 ≤ capacity
    · have hguard : 1 ≤ 1 ∧ 1 ≤ rest.length ∧ s.pipe.length + 1 ≤ capacity :=
        ⟨Nat.le_refl _, List.length_pos_iff.2 hrest, hroom⟩
      refine ⟨.write 1, ?_⟩
      simp only [step, hp, hreads, if_true, write, if_pos hguard, Option.isSome_some]
    · rw [hp] at hsuspended
      apply child_goes_on hready h hsuspended (fun hc => by rw [hc] at hreads; cases hreads)
      intro _ hnil
      rw [hnil, List.length_nil] at hroom
      omega
  | waits =>
    refine .inr ?_
    rw [hp] at hsuspended htold
    cases hset : s.initDone with
    | true => exact ⟨.parent, by simp [step, stepParent, hp, hset]⟩
    | false =>
      apply child_goes_on hready h hsuspended
      · intro hc
        have hr : inj.resumeAfterInitialization = false := by
          rw [← Bool.not_eq_true]
          exact fun hr => (h.left hr).2.1 hp
        rw [h.tells hr (.inr hc)] at hset
        cases hset
      · exact fun hc => htold (by rw [hc]; rfl) rfl
  | suspends => exact .inr ⟨.parent, by simp [step, stepParent, hp]⟩
  | signals => exact .inr ⟨.parent, by simp [step, stepParent, hp]⟩
  | returned =>
    rw [hp] at hsuspended htold
    cases hr : inj.resumeAfterInitialization with
    | true =>
      rw [hr] at hsuspended
      by_cases hc : s.child = .runs
      · exact .inl ⟨by rw [hp, hr]; rfl, hc, h.hooked (.inr (.inr hc)), hsuspended⟩
      · exact .inr (child_goes_on hready h hsuspended hc fun hc => htold (by rw [hc]; rfl) rfl)
    | false => exact .inr ⟨.parent, by simp [step, stepParent, hp, hr]⟩
  | failed | overlooked =>
    have hunfailed := h.unfailed
    rw [hp] at hunfailed
    cases hunfailed
  | resumed =>
    rw [hp] at hsuspended htold
    have hr : inj.resumeAfterInitialization = false := by
      rw [← Bool.not_eq_true]
      exact fun hr => (h.left hr).2.2.2.2 hp
    by_cases hc : s.child = .runs
    · exact .inl ⟨by rw [hp, hr]; rfl, hc, h.hooked (.inr (.inr hc)), hsuspended⟩
    · exact .inr (child_goes_on hready h hsuspended hc fun hc => htold (by rw [hc]; rfl) rfl)

/-! ## How long it takes -/

/-- The steps that are left, besides writing. -/
def Parent.left : Parent → Nat
  | .writes _ => 7
  | .resumes => 6
  | .tells _ => 5
  | .waits => 4
  | .suspends => 3
  | .signals => 2
  | .returned => 1
  | .failed => 1
  | .resumed => 0
  | .overlooked => 0

def Child.left : Child → Nat
  | .starts => 5
  | .reads => 4
  | .enables => 3
  | .signals => 2
  | .waits => 1
  | .runs => 0
  | .ended _ => 0

theorem chain_left (written : Nat) : (chain written).left = 0 := by
  rcases chain_cases written with heq | heq <;> rw [heq] <;> rfl

/-- A byte that is still to be written is to be read after that. -/
def State.left (inj : Injection) (s : State) : Nat :=
  2 * (s.parent.rest inj.after).length + s.pipe.length + s.parent.left + s.child.left

theorem step_left (s : State) (e : Event) (s' : State) (hs : step inj capacity s e = some s') :
    s'.left inj < s.left inj := by
  cases e with
  | write n =>
    -- A write moves bytes from the parent's count to the pipe's, where they count less.
    simp only [step] at hs
    cases hp : s.parent with
    | writes rest =>
      simp only [hp, write, Option.ite_none_right_eq_some, Option.some.injEq] at hs
      obtain ⟨⟨hone, hle, -⟩, rfl⟩ := hs
      simp only [State.left, hp, Parent.rest, Parent.left, List.length_append, List.length_drop, List.length_take]
      omega
    | tells rest =>
      simp only [hp, write, Option.ite_none_right_eq_some, Option.some.injEq] at hs
      obtain ⟨-, ⟨hone, hle, -⟩, rfl⟩ := hs
      simp only [State.left, hp, Parent.rest, Parent.left, List.length_append, List.length_drop, List.length_take]
      omega
    | _ =>
      rw [hp] at hs
      cases hs
  | parent =>
    simp only [step, stepParent] at hs
    cases hp : s.parent with
    | writes rest =>
      simp only [hp, Option.ite_none_right_eq_some, Option.some.injEq] at hs
      obtain ⟨rfl, rfl⟩ := hs
      split
      · simp [State.left, hp, Parent.rest, Parent.left]
      · simp only [State.left, hp, Parent.rest, Parent.left, List.length_append, List.length_nil]
        omega
    | tells rest =>
      simp only [hp, Option.ite_none_right_eq_some, Option.some.injEq] at hs
      obtain ⟨-, rfl⟩ := hs
      cases inj.resumeAfterInitialization with
      | true =>
        simp only [State.left, hp, Parent.rest, Parent.left, if_true, List.length_nil]
        omega
      | false =>
        simp only [State.left, hp, Parent.rest, Parent.left, Bool.false_eq_true, if_false, List.length_nil]
        omega
    | waits =>
      simp only [hp, Option.ite_none_right_eq_some, Option.some.injEq] at hs
      obtain ⟨-, rfl⟩ := hs
      simp [State.left, hp, Parent.rest, Parent.left]
    | returned | failed =>
      simp only [hp, Option.ite_none_left_eq_some, Option.some.injEq] at hs
      obtain ⟨-, rfl⟩ := hs
      simp [State.left, hp, Parent.rest, Parent.left]
    | resumed | overlooked =>
      rw [hp] at hs
      cases hs
    | _ =>
      simp only [hp, Option.some.injEq] at hs
      subst hs
      simp [State.left, hp, Parent.rest, Parent.left]
  -- What is read is gone from the pipe; the last byte takes the thread to its next stage.
  | read n =>
    simp only [step, Option.ite_none_right_eq_some, Option.some.injEq] at hs
    obtain ⟨⟨-, hc, -, hone, hle⟩, rfl⟩ := hs
    simp only [State.left, hc, List.length_drop]
    cases inj.done (s.reads ++ [s.pipe.take n]) with
    | true =>
      simp only [Child.left, if_true]
      omega
    | false =>
      simp only [Child.left, Bool.false_eq_true, if_false]
      omega
  | child =>
    simp only [step, stepChild, Option.ite_none_right_eq_some] at hs
    obtain ⟨-, hs⟩ := hs
    cases hc : s.child with
    | starts =>
      simp only [hc, Option.some.injEq] at hs
      subst hs
      simp only [State.left, hc]
      repeat' split
      all_goals
        simp only [Child.left]
        omega
    | reads =>
      simp only [hc, Option.ite_none_right_eq_some, Option.some.injEq] at hs
      obtain ⟨-, rfl⟩ := hs
      simp [State.left, hc, Child.left]
    | enables =>
      simp only [hc, Option.some.injEq] at hs
      subst hs
      simp only [State.left, hc]
      split
      · simp [Child.left]
      · rw [chain_left]
        simp [Child.left]
    | signals =>
      simp only [hc, Option.some.injEq] at hs
      subst hs
      simp [State.left, hc, Child.left]
    | waits =>
      simp only [hc, Option.ite_none_right_eq_some, Option.some.injEq] at hs
      obtain ⟨-, rfl⟩ := hs
      simp only [State.left, hc, chain_left]
      simp [Child.left]
    | runs | ended =>
      rw [hc] at hs
      cases hs

theorem inv_run (hready : inj.host.Ready) {events : List Event}
    (hr : run (step inj capacity) (start inj) events = some s) : Inv inj s :=
  run_inv (step inj capacity) (fun _ _ _ h hs => step_inv hready h hs) inv_start hr

theorem failing_run (hfails : ¬ inj.host.Ready) {events : List Event}
    (hr : run (step inj capacity) (start inj) events = some s) : Failing inj s :=
  run_inv (step inj capacity) (fun _ _ _ h hs => step_failing hfails h hs) failing_start hr

/-- Injecting a process comes to an end, whoever goes first: every run is short, and one that cannot go on has
finished. -/
structure Completes (inj : Injection) (capacity : Nat) : Prop where
  short : ∀ events s, run (step inj capacity) (start inj) events = some s →
    events.length ≤ 2 * (inj.before ++ inj.after).length + 12
  finished : ∀ events s, run (step inj capacity) (start inj) events = some s →
    (∀ e, step inj capacity s e = none) → Finished inj s

/-- Where something fails, no run ends as it should. -/
theorem not_finished (hfails : ¬ inj.host.Ready) {events : List Event}
    (hr : run (step inj capacity) (start inj) events = some s) : ¬ Finished inj s := by
  intro hfinished
  have hover : s.parent ≠ .overlooked := by
    rw [hfinished.parent]
    split <;> simp
  have hunhooked := ((failing_run hfails hr).unhooked hover).2.1
  rw [hfinished.hooked] at hunhooked
  cases hunhooked

/-- What is written before the process runs does not fit: as much as does is written, and the thread that should read it
is suspended. -/
theorem stuck_of_long (hcapacity : 0 < capacity) (hlong : capacity < inj.before.length) :
    ∃ events s, run (step inj capacity) (start inj) events = some s ∧ (∀ e, step inj capacity s e = none) ∧
      s.child = .starts := by
  let full : State := { parent := .writes (inj.before.drop capacity), pipe := inj.before.take capacity }
  have hfull : full.pipe.length = capacity := by simp [full, Nat.le_of_lt hlong]
  have hrest : inj.before.drop capacity ≠ [] := by
    rw [ne_eq, List.drop_eq_nil_iff]
    omega
  refine ⟨[.write capacity], full, ?_, fun e => ?_, rfl⟩
  · have hguard : 1 ≤ capacity ∧ capacity ≤ inj.before.length ∧ 0 + capacity ≤ capacity := by omega
    have hwrite : write capacity (start inj) inj.before capacity .writes = some full := if_pos hguard
    simp only [run, step, start] at hwrite ⊢
    rw [hwrite]
    rfl
  · cases e with
    | write n =>
      have hguard : ¬(1 ≤ n ∧ n ≤ (inj.before.drop capacity).length ∧ full.pipe.length + n ≤ capacity) := by omega
      simp only [step, full, write]
      exact if_neg hguard
    | parent =>
      simp only [step, full, stepParent]
      exact if_neg hrest
    | read n => rfl
    | child => rfl

/-- It does just when nothing fails and what is written before the process runs fits into the pipe. -/
theorem completes_iff (hcapacity : 0 < capacity) (hne : inj.before ++ inj.after ≠ [])
    (hdone : ∀ reads, reads.flatten = inj.before ++ inj.after → inj.done reads = true) :
    Completes inj capacity ↔ inj.host.Ready ∧ inj.before.length ≤ capacity := by
  constructor
  · intro h
    constructor
    · by_contra hfails
      obtain ⟨events, s, hrun, hstuck⟩ := exists_run_stuck (step inj capacity) step_left (start inj)
      exact not_finished hfails hrun (h.finished _ _ hrun hstuck)
    · by_contra hlong
      obtain ⟨events, s, hrun, hstuck, hchild⟩ := stuck_of_long hcapacity (not_le.1 hlong)
      have hruns := (h.finished _ _ hrun hstuck).child
      rw [hchild] at hruns
      cases hruns
  · rintro ⟨hready, hfits⟩
    constructor
    · intro events s hr
      have hlen := run_length (step inj capacity) step_left events hr
      simp only [State.left, start, Parent.rest, Parent.left, Child.left, List.length_nil] at hlen
      omega
    · intro events s hr hstuck
      rcases goes_on hready (inv_run hready hr) hfits hcapacity hne hdone with hfinished | ⟨e, he⟩
      · exact hfinished
      · rw [hstuck e] at he
        cases he

/-- A process that is to stay suspended is told one byte. -/
def oneByte : Injection where
  before := []
  after := [1]
  resumeAfterInitialization := false
  done reads := reads = [[1]]

/-- The process waits where it is suspended. -/
def suspendedInTime : List Event :=
  [.parent, .parent, .write 1, .parent, .child, .read 1, .child, .child, .parent, .parent, .parent]

/-- The event stays set: the process does not wait for the thread that suspends it, and may be running by then. -/
example : (run (step oneByte 1) (start oneByte)
    [.parent, .parent, .write 1, .parent, .child, .read 1, .child, .child, .child, .parent, .parent]).map (·.child) =
      some .runs := rfl

/-- A 32-bit client does not inject a 64-bit process; if it was to stay suspended, its maker resumes it unhooked. -/
example : (run (step { oneByte with host := { win64 := false } } 1) (start oneByte)
    [.parent, .parent, .child]).map (fun s => (s.child, s.hooked)) = some (.runs, false) := rfl

end

/-! ## The hook of the client

Wherever the reads cut what it writes, the reader keeps in step with one that
reads everything at once, or has gone on to the port name before it. -/

section
open Hook

/-- Both wait for the same kind of string. -/
def SameMode : Mode → Mode → Prop
  | .path, .path => True
  | .replacement _, .replacement _ => True
  | .portName, .portName => True
  | _, _ => False

/-- `whole` reads everything at once, up to where `st` is. -/
def Ahead (st whole : Parse) : Prop :=
  st.portName.isSome ∨ whole.portName = none ∧
    (st.mode = .portName ∨ SameMode st.mode whole.mode ∧ st.cur.length ≤ whole.cur.length)

theorem Ahead.cut {st whole : Parse} (h : Ahead st whole) : Ahead st.cut whole := by
  rcases h with hdone | ⟨hwhole, hmode | ⟨hsame, -⟩⟩
  · exact .inl hdone
  · exact .inr ⟨hwhole, .inl (by simp [Parse.cut, hmode])⟩
  · refine .inr ⟨hwhole, .inr ⟨?_, Nat.zero_le _⟩⟩
    obtain ⟨registered, mode, cur, portName⟩ := st
    obtain ⟨registered', mode', cur', portName'⟩ := whole
    cases mode <;> cases mode' <;> exact hsame

theorem Ahead.feed {st whole : Parse} (h : Ahead st whole) (b : UInt8) : Ahead (st.feed b) (whole.feed b) := by
  obtain ⟨registered, mode, cur, name⟩ := st
  obtain ⟨registered', mode', cur', name'⟩ := whole
  rcases h with hdone | ⟨hwhole, h⟩
  · exact .inl (Parse.feed_portName hdone b)
  by_cases hb : b = 0
  swap
  · simp only [Parse.feed, ne_eq, hb, not_false_eq_true, if_true]
    refine .inr ⟨hwhole, h.imp_right ?_⟩
    rintro ⟨hsame, hlen⟩
    refine ⟨hsame, ?_⟩
    simpa using hlen
  subst hb
  rcases h with hmode | ⟨hsame, hlen⟩
  · -- it waits for the end of the port name only
    cases hmode
    exact .inl rfl
  cases mode' with
  | path =>
    cases mode with
    | path =>
      by_cases hcur : cur = []
      · refine .inr ⟨?_, .inl (by simp [Parse.feed, hcur])⟩
        by_cases hcur' : cur' = [] <;> simpa [Parse.feed, hcur'] using hwhole
      · have hcur' : cur' ≠ [] := by
          intro hnil
          rw [hnil] at hlen
          exact hcur (List.length_eq_zero_iff.1 (Nat.le_zero.1 hlen))
        refine .inr ⟨?_, .inr ?_⟩
        · simpa [Parse.feed, hcur'] using hwhole
        · simp [Parse.feed, hcur, hcur', SameMode]
    | replacement _ => exact hsame.elim
    | portName => exact hsame.elim
  | replacement compilerPath =>
    cases mode with
    | path => exact hsame.elim
    | replacement _ => exact .inr ⟨by simpa [Parse.feed] using hwhole, .inr (by simp [Parse.feed, SameMode])⟩
    | portName => exact hsame.elim
  | portName =>
    cases mode with
    | path => exact hsame.elim
    | replacement _ => exact hsame.elim
    | portName => exact .inl rfl

theorem Ahead.feedAll (bytes : Bytes) : ∀ {st whole : Parse}, Ahead st whole →
    Ahead (st.feedAll bytes) (whole.feedAll bytes) := by
  induction bytes with
  | nil => exact id
  | cons b bytes ih => exact fun h => ih (h.feed b)

/-- The reader that is ahead has the port name when all has been read. -/
theorem Ahead.buffers (buffers : List Bytes) : ∀ {st whole : Parse}, Ahead st whole →
    (whole.feedAll buffers.flatten).portName.isSome → (st.buffers buffers).portName.isSome := by
  induction buffers with
  | nil =>
    intro st whole h hall
    rcases h with hdone | ⟨hwhole, -⟩
    · exact hdone
    · rw [List.flatten_nil, Parse.feedAll_nil, hwhole] at hall
      cases hall
  | cons buffer buffers ih =>
    intro st whole h hall
    rw [Parse.buffers]
    split
    · next hdone => exact hdone
    · rw [List.flatten_cons, Parse.feedAll_append] at hall
      exact ih (h.cut.feedAll buffer) hall

variable {compilerFiles : List CompilerDescription} {portName : Bytes}

/-- `Initialize` ends wherever its reads cut the bytes. -/
theorem initialize_ends (hfiles : ∀ desc ∈ compilerFiles, desc.Ok) (hport : 0 ∉ portName) {buffers : List Bytes}
    (hall : buffers.flatten = hookProcess compilerFiles portName) : (Hook.Initialize {} buffers).isSome := by
  have hstart : Ahead {} {} := .inr ⟨rfl, .inr ⟨trivial, Nat.le_refl _⟩⟩
  have hwhole : (Parse.feedAll {} buffers.flatten).portName.isSome := by
    rw [hall, parse_stream hfiles hport]
    rfl
  have hend := hstart.buffers buffers hwhole
  have hspec := initialize_spec buffers {} {} ⟨rfl, rfl, by simp, by simp, by simp⟩
  rw [if_pos hend] at hspec
  obtain ⟨r, hr, -⟩ := hspec
  rw [hr]
  rfl

/-- `hookProcess` of the client. Its `Initialize` reads again when a read fails. -/
def clientInjection (compilerFiles : List CompilerDescription) (portName : Bytes) (resume : Bool) (host : Host) :
    Injection where
  before := hookProcess compilerFiles portName
  after := []
  resumeAfterInitialization := resume
  done reads := (Hook.Initialize {} reads).isSome
  host := host

/-- **A client hooks a process if and only if nothing fails and the pipe holds all it has to say.** Whatever the
compilers and the port name are, and however the reads cut the bytes, making a process comes to an end, with the process
hooked and running, in every order of the steps of both; unless something fails on the way to `Initialize`, when it
never ends so, or the bytes do not fit into the pipe, when it does not in some order, since they are written while the
process that is to read them is suspended. -/
theorem client_injection_completes_iff (hfiles : ∀ desc ∈ compilerFiles, desc.Ok) (hport : 0 ∉ portName) (resume : Bool)
    (host : Host) {capacity : Nat} (hcapacity : 0 < capacity) :
    Completes (clientInjection compilerFiles portName resume host) capacity ↔
      host.Ready ∧ (hookProcess compilerFiles portName).length ≤ capacity := by
  apply completes_iff hcapacity
  · simp [clientInjection, hookProcess]
  · intro reads hreads
    rw [clientInjection, List.append_nil] at hreads
    exact initialize_ends hfiles hport hreads

theorem client_injection_completes_one : Completes (clientInjection [⟨[65], []⟩] [80] true { win64 := false }) 6 ↔
    ({ win64 := false } : Host).Ready ∧ (hookProcess [⟨[65], []⟩] [80]).length ≤ 6 := by
  apply client_injection_completes_iff
  · intro desc hdesc
    rw [List.mem_singleton.1 hdesc]
    exact ⟨by decide, by decide, by decide⟩
  · decide
  · decide

end

/-! ## The hook for mapped files -/

section
open MapFiles

/-- `hookProcess` for mapped files. -/
def mapFilesInjection (dirs : List Listing) (resume : Bool) (host : Host) : Injection where
  before := []
  after := writeMappings dirs
  resumeAfterInitialization := resume
  done reads := (MapFiles.Initialize reads.flatten).isSome
  givesUp := true
  host := host

/-- `Initialize` ends, if only at a directory that has no files any more. -/
theorem initialize_mappings_ends {dirs : List Listing} {ms : List FileMapping} (hlists : List.Forall₂ Lists dirs ms)
    (hshort : ∀ m ∈ ms, m.ShortNames) (hsizes : ∀ m ∈ ms, ∀ n ∈ m.sizes, n < 2 ^ 31) :
    (MapFiles.Initialize (writeMappings dirs)).isSome := by
  have hnames := shortNames_listings hlists hshort
  have hlt : ∀ d ∈ dirs.flatten, d.2.length < 2 ^ 31 := by
    intro d hd
    obtain ⟨m, hm, hn⟩ := sizes_listings hlists d hd
    exact hsizes m hm _ hn
  rw [writeMappings_eq]
  by_cases hempty : ∃ d ∈ dirs.flatten, d.2.length = 0
  · obtain ⟨before, e, after, hsplit, hzero, hbefore⟩ := first_empty dirs.flatten hempty
    have hmem : ∀ b ∈ before, b ∈ dirs.flatten := by
      intro b hb
      simp [hsplit, hb]
    obtain ⟨fuel, dirName, hrun⟩ := initialize_write before (fun b hb => hnames b (hmem b hb))
      (fun b hb => ⟨hbefore b hb, hlt b (hmem b hb)⟩) (writeDirEntry e ++ (after.flatMap writeDirEntry ++ writeEnd))
    have hstream : dirs.flatten.flatMap writeDirEntry ++ writeEnd =
        before.flatMap writeDirEntry ++ (writeDirEntry e ++ (after.flatMap writeDirEntry ++ writeEnd)) := by
      simp [hsplit]
    have hentry : writeDirEntry e = writeDir e.1 0 := by
      rw [writeDirEntry, hzero, List.length_eq_zero_iff.1 hzero]
      simp
    rw [hstream, hrun, readDirs, hentry, readDir_write_zero]
    rfl
  · have hok : ∀ d ∈ dirs.flatten, 0 < d.2.length ∧ d.2.length < 2 ^ 31 := by
      intro d hd
      refine ⟨Nat.pos_of_ne_zero fun hzero => hempty ⟨d, hd, hzero⟩, hlt d hd⟩
    obtain ⟨fuel, dirName, hrun⟩ := initialize_write dirs.flatten hnames hok writeEnd
    have hend := readDir_writeEnd dirName []
    rw [List.append_nil] at hend
    rw [hrun, readDirs, hend]
    rfl

/-- **Mapped files never keep a process from running.** Whatever mappings are passed on, and however small the pipe is,
making a process comes to an end in every order of the steps, with the process hooked and running, if and only if
nothing fails on the way to `Initialize`. -/
theorem mapFiles_injection_completes {dirs : List Listing} {ms : List FileMapping}
    (hlists : List.Forall₂ Lists dirs ms) (hshort : ∀ m ∈ ms, m.ShortNames)
    (hsizes : ∀ m ∈ ms, ∀ n ∈ m.sizes, n < 2 ^ 31) (resume : Bool) (host : Host) {capacity : Nat}
    (hcapacity : 0 < capacity) : Completes (mapFilesInjection dirs resume host) capacity ↔ host.Ready := by
  have hiff : Completes (mapFilesInjection dirs resume host) capacity ↔ host.Ready ∧ 0 ≤ capacity := by
    apply completes_iff hcapacity
    · simp [mapFilesInjection, writeMappings, writeEnd]
    · intro reads hreads
      rw [mapFilesInjection, List.nil_append] at hreads
      simp only [mapFilesInjection, hreads]
      exact initialize_mappings_ends hlists hshort hsizes
  exact hiff.trans (and_iff_left (Nat.zero_le _))

theorem mapFiles_injection_completes_one : Completes
    (mapFilesInjection [(FileMapping.build splitPath [.addFile [100, 92, 97] [120]]).listing] false {}) 1 := by
  apply (mapFiles_injection_completes (.cons (lists_listing _) .nil) ?_ ?_ false {} (by decide)).2
  · exact ⟨by decide, rfl⟩
  · unfold FileMapping.ShortNames
    decide
  · decide

end

end BuildPal.Client.Inject
