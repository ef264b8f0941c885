import BuildPal.Lib.Runs
import Mathlib.Data.List.Induction
/-!
# The `CreateProcess` that a compiler is launched with

`OverrideCreateProcess` of `runner.py` puts the `create_process` of a session's
file maps in the place of `subprocess._winapi.CreateProcess`, and puts back what
it found there. Launches overlap, and need not end in the reverse order. We say
exactly after which orders the original function is back.
-/
open BuildPal.Lib

namespace BuildPal.CreateProcess

/-! ## The override -/

/-- `map_files.FileMap` objects, by number. -/
abbrev FileMap := Nat
abbrev LaunchId := Nat

/-- What `subprocess._winapi.CreateProcess` is. -/
inductive Function where
  | original
  /-- The `create_process` of a `FileMapComposition`. -/
  | createProcess (fileMaps : List FileMap)
  deriving DecidableEq, Repr

structure OverrideCreateProcess where
  fileMapComposition : Option (List FileMap)
  save : Option Function := none
  deriving DecidableEq, Repr

namespace OverrideCreateProcess

def new (fileMaps : List FileMap) : OverrideCreateProcess where
  fileMapComposition := if fileMaps = [] then none else some fileMaps

/-- `__enter__`. -/
def enter (o : OverrideCreateProcess) (current : Function) : OverrideCreateProcess × Function :=
  match o.fileMapComposition with
  | none => (o, current)
  | some fileMaps => ({ o with save := some current }, .createProcess fileMaps)

/-- `__exit__`. -/
def exit (o : OverrideCreateProcess) (current : Function) : OverrideCreateProcess × Function :=
  match o.save with
  | none => (o, current)
  | some save => ({ o with save := none }, save)

end OverrideCreateProcess

/-- What `run_compiler` finds: the map of the overridden files, if there are any, and those of the header repository. -/
structure Maps where
  overrides : Option FileMap
  globalMap : FileMap
  tempMap : FileMap
  deriving DecidableEq, Repr

/-- `file_maps`. -/
def Maps.fileMaps (m : Maps) : List FileMap := m.overrides.toList ++ [m.globalMap, m.tempMap]

structure Launch where
  id : LaunchId
  maps : Maps
  deriving DecidableEq, Repr

/-- `active` are the contexts that have been entered and not left. -/
structure System where
  createProcess : Function := .original
  active : List (LaunchId × OverrideCreateProcess) := []
  entered : List LaunchId := []

namespace System

def enter (s : System) (l : Launch) : System :=
  let r := (OverrideCreateProcess.new l.maps.fileMaps).enter s.createProcess
  { createProcess := r.2, active := s.active ++ [(l.id, r.1)], entered := s.entered ++ [l.id] }

def leave (s : System) (id : LaunchId) (o : OverrideCreateProcess) : System :=
  { s with createProcess := (o.exit s.createProcess).2, active := s.active.filter (·.1 ≠ id) }

end System

/-- A launch enters its context and goes on to its first yield; some time after that, it leaves. -/
inductive Event where
  | enter (l : Launch)
  | leave (id : LaunchId)
  deriving DecidableEq, Repr

def step (s : System) : Event → Option System
  | .enter l => if l.id ∈ s.entered then none else some (s.enter l)
  | .leave id => (s.active.lookup id).map (s.leave id)

/-- What the overrides are to ensure in a run. -/
structure Scoped (events : List Event) : Prop where
  restored : ∀ pre post s, events = pre ++ post → run step {} pre = some s → s.active = [] →
    s.createProcess = .original
  own : ∀ pre l post s, events = pre ++ .enter l :: post → run step {} (pre ++ [.enter l]) = some s →
    s.createProcess = .createProcess l.maps.fileMaps

/-- One block after the other, each from a launch's entering to the same launch's leaving. -/
inductive Blocks : List Event → Prop where
  | nil : Blocks []
  | block {events : List Event} (l : Launch) (inner : List Event) (h : Blocks events) :
    Blocks (events ++ .enter l :: inner ++ [.leave l.id])

/-! ## What is saved -/

/-- The launches that have entered their contexts. -/
def launched (events : List Event) : List LaunchId :=
  events.filterMap fun | .enter l => some l.id | .leave _ => none

/-- An active context was entered once, and saved the original function if what came before was blocks. -/
def SavedAt (events : List Event) (id : LaunchId) (o : OverrideCreateProcess) : Prop :=
  ∃ pre l inner f, events = pre ++ .enter l :: inner ∧ l.id = id ∧ o.save = some f ∧ (f = .original ↔ Blocks pre)

structure Saved (events : List Event) (s : System) : Prop where
  current : s.createProcess = .original ↔ Blocks events
  active : ∀ p ∈ s.active, SavedAt events p.1 p.2
  entered : s.entered = launched events
  once : (launched events).Nodup

theorem saved_init : Saved [] {} :=
  ⟨⟨fun _ => .nil, fun _ => rfl⟩, fun _ h => (by cases h), rfl, List.nodup_nil⟩

theorem SavedAt.concat {events : List Event} {id : LaunchId} {o : OverrideCreateProcess} (h : SavedAt events id o)
    (e : Event) : SavedAt (events ++ [e]) id o := by
  obtain ⟨pre, l, inner, f, rfl, hid, hsave, hf⟩ := h
  exact ⟨pre, l, inner ++ [e], f, by simp, hid, hsave, hf⟩

theorem launched_append (as bs : List Event) : launched (as ++ bs) = launched as ++ launched bs :=
  List.filterMap_append

/-- A launch enters its context at one place only. -/
theorem entering_unique {pre pre' inner inner' : List Event} {l l' : Launch}
    (heq : pre ++ .enter l :: inner = pre' ++ .enter l' :: inner') (hid : l.id = l'.id)
    (honce : (launched (pre ++ .enter l :: inner)).Nodup) : pre = pre' := by
  have hpart : ∀ {a b c d : List Event} {k k' : Launch}, a ++ .enter k :: b = c ++ .enter k' :: d → k.id = k'.id →
      (launched (a ++ .enter k :: b)).Nodup → a.length < c.length → False := by
    intro a b c d k k' heq hid honce hlt
    obtain ⟨e, he, -⟩ := List.append_eq_append_iff.1 heq |>.resolve_right (fun ⟨e, he, _⟩ => by
      have := congrArg List.length he
      rw [List.length_append] at this
      omega)
    subst he
    cases e with
    | nil =>
      rw [List.append_nil] at hlt
      omega
    | cons first e =>
      have hfirst : first = .enter k := by
        rw [List.append_assoc] at heq
        exact ((List.cons.inj (List.append_cancel_left heq)).1).symm
      subst hfirst
      rw [heq, List.append_assoc, launched_append] at honce
      have hboth : launched (Event.enter k :: e ++ Event.enter k' :: d) = k.id :: (launched e ++ k'.id :: launched d) := by
        rw [List.cons_append]
        simp [launched]
      rw [hboth] at honce
      have := (List.nodup_cons.1 (List.nodup_append.1 honce).2.1).1
      simp [hid] at this
  rcases Nat.lt_trichotomy pre.length pre'.length with hlt | hlen | hlt
  · exact (hpart heq hid honce hlt).elim
  · exact (List.append_inj heq hlen).1
  · exact (hpart heq.symm hid.symm (heq ▸ honce) hlt).elim

theorem not_blocks_enter (events : List Event) (l : Launch) : ¬ Blocks (events ++ [.enter l]) := by
  intro h
  generalize heq : events ++ [Event.enter l] = es at h
  cases h with
  | nil => simp at heq
  | block l' inner h =>
    have := (List.append_inj' heq rfl).2
    cases this

/-- A block that ends here is the one that began where the same launch entered. -/
theorem blocks_leave_iff {pre inner : List Event} {l : Launch} (honce : (launched (pre ++ .enter l :: inner)).Nodup) :
    Blocks (pre ++ .enter l :: inner ++ [.leave l.id]) ↔ Blocks pre := by
  constructor
  · intro h
    generalize heq : pre ++ Event.enter l :: inner ++ [Event.leave l.id] = es at h
    cases h with
    | nil => simp at heq
    | @block events l' inner' h =>
      obtain ⟨hinit, hlast⟩ := List.append_inj' heq rfl
      have hid : l.id = l'.id := by simpa using hlast
      rw [entering_unique hinit hid honce]
      exact h
  · exact Blocks.block l inner

section Step
variable {events : List Event} {s s' : System}

theorem new_maps (m : Maps) :
    OverrideCreateProcess.new m.fileMaps = { fileMapComposition := some m.fileMaps } := by
  have hne : m.fileMaps ≠ [] := by simp [Maps.fileMaps]
  rw [OverrideCreateProcess.new, if_neg hne]

/-- The header repository always has maps, so that a launch always sees its own function. -/
theorem enter_eq (s : System) (l : Launch) :
    s.enter l =
      { createProcess := .createProcess l.maps.fileMaps
        active := s.active ++ [(l.id, ⟨some l.maps.fileMaps, some s.createProcess⟩)]
        entered := s.entered ++ [l.id] } := by
  rw [System.enter, new_maps]
  rfl

theorem step_saved (h : Saved events s) {e : Event} (hs : step s e = some s') : Saved (events ++ [e]) s' := by
  cases e with
  | enter l =>
    simp only [step] at hs
    split at hs
    · cases hs
    · next hnew =>
      cases hs
      rw [enter_eq]
      have hlaunched : launched (events ++ [.enter l]) = launched events ++ [l.id] := launched_append _ _
      refine ⟨⟨fun hcur => (by cases hcur), fun hb => absurd hb (not_blocks_enter events l)⟩, fun p hp => ?_, ?_, ?_⟩
      · rcases List.mem_append.1 hp with hold | hown
        · exact (h.active p hold).concat _
        · obtain rfl := List.mem_singleton.1 hown
          exact ⟨events, l, [], s.createProcess, rfl, rfl, rfl, h.current⟩
      · rw [hlaunched, h.entered]
      · rw [hlaunched]
        rw [h.entered] at hnew
        exact List.nodup_append.2 ⟨h.once, by simp, fun a ha b hb hab => hnew (by
          obtain rfl := List.mem_singleton.1 hb
          exact hab ▸ ha)⟩
  | leave id =>
    obtain ⟨o, hlook, rfl⟩ := Option.map_eq_some_iff.1 hs
    have hmem : (id, o) ∈ s.active := by
      have := List.lookup_eq_some_iff.1 hlook
      obtain ⟨l₁, l₂, heq, -⟩ := this
      simp [heq]
    have hlaunched : launched (events ++ [.leave id]) = launched events := by
      rw [launched_append]
      exact List.append_nil _
    obtain ⟨pre, l, inner, f, rfl, rfl, hsave, hf⟩ := h.active _ hmem
    have hback : (s.leave l.id o).createProcess = f := by
      have hsave' : o.save = some f := hsave
      simp [System.leave, OverrideCreateProcess.exit, hsave']
    refine ⟨?_, fun p hp => (h.active p (List.mem_filter.1 hp).1).concat _, ?_, ?_⟩
    · rw [hback, hf, blocks_leave_iff h.once]
    · rw [hlaunched]
      exact h.entered
    · rw [hlaunched]
      exact h.once

theorem run_saved (events : List Event) : ∀ s, run step {} events = some s → Saved events s := by
  induction events using List.reverseRecOn with
  | nil =>
    intro s hrun
    cases hrun
    exact saved_init
  | append_singleton events e ih =>
    intro s hrun
    rw [run_concat] at hrun
    obtain ⟨s₀, hrun₀, hs⟩ := Option.bind_eq_some_iff.1 hrun
    exact step_saved (ih s₀ hrun₀) hs

end Step

/-! ## Main theorem -/

/-- **The override is scoped** in a run if and only if, whenever no context is active, the run so far is made of blocks.
What a launch sees until its first yield is its own function in every run. -/
theorem override_scoped (events : List Event) :
    Scoped events ↔
      ∀ pre post s, events = pre ++ post → run step {} pre = some s → s.active = [] → Blocks pre := by
  constructor
  · intro h pre post s hsplit hrun hnone
    exact (run_saved pre s hrun).current.1 (h.restored pre post s hsplit hrun hnone)
  · intro h
    refine ⟨fun pre post s hsplit hrun hnone => ?_, fun pre l post s _ hrun => ?_⟩
    · exact (run_saved pre s hrun).current.2 (h pre post s hsplit hrun hnone)
    · rw [run_concat] at hrun
      obtain ⟨s₀, -, hs⟩ := Option.bind_eq_some_iff.1 hrun
      simp only [step] at hs
      split at hs
      · cases hs
      · cases hs
        rw [enter_eq]

def launchA : Launch := ⟨0, none, 1, 2⟩
def launchB : Launch := ⟨1, none, 1, 3⟩

/-- The first of two launches that overlap is the first to leave: the second puts the first one's function back. -/
theorem overlapping_not_scoped :
    ¬ Scoped [.enter launchA, .enter launchB, .leave launchA.id, .leave launchB.id] := by
  intro h
  have := h.restored [.enter launchA, .enter launchB, .leave launchA.id, .leave launchB.id] [] _ rfl rfl rfl
  cases this

end BuildPal.CreateProcess
