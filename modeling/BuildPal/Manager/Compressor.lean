import Mathlib.Logic.Function.Basic
import BuildPal.Common.Message
import BuildPal.Lib.Runs
/-!
# Compressed files

`Compressor` of `buildpal/manager/compressor.py` compresses a file once for all
the sessions that ask for it, and keeps the last five by their paths. Requests
come from the event loop, a file is read and compressed by a thread of the pool,
and files change all the while. We say when the data a request ends with is
that of the file.
-/
open BuildPal.Lib BuildPal.Message

namespace BuildPal.Compressor

abbrev File := String
abbrev RequestId := Nat
abbrev JobId := Nat

/-! ## Dictionaries -/

section Dict
variable {V : Type}

def dictSet (d : List (File × V)) (file : File) (v : V) : List (File × V) := (file, v) :: d.filter (·.1 ≠ file)

def dictDel (d : List (File × V)) (file : File) : List (File × V) := d.filter (·.1 ≠ file)

theorem lookup_dictDel_other (d : List (File × V)) {file other : File} (h : other ≠ file) :
    (dictDel d file).lookup other = d.lookup other := by
  induction d with
  | nil => rfl
  | cons e d ih =>
    unfold dictDel at ih ⊢
    obtain ⟨name, v⟩ := e
    rw [List.filter_cons]
    by_cases hname : name = file
    · subst hname
      simp only [ne_eq, not_true, decide_false, Bool.false_eq_true, if_false, ih]
      rw [List.lookup_cons, beq_false_of_ne h]
    · simp only [ne_eq, hname, not_false_eq_true, decide_true, if_true, List.lookup_cons, ih]

theorem lookup_of_dictDel {d : List (File × V)} {file other : File} {v : V}
    (h : (dictDel d file).lookup other = some v) :
    d.lookup other = some v := by
  by_cases hne : other = file
  · subst hne
    obtain ⟨e, he, hkey⟩ : ∃ e ∈ dictDel d other, e.1 = other := by
      by_contra hn
      have hnone : (dictDel d other).lookup other = none := by
        rw [List.lookup_eq_none_iff]
        intro e he
        simpa using fun heq => hn ⟨e, he, heq.symm⟩
      rw [hnone] at h
      cases h
    exact absurd hkey (by simpa using (List.mem_filter.1 he).2)
  · rwa [lookup_dictDel_other d hne] at h

theorem lookup_dictSet_self (d : List (File × V)) (file : File) (v : V) : (dictSet d file v).lookup file = some v := by
  simp [dictSet]

theorem lookup_dictSet_other (d : List (File × V)) {file other : File} (v : V) (h : other ≠ file) :
    (dictSet d file v).lookup other = d.lookup other := by
  rw [dictSet, List.lookup_cons, beq_false_of_ne h]
  exact lookup_dictDel_other d h

end Dict

/-! ## The compressor -/

/-- How far `__do_compress` is, and what it has read. -/
inductive Phase where
  | submitted
  | reading (chunks : List Bytes)
  /-- The end of the file has been read, and everything is compressed. -/
  | compressed (chunks : List Bytes)
  /-- The lock is released again. -/
  | stored (chunks : List Bytes)
  /-- `notify_waiters` is scheduled. -/
  | scheduled (chunks : List Bytes)
  /-- `waiters` has no entry any more. -/
  | done
  /-- An exception, which nobody hears of. -/
  | failed
deriving DecidableEq

structure Job where
  file : File
  phase : Phase := .submitted
deriving DecidableEq

/-- What a request ends with. `seen` is what the file contained since the request. -/
structure Completion where
  request : RequestId
  data : Bytes
  seen : List Bytes
deriving DecidableEq

/-- The compressor, its jobs and the files. A list of waiters goes by the number of the job it was made for. `hit` is the
request that has found its file in `compressed_files`: the event loop is busy with it. `requested`, `seen`, `since`
(what a file contained since the last request for it) and `log` are not in the code. -/
structure System where
  compressedFiles : List File := []
  compressedFileData : List (File × Bytes) := []
  waiters : File → Option JobId := fun _ => none
  lists : JobId → List RequestId := fun _ => []
  jobs : JobId → Job := fun _ => { file := "" }
  nextJob : Nat := 0
  nextRequest : Nat := 0
  /-- The calls of `notify_waiters` the event loop has before it. -/
  notifications : List (Bytes × JobId) := []
  hit : Option (File × RequestId) := none
  content : File → Option Bytes
  requested : RequestId → File := fun _ => ""
  seen : RequestId → List Bytes := fun _ => []
  since : File → List Bytes := fun _ => []
  log : List Completion := []

namespace System
variable (s : System)

def setPhase (j : JobId) (phase : Phase) : System :=
  { s with jobs := Function.update s.jobs j { s.jobs j with phase } }

/-- A request begins, and sees what its file contains. -/
def ask (file : File) : System :=
  { s with
    nextRequest := s.nextRequest + 1
    requested := Function.update s.requested s.nextRequest file
    seen := Function.update s.seen s.nextRequest (s.content file).toList
    since := Function.update s.since file (s.content file).toList }

/-- `compress_file`, up to where it releases the lock. -/
def compressFile (file : File) : System :=
  let r := s.nextRequest
  let s := s.ask file
  if file ∈ s.compressedFiles then { s with hit := some (file, r) }
  else
    match s.waiters file with
    | some j => { s with lists := Function.update s.lists j (s.lists j ++ [r]) }
    | none =>
      { s with
        jobs := Function.update s.jobs s.nextJob { file }
        waiters := Function.update s.waiters file (some s.nextJob)
        lists := Function.update s.lists s.nextJob [r]
        nextJob := s.nextJob + 1 }

def complete (r : RequestId) (data : Bytes) : System := { s with log := s.log ++ [⟨r, data, s.seen r⟩] }

/-- The rest of `compress_file`, without the lock; there is a `KeyError` if the file has been dropped meanwhile. -/
def deliver (file : File) (r : RequestId) : System :=
  let s := { s with hit := none }
  match s.compressedFileData.lookup file with
  | some data => s.complete r data
  | none => s

/-- Opening the file. -/
def openFile (j : JobId) : System :=
  match s.content (s.jobs j).file with
  | some _ => s.setPhase j (.reading [])
  | none => s.setPhase j .failed

/-- A read of at most `size` bytes. -/
def readFile (j : JobId) (chunks : List Bytes) (size : Nat) : System :=
  match s.content (s.jobs j).file with
  | none => s.setPhase j .failed
  | some content =>
    if (content.drop chunks.flatten.length).isEmpty then s.setPhase j (.compressed chunks)
    else s.setPhase j (.reading (chunks ++ [(content.drop chunks.flatten.length).take size]))

/-- The part under the lock: the oldest file is dropped if there are five, and the new one added. -/
def store (compress : List Bytes → Bytes) (j : JobId) (chunks : List Bytes) : System :=
  let file := (s.jobs j).file
  let add (s : System) : System :=
    { s.setPhase j (.stored chunks) with
      compressedFiles := s.compressedFiles ++ [file]
      compressedFileData := dictSet s.compressedFileData file (compress chunks) }
  if s.compressedFileData.length > 4 then
    match s.compressedFiles with
    | [] => s.setPhase j .failed
    | oldest :: rest =>
      let s := { s with compressedFiles := rest }
      if (s.compressedFileData.lookup oldest).isSome then
        add { s with compressedFileData := dictDel s.compressedFileData oldest }
      else s.setPhase j .failed
  else add s

/-- `call_soon_threadsafe`, again without the lock. -/
def schedule (j : JobId) (chunks : List Bytes) : System :=
  match s.compressedFileData.lookup (s.jobs j).file with
  | none => s.setPhase j .failed
  | some data =>
    match s.waiters (s.jobs j).file with
    | none => s.setPhase j (.scheduled chunks)
    | some l => { s.setPhase j (.scheduled chunks) with notifications := s.notifications ++ [(data, l)] }

/-- `notify_waiters`, until a callback raises. -/
def notify (data : Bytes) (waiters : List RequestId) : System :=
  { s with log := s.log ++ waiters.map fun r => ⟨r, data, s.seen r⟩ }

/-- The file is written, or created, or deleted. -/
def modify (file : File) (content : Option Bytes) : System :=
  { s with
    content := Function.update s.content file content
    seen := fun r => if s.requested r = file then s.seen r ++ content.toList else s.seen r
    since := Function.update s.since file (s.since file ++ content.toList) }

end System

inductive Event where
  | compressFile (file : File)
  | deliver
  | openFile (j : JobId)
  | readFile (j : JobId) (size : Nat)
  | store (j : JobId)
  | schedule (j : JobId)
  /-- `del self.waiters[file]`. -/
  | forget (j : JobId)
  /-- The event loop calls `notify_waiters`, which gets to so many of its callbacks. -/
  | notify (called : Nat)
  | modify (file : File) (content : Option Bytes)

/-- The event loop is free for another callback unless it is in `compress_file`. -/
def step (compress : List Bytes → Bytes) (s : System) : Event → Option System
  | .compressFile file => if s.hit.isSome then none else some (s.compressFile file)
  | .deliver => s.hit.map fun (file, r) => s.deliver file r
  | .openFile j => if j < s.nextJob ∧ (s.jobs j).phase = .submitted then some (s.openFile j) else none
  | .readFile j size =>
    match (s.jobs j).phase with
    | .reading chunks => if j < s.nextJob ∧ 0 < size ∧ size ≤ 256 * 1024 then some (s.readFile j chunks size) else none
    | _ => none
  | .store j =>
    match (s.jobs j).phase with
    | .compressed chunks => if j < s.nextJob then some (s.store compress j chunks) else none
    | _ => none
  | .schedule j =>
    match (s.jobs j).phase with
    | .stored chunks => if j < s.nextJob then some (s.schedule j chunks) else none
    | _ => none
  | .forget j =>
    match (s.jobs j).phase with
    | .scheduled _ =>
      if j < s.nextJob then
        some { s.setPhase j .done with waiters := Function.update s.waiters (s.jobs j).file none }
      else none
    | _ => none
  | .notify called =>
    if s.hit.isSome then none
    else
      match s.notifications with
      | [] => none
      | (data, l) :: rest => some { s.notify data ((s.lists l).take called) with notifications := rest }
  | .modify file content => some (s.modify file content)

/-- When a step is possible, and what it does. -/
def Steps (compress : List Bytes → Bytes) (s s' : System) : Event → Prop
  | .compressFile file => s.hit = none ∧ s' = s.compressFile file
  | .deliver => ∃ file r, s.hit = some (file, r) ∧ s' = s.deliver file r
  | .openFile j => j < s.nextJob ∧ (s.jobs j).phase = .submitted ∧ s' = s.openFile j
  | .readFile j size => ∃ chunks, j < s.nextJob ∧ (s.jobs j).phase = .reading chunks ∧ s' = s.readFile j chunks size
  | .store j => ∃ chunks, j < s.nextJob ∧ (s.jobs j).phase = .compressed chunks ∧ s' = s.store compress j chunks
  | .schedule j => ∃ chunks, j < s.nextJob ∧ (s.jobs j).phase = .stored chunks ∧ s' = s.schedule j chunks
  | .forget j => ∃ chunks, j < s.nextJob ∧ (s.jobs j).phase = .scheduled chunks ∧
      s' = { s.setPhase j .done with waiters := Function.update s.waiters (s.jobs j).file none }
  | .notify called => ∃ data l rest, s.hit = none ∧ s.notifications = (data, l) :: rest ∧
      s' = { s.notify data ((s.lists l).take called) with notifications := rest }
  | .modify file content => s' = s.modify file content

theorem step_cases {compress : List Bytes → Bytes} {s s' : System} {e : Event} (hs : step compress s e = some s') :
    Steps compress s s' e := by
  cases e with
  | compressFile file =>
    simp only [step] at hs
    split at hs
    · cases hs
    · next hfree => exact ⟨Option.not_isSome_iff_eq_none.1 hfree, (Option.some.inj hs).symm⟩
  | deliver =>
    obtain ⟨⟨file, r⟩, hhit, heq⟩ := Option.map_eq_some_iff.1 hs
    exact ⟨file, r, hhit, heq.symm⟩
  | openFile j =>
    obtain ⟨⟨hj, hphase⟩, heq⟩ := Option.ite_none_right_eq_some.1 hs
    exact ⟨hj, hphase, (Option.some.inj heq).symm⟩
  | readFile j size =>
    simp only [step] at hs
    split at hs
    · next chunks hphase =>
      obtain ⟨⟨hj, -⟩, heq⟩ := Option.ite_none_right_eq_some.1 hs
      exact ⟨chunks, hj, hphase, (Option.some.inj heq).symm⟩
    · cases hs
  | store j =>
    simp only [step] at hs
    split at hs
    · next chunks hphase =>
      obtain ⟨hj, heq⟩ := Option.ite_none_right_eq_some.1 hs
      exact ⟨chunks, hj, hphase, (Option.some.inj heq).symm⟩
    · cases hs
  | schedule j =>
    simp only [step] at hs
    split at hs
    · next chunks hphase =>
      obtain ⟨hj, heq⟩ := Option.ite_none_right_eq_some.1 hs
      exact ⟨chunks, hj, hphase, (Option.some.inj heq).symm⟩
    · cases hs
  | forget j =>
    simp only [step] at hs
    split at hs
    · next chunks hphase =>
      obtain ⟨hj, heq⟩ := Option.ite_none_right_eq_some.1 hs
      exact ⟨chunks, hj, hphase, (Option.some.inj heq).symm⟩
    · cases hs
  | notify called =>
    simp only [step] at hs
    split at hs
    · cases hs
    · next hfree =>
      split at hs
      · cases hs
      · next data l rest hn =>
        exact ⟨data, l, rest, Option.not_isSome_iff_eq_none.1 hfree, hn, (Option.some.inj hs).symm⟩
  | modify file content => exact (Option.some.inj hs).symm

/-! ## What is expected -/

/-- The job has not put its file among the compressed ones yet. -/
def Phase.Before : Phase → Prop
  | .submitted | .reading _ | .compressed _ => True
  | .stored _ | .scheduled _ | .done | .failed => False

/-- All that was read, once the end of the file was. -/
def Phase.taken : Phase → Option (List Bytes)
  | .compressed chunks | .stored chunks | .scheduled chunks => some chunks
  | .submitted | .reading _ | .done | .failed => none

section Freshness
variable (decompress : Bytes → Option Bytes)

/-- The data is the file as it was at some moment between the request and its completion. -/
def Completion.Fresh (c : Completion) : Prop := ∃ content ∈ c.seen, decompress c.data = some content

/-- A request finds compressed data, or a job that has read the file, only while the file is what it was then; and when a
job has come to the end of a file, it has read what the file contained at some moment since it was last asked for. -/
def Spares (s : System) : Event → Prop
  | .compressFile file =>
    if file ∈ s.compressedFiles then
      ∀ data, s.compressedFileData.lookup file = some data →
        ∃ content, s.content file = some content ∧ decompress data = some content
    else
      ∀ j, s.waiters file = some j → ∀ chunks, (s.jobs j).phase.taken = some chunks →
        s.content file = some chunks.flatten
  | .readFile j _ => ∀ chunks content, (s.jobs j).phase = .reading chunks → s.content (s.jobs j).file = some content →
    content.drop chunks.flatten.length = [] → chunks.flatten ∈ s.since (s.jobs j).file
  | _ => True

/-- There is one job for a file at a time, and what it has read its waiters have seen. -/
structure Fresh (compress : List Bytes → Bytes) (s : System) : Prop where
  named : ∀ file j, s.waiters file = some j → j < s.nextJob ∧ (s.jobs j).file = file ∧ (s.jobs j).phase ≠ .done
  awaited : ∀ j < s.nextJob, (s.jobs j).phase ≠ .done → s.waiters (s.jobs j).file = some j
  absent : ∀ j < s.nextJob, (s.jobs j).phase.Before → (s.jobs j).file ∉ s.compressedFiles
  hit : ∀ file r, s.hit = some (file, r) →
    (∀ j < s.nextJob, (s.jobs j).file = file → ¬ (s.jobs j).phase.Before) ∧
      ∀ data, s.compressedFileData.lookup file = some data → ∃ content ∈ s.seen r, decompress data = some content
  lists : ∀ j < s.nextJob, ∀ r ∈ s.lists j, r < s.nextRequest ∧ s.requested r = (s.jobs j).file
  taken : ∀ j < s.nextJob, ∀ chunks, (s.jobs j).phase.taken = some chunks → ∀ r ∈ s.lists j, chunks.flatten ∈ s.seen r
  stored : ∀ j < s.nextJob, ∀ chunks, (s.jobs j).phase = .stored chunks →
    ∀ data, s.compressedFileData.lookup (s.jobs j).file = some data → data = compress chunks
  notifications : ∀ n ∈ s.notifications, n.2 < s.nextJob ∧ ∃ chunks, n.1 = compress chunks ∧
    ((s.jobs n.2).phase = .scheduled chunks ∨ (s.jobs n.2).phase = .done) ∧ ∀ r ∈ s.lists n.2, chunks.flatten ∈ s.seen r
  since : ∀ r < s.nextRequest, ∀ content ∈ s.since (s.requested r), content ∈ s.seen r
  current : ∀ r < s.nextRequest, ∀ content, s.content (s.requested r) = some content → content ∈ s.seen r
  log : ∀ c ∈ s.log, c.Fresh decompress

namespace Fresh
variable {decompress : Bytes → Option Bytes} {compress : List Bytes → Bytes} {s : System} {j : JobId}

theorem init (content : File → Option Bytes) : Fresh decompress compress { content } where
  named _ _ h := by cases h
  awaited _ h := by cases h
  absent _ h := by cases h
  hit _ _ h := by cases h
  lists _ h := by cases h
  taken _ h := by cases h
  stored _ h := by cases h
  notifications _ h := by cases h
  since _ h := by cases h
  current _ h := by cases h
  log _ h := by cases h

/-! ## The jobs -/

theorem setPhase_file (s : System) (j : JobId) (phase : Phase) (k : JobId) :
    ((s.setPhase j phase).jobs k).file = (s.jobs k).file := by
  by_cases hk : k = j
  · subst hk
    simp [System.setPhase]
  · simp [System.setPhase, hk]

theorem setPhase_phase (s : System) (j : JobId) (phase : Phase) (k : JobId) :
    ((s.setPhase j phase).jobs k).phase = if k = j then phase else (s.jobs k).phase := by
  by_cases hk : k = j
  · subst hk
    simp [System.setPhase]
  · simp [System.setPhase, hk]

/-- A job goes on, short of its notification. -/
theorem setPhase (h : Fresh decompress compress s) (hj : j < s.nextJob)
    {phase : Phase} (hdone : (s.jobs j).phase ≠ .done)
    (hgoes : phase ≠ .done) (hscheduled : ∀ chunks, (s.jobs j).phase ≠ .scheduled chunks)
    (hbefore : phase.Before → (s.jobs j).phase.Before)
    (htaken : ∀ chunks, phase.taken = some chunks →
      (s.jobs j).phase.taken = some chunks ∨ ∀ r ∈ s.lists j, chunks.flatten ∈ s.seen r)
    (hstored : ∀ chunks, phase ≠ .stored chunks) : Fresh decompress compress (s.setPhase j phase) where
  named file k hk := by
    obtain ⟨hlt, hfile, hd⟩ := h.named file k hk
    rw [setPhase_file, setPhase_phase]
    refine ⟨hlt, hfile, ?_⟩
    split
    · exact hgoes
    · exact hd
  awaited k hk hd := by
    rw [setPhase_file]
    rw [setPhase_phase] at hd
    split at hd
    · rename_i heq
      subst heq
      exact h.awaited k hk hdone
    · exact h.awaited k hk hd
  absent k hk hb := by
    rw [setPhase_file]
    rw [setPhase_phase] at hb
    split at hb
    · rename_i heq
      subst heq
      exact h.absent k hk (hbefore hb)
    · exact h.absent k hk hb
  hit file r hr := by
    refine ⟨fun k hk hfile hb => ?_, (h.hit file r hr).2⟩
    rw [setPhase_file] at hfile
    rw [setPhase_phase] at hb
    split at hb
    · rename_i heq
      subst heq
      exact (h.hit file r hr).1 k hk hfile (hbefore hb)
    · exact (h.hit file r hr).1 k hk hfile hb
  lists k hk r hr := by
    rw [setPhase_file]
    exact h.lists k hk r hr
  taken k hk chunks hc r hr := by
    rw [setPhase_phase] at hc
    split at hc
    · rename_i heq
      subst heq
      rcases htaken chunks hc with hc | hall
      · exact h.taken k hk chunks hc r hr
      · exact hall r hr
    · exact h.taken k hk chunks hc r hr
  stored k hk chunks hc := by
    rw [setPhase_file]
    rw [setPhase_phase] at hc
    split at hc
    · exact absurd hc (hstored chunks)
    · exact h.stored k hk chunks hc
  notifications n hn := by
    obtain ⟨hlt, chunks, hdata, hphase, hseen⟩ := h.notifications n hn
    refine ⟨hlt, chunks, hdata, ?_, hseen⟩
    rw [setPhase_phase]
    split
    · rename_i heq
      subst heq
      -- A job that has notified is scheduled or done, and this one is neither.
      rcases hphase with hp | hp
      · exact absurd hp (hscheduled chunks)
      · exact absurd hp hdone
    · exact hphase
  since := h.since
  current := h.current
  log := h.log

/-- A job may fail until its notification is scheduled. -/
theorem failed (h : Fresh decompress compress s) (hj : j < s.nextJob) (hdone : (s.jobs j).phase ≠ .done)
    (hscheduled : ∀ chunks, (s.jobs j).phase ≠ .scheduled chunks) : Fresh decompress compress (s.setPhase j .failed) :=
  h.setPhase hj hdone (by simp) hscheduled (fun hb => hb.elim) (fun _ hc => by cases hc) (by simp)

/-- Files are dropped. -/
theorem drop (h : Fresh decompress compress s) {files : List File} {d : List (File × Bytes)}
    (hfiles : files ⊆ s.compressedFiles)
    (hd : ∀ file data, d.lookup file = some data → s.compressedFileData.lookup file = some data) :
    Fresh decompress compress { s with compressedFiles := files, compressedFileData := d } where
  named := h.named
  awaited := h.awaited
  absent k hk hb hmem := h.absent k hk hb (hfiles hmem)
  hit file r hr := ⟨(h.hit file r hr).1, fun data hdata => (h.hit file r hr).2 data (hd file data hdata)⟩
  lists := h.lists
  taken := h.taken
  stored k hk chunks hc data hdata := h.stored k hk chunks hc data (hd _ data hdata)
  notifications := h.notifications
  since := h.since
  current := h.current
  log := h.log

/-- What a job has read is kept. -/
theorem add (h : Fresh decompress compress s) (hj : j < s.nextJob) {chunks : List Bytes}
    (hphase : (s.jobs j).phase = .compressed chunks) :
    Fresh decompress compress { s.setPhase j (.stored chunks) with
      compressedFiles := s.compressedFiles ++ [(s.jobs j).file]
      compressedFileData := dictSet s.compressedFileData (s.jobs j).file (compress chunks) } := by
  have hbefore : (s.jobs j).phase.Before := by rw [hphase]; trivial
  -- no other job has the file
  have hother : ∀ k < s.nextJob, k ≠ j → (s.jobs k).phase ≠ .done → (s.jobs k).file ≠ (s.jobs j).file := by
    intro k hk hne hd heq
    have hk' := h.awaited k hk hd
    rw [heq, h.awaited j hj (by simp [hphase])] at hk'
    exact hne (by simpa using hk'.symm)
  refine
    { named := fun file k hk => ?_
      awaited := fun k hk hd => ?_
      absent := fun k hk hb hmem => ?_
      hit := fun file r hr => ⟨fun k hk hfile hb => ?_, fun data hdata => ?_⟩
      lists := fun k hk r hr => ?_
      taken := fun k hk chunks' hc r hr => ?_
      stored := fun k hk chunks' hc data hdata => ?_
      notifications := fun n hn => ?_
      since := h.since
      current := h.current
      log := h.log }
  · obtain ⟨hlt, hfile, hd⟩ := h.named file k hk
    rw [setPhase_file, setPhase_phase]
    refine ⟨hlt, hfile, ?_⟩
    split
    · simp
    · exact hd
  · rw [setPhase_file]
    rw [setPhase_phase] at hd
    split at hd
    · rename_i heq
      subst heq
      exact h.awaited k hk (by simp [hphase])
    · exact h.awaited k hk hd
  · rw [setPhase_phase] at hb
    split at hb
    · exact hb
    · rename_i hne
      rw [setPhase_file] at hmem
      have hd : (s.jobs k).phase ≠ .done := by
        rintro hd
        rw [hd] at hb
        exact hb
      rcases List.mem_append.1 hmem with hm | hm
      · exact h.absent k hk hb hm
      · exact hother k hk hne hd (List.mem_singleton.1 hm)
  · rw [setPhase_file] at hfile
    rw [setPhase_phase] at hb
    split at hb
    · exact hb
    · exact (h.hit file r hr).1 k hk hfile hb
  · -- the file of the request is not that of the job
    have hne : file ≠ (s.jobs j).file := fun heq => (h.hit file r hr).1 j hj heq.symm hbefore
    rw [lookup_dictSet_other _ _ hne] at hdata
    exact (h.hit file r hr).2 data hdata
  · rw [setPhase_file]
    exact h.lists k hk r hr
  · rw [setPhase_phase] at hc
    split at hc
    · rename_i heq
      subst heq
      exact h.taken k hk chunks' (by rw [hphase]; exact hc) r hr
    · exact h.taken k hk chunks' hc r hr
  · rw [setPhase_file] at hdata
    rw [setPhase_phase] at hc
    split at hc
    · rename_i heq
      subst heq
      cases hc
      rw [lookup_dictSet_self] at hdata
      exact (Option.some.inj hdata).symm
    · rename_i hne
      rw [lookup_dictSet_other _ _ (hother k hk hne (by simp [hc]))] at hdata
      exact h.stored k hk chunks' hc data hdata
  · obtain ⟨hlt, chunks', hdata, hp, hseen⟩ := h.notifications n hn
    refine ⟨hlt, chunks', hdata, ?_, hseen⟩
    rw [setPhase_phase]
    split
    · rename_i heq
      subst heq
      simp [hphase] at hp
    · exact hp

theorem store (h : Fresh decompress compress s) (hj : j < s.nextJob) {chunks : List Bytes}
    (hphase : (s.jobs j).phase = .compressed chunks) : Fresh decompress compress (s.store compress j chunks) := by
  have hfail : ∀ {t : System}, Fresh decompress compress t → j < t.nextJob → (t.jobs j).phase = .compressed chunks →
      Fresh decompress compress (t.setPhase j .failed) := fun ht htj htp =>
    ht.failed htj (by simp [htp]) (by simp [htp])
  unfold System.store
  dsimp only
  split
  · split
    · exact hfail h hj hphase
    · rename_i oldest rest hfiles
      have hsub : rest ⊆ s.compressedFiles := by
        rw [hfiles]
        exact List.subset_cons_self _ _
      split
      · exact (h.drop (d := dictDel s.compressedFileData oldest) hsub fun _ _ => lookup_of_dictDel).add hj hphase
      · exact hfail (h.drop (d := s.compressedFileData) hsub fun _ _ hd => hd) hj hphase
  · exact h.add hj hphase

theorem openFile (h : Fresh decompress compress s) (hj : j < s.nextJob) (hphase : (s.jobs j).phase = .submitted) :
    Fresh decompress compress (s.openFile j) := by
  unfold System.openFile
  split
  · exact h.setPhase hj (by simp [hphase]) (by simp) (by simp [hphase]) (fun _ => by rw [hphase]; trivial)
      (fun _ hc => by cases hc) (by simp)
  · exact h.failed hj (by simp [hphase]) (by simp [hphase])

theorem readFile (h : Fresh decompress compress s) (hj : j < s.nextJob) {chunks : List Bytes}
    (hphase : (s.jobs j).phase = .reading chunks) (size : Nat)
    (hspares : ∀ content, s.content (s.jobs j).file = some content → content.drop chunks.flatten.length = [] →
      chunks.flatten ∈ s.since (s.jobs j).file) : Fresh decompress compress (s.readFile j chunks size) := by
  have hbefore : (s.jobs j).phase.Before := by rw [hphase]; trivial
  unfold System.readFile
  split
  · exact h.failed hj (by simp [hphase]) (by simp [hphase])
  · rename_i content hcontent
    split
    · rename_i hempty
      refine h.setPhase hj (by simp [hphase]) (by simp) (by simp [hphase]) (fun _ => hbefore)
        (fun chunks' hc => .inr ?_) (by simp)
      cases hc
      intro r hr
      obtain ⟨hlt, hfile⟩ := h.lists j hj r hr
      refine h.since r hlt _ ?_
      rw [hfile]
      exact hspares content hcontent (by simpa using hempty)
    · exact h.setPhase hj (by simp [hphase]) (by simp) (by simp [hphase]) (fun _ => hbefore)
        (fun _ hc => by cases hc) (by simp)

/-- The job hands over what it has read, for those that wait now or will before it is done. -/
theorem schedule (h : Fresh decompress compress s) (hj : j < s.nextJob) {chunks : List Bytes}
    (hphase : (s.jobs j).phase = .stored chunks) : Fresh decompress compress (s.schedule j chunks) := by
  have hset : Fresh decompress compress (s.setPhase j (.scheduled chunks)) :=
    h.setPhase hj (by simp [hphase]) (by simp) (by simp [hphase]) (fun hb => hb.elim)
      (fun chunks' hc => .inl (by rw [hphase]; exact hc)) (by simp)
  unfold System.schedule
  split
  · exact h.failed hj (by simp [hphase]) (by simp [hphase])
  · rename_i data hdata
    rw [h.awaited j hj (by simp [hphase])]
    refine { hset with notifications := fun n hn => ?_ }
    rcases List.mem_append.1 hn with hn | hn
    · exact hset.notifications n hn
    · obtain rfl := List.mem_singleton.1 hn
      refine ⟨hj, chunks, h.stored j hj chunks hphase data hdata, .inl ?_, fun r hr => ?_⟩
      · rw [setPhase_phase, if_pos rfl]
      · exact h.taken j hj chunks (by rw [hphase]; rfl) r hr

theorem forget (h : Fresh decompress compress s) (hj : j < s.nextJob) {chunks : List Bytes}
    (hphase : (s.jobs j).phase = .scheduled chunks) :
    Fresh decompress compress { s.setPhase j .done with waiters := Function.update s.waiters (s.jobs j).file none } := by
  refine
    { named := fun file k hk => ?_
      awaited := fun k hk hd => ?_
      absent := fun k hk hb => ?_
      hit := fun file r hr => ⟨fun k hk hfile hb => ?_, (h.hit file r hr).2⟩
      lists := fun k hk r hr => ?_
      taken := fun k hk chunks' hc => ?_
      stored := fun k hk chunks' hc => ?_
      notifications := fun n hn => ?_
      since := h.since
      current := h.current
      log := h.log }
  · by_cases hne : file = (s.jobs j).file
    · subst hne
      simp at hk
    · simp only [Function.update_of_ne hne] at hk
      obtain ⟨hlt, hfile, hd⟩ := h.named file k hk
      rw [setPhase_file, setPhase_phase, if_neg]
      · exact ⟨hlt, hfile, hd⟩
      · rintro rfl
        exact hne hfile.symm
  · rw [setPhase_file]
    rw [setPhase_phase] at hd
    split at hd
    · exact absurd rfl hd
    · rename_i hne
      have hk' := h.awaited k hk hd
      -- the file of another job is another
      have hfile : (s.jobs k).file ≠ (s.jobs j).file := by
        intro heq
        rw [heq, h.awaited j hj (by simp [hphase])] at hk'
        exact hne (by simpa using hk'.symm)
      simpa only [Function.update_of_ne hfile] using hk'
  · rw [setPhase_file]
    rw [setPhase_phase] at hb
    split at hb
    · exact hb.elim
    · exact h.absent k hk hb
  · rw [setPhase_file] at hfile
    rw [setPhase_phase] at hb
    split at hb
    · exact hb
    · exact (h.hit file r hr).1 k hk hfile hb
  · rw [setPhase_file]
    exact h.lists k hk r hr
  · rw [setPhase_phase] at hc
    split at hc
    · cases hc
    · exact h.taken k hk chunks' hc
  · rw [setPhase_file]
    rw [setPhase_phase] at hc
    split at hc
    · cases hc
    · exact h.stored k hk chunks' hc
  · obtain ⟨hlt, chunks', hdata, hp, hseen⟩ := h.notifications n hn
    refine ⟨hlt, chunks', hdata, ?_, hseen⟩
    rw [setPhase_phase]
    split
    · exact .inr rfl
    · exact hp

/-! ## The event loop -/

theorem notify (lossless : ∀ chunks, decompress (compress chunks) = some chunks.flatten)
    (h : Fresh decompress compress s)
    {data : Bytes} {l : JobId} {rest : List (Bytes × JobId)} (hn : s.notifications = (data, l) :: rest) (called : Nat) :
    Fresh decompress compress { s.notify data ((s.lists l).take called) with notifications := rest } := by
  obtain ⟨-, chunks, hdata, -, hseen⟩ := h.notifications (data, l) (by simp [hn])
  refine { h with notifications := fun n hmem => h.notifications n (by simp [hn, hmem]), log := fun c hc => ?_ }
  rcases List.mem_append.1 hc with hc | hc
  · exact h.log c hc
  · obtain ⟨r, hr, rfl⟩ := List.mem_map.1 hc
    refine ⟨chunks.flatten, hseen r (List.mem_of_mem_take hr), ?_⟩
    dsimp only at hdata ⊢
    rw [hdata, lossless]

theorem deliver (h : Fresh decompress compress s) {file : File} {r : RequestId} (hh : s.hit = some (file, r)) :
    Fresh decompress compress (s.deliver file r) := by
  have hfree : Fresh decompress compress { s with hit := none } := { h with hit := fun _ _ hr => by cases hr }
  unfold System.deliver
  dsimp only
  split
  · rename_i data hdata
    refine { hfree with log := fun c hc => ?_ }
    rcases List.mem_append.1 hc with hc | hc
    · exact h.log c hc
    · obtain rfl := List.mem_singleton.1 hc
      exact (h.hit file r hh).2 data hdata
  · exact hfree

/-- What a request in progress has seen grows. -/
theorem modify (h : Fresh decompress compress s) (file : File) (content : Option Bytes) :
    Fresh decompress compress (s.modify file content) := by
  have hgrows : ∀ r, ∀ c ∈ s.seen r, c ∈ (s.modify file content).seen r := by
    intro r c hc
    simp only [System.modify]
    split
    · exact List.mem_append_left _ hc
    · exact hc
  refine { h with
    hit := fun file' r hr => ⟨(h.hit file' r hr).1, fun data hdata => ?_⟩
    taken := fun k hk chunks hc r hr => hgrows r _ (h.taken k hk chunks hc r hr)
    notifications := fun n hn => ?_
    since := fun r hr c hc => ?_
    current := fun r hr c hc => ?_ }
  · obtain ⟨c, hc, hd⟩ := (h.hit file' r hr).2 data hdata
    exact ⟨c, hgrows r c hc, hd⟩
  · obtain ⟨hlt, chunks, hdata, hp, hseen⟩ := h.notifications n hn
    exact ⟨hlt, chunks, hdata, hp, fun r hr => hgrows r _ (hseen r hr)⟩
  · simp only [System.modify] at hc ⊢
    by_cases hfile : s.requested r = file
    · rw [hfile, Function.update_self] at hc
      rw [if_pos hfile]
      rcases List.mem_append.1 hc with hc | hc
      · exact List.mem_append_left _ (h.since r hr c (hfile ▸ hc))
      · exact List.mem_append_right _ hc
    · rw [Function.update_of_ne hfile] at hc
      rw [if_neg hfile]
      exact h.since r hr c hc
  · simp only [System.modify] at hc ⊢
    by_cases hfile : s.requested r = file
    · rw [hfile, Function.update_self] at hc
      rw [if_pos hfile]
      exact List.mem_append_right _ (by simp [hc])
    · rw [Function.update_of_ne hfile] at hc
      rw [if_neg hfile]
      exact h.current r hr c hc

theorem ask (h : Fresh decompress compress s) (hfree : s.hit = none) (file : File) :
    Fresh decompress compress (s.ask file) := by
  refine { h with
    hit := fun _ _ hr => by rw [show (s.ask file).hit = s.hit from rfl, hfree] at hr; cases hr
    lists := fun k hk r hr => ?_
    taken := fun k hk chunks hc r hr => ?_
    notifications := fun n hn => ?_
    since := fun r hr c hc => ?_
    current := fun r hr c hc => ?_ }
  · obtain ⟨hlt, hfile⟩ := h.lists k hk r hr
    refine ⟨Nat.lt_succ_of_lt hlt, ?_⟩
    simpa only [System.ask, Function.update_of_ne (Nat.ne_of_lt hlt)] using hfile
  · simpa only [System.ask, Function.update_of_ne (Nat.ne_of_lt (h.lists k hk r hr).1)] using
      h.taken k hk chunks hc r hr
  · obtain ⟨hlt, chunks, hdata, hp, hseen⟩ := h.notifications n hn
    refine ⟨hlt, chunks, hdata, hp, fun r hr => ?_⟩
    simpa only [System.ask, Function.update_of_ne (Nat.ne_of_lt (h.lists n.2 hlt r hr).1)] using hseen r hr
  · simp only [System.ask] at hr hc ⊢
    by_cases hnew : r = s.nextRequest
    · subst hnew
      rw [Function.update_self, Function.update_self] at hc
      rwa [Function.update_self]
    · rw [Function.update_of_ne hnew] at hc ⊢
      have hlt : r < s.nextRequest := by omega
      by_cases hfile : s.requested r = file
      · -- what the file contains now, earlier requests have seen too
        rw [hfile, Function.update_self] at hc
        exact h.current r hlt c (by rw [hfile]; simpa using hc)
      · rw [Function.update_of_ne hfile] at hc
        exact h.since r hlt c hc
  · simp only [System.ask] at hr hc ⊢
    by_cases hnew : r = s.nextRequest
    · subst hnew
      rw [Function.update_self] at hc
      rw [Function.update_self, hc]
      simp
    · rw [Function.update_of_ne hnew] at hc ⊢
      exact h.current r (by omega) c hc

/-- A request finds its file. -/
theorem hitFile (h : Fresh decompress compress s) {file : File} {r : RequestId} (hmem : file ∈ s.compressedFiles)
    (hdata : ∀ data, s.compressedFileData.lookup file = some data →
      ∃ content ∈ s.seen r, decompress data = some content) :
    Fresh decompress compress { s with hit := some (file, r) } := by
  refine { h with hit := fun file' r' hr => ?_ }
  obtain ⟨rfl, rfl⟩ : file = file' ∧ r = r' := by simpa using hr
  exact ⟨fun k hk hfile hb => h.absent k hk hb (hfile ▸ hmem), hdata⟩

/-- A request joins a job. -/
theorem joinJob (h : Fresh decompress compress s) {file : File} {r : RequestId} (hj : s.waiters file = some j)
    (hr : r < s.nextRequest) (hfile : s.requested r = file)
    (hnow : ∀ chunks, (s.jobs j).phase.taken = some chunks → chunks.flatten ∈ s.seen r) :
    Fresh decompress compress { s with lists := Function.update s.lists j (s.lists j ++ [r]) } := by
  obtain ⟨hlt, hjob, hdone⟩ := h.named file j hj
  have hlists : ∀ k, ∀ w ∈ Function.update s.lists j (s.lists j ++ [r]) k, w ∈ s.lists k ∨ k = j ∧ w = r := by
    intro k w hw
    by_cases hk : k = j
    · subst hk
      rw [Function.update_self] at hw
      exact (List.mem_append.1 hw).imp_right fun hw => ⟨rfl, List.mem_singleton.1 hw⟩
    · rw [Function.update_of_ne hk] at hw
      exact .inl hw
  refine { h with
    lists := fun k hk w hw => ?_
    taken := fun k hk chunks hc w hw => ?_
    notifications := fun n hn => ?_ }
  · rcases hlists k w hw with hw | ⟨rfl, rfl⟩
    · exact h.lists k hk w hw
    · exact ⟨hr, hfile.trans hjob.symm⟩
  · rcases hlists k w hw with hw | ⟨rfl, rfl⟩
    · exact h.taken k hk chunks hc w hw
    · exact hnow chunks hc
  · obtain ⟨hn', chunks, hdata, hp, hall⟩ := h.notifications n hn
    refine ⟨hn', chunks, hdata, hp, fun w hw => ?_⟩
    rcases hlists n.2 w hw with hw | ⟨heq, rfl⟩
    · exact hall w hw
    · -- the notification is for what the job has read
      rw [heq] at hp
      rcases hp with hp | hp
      · exact hnow chunks (by rw [hp]; rfl)
      · exact absurd hp hdone

/-- A request has a job made. -/
theorem newJob (h : Fresh decompress compress s) {file : File} {r : RequestId} (hnone : s.waiters file = none)
    (hmem : file ∉ s.compressedFiles) (hfree : s.hit = none) (hr : r < s.nextRequest) (hfile : s.requested r = file) :
    Fresh decompress compress { s with
      jobs := Function.update s.jobs s.nextJob { file }
      waiters := Function.update s.waiters file (some s.nextJob)
      lists := Function.update s.lists s.nextJob [r]
      nextJob := s.nextJob + 1 } := by
  have hold : ∀ {k}, k < s.nextJob → k ≠ s.nextJob := fun hk => Nat.ne_of_lt hk
  have hcases : ∀ {k}, k < s.nextJob + 1 → k = s.nextJob ∨ k < s.nextJob := by omega
  refine
    { named := fun file' k hk => ?_
      awaited := fun k hk hd => ?_
      absent := fun k hk hb => ?_
      hit := fun file' r' hr' => ?_
      lists := fun k hk w hw => ?_
      taken := fun k hk chunks hc w hw => ?_
      stored := fun k hk chunks hc => ?_
      notifications := fun n hn => ?_
      since := h.since
      current := h.current
      log := h.log }
  · by_cases hf : file' = file
    · subst hf
      simp only [Function.update_self, Option.some.injEq] at hk
      subst hk
      simp
    · simp only [Function.update_of_ne hf] at hk
      obtain ⟨hlt, hjob, hdone⟩ := h.named file' k hk
      simp only [Function.update_of_ne (hold hlt)]
      exact ⟨Nat.lt_succ_of_lt hlt, hjob, hdone⟩
  · rcases hcases hk with rfl | hlt
    · simp
    · simp only [Function.update_of_ne (hold hlt)] at hd ⊢
      have hk' := h.awaited k hlt hd
      have hf : (s.jobs k).file ≠ file := by
        rintro rfl
        rw [hnone] at hk'
        cases hk'
      rwa [Function.update_of_ne hf]
  · rcases hcases hk with rfl | hlt
    · simpa using hmem
    · simp only [Function.update_of_ne (hold hlt)] at hb ⊢
      exact h.absent k hlt hb
  · rw [show s.hit = some (file', r') from hr'] at hfree
    cases hfree
  · rcases hcases hk with rfl | hlt
    · simp only [Function.update_self, List.mem_singleton] at hw ⊢
      subst hw
      exact ⟨hr, hfile⟩
    · simp only [Function.update_of_ne (hold hlt)] at hw ⊢
      exact h.lists k hlt w hw
  · rcases hcases hk with rfl | hlt
    · simp [Phase.taken] at hc
    · simp only [Function.update_of_ne (hold hlt)] at hc hw
      exact h.taken k hlt chunks hc w hw
  · rcases hcases hk with rfl | hlt
    · simp at hc
    · simp only [Function.update_of_ne (hold hlt)] at hc ⊢
      exact h.stored k hlt chunks hc
  · obtain ⟨hlt, chunks, hdata, hp, hall⟩ := h.notifications n hn
    simp only [Function.update_of_ne (hold hlt)]
    exact ⟨Nat.lt_succ_of_lt hlt, chunks, hdata, hp, hall⟩

theorem compressFile (h : Fresh decompress compress s) (hfree : s.hit = none) (file : File)
    (hspares : Spares decompress s (.compressFile file)) : Fresh decompress compress (s.compressFile file) := by
  have hask := h.ask hfree file
  have hseen : (s.ask file).seen s.nextRequest = (s.content file).toList := Function.update_self ..
  have hrequested : (s.ask file).requested s.nextRequest = file := Function.update_self ..
  have hlt : s.nextRequest < (s.ask file).nextRequest := Nat.lt_succ_self _
  change if file ∈ s.compressedFiles then _ else _ at hspares
  unfold System.compressFile
  dsimp only
  split
  · rename_i hmem
    rw [if_pos (show file ∈ s.compressedFiles from hmem)] at hspares
    refine hask.hitFile hmem fun data hdata => ?_
    obtain ⟨content, hcontent, hd⟩ := hspares data hdata
    exact ⟨content, by rw [hseen, hcontent]; simp, hd⟩
  · rename_i hmem
    rw [if_neg (show file ∉ s.compressedFiles from hmem)] at hspares
    split
    · rename_i j hj
      refine hask.joinJob hj hlt hrequested fun chunks hc => ?_
      rw [hseen, hspares j hj chunks hc]
      simp
    · rename_i hnone
      exact hask.newJob hnone hmem hfree hlt hrequested

theorem step (lossless : ∀ chunks, decompress (compress chunks) = some chunks.flatten) {s' : System} {e : Event}
    (h : Fresh decompress compress s) (he : Spares decompress s e) (hstep : step compress s e = some s') :
    Fresh decompress compress s' := by
  cases e with
  | compressFile file =>
    obtain ⟨hfree, rfl⟩ := step_cases hstep
    exact h.compressFile hfree file he
  | deliver =>
    obtain ⟨file, r, hhit, rfl⟩ := step_cases hstep
    exact h.deliver hhit
  | openFile j =>
    obtain ⟨hj, hphase, rfl⟩ := step_cases hstep
    exact h.openFile hj hphase
  | readFile j size =>
    obtain ⟨chunks, hj, hphase, rfl⟩ := step_cases hstep
    exact h.readFile hj hphase size fun content hcontent hend => he chunks content hphase hcontent hend
  | store j =>
    obtain ⟨chunks, hj, hphase, rfl⟩ := step_cases hstep
    exact h.store hj hphase
  | schedule j =>
    obtain ⟨chunks, hj, hphase, rfl⟩ := step_cases hstep
    exact h.schedule hj hphase
  | forget j =>
    obtain ⟨chunks, hj, hphase, rfl⟩ := step_cases hstep
    exact h.forget hj hphase
  | notify called =>
    obtain ⟨data, l, rest, -, hn, rfl⟩ := step_cases hstep
    exact h.notify lossless hn called
  | modify file content =>
    obtain rfl := step_cases hstep
    exact h.modify file content

end Fresh

/-- **Compressed data is never stale.** In every run whose steps all spare the requests, whatever a request ends with
decompresses to what its file contained at some moment since the request. -/
theorem compressed_not_stale {decompress : Bytes → Option Bytes} {compress : List Bytes → Bytes}
    (lossless : ∀ chunks, decompress (compress chunks) = some chunks.flatten) {content : File → Option Bytes}
    {es : List Event} {s : System} (hm : Meets (step compress) (Spares decompress) { content } es)
    (hr : run (step compress) { content } es = some s) : ∀ c ∈ s.log, c.Fresh decompress :=
  (run_inv_of_meets (step compress) (I := Fresh decompress compress)
    (fun _ _ _ h he hstep => h.step lossless he hstep) es _ s (Fresh.init content) hm hr).log

end Freshness

/-! ## Examples -/

/-- What `zlib` makes of the byte `a`. -/
def zlibA : Bytes := [120, 1, 75, 4, 0, 0, 98, 0, 98]

/-- As `zlib` compresses `a`; other data is only marked. -/
def zlibCompress (chunks : List Bytes) : Bytes := if chunks.flatten = [97] then zlibA else 0 :: chunks.flatten

def zlibDecompress (data : Bytes) : Option Bytes :=
  if data = zlibA then some [97]
  else
    match data with
    | 0 :: content => some content
    | _ => none

theorem zlibDecompress_compress (chunks : List Bytes) : zlibDecompress (zlibCompress chunks) = some chunks.flatten := by
  unfold zlibCompress
  split
  · rename_i h
    rw [h]
    rfl
  · simp [zlibDecompress, zlibA]

/-- Two sessions ask for a file while it is compressed, and a third when it has been. -/
def unchangedEvents : List Event :=
  [.compressFile "a.pch", .openFile 0, .compressFile "a.pch", .readFile 0 65536, .readFile 0 65536, .store 0,
    .schedule 0, .notify 2, .compressFile "a.pch", .forget 0, .deliver]

theorem compressed_not_stale_unchanged :
    ∃ s, run (step zlibCompress) { content := fun _ => some [97] } unchangedEvents = some s ∧
      s.log.map (·.request) = [0, 1, 2] ∧ ∀ c ∈ s.log, c.Fresh zlibDecompress := by
  have hm : Meets (step zlibCompress) (Spares zlibDecompress) { content := fun _ => some [97] } unchangedEvents := by
    refine ⟨fun j hj => (by cases hj), fun s₁ h₁ => ?_⟩
    cases h₁
    refine ⟨trivial, fun s₂ h₂ => ?_⟩
    cases h₂
    refine ⟨fun j hj chunks hc => (by cases hj; cases hc), fun s₃ h₃ => ?_⟩
    cases h₃
    refine ⟨fun chunks content hp hc hend => (by cases hp; cases hc; cases hend), fun s₄ h₄ => ?_⟩
    cases h₄
    refine ⟨fun chunks content hp _ _ => (by cases hp; decide), fun s₅ h₅ => ?_⟩
    cases h₅
    refine ⟨trivial, fun s₆ h₆ => ?_⟩
    cases h₆
    refine ⟨trivial, fun s₇ h₇ => ?_⟩
    cases h₇
    refine ⟨trivial, fun s₈ h₈ => ?_⟩
    cases h₈
    refine ⟨fun data hdata => ⟨[97], rfl, by cases hdata; rfl⟩, fun s₉ h₉ => ?_⟩
    cases h₉
    refine ⟨trivial, fun s₁₀ h₁₀ => ?_⟩
    cases h₁₀
    exact ⟨trivial, fun _ _ => trivial⟩
  obtain ⟨s, hs⟩ : ∃ s, run (step zlibCompress) { content := fun _ => some [97] } unchangedEvents = some s := ⟨_, rfl⟩
  have hfresh := compressed_not_stale zlibDecompress_compress hm hs
  cases hs
  exact ⟨_, rfl, rfl, hfresh⟩

/-- The file is written anew after it has been compressed, and the next request still gets the old data. -/
theorem rebuilt_file_stale :
    ∃ s, run (step zlibCompress) { content := fun _ => some [97] }
        [.compressFile "a.pch", .openFile 0, .readFile 0 65536, .readFile 0 65536, .store 0, .schedule 0, .forget 0,
          .notify 1, .modify "a.pch" (some [98]), .compressFile "a.pch", .deliver] = some s ∧
      s.log = [⟨0, zlibA, [[97]]⟩, ⟨1, zlibA, [[98]]⟩] ∧ ¬ Completion.Fresh zlibDecompress ⟨1, zlibA, [[98]]⟩ := by
  refine ⟨_, rfl, by decide, ?_⟩
  rintro ⟨content, hmem, hd⟩
  obtain rfl := List.mem_singleton.1 hmem
  exact absurd hd (by decide)

end BuildPal.Compressor
