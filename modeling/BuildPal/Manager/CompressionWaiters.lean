import BuildPal.Manager.Compressor
import Mathlib.Data.List.Basic
/-!
# Those who wait for a compressed file

Whoever asks `Compressor` for a file is to be called once, when the file is
compressed. Part of the hand-over is done without the lock, a job that fails
leaves its list of waiters behind, and files are dropped at any time. We say
exactly in which runs everyone is served.
-/
open BuildPal.Lib BuildPal.Message

namespace BuildPal.Compressor

/-! ## What is expected -/

/-- The job is in the queue of the pool, or runs. -/
def Phase.Running : Phase → Prop
  | .submitted | .reading _ | .compressed _ | .stored _ | .scheduled _ => True
  | .done | .failed => False

/-- The job has its list of waiters still to hand over. -/
def Phase.Waits : Phase → Prop
  | .submitted | .reading _ | .compressed _ | .stored _ => True
  | .scheduled _ | .done | .failed => False

namespace System
variable (s : System)

/-- The job's waiters are still to be called: by the job, or by the event loop. -/
def Awaiting (j : JobId) : Prop := (s.jobs j).phase.Waits ∨ ∃ n ∈ s.notifications, n.2 = j

/-- How often the callback of a request was called. -/
def calls (r : RequestId) : Nat := s.log.countP (·.request = r)

/-- The callback of a request is still to be called. -/
def Pending (r : RequestId) : Prop := (∃ file, s.hit = some (file, r)) ∨ ∃ j, r ∈ s.lists j ∧ s.Awaiting j

/-- The request finds its file in `compressed_files`. -/
abbrev find (file : File) : System := { s.ask file with hit := some (file, s.nextRequest) }

/-- The request joins the list of a job. -/
abbrev join (file : File) (j : JobId) : System :=
  { s.ask file with lists := Function.update s.lists j (s.lists j ++ [s.nextRequest]) }

/-- A job is started for the request. -/
abbrev start (file : File) : System :=
  { s.ask file with
    jobs := Function.update s.jobs s.nextJob { file }
    waiters := Function.update s.waiters file (some s.nextJob)
    lists := Function.update s.lists s.nextJob [s.nextRequest]
    nextJob := s.nextJob + 1 }

/-- `notify_waiters` has been called, and has got to so many of the callbacks. -/
abbrev notified (data : Bytes) (l : JobId) (rest : List (Bytes × JobId)) (called : Nat) : System :=
  { s.notify data ((s.lists l).take called) with notifications := rest }

end System

/-- There are waiters for a file only while a job for it is queued or running, so that the next request starts a new one
when the last has failed; every callback has been called once, or will be; and the five files or less are listed twice,
each once. -/
structure Served (s : System) : Prop where
  running : ∀ file j, s.waiters file = some j → (s.jobs j).file = file ∧ (s.jobs j).phase.Running
  called : ∀ r < s.nextRequest, s.calls r = 1 ∧ ¬ s.Pending r ∨ s.calls r = 0 ∧ s.Pending r
  files : (s.compressedFileData.map (·.1)).Perm s.compressedFiles
  once : s.compressedFiles.Nodup
  few : s.compressedFiles.length ≤ 5

/-- A job can read its file; when the data of a file is taken without the lock, it has not been dropped; no request joins
a list that has been gone through; and no callback keeps those after it from being called. -/
def Serves (compress : List Bytes → Bytes) (s : System) (e : Event) : Prop :=
  (step compress s e).isSome → match e with
    | .openFile j | .readFile j _ => s.content (s.jobs j).file ≠ none
    | .deliver => ∀ file r, s.hit = some (file, r) → (s.compressedFileData.lookup file).isSome
    | .schedule j => (s.compressedFileData.lookup (s.jobs j).file).isSome
    | .compressFile file => file ∉ s.compressedFiles → ∀ j, s.waiters file = some j → s.Awaiting j
    | .notify called => ∀ n rest, s.notifications = n :: rest → (s.lists n.2).length ≤ called
    | .store _ | .forget _ | .modify _ _ => True

/-! ## What holds besides -/

/-- The books of a run in which everyone is served. -/
structure Booked (s : System) : Prop extends Served s where
  named : ∀ file j, s.waiters file = some j → j < s.nextJob
  awaited : ∀ j < s.nextJob, (s.jobs j).phase ≠ .done → s.waiters (s.jobs j).file = some j
  absent : ∀ j < s.nextJob, (s.jobs j).phase.Before → (s.jobs j).file ∉ s.compressedFiles
  listed : ∀ j, ∀ r ∈ s.lists j, j < s.nextJob ∧ r < s.nextRequest
  listOnce : ∀ j, (s.lists j).Nodup
  disjoint : ∀ i j r, r ∈ s.lists i → r ∈ s.lists j → i = j
  hitNew : ∀ file r, s.hit = some (file, r) → r < s.nextRequest ∧ ∀ j, r ∉ s.lists j
  logged : ∀ c ∈ s.log, c.request < s.nextRequest
  notified : ∀ n ∈ s.notifications, n.2 < s.nextJob ∧ ¬ (s.jobs n.2).phase.Waits
  notifiedOnce : (s.notifications.map (·.2)).Nodup

theorem booked_init (content : File → Option Bytes) : Booked { content } where
  running _ _ h := by cases h
  called _ h := by cases h
  files := List.Perm.nil
  once := List.nodup_nil
  few := Nat.zero_le _
  named _ _ h := by cases h
  awaited _ h := by cases h
  absent _ h := by cases h
  listed _ _ h := by cases h
  listOnce _ := List.nodup_nil
  disjoint _ _ _ h := by cases h
  hitNew _ _ h := by cases h
  logged _ h := by cases h
  notified _ h := by cases h
  notifiedOnce := List.nodup_nil

namespace Booked
variable {compress : List Bytes → Bytes} {s s' : System} {j : JobId}

/-- There is one job at a time for a file. -/
theorem other_file (h : Booked s) (hj : j < s.nextJob) (hdone : (s.jobs j).phase ≠ .done) {k : JobId}
    (hk : k < s.nextJob) (hne : k ≠ j) (hkdone : (s.jobs k).phase ≠ .done) : (s.jobs k).file ≠ (s.jobs j).file := by
  intro heq
  have hk' := h.awaited k hk hkdone
  rw [heq, h.awaited j hj hdone] at hk'
  exact hne (Option.some.inj hk').symm

theorem not_called (h : Booked s) {r : RequestId} (hr : r < s.nextRequest) (hp : s.Pending r) : s.calls r = 0 :=
  ((h.called r hr).resolve_left fun hc => hc.2 hp).1

theorem calls_new (h : Booked s) : s.calls s.nextRequest = 0 := by
  refine List.countP_eq_zero.2 fun c hc heq => ?_
  have hnew : c.request = s.nextRequest := of_decide_eq_true heq
  exact absurd (hnew ▸ h.logged c hc) (Nat.lt_irrefl _)

theorem not_pending_new (h : Booked s) : ¬ s.Pending s.nextRequest := by
  rintro (⟨file, hhit⟩ | ⟨j, hr, -⟩)
  · exact absurd (h.hitNew file _ hhit).1 (Nat.lt_irrefl _)
  · exact absurd (h.listed j _ hr).2 (Nat.lt_irrefl _)

/-- Where no callback is called and no list gets longer, what counts is who still waits. -/
theorem called_congr (h : Booked s) (hnext : s'.nextRequest = s.nextRequest) (hlog : s'.log = s.log)
    (hhit : s'.hit = s.hit) (hlists : s'.lists = s.lists) (hawaiting : ∀ k, s'.Awaiting k ↔ s.Awaiting k) :
    ∀ r < s'.nextRequest, s'.calls r = 1 ∧ ¬ s'.Pending r ∨ s'.calls r = 0 ∧ s'.Pending r := by
  intro r hr
  have hpending : s'.Pending r ↔ s.Pending r := by
    simp only [System.Pending, hhit, hlists, hawaiting]
  have hcalls : s'.calls r = s.calls r := by
    simp only [System.calls, hlog]
  rw [hpending, hcalls]
  exact h.called r (hnext ▸ hr)

/-! ### The jobs -/

theorem awaiting_setPhase {phase : Phase} (hwaits : phase.Waits ↔ (s.jobs j).phase.Waits) (k : JobId) :
    (s.setPhase j phase).Awaiting k ↔ s.Awaiting k := by
  have hphase : ((s.setPhase j phase).jobs k).phase.Waits ↔ (s.jobs k).phase.Waits := by
    rw [Fresh.setPhase_phase]
    split
    · next heq =>
      subst heq
      exact hwaits
    · rfl
  exact or_congr hphase Iff.rfl

section SetPhase
variable {phase : Phase}

theorem running_setPhase (h : Booked s) (hgoes : phase.Running) {file : File} {k : JobId} (hk : s.waiters file = some k) :
    ((s.setPhase j phase).jobs k).file = file ∧ ((s.setPhase j phase).jobs k).phase.Running := by
  obtain ⟨hfile, hr⟩ := h.running file k hk
  rw [Fresh.setPhase_file, Fresh.setPhase_phase]
  refine ⟨hfile, ?_⟩
  split
  · exact hgoes
  · exact hr

theorem awaited_setPhase (h : Booked s) (hdone : (s.jobs j).phase ≠ .done) {k : JobId} (hk : k < s.nextJob)
    (hd : ((s.setPhase j phase).jobs k).phase ≠ .done) : s.waiters ((s.setPhase j phase).jobs k).file = some k := by
  rw [Fresh.setPhase_file]
  rw [Fresh.setPhase_phase] at hd
  split at hd
  · next heq =>
    subst heq
    exact h.awaited k hk hdone
  · exact h.awaited k hk hd

theorem absent_setPhase (h : Booked s) (hbefore : phase.Before → (s.jobs j).phase.Before) {k : JobId} (hk : k < s.nextJob)
    (hb : ((s.setPhase j phase).jobs k).phase.Before) : ((s.setPhase j phase).jobs k).file ∉ s.compressedFiles := by
  rw [Fresh.setPhase_file]
  rw [Fresh.setPhase_phase] at hb
  split at hb
  · next heq =>
    subst heq
    exact h.absent k hk (hbefore hb)
  · exact h.absent k hk hb

theorem notified_setPhase (h : Booked s) (hwaits : phase.Waits → (s.jobs j).phase.Waits) {n : Bytes × JobId}
    (hn : n ∈ s.notifications) : n.2 < s.nextJob ∧ ¬ ((s.setPhase j phase).jobs n.2).phase.Waits := by
  obtain ⟨hlt, hnot⟩ := h.notified n hn
  refine ⟨hlt, ?_⟩
  rw [Fresh.setPhase_phase]
  split
  · next heq => exact fun hw => hnot (heq ▸ hwaits hw)
  · exact hnot

/-- A job goes on, and has its waiters before it as before. -/
theorem setPhase (h : Booked s) (hdone : (s.jobs j).phase ≠ .done) (hgoes : phase.Running)
    (hwaits : phase.Waits ↔ (s.jobs j).phase.Waits) (hbefore : phase.Before → (s.jobs j).phase.Before) :
    Booked (s.setPhase j phase) :=
  { h with
    running := fun _ _ => h.running_setPhase hgoes
    called := h.called_congr rfl rfl rfl rfl (awaiting_setPhase hwaits)
    awaited := fun _ => h.awaited_setPhase hdone
    absent := fun _ => h.absent_setPhase hbefore
    notified := fun _ => h.notified_setPhase hwaits.1 }

end SetPhase

/-- A job that fails leaves its waiters behind. -/
theorem not_served_failed (h : Booked s) (hj : j < s.nextJob) (hdone : (s.jobs j).phase ≠ .done) :
    ¬ Served (s.setPhase j .failed) := by
  intro hs
  have hrun := (hs.running _ j (h.awaited j hj hdone)).2
  rw [Fresh.setPhase_phase, if_pos rfl] at hrun
  exact hrun

theorem openFile (h : Booked s) (hj : j < s.nextJob) (hphase : (s.jobs j).phase = .submitted) :
    (Served (s.openFile j) ↔ s.content (s.jobs j).file ≠ none) ∧ (Served (s.openFile j) → Booked (s.openFile j)) := by
  unfold System.openFile
  split
  · next content hcontent =>
    have hb : Booked (s.setPhase j (.reading [])) :=
      h.setPhase (by simp [hphase]) trivial (by rw [hphase]; rfl) fun _ => by rw [hphase]; trivial
    exact ⟨iff_of_true hb.toServed (by simp [hcontent]), fun _ => hb⟩
  · next hcontent =>
    have hnot := h.not_served_failed hj (by simp [hphase])
    exact ⟨iff_of_false hnot (by simp [hcontent]), fun hs => absurd hs hnot⟩

theorem readFile (h : Booked s) (hj : j < s.nextJob) {chunks : List Bytes} (hphase : (s.jobs j).phase = .reading chunks)
    (size : Nat) : (Served (s.readFile j chunks size) ↔ s.content (s.jobs j).file ≠ none) ∧
      (Served (s.readFile j chunks size) → Booked (s.readFile j chunks size)) := by
  unfold System.readFile
  split
  · next hcontent =>
    have hnot := h.not_served_failed hj (by simp [hphase])
    exact ⟨iff_of_false hnot (by simp [hcontent]), fun hs => absurd hs hnot⟩
  · next content hcontent =>
    split
    · have hb : Booked (s.setPhase j (.compressed chunks)) :=
        h.setPhase (by simp [hphase]) trivial (by rw [hphase]; rfl) fun _ => by rw [hphase]; trivial
      exact ⟨iff_of_true hb.toServed (by simp [hcontent]), fun _ => hb⟩
    · have hb : Booked (s.setPhase j (.reading (chunks ++ [(content.drop chunks.flatten.length).take size]))) :=
        h.setPhase (by simp [hphase]) trivial (by rw [hphase]; rfl) fun _ => by rw [hphase]; trivial
      exact ⟨iff_of_true hb.toServed (by simp [hcontent]), fun _ => hb⟩

/-! ### The files -/

theorem keys_dictDel (d : List (File × Bytes)) (file : File) :
    (dictDel d file).map (·.1) = (d.map (·.1)).filter (· ≠ file) := by
  rw [dictDel, List.filter_map]
  rfl

theorem keys_dictSet (d : List (File × Bytes)) (file : File) (v : Bytes) :
    (dictSet d file v).map (·.1) = file :: (d.map (·.1)).filter (· ≠ file) := by
  rw [dictSet, List.map_cons, List.filter_map]
  rfl

theorem filter_of_not_mem {files : List File} {file : File} (h : file ∉ files) : files.filter (· ≠ file) = files :=
  List.filter_eq_self.2 fun _ hf => decide_eq_true fun heq => h (heq ▸ hf)

theorem isSome_lookup {d : List (File × Bytes)} {file : File} (h : file ∈ d.map (·.1)) : (d.lookup file).isSome := by
  obtain ⟨e, he, rfl⟩ := List.mem_map.1 h
  exact List.lookup_isSome_iff.2 ⟨e, he, beq_self_eq_true _⟩

/-- The job's file is added to some of the others. -/
theorem add (h : Booked s) (hj : j < s.nextJob) {chunks : List Bytes} (hphase : (s.jobs j).phase = .compressed chunks)
    {files : List File} {d : List (File × Bytes)} (hsub : files ⊆ s.compressedFiles)
    (hfiles : (d.map (·.1)).Perm files) (honce : files.Nodup) (hfew : files.length < 5) :
    Booked { s.setPhase j (.stored chunks) with
      compressedFiles := files ++ [(s.jobs j).file]
      compressedFileData := dictSet d (s.jobs j).file (compress chunks) } := by
  have hb : Booked (s.setPhase j (.stored chunks)) :=
    h.setPhase (by simp [hphase]) trivial (by rw [hphase]; rfl) fun hbefore => hbefore.elim
  have hnew : (s.jobs j).file ∉ files := fun hmem => h.absent j hj (by rw [hphase]; trivial) (hsub hmem)
  have hkeys : (s.jobs j).file ∉ d.map (·.1) := fun hmem => hnew (hfiles.mem_iff.1 hmem)
  refine { hb with
    called := hb.called_congr rfl rfl rfl rfl fun k => Iff.rfl
    files := ?_
    once := ?_
    few := ?_
    absent := fun k hk hbefore hmem => ?_ }
  · rw [keys_dictSet, filter_of_not_mem hkeys]
    exact (hfiles.cons _).trans (List.perm_append_singleton _ _).symm
  · exact List.nodup_append.2 ⟨honce, List.nodup_singleton _, fun a ha b hb hab => hnew (by
      obtain rfl := List.mem_singleton.1 hb
      exact hab ▸ ha)⟩
  · rw [List.length_append, List.length_singleton]
    omega
  · rw [Fresh.setPhase_file] at hmem
    rw [Fresh.setPhase_phase] at hbefore
    split at hbefore
    · exact hbefore
    · next hne =>
      have hkdone : (s.jobs k).phase ≠ .done := by
        intro hd
        rw [hd] at hbefore
        exact hbefore
      rcases List.mem_append.1 hmem with hold | hown
      · exact h.absent k hk hbefore (hsub hold)
      · exact h.other_file hj (by simp [hphase]) hk hne hkdone (List.mem_singleton.1 hown)

theorem store (h : Booked s) (hj : j < s.nextJob) {chunks : List Bytes}
    (hphase : (s.jobs j).phase = .compressed chunks) : Booked (s.store compress j chunks) := by
  have hlen : s.compressedFileData.length = s.compressedFiles.length := by
    rw [← h.files.length_eq, List.length_map]
  unfold System.store
  dsimp only
  split
  · next hfull =>
    split
    · next hnil =>
      rw [hlen, hnil] at hfull
      cases hfull
    · next oldest rest hfiles =>
      have hperm := h.files
      have honce := h.once
      have hfew := h.few
      rw [hfiles] at hperm honce hfew
      have hthere : (s.compressedFileData.lookup oldest).isSome :=
        isSome_lookup (hperm.mem_iff.2 List.mem_cons_self)
      rw [if_pos hthere]
      have hrest : ((dictDel s.compressedFileData oldest).map (·.1)).Perm rest := by
        have hkept := hperm.filter (· ≠ oldest)
        rw [List.filter_cons_of_neg (by simp), filter_of_not_mem (List.nodup_cons.1 honce).1] at hkept
        rw [keys_dictDel]
        exact hkept
      refine h.add hj hphase ?_ hrest (List.nodup_cons.1 honce).2 ?_
      · rw [hfiles]
        exact List.subset_cons_self _ _
      · rw [List.length_cons] at hfew
        omega
  · exact h.add hj hphase (List.Subset.refl _) h.files h.once (by omega)

theorem schedule (h : Booked s) (hj : j < s.nextJob) {chunks : List Bytes}
    (hphase : (s.jobs j).phase = .stored chunks) :
    (Served (s.schedule j chunks) ↔ (s.compressedFileData.lookup (s.jobs j).file).isSome) ∧
      (Served (s.schedule j chunks) → Booked (s.schedule j chunks)) := by
  have hwaits : (s.jobs j).phase.Waits := by rw [hphase]; trivial
  unfold System.schedule
  split
  · next hdata =>
    have hnot := h.not_served_failed hj (by simp [hphase])
    exact ⟨iff_of_false hnot (by simp [hdata]), fun hs => absurd hs hnot⟩
  · next data hdata =>
    rw [h.awaited j hj (by simp [hphase])]
    have hb : Booked { s.setPhase j (.scheduled chunks) with notifications := s.notifications ++ [(data, j)] } := by
      refine { h with
        running := fun _ _ => h.running_setPhase (by trivial)
        called := h.called_congr rfl rfl rfl rfl fun k => ?_
        awaited := fun _ => h.awaited_setPhase (by simp [hphase])
        absent := fun _ => h.absent_setPhase False.elim
        notified := fun n hn => ?_
        notifiedOnce := ?_ }
      · -- the waiters are the event loop's business now
        simp only [System.Awaiting, Fresh.setPhase_phase, List.mem_append, List.mem_singleton]
        by_cases hk : k = j
        · subst hk
          exact iff_of_true (.inr ⟨_, .inr rfl, rfl⟩) (.inl hwaits)
        · rw [if_neg hk]
          refine or_congr Iff.rfl ⟨?_, fun ⟨n, hn, heq⟩ => ⟨n, .inl hn, heq⟩⟩
          rintro ⟨n, hn | rfl, heq⟩
          · exact ⟨n, hn, heq⟩
          · exact absurd heq.symm hk
      · rcases List.mem_append.1 hn with hn | hn
        · exact h.notified_setPhase False.elim hn
        · rw [Fresh.setPhase_phase]
          obtain rfl := List.mem_singleton.1 hn
          exact ⟨hj, by rw [if_pos rfl]; exact not_false⟩
      · rw [List.map_append]
        refine List.nodup_append.2 ⟨h.notifiedOnce, List.nodup_singleton _, fun a ha b hb hab => ?_⟩
        obtain rfl := List.mem_singleton.1 hb
        obtain ⟨n, hn, rfl⟩ := List.mem_map.1 ha
        exact (h.notified n hn).2 (by rw [hab]; exact hwaits)
    exact ⟨iff_of_true hb.toServed (by simp [hdata]), fun _ => hb⟩

theorem forget (h : Booked s) (hj : j < s.nextJob) {chunks : List Bytes}
    (hphase : (s.jobs j).phase = .scheduled chunks) :
    Booked { s.setPhase j .done with waiters := Function.update s.waiters (s.jobs j).file none } := by
  have hwaits : Phase.done.Waits ↔ (s.jobs j).phase.Waits := by
    rw [hphase]
    rfl
  have hothers : ∀ file k, Function.update s.waiters (s.jobs j).file none file = some k →
      s.waiters file = some k ∧ k ≠ j := by
    intro file k hk
    by_cases hfile : file = (s.jobs j).file
    · rw [hfile, Function.update_self] at hk
      cases hk
    · rw [Function.update_of_ne hfile] at hk
      refine ⟨hk, ?_⟩
      rintro rfl
      exact hfile (h.running file k hk).1.symm
  refine { h with
    running := fun file k hk => ?_
    called := h.called_congr rfl rfl rfl rfl (awaiting_setPhase hwaits)
    named := fun file k hk => h.named file k (hothers file k hk).1
    awaited := fun k hk hd => ?_
    absent := fun _ => h.absent_setPhase False.elim
    notified := fun _ => h.notified_setPhase False.elim }
  · obtain ⟨hold, hne⟩ := hothers file k hk
    rw [Fresh.setPhase_file, Fresh.setPhase_phase, if_neg hne]
    exact h.running file k hold
  · rw [Fresh.setPhase_file]
    rw [Fresh.setPhase_phase] at hd
    split at hd
    · exact absurd rfl hd
    · next hne =>
      have hfile := h.other_file hj (by simp [hphase]) hk hne hd
      simpa only [Function.update_of_ne hfile] using h.awaited k hk hd

/-! ### The event loop -/

theorem deliver (h : Booked s) {file : File} {r : RequestId} (hhit : s.hit = some (file, r)) :
    (Served (s.deliver file r) ↔ (s.compressedFileData.lookup file).isSome) ∧
      (Served (s.deliver file r) → Booked (s.deliver file r)) := by
  obtain ⟨hr, hunlisted⟩ := h.hitNew file r hhit
  have hzero : s.calls r = 0 := h.not_called hr (.inl ⟨file, hhit⟩)
  unfold System.deliver
  dsimp only
  split
  · next data hdata =>
    have hb : Booked ({ s with hit := none }.complete r data) := by
      refine { h with
        called := fun r' hr' => ?_
        hitNew := fun _ _ hnone => (by cases hnone)
        logged := fun c hc => ?_ }
      · have hcalls : ({ s with hit := none }.complete r data).calls r' = s.calls r' + if r = r' then 1 else 0 := by
          simp [System.calls, System.complete, List.countP_append, List.countP_singleton]
        by_cases heq : r = r'
        · subst heq
          refine .inl ⟨by rw [hcalls, hzero, if_pos rfl], ?_⟩
          rintro (⟨_, hnone⟩ | ⟨k, hk, -⟩)
          · cases hnone
          · exact hunlisted k hk
        · have hpending : ({ s with hit := none }.complete r data).Pending r' ↔ s.Pending r' := by
            constructor
            · rintro (⟨_, hnone⟩ | hlist)
              · cases hnone
              · exact .inr hlist
            · rintro (⟨_, hhit'⟩ | hlist)
              · rw [hhit] at hhit'
                cases hhit'
                exact absurd rfl heq
              · exact .inr hlist
          rw [hcalls, if_neg heq, hpending, Nat.add_zero]
          exact h.called r' hr'
      · rcases List.mem_append.1 hc with hc | hc
        · exact h.logged c hc
        · obtain rfl := List.mem_singleton.1 hc
          exact hr
    exact ⟨iff_of_true hb.toServed (by simp [hdata]), fun _ => hb⟩
  · next hdata =>
    -- there is a `KeyError`, and the callback is not called
    have hnot : ¬ Served { s with hit := none } := by
      intro hs
      rcases hs.called r hr with ⟨hone, -⟩ | ⟨-, ⟨_, hnone⟩ | ⟨k, hk, -⟩⟩
      · have hcalls : s.calls r = 1 := hone
        rw [hzero] at hcalls
        cases hcalls
      · cases hnone
      · exact hunlisted k hk
    exact ⟨iff_of_false hnot (by simp [hdata]), fun hs => absurd hs hnot⟩

section Notify
variable {data : Bytes} {l : JobId} {rest : List (Bytes × JobId)}

/-- The list that is gone through is not gone through again. -/
theorem awaiting_notify (h : Booked s) (hn : s.notifications = (data, l) :: rest) (log : List Completion) (k : JobId) :
    System.Awaiting { s with log, notifications := rest } k ↔ s.Awaiting k ∧ k ≠ l := by
  obtain ⟨-, hnot⟩ := h.notified (data, l) (by simp [hn])
  have honce := h.notifiedOnce
  rw [hn, List.map_cons, List.nodup_cons] at honce
  constructor
  · rintro (hwaits | ⟨n, hmem, rfl⟩)
    · refine ⟨.inl hwaits, ?_⟩
      rintro rfl
      exact hnot hwaits
    · have hin : n.2 ∈ rest.map (·.2) := List.mem_map_of_mem hmem
      refine ⟨.inr ⟨n, by rw [hn]; exact List.mem_cons_of_mem _ hmem, rfl⟩, ?_⟩
      rintro rfl
      exact honce.1 hin
  · rintro ⟨hwaits | ⟨n, hmem, rfl⟩, hne⟩
    · exact .inl hwaits
    · rw [hn] at hmem
      rcases List.mem_cons.1 hmem with rfl | hmem
      · exact absurd rfl hne
      · exact .inr ⟨n, hmem, rfl⟩

theorem calls_notify (s : System) (data : Bytes) (waiters : List RequestId) (r : RequestId) :
    (s.notify data waiters).calls r = s.calls r + waiters.count r := by
  simp only [System.calls, System.notify, List.countP_append, List.countP_map]
  rfl

theorem notify (h : Booked s) (hfree : s.hit = none) (hn : s.notifications = (data, l) :: rest) (called : Nat) :
    (Served (s.notified data l rest called) ↔ (s.lists l).length ≤ called) ∧
      (Served (s.notified data l rest called) →
        Booked (s.notified data l rest called)) := by
  have hawaiting := h.awaiting_notify hn (s.notify data ((s.lists l).take called)).log
  -- The notification takes the requests of its list, and no others, from those that wait.
  have hpending : ∀ r, (s.notified data l rest called).Pending r ↔
      s.Pending r ∧ r ∉ s.lists l := by
    intro r
    constructor
    · rintro (⟨file, hhit⟩ | ⟨k, hk, hk'⟩)
      · have hhit' : s.hit = some (file, r) := hhit
        rw [hfree] at hhit'
        cases hhit'
      · obtain ⟨hold, hne⟩ := (hawaiting k).1 hk'
        exact ⟨.inr ⟨k, hk, hold⟩, fun hl => hne (h.disjoint k l r hk hl)⟩
    · rintro ⟨⟨file, hhit⟩ | ⟨k, hk, hk'⟩, hout⟩
      · exact .inl ⟨file, hhit⟩
      · refine .inr ⟨k, hk, (hawaiting k).2 ⟨hk', ?_⟩⟩
        rintro rfl
        exact hout hk
  have hwaiting : ∀ r ∈ s.lists l, s.calls r = 0 := fun r hr =>
    h.not_called (h.listed l r hr).2 (.inr ⟨l, hr, .inr ⟨_, by rw [hn]; exact List.mem_cons_self, rfl⟩⟩)
  have hcalls : ∀ r, (s.notified data l rest called).calls r =
      s.calls r + ((s.lists l).take called).count r := calls_notify s data _
  by_cases hall : (s.lists l).length ≤ called
  · have hb : Booked (s.notified data l rest called) := by
      refine { h with
        called := fun r hr => ?_
        logged := fun c hc => ?_
        notified := fun n hmem => h.notified n (by rw [hn]; exact List.mem_cons_of_mem _ hmem)
        notifiedOnce := ?_ }
      · rw [hcalls, hpending, List.take_of_length_le hall]
        by_cases hr' : r ∈ s.lists l
        · rw [hwaiting r hr', List.count_eq_one_of_mem (h.listOnce l) hr']
          exact .inl ⟨rfl, fun hp => hp.2 hr'⟩
        · rw [List.count_eq_zero_of_not_mem hr', and_iff_left hr']
          exact h.called r hr
      · rcases List.mem_append.1 hc with hc | hc
        · exact h.logged c hc
        · obtain ⟨r, hr, rfl⟩ := List.mem_map.1 hc
          exact (h.listed l r (List.mem_of_mem_take hr)).2
      · have honce := h.notifiedOnce
        rw [hn, List.map_cons] at honce
        exact (List.nodup_cons.1 honce).2
    exact ⟨iff_of_true hb.toServed hall, fun _ => hb⟩
  · -- the callbacks after the one that raises are not called
    have hlt : called < (s.lists l).length := Nat.lt_of_not_le hall
    have hmem : (s.lists l)[called] ∈ s.lists l := List.getElem_mem hlt
    have hout : (s.lists l)[called] ∉ (s.lists l).take called := by
      intro hin
      obtain ⟨i, hi, heq⟩ := List.mem_take_iff_getElem.1 hin
      have := (List.Nodup.getElem_inj_iff (h.listOnce l)).1 heq
      omega
    have hnot : ¬ Served (s.notified data l rest called) := by
      intro hs
      rcases hs.called (s.lists l)[called] (h.listed l _ hmem).2 with ⟨hone, -⟩ | ⟨-, hp⟩
      · rw [hcalls, hwaiting _ hmem, List.count_eq_zero_of_not_mem hout] at hone
        cases hone
      · exact ((hpending _).1 hp).2 hmem
    exact ⟨iff_of_false hnot hall, fun hs => absurd hs hnot⟩

end Notify

/-! ### Requests -/

/-- One request more, whose callback has not been called: it has to be pending. -/
theorem called_add (h : Booked s) (hnext : s'.nextRequest = s.nextRequest + 1) (hlog : s'.log = s.log)
    (hpending : ∀ r < s.nextRequest, s'.Pending r ↔ s.Pending r) :
    (∀ r < s'.nextRequest, s'.calls r = 1 ∧ ¬ s'.Pending r ∨ s'.calls r = 0 ∧ s'.Pending r) ↔
      s'.Pending s.nextRequest := by
  have hcalls : ∀ r, s'.calls r = s.calls r := fun r => by simp only [System.calls, hlog]
  constructor
  · intro hall
    rcases hall s.nextRequest (by omega) with ⟨hone, -⟩ | ⟨-, hp⟩
    · rw [hcalls, h.calls_new] at hone
      cases hone
    · exact hp
  · intro hp r hr
    by_cases hnew : r = s.nextRequest
    · subst hnew
      exact .inr ⟨by rw [hcalls, h.calls_new], hp⟩
    · have hlt : r < s.nextRequest := by omega
      rw [hcalls, hpending r hlt]
      exact h.called r hlt

/-- The new request is in one list only. -/
theorem disjoint_add (h : Booked s) {i k l : JobId} {r : RequestId} {p q : Prop}
    (hp : p ↔ r ∈ s.lists i ∨ i = l ∧ r = s.nextRequest) (hq : q ↔ r ∈ s.lists k ∨ k = l ∧ r = s.nextRequest)
    (hi : p) (hk : q) : i = k := by
  have hnew : ∀ m, r ∈ s.lists m → r ≠ s.nextRequest := fun m hm => Nat.ne_of_lt (h.listed m r hm).2
  rcases hp.1 hi with hi | ⟨hil, hir⟩
  · rcases hq.1 hk with hk | ⟨-, hkr⟩
    · exact h.disjoint i k r hi hk
    · exact absurd hkr (hnew i hi)
  · rcases hq.1 hk with hk | ⟨hkl, -⟩
    · exact absurd hir (hnew k hk)
    · rw [hil, hkl]

theorem hitFile (h : Booked s) (hfree : s.hit = none) (file : File) :
    Booked (s.find file) := by
  have hpending : ∀ r < s.nextRequest,
      (s.find file).Pending r ↔ s.Pending r := by
    intro r hr
    constructor
    · rintro (⟨_, hhit⟩ | hlist)
      · cases hhit
        exact absurd hr (Nat.lt_irrefl _)
      · exact .inr hlist
    · rintro (⟨_, hhit⟩ | hlist)
      · rw [hfree] at hhit
        cases hhit
      · exact .inr hlist
  refine { h with
    called := (@called_add s (s.find file) h rfl rfl hpending).2 (.inl ⟨file, rfl⟩)
    listed := fun k r hr => ⟨(h.listed k r hr).1, Nat.lt_succ_of_lt (h.listed k r hr).2⟩
    hitNew := fun _ r hhit => ?_
    logged := fun c hc => Nat.lt_succ_of_lt (h.logged c hc) }
  cases hhit
  exact ⟨Nat.lt_succ_self _, fun k hk => absurd (h.listed k _ hk).2 (Nat.lt_irrefl _)⟩

/-- A request joins the list of a job. -/
theorem joinJob (h : Booked s) (hfree : s.hit = none) {file : File} (hj : s.waiters file = some j) :
    (Served (s.join file j) ↔ s.Awaiting j) ∧
      (Served (s.join file j) →
        Booked (s.join file j)) := by
  have hlt := h.named file j hj
  have hmem : ∀ k r, r ∈ Function.update s.lists j (s.lists j ++ [s.nextRequest]) k ↔
      r ∈ s.lists k ∨ k = j ∧ r = s.nextRequest := by
    intro k r
    by_cases hk : k = j
    · subst hk
      simp
    · simp [hk]
  have hpending : ∀ r, (s.join file j).Pending r ↔
        s.Pending r ∨ r = s.nextRequest ∧ s.Awaiting j := by
    intro r
    constructor
    · rintro (⟨_, hhit⟩ | ⟨k, hk, hk'⟩)
      · exact .inl (.inl ⟨_, hhit⟩)
      · rcases (hmem k r).1 hk with hold | ⟨rfl, rfl⟩
        · exact .inl (.inr ⟨k, hold, hk'⟩)
        · exact .inr ⟨rfl, hk'⟩
    · rintro ((⟨_, hhit⟩ | ⟨k, hk, hk'⟩) | ⟨rfl, hj'⟩)
      · exact .inl ⟨_, hhit⟩
      · exact .inr ⟨k, (hmem k r).2 (.inl hk), hk'⟩
      · exact .inr ⟨j, (hmem j _).2 (.inr ⟨rfl, rfl⟩), hj'⟩
  have hadd := @called_add s (s.join file j) h
    rfl rfl fun r hr => by
      rw [hpending r]
      exact or_iff_left fun heq => absurd heq.1 (Nat.ne_of_lt hr)
  rw [hpending, or_iff_right h.not_pending_new, and_iff_right rfl] at hadd
  refine ⟨⟨fun hs => hadd.1 hs.called, fun haw => { h with called := hadd.2 haw }⟩, fun hs => ?_⟩
  refine { h with
    called := hs.called
    listed := fun k r hr => ?_
    listOnce := fun k => ?_
    disjoint := fun i k r hi hk => ?_
    hitNew := fun _ _ hhit => by rw [show (s.ask file).hit = s.hit from rfl, hfree] at hhit; cases hhit
    logged := fun c hc => Nat.lt_succ_of_lt (h.logged c hc) }
  · rcases (hmem k r).1 hr with hold | ⟨rfl, rfl⟩
    · exact ⟨(h.listed k r hold).1, Nat.lt_succ_of_lt (h.listed k r hold).2⟩
    · exact ⟨hlt, Nat.lt_succ_self _⟩
  · by_cases hk : k = j
    · subst hk
      simp only [Function.update_self]
      refine List.nodup_append.2 ⟨h.listOnce k, List.nodup_singleton _, fun a ha b hb hab => ?_⟩
      obtain rfl := List.mem_singleton.1 hb
      exact absurd (hab ▸ (h.listed k a ha).2) (Nat.lt_irrefl _)
    · simpa only [Function.update_of_ne hk] using h.listOnce k
  · exact h.disjoint_add (hmem i r) (hmem k r) hi hk

/-- A request for which a job is started. -/
theorem newJob (h : Booked s) (hfree : s.hit = none) {file : File} (hfile : file ∉ s.compressedFiles)
    (hnone : s.waiters file = none) :
    Booked (s.start file) := by
  -- The new job is the only one that changes; the request that started it is all it has to notify.
  have hold : ∀ k, k < s.nextJob → Function.update s.jobs s.nextJob { file } k = s.jobs k :=
    fun k hk => Function.update_of_ne (Nat.ne_of_lt hk) _ _
  have hmem : ∀ k r, r ∈ Function.update s.lists s.nextJob [s.nextRequest] k ↔
      r ∈ s.lists k ∨ k = s.nextJob ∧ r = s.nextRequest := by
    intro k r
    by_cases hk : k = s.nextJob
    · subst hk
      simp only [Function.update_self, List.mem_singleton, true_and]
      exact (or_iff_right fun hr => absurd (h.listed _ r hr).1 (Nat.lt_irrefl _)).symm
    · simp [hk]
  have hawaiting : ∀ k, k < s.nextJob → ((s.start file).Awaiting k ↔ s.Awaiting k) := by
    intro k hk
    simp only [System.Awaiting, hold k hk]
    rfl
  refine { h with
    running := fun file' k hk => ?_
    called := (@called_add s (s.start file) h rfl rfl fun r hr => ?_).2 ?_
    named := fun file' k hk => ?_
    awaited := fun k hk hd => ?_
    absent := fun k hk hb => ?_
    listed := fun k r hr => ?_
    listOnce := fun k => ?_
    disjoint := fun i k r hi hk => ?_
    hitNew := fun _ _ hhit => by rw [show (s.ask file).hit = s.hit from rfl, hfree] at hhit; cases hhit
    logged := fun c hc => Nat.lt_succ_of_lt (h.logged c hc)
    notified := fun n hn => ?_ }
  · by_cases hfile' : file' = file
    · subst hfile'
      simp only [Function.update_self, Option.some.injEq] at hk
      subst hk
      have hnew : (s.start file').jobs s.nextJob = { file := file' } := Function.update_self ..
      rw [hnew]
      exact ⟨rfl, trivial⟩
    · simp only [Function.update_of_ne hfile'] at hk
      simp only [hold k (h.named file' k hk)]
      exact h.running file' k hk
  · constructor
    · rintro (⟨_, hhit⟩ | ⟨k, hk, hk'⟩)
      · exact .inl ⟨_, hhit⟩
      · rcases (hmem k r).1 hk with hk | ⟨-, rfl⟩
        · exact .inr ⟨k, hk, (hawaiting k (h.listed k r hk).1).1 hk'⟩
        · exact absurd hr (Nat.lt_irrefl _)
    · rintro (⟨_, hhit⟩ | ⟨k, hk, hk'⟩)
      · exact .inl ⟨_, hhit⟩
      · exact .inr ⟨k, (hmem k r).2 (.inl hk), (hawaiting k (h.listed k r hk).1).2 hk'⟩
  · refine .inr ⟨s.nextJob, (hmem _ _).2 (.inr ⟨rfl, rfl⟩), .inl ?_⟩
    simp only [Function.update_self]
    trivial
  · by_cases hfile' : file' = file
    · subst hfile'
      simp only [Function.update_self, Option.some.injEq] at hk
      subst hk
      exact Nat.lt_succ_self _
    · simp only [Function.update_of_ne hfile'] at hk
      exact Nat.lt_succ_of_lt (h.named file' k hk)
  -- No older job can be compressing this file, since its name has no waiters yet.
  · rcases Nat.lt_succ_iff_lt_or_eq.1 hk with hlt | rfl
    · simp only [hold k hlt] at hd ⊢
      have hk' := h.awaited k hlt hd
      have hne : (s.jobs k).file ≠ file := by
        intro heq
        rw [heq, hnone] at hk'
        cases hk'
      simpa only [Function.update_of_ne hne] using hk'
    · simp only [Function.update_self]
  · rcases Nat.lt_succ_iff_lt_or_eq.1 hk with hlt | rfl
    · simp only [hold k hlt] at hb ⊢
      exact h.absent k hlt hb
    · simp only [Function.update_self]
      exact hfile
  · rcases (hmem k r).1 hr with hr | ⟨rfl, rfl⟩
    · exact ⟨Nat.lt_succ_of_lt (h.listed k r hr).1, Nat.lt_succ_of_lt (h.listed k r hr).2⟩
    · exact ⟨Nat.lt_succ_self _, Nat.lt_succ_self _⟩
  · by_cases hk : k = s.nextJob
    · subst hk
      simp only [Function.update_self]
      exact List.nodup_singleton _
    · simpa only [Function.update_of_ne hk] using h.listOnce k
  · exact h.disjoint_add (hmem i r) (hmem k r) hi hk
  · obtain ⟨hlt, hnot⟩ := h.notified n hn
    refine ⟨Nat.lt_succ_of_lt hlt, ?_⟩
    simp only [hold n.2 hlt]
    exact hnot

theorem compressFile (h : Booked s) (hfree : s.hit = none) (file : File) :
    (Served (s.compressFile file) ↔ (file ∉ s.compressedFiles → ∀ j, s.waiters file = some j → s.Awaiting j)) ∧
      (Served (s.compressFile file) → Booked (s.compressFile file)) := by
  unfold System.compressFile
  dsimp only
  by_cases hfile : file ∈ s.compressedFiles
  · have hb := h.hitFile hfree file
    rw [if_pos (show file ∈ (s.ask file).compressedFiles from hfile)]
    exact ⟨iff_of_true hb.toServed fun hout => absurd hfile hout, fun _ => hb⟩
  · rw [if_neg (show file ∉ (s.ask file).compressedFiles from hfile)]
    cases hwaiters : s.waiters file with
    | none =>
      have hb := h.newJob hfree hfile hwaiters
      rw [show (s.ask file).waiters file = none from hwaiters]
      exact ⟨iff_of_true hb.toServed fun _ _ hj => (by cases hj), fun _ => hb⟩
    | some j =>
      obtain ⟨hiff, hkeep⟩ := h.joinJob hfree hwaiters
      rw [show (s.ask file).waiters file = some j from hwaiters]
      refine ⟨hiff.trans ⟨fun haw _ k hk => ?_, fun hall => hall hfile j rfl⟩, hkeep⟩
      obtain rfl : j = k := Option.some.inj hk
      exact haw

theorem modify (h : Booked s) (file : File) (content : Option Bytes) : Booked (s.modify file content) :=
  { h with called := h.called_congr rfl rfl rfl rfl fun _ => Iff.rfl }

/-- A step that serves keeps the books, and the others do not. -/
theorem step (h : Booked s) (e : Event) (hs : Compressor.step compress s e = some s') :
    (Served s' ↔ Serves compress s e) ∧ (Served s' → Booked s') := by
  have hsome : (Compressor.step compress s e).isSome := by rw [hs]; rfl
  unfold Serves
  rw [imp_iff_right hsome]
  cases e with
  | compressFile file =>
    obtain ⟨hfree, rfl⟩ := step_cases hs
    exact h.compressFile hfree file
  | deliver =>
    obtain ⟨file, r, hhit, rfl⟩ := step_cases hs
    obtain ⟨hiff, hkeep⟩ := h.deliver hhit
    refine ⟨hiff.trans ⟨fun hdata file' r' hhit' => ?_, fun hall => hall file r hhit⟩, hkeep⟩
    rw [hhit] at hhit'
    cases hhit'
    exact hdata
  | openFile j =>
    obtain ⟨hj, hphase, rfl⟩ := step_cases hs
    exact h.openFile hj hphase
  | readFile j size =>
    obtain ⟨chunks, hj, hphase, rfl⟩ := step_cases hs
    exact h.readFile hj hphase size
  | store j =>
    obtain ⟨chunks, hj, hphase, rfl⟩ := step_cases hs
    have hb : Booked (s.store compress j chunks) := h.store hj hphase
    exact ⟨iff_of_true hb.toServed trivial, fun _ => hb⟩
  | schedule j =>
    obtain ⟨chunks, hj, hphase, rfl⟩ := step_cases hs
    exact h.schedule hj hphase
  | forget j =>
    obtain ⟨chunks, hj, hphase, rfl⟩ := step_cases hs
    have hb := h.forget hj hphase
    exact ⟨iff_of_true hb.toServed trivial, fun _ => hb⟩
  | notify called =>
    obtain ⟨data, l, rest, hfree, hn, rfl⟩ := step_cases hs
    obtain ⟨hiff, hkeep⟩ := h.notify hfree hn called
    refine ⟨hiff.trans ⟨fun hall n rest' hn' => ?_, fun hall => hall _ rest hn⟩, hkeep⟩
    rw [hn] at hn'
    cases hn'
    exact hall
  | modify file content =>
    obtain rfl := step_cases hs
    have hb := h.modify file content
    exact ⟨iff_of_true hb.toServed trivial, fun _ => hb⟩

end Booked

/-! ## Every run -/

/-- Everyone is served in every state of a run exactly if every job can read its file, data taken without the lock have
not been dropped, no request joins a list that has been gone through, and no callback raises. -/
theorem waiters_served (compress : List Bytes → Bytes) (content : File → Option Bytes) (events : List Event) :
    (∀ pre post s, events = pre ++ post → run (step compress) { content } pre = some s → Served s) ↔
      Meets (step compress) (Serves compress) { content } events := by
  refine states_iff_meets (step compress) (fun s h => Booked.toServed h) (fun s e s' h hs => h.step e hs) ?_ events _
    (booked_init content)
  intro s e _ hs hsome
  rw [hs] at hsome
  cases hsome

/-- The header is missing when it is first asked for: its waiters stay, and no job is started for the next request. -/
theorem failed_job_keeps_waiters :
    let events := [.compressFile "stdafx.pch", .openFile 0, .modify "stdafx.pch" (some [1]), .compressFile "stdafx.pch"]
    ∃ s, run (step fun _ => []) { content := fun _ => none } events = some s ∧ ¬ Served s ∧
      s.lists 0 = [0, 1] ∧ (s.jobs 0).phase = .failed ∧ s.nextJob = 1 :=
  ⟨_, rfl, fun hs => (hs.running "stdafx.pch" 0 rfl).2, rfl, rfl, rfl⟩

end BuildPal.Compressor
