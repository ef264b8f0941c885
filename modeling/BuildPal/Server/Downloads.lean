import BuildPal.Server.RunnerSteps
/-!
# Files on their way

A compiler or a PCH file that a session was told to provide is marked as
partial in its repository until it has arrived. The mark has an owner for as
long as no session times out while it owes a file.

A session compiles with the PCH file it registered: what is on disk under the
name `register_file` gave it is what was downloaded for it, if no other key's
file is opened in the same place.
-/
open BuildPal.Lib BuildPal.Message
open BuildPal.CompileSession (State Outcome)

namespace BuildPal.Runner

/-! ## Owners -/

/-- A live session was told to provide the compiler, and has not finished. -/
def Server.ToldCompiler (s : Server) (sid : SessionId) (id : CompilerId) : Prop :=
  (s.sessions sid).ProvidesCompiler id ∧ ∃ p, .sent sid (.missingFiles true p) ∈ s.log

/-- A live session was told to provide the PCH file, and has not finished. -/
def Server.ToldPch (s : Server) (sid : SessionId) (pch : PchFile) : Prop :=
  (s.sessions sid).ProvidesPch pch ∧ ∃ c, .sent sid (.missingFiles c true) ∈ s.log

/-- What is marked as partial has an owner. -/
structure Owned (s : Server) : Prop where
  compiler : ∀ id ∈ s.partialCompilers, ∃ sid, s.ToldCompiler sid id
  pch : ∀ pch, s.partialFiles pch ≠ none → ∃ sid, s.ToldPch sid pch

/-- The session was told to provide a file that is still marked as partial. -/
def Server.Owes (s : Server) (sid : SessionId) : Prop :=
  (s.sessions sid).compilerRequired ∧ (s.sessions sid).task.compilerId ∈ s.partialCompilers ∨
    (s.sessions sid).pchRequired ∧ ∃ pch, (s.sessions sid).task.pchFile = some pch ∧ s.partialFiles pch ≠ none

namespace Owned
variable {s s' : Server}

theorem providing_of_compiler {x : Session} {id : CompilerId} (h : x.ProvidesCompiler id) : x.Providing :=
  h.2.2.2.elim (fun h => .inr (.inl h)) fun h => .inr (.inr (.inl h))

/-- Owners stay as they are, or are done. -/
theorem of_sessions (h : Owned s) (hlog : s.log ⊆ s'.log)
    (hcompiler : ∀ id ∈ s'.partialCompilers, id ∈ s.partialCompilers ∧
      ∀ w, (s.sessions w).ProvidesCompiler id → (s'.sessions w).ProvidesCompiler id)
    (hpch : ∀ pch, s'.partialFiles pch ≠ none → s.partialFiles pch ≠ none ∧
      ∀ w, (s.sessions w).ProvidesPch pch → (s'.sessions w).ProvidesPch pch) : Owned s' where
  compiler id hid := by
    obtain ⟨hid', hkeeps⟩ := hcompiler id hid
    obtain ⟨w, hw, p, hsent⟩ := h.compiler id hid'
    exact ⟨w, hkeeps w hw, p, hlog hsent⟩
  pch pch hp := by
    obtain ⟨hp', hkeeps⟩ := hpch pch hp
    obtain ⟨w, hw, c, hsent⟩ := h.pch pch hp'
    exact ⟨w, hkeeps w hw, c, hlog hsent⟩

/-- The marks do not change, and the owners keep what makes them owners. -/
theorem of_same (h : Owned s) (hlog : s.log ⊆ s'.log) (hc : s'.partialCompilers = s.partialCompilers)
    (hp : s'.partialFiles = s.partialFiles)
    (hcompiler : ∀ w id, id ∈ s.partialCompilers → (s.sessions w).ProvidesCompiler id →
      (s'.sessions w).ProvidesCompiler id)
    (hpch : ∀ w pch, s.partialFiles pch ≠ none → (s.sessions w).ProvidesPch pch → (s'.sessions w).ProvidesPch pch) :
    Owned s' := by
  refine h.of_sessions hlog (fun id hid => ?_) fun pch hne => ?_
  · rw [hc] at hid
    exact ⟨hid, fun w => hcompiler w id hid⟩
  · rw [hp] at hne
    exact ⟨hne, fun w => hpch w pch hne⟩

/-- One session changes, and is an owner afterwards if it was before. -/
theorem modify (h : Owned s) {sid : SessionId} {f : Session → Session}
    (hcompiler : ∀ id ∈ s.partialCompilers, (s.sessions sid).ProvidesCompiler id →
      (f (s.sessions sid)).ProvidesCompiler id)
    (hpch : ∀ pch, s.partialFiles pch ≠ none → (s.sessions sid).ProvidesPch pch →
      (f (s.sessions sid)).ProvidesPch pch) : Owned (s.modify sid f) := by
  refine h.of_same (List.Subset.refl _) rfl rfl (fun w id hid hw => ?_) fun w pch hne hw => ?_
  · by_cases heq : w = sid
    · subst heq
      rw [Server.modify_self]
      exact hcompiler id hid hw
    · rwa [Server.modify_other s sid f heq]
  · by_cases heq : w = sid
    · subst heq
      rw [Server.modify_self]
      exact hpch pch hne hw
    · rwa [Server.modify_other s sid f heq]

theorem acts {A : SessionId → Prop} (h : Owned s) (ha : Acts A s s') (hA : ∀ w, A w → ¬ (s.sessions w).Providing) :
    Owned s' := by
  obtain ⟨l, hl, -⟩ := ha.log
  have hsame : ∀ w, (s.sessions w).Providing → s'.sessions w = s.sessions w :=
    fun w hw => ha.others w fun hAw => hA w hAw hw
  refine h.of_same (by rw [hl]; exact List.subset_append_left _ _) ?_ ?_ (fun w id _ hw => ?_) fun w pch _ hw => ?_
  · change s'.common.partialCompilers = s.common.partialCompilers
    rw [ha.common]
  · change s'.common.partialFiles = s.common.partialFiles
    rw [ha.common]
  · rwa [hsame w (providing_of_compiler hw)]
  · rwa [hsame w hw.2.2.2.1]

theorem still {sid : SessionId} (h : Owned s) (hs : Still sid s s') : Owned s' := by
  obtain ⟨l, hl, -⟩ := hs.own.log
  obtain ⟨c, d, i, hx⟩ := hs.session
  have hsame : ∀ w, ∃ c d i, s'.sessions w =
      { s.sessions w with cancelPending := c, selfdestruct := d, includeDirs := i } := by
    intro w
    by_cases heq : w = sid
    · subst heq
      exact ⟨c, d, i, hx⟩
    · exact ⟨_, _, _, hs.own.others w heq⟩
  refine h.of_same (by rw [hl]; exact List.subset_append_left _ _) ?_ ?_ (fun w id _ hw => ?_) fun w pch _ hw => ?_
  · change s'.shared.partialCompilers = s.shared.partialCompilers
    rw [hs.own.shared]
  · change s'.shared.partialFiles = s.shared.partialFiles
    rw [hs.own.shared]
  · obtain ⟨c, d, i, hx⟩ := hsame w
    rw [hx]
    exact hw
  · obtain ⟨c, d, i, hx⟩ := hsame w
    rw [hx]
    exact hw

theorem move (h : Owned s) (hm : Move s s') : Owned s' := by
  cases hm with
  | still _ hs => exact h.still hs
  | acts ha hA => exact h.acts ha hA
  | compilerDirs dirs => exact { h with }
  | noCompilerData _ => exact h.modify (fun _ _ hw => hw) fun _ _ hw => hw
  | downloadCompiler hd =>
    refine h.modify (fun _ _ hw => ⟨hw.1, hw.2.1, hw.2.2.1, .inr rfl⟩) fun _ _ hw => ?_
    exact ⟨hw.1, hw.2.1, hw.2.2.1, .inr (.inr (.inl rfl)), by simp⟩
  | compilerReady _ _ =>
    refine h.of_sessions (List.Subset.refl _) (fun id hid => ?_) fun pch hne => ⟨hne, fun _ hw => hw⟩
    exact ⟨List.mem_of_mem_filter hid, fun _ hw => hw⟩
  | clearCompilerWaiters id => exact { h with }
  | downloadPch _ hc _ =>
    refine h.modify (fun id hid hw => ?_) fun _ _ hw => ⟨hw.1, hw.2.1, hw.2.2.1, .inr (.inr (.inr rfl)), by simp⟩
    -- it has provided its compiler
    rcases hc with hc | ⟨-, hc⟩
    · exact absurd hw.2.2.1 (by simp [hc])
    · exact absurd (hw.2.1 ▸ hid) hc
  | pchChunk _ _ _ _ => exact h.modify (fun _ _ hw => hw) fun _ _ hw => hw
  | @write sid _ _ =>
    have hm : Owned (s.modify sid fun x => { x with pchEnded := true }) :=
      h.modify (fun _ _ hw => hw) fun _ _ hw => hw
    exact { hm with }
  | clearPchWaiters pch => exact { h with }
  | dropCompletion sid => exact { h with }
  | @start sid _ _ _ hc hp =>
    have hnote : Owned (s.note (.compiles sid)) :=
      h.of_same (List.subset_append_left _ _) rfl rfl (fun _ _ _ hw => hw) fun _ _ _ hw => hw
    refine hnote.modify (fun id hid hw => ?_) fun pch hne hw => ?_
    · rcases hc with hc | ⟨-, hc⟩
      · exact absurd hw.2.2.1 (by simp [Server.note, hc])
      · exact absurd (hw.2.1 ▸ hid) hc
    · rcases hp with hp | hp
      · exact absurd hw.2.2.1 (by simp [Server.note, hp])
      · exact absurd (hp pch hw.2.1) hne
  | @launch sid _ => exact h.of_same (List.subset_append_left _ _) rfl rfl (fun _ _ _ hw => hw) fun _ _ _ hw => hw
  | dropExec sid => exact { h with }
  | dropRunning sid => exact { h with }
  | @upload sid hd =>
    have hm : Owned (s.modify sid fun x => { x with state := .uploadingFile }) := by
      refine h.modify (fun id _ hw => ?_) fun pch _ hw => ?_
      · rcases hw.2.2.2 with hs | hs <;> simp [hd] at hs
      · rcases hw.2.2.2.1 with hs | hs | hs | hs <;> simp [hd] at hs
    exact { hm with }
  | dropUpload sid l => exact h.of_same (List.subset_append_left _ _) rfl rfl (fun _ _ _ hw => hw) fun _ _ _ hw => hw

theorem complete (h : Owned s) (pch : PchFile) (file : LocalFile) : Owned (s.complete pch file) := by
  refine h.of_sessions (List.Subset.refl _) (fun id hid => ⟨hid, fun _ hw => hw⟩) fun k hne => ⟨?_, fun _ hw => hw⟩
  by_cases hk : k = pch
  · subst hk
    simp [Server.complete] at hne
  · simpa [Server.complete, Function.update_of_ne hk] using hne

theorem moves (h : Owned s) (hm : Moves s s') : Owned s' := by
  induction hm with
  | refl => exact h
  | tail _ hlast ih => exact ih.move hlast

theorem born {names : Names} {task : Task} (h : Owned s) (hs : Stages s) (hb : Server.Born names task s s') :
    Owned s' := by
  obtain ⟨file, c, p, hsessions, hlog, -, hc, hc', hp, hp'⟩ := hb.session
  have hother : ∀ w, w ≠ s.counter → s'.sessions w = s.sessions w := fun w hw => by
    rw [hsessions, Function.update_of_ne hw]
  have hfresh := hs.fresh s.counter (Nat.le_refl _)
  have hsub : s.log ⊆ s'.log := by
    rw [hlog]
    exact List.subset_append_left _ _
  have hold : ∀ id ∈ s.partialCompilers, ∃ sid, s'.ToldCompiler sid id := by
    intro id hid
    obtain ⟨w, hw, q, hsent⟩ := h.compiler id hid
    refine ⟨w, ?_, q, hsub hsent⟩
    rwa [hother w]
    rintro rfl
    rw [hfresh] at hw
    cases hw.2.2.1
  have holdPch : ∀ pch, s.partialFiles pch ≠ none → ∃ sid, s'.ToldPch sid pch := by
    intro pch hne
    obtain ⟨w, hw, q, hsent⟩ := h.pch pch hne
    refine ⟨w, ?_, q, hsub hsent⟩
    rwa [hother w]
    rintro rfl
    rw [hfresh] at hw
    cases hw.2.2.1
  refine ⟨fun id hid => ?_, fun pch hne => ?_⟩
  · cases c with
    | false =>
      rw [hc rfl] at hid
      exact hold id hid
    | true =>
      rw [(hc' rfl).2] at hid
      rcases List.mem_cons.1 hid with rfl | hid
      · refine ⟨s.counter, ?_, p, by simp [hlog]⟩
        rw [hsessions, Function.update_self, hfresh]
        exact ⟨rfl, rfl, rfl, .inl rfl⟩
      · exact hold id hid
  · cases p with
    | false =>
      rw [hp rfl] at hne
      exact holdPch pch hne
    | true =>
      obtain ⟨k, hk, -, -, -, hpart⟩ := hp' rfl
      rw [hpart] at hne
      by_cases heq : pch = k
      · subst heq
        refine ⟨s.counter, ?_, c, by simp [hlog]⟩
        rw [hsessions, Function.update_self, hfresh]
        exact ⟨rfl, hk, rfl, .inr (.inl rfl), by simp⟩
      · rw [Function.update_of_ne heq] at hne
        exact holdPch pch hne

theorem selfdestruct {sid : SessionId} (h : Owned s) (hcond : (s.sessions sid).completed = false → ¬ s.Owes sid) :
    Owned (s.selfdestruct sid) := by
  have hown : Own sid s (s.selfdestruct sid) := Server.selfdestruct_own
  have hsub : s.log ⊆ (s.selfdestruct sid).log := by
    obtain ⟨l, hl, -⟩ := hown.log
    rw [hl]
    exact List.subset_append_left _ _
  have hshared := hown.shared
  have hc : (s.selfdestruct sid).partialCompilers = s.partialCompilers := by
    change (s.selfdestruct sid).shared.partialCompilers = s.shared.partialCompilers
    rw [hshared]
  have hp : (s.selfdestruct sid).partialFiles = s.partialFiles := by
    change (s.selfdestruct sid).shared.partialFiles = s.shared.partialFiles
    rw [hshared]
  -- the session is not an owner
  refine h.of_same hsub hc hp (fun w id hid hw => ?_) fun w pch hne hw => ?_
  · rwa [Server.selfdestruct_own.others w]
    rintro rfl
    exact hcond hw.1 (.inl ⟨hw.2.2.1, hw.2.1 ▸ hid⟩)
  · rwa [Server.selfdestruct_own.others w]
    rintro rfl
    exact hcond hw.1 (.inr ⟨hw.2.2.1, pch, hw.2.1, hne⟩)

end Owned

/-- A timer fires only for a session that owes no file. -/
def OwesNothing (s : Server) : Event → Prop
  | .selfdestruct sid => (s.sessions sid).completed = false → ¬ s.Owes sid
  | _ => True

theorem step_owned {names : Names} {limit : Nat} {s s' : Server} {e : Event} (hs : Stages s) (h : Owned s)
    (he : OwesNothing s e) (hstep : step names limit s e = some s') : Owned s' := by
  rcases step_cases hs hstep with ⟨task, -, hb⟩ | ⟨sid, rfl, -, rfl⟩ | ⟨sid, -, -, -, rfl⟩ |
    ⟨sid, ok, -, -, -, rfl⟩ | ⟨sid, pch, f, -, -, -, -, hm⟩ | hm
  · exact h.born hs hb
  · exact h.selfdestruct he
  · unfold Server.pchOpened
    split
    · exact h
    · exact { h with }
  · exact { h with }
  · have hdrop : Owned (s.dropCompletion sid) := { h with }
    exact (hdrop.complete pch f).moves hm
  · exact h.moves hm

/-- **A partial download has an owner.** In every run in which no session times out while it owes a file, whatever
is marked as partial in the state reached is still to be provided by a live session that was told so. `dirs` are the
compilers an earlier server left behind. -/
theorem partial_downloads_owned {names : Names} {limit : Nat} {dirs : List CompilerId} {es : List Event}
    {s : Server} (hm : Meets (step names limit) OwesNothing { compilerDirs := dirs } es)
    (hr : run (step names limit) { compilerDirs := dirs } es = some s) :
    (∀ id ∈ s.partialCompilers, ∃ sid, s.ToldCompiler sid id) ∧
      ∀ pch, s.partialFiles pch ≠ none → ∃ sid, s.ToldPch sid pch := by
  have hinit : Owned { compilerDirs := dirs } := ⟨fun id h => by (cases h), fun pch h => absurd rfl h⟩
  obtain ⟨-, howned⟩ := run_inv_of_meets (step names limit) (I := fun s => Stages s ∧ Owned s)
    (fun s e s' hi he hstep => ⟨hi.1.step hstep, step_owned hi.1 hi.2 he hstep⟩) es _ s ⟨Stages.init dirs, hinit⟩ hm hr
  exact ⟨howned.compiler, howned.pch⟩

/-- One session provides the compiler and a PCH file, another begins and times out in the meantime. -/
def providedEvents : List Event :=
  [.newSession { compilerId := "cl", pchFile := some ⟨"c:\\x.pch", 1, 1⟩ }, .newSession { compilerId := "cl" },
    .message 0 .taskFiles, .message 0 (.chunk [] true true), .selfdestruct 1]

theorem partial_downloads_owned_provided :
    ∃ s, run (step ⟨id, id⟩ 1) {} providedEvents = some s ∧ s.partialCompilers = [] ∧
      ∃ sid, s.ToldPch sid ⟨"c:\\x.pch", 1, 1⟩ := by
  have hm : Meets (step ⟨id, id⟩ 1) OwesNothing {} providedEvents := by
    refine ⟨trivial, fun s₁ h₁ => ?_⟩
    cases h₁
    refine ⟨trivial, fun s₂ h₂ => ?_⟩
    cases h₂
    refine ⟨trivial, fun s₃ h₃ => ?_⟩
    cases h₃
    refine ⟨trivial, fun s₄ h₄ => ?_⟩
    cases h₄
    refine ⟨fun _ howes => ?_, fun _ _ => trivial⟩
    rcases howes with ⟨h, -⟩ | ⟨h, -⟩ <;> exact absurd h (by decide)
  obtain ⟨s, hs⟩ : ∃ s, run (step ⟨id, id⟩ 1) {} providedEvents = some s := ⟨_, rfl⟩
  have hpch := (partial_downloads_owned hm hs).2 ⟨"c:\\x.pch", 1, 1⟩
  cases hs
  exact ⟨_, rfl, rfl, hpch (by decide)⟩

/-- A session that was told to provide the compiler times out: the compiler stays marked as partial. -/
theorem partial_download_orphaned :
    ∃ s, run (step ⟨id, id⟩ 1) {} [.newSession { compilerId := "cl" }, .selfdestruct 0] = some s ∧
      "cl" ∈ s.partialCompilers ∧ ¬ ∃ sid, s.ToldCompiler sid "cl" := by
  obtain ⟨s, hr⟩ : ∃ s, run (step ⟨id, id⟩ 1) {} [.newSession { compilerId := "cl" }, .selfdestruct 0] = some s :=
    ⟨_, rfl⟩
  have hs : Stages s := run_inv (step ⟨id, id⟩ 1) (fun _ _ _ h hstep => h.step hstep) (Stages.init []) hr
  cases hr
  refine ⟨_, rfl, by decide, ?_⟩
  rintro ⟨sid, ⟨hcompleted, -, hrequired, -⟩, -⟩
  by_cases h : sid = 0
  · subst h
    exact absurd hcompleted (by decide)
  · rw [hs.fresh sid (Nat.pos_of_ne_zero h)] at hrequired
    cases hrequired

/-! ## What is on disk -/

section Disk
variable {names : Names} {s s' : Server}

/-- The session has received the whole file. -/
def Session.Received (x : Session) (pch : PchFile) : Prop := x.pchEnded ∧ x.task.pchFile = some pch

/-- The session has yet to come to its PCH file. -/
def Session.Early (x : Session) : Prop :=
  x.state = .getTask ∨ x.state = .downloadMissingHeaders ∨ x.state = .downloadingCompiler

/-- One session provides each key. Its local file is its own from when it is opened on, and once it is written it holds
what that session received. -/
structure PchOk (names : Names) (s : Server) : Prop where
  session : ∀ w pch, (s.sessions w).task.pchFile = some pch →
    ∃ file, (s.sessions w).pchFile = some file ∧ (s.files pch = some file ∨ s.partialFiles pch = some file)
  owner : ∀ w w' pch, (s.sessions w).pchRequired → (s.sessions w').pchRequired →
    (s.sessions w).task.pchFile = some pch → (s.sessions w').task.pchFile = some pch → w = w'
  required : ∀ w, (s.sessions w).state = .downloadingPCH ∨ (s.sessions w).pchEnded → (s.sessions w).pchRequired
  early : ∀ w, (s.sessions w).pchEnded → ¬ (s.sessions w).Early
  ended : ∀ w pch, (s.sessions w).Received pch → s.downloaded pch = some (s.sessions w).pchDesc
  opened : ∀ w ∈ s.opened, ∀ place, s.pchPlace w names = some place → s.disk place = .opened w
  pending : ∀ w ∈ s.completions, (s.sessions w).pchEnded ∧
    ∀ place, s.pchPlace w names = some place → s.disk place = .holds (s.sessions w).pchDesc
  complete : ∀ pch file, s.files pch = some file →
    ∃ w, (s.sessions w).Received pch ∧ s.disk (names.place file) = .holds (s.sessions w).pchDesc

/-- No complete file is in this place, and none that is being written or has been. -/
def Server.Free (names : Names) (s : Server) (place : LocalFile) : Prop :=
  (∀ pch file, s.files pch = some file → names.place file ≠ place) ∧
    (∀ w ∈ s.opened, s.pchPlace w names ≠ some place) ∧ ∀ w ∈ s.completions, s.pchPlace w names ≠ some place

/-- The invariant holds of `s'`, and the files that were complete in `s` are as they were. -/
structure PchNext (names : Names) (s s' : Server) : Prop where
  ok : PchOk names s'
  kept : ∀ pch file, s.files pch = some file →
    s'.files pch = some file ∧ s'.disk (names.place file) = s.disk (names.place file)

theorem PchNext.trans {s'' : Server} (h : PchNext names s s') (h' : PchNext names s' s'') : PchNext names s s'' where
  ok := h'.ok
  kept pch file hf := by
    obtain ⟨hf', hd⟩ := h.kept pch file hf
    obtain ⟨hf'', hd'⟩ := h'.kept pch file hf'
    exact ⟨hf'', hd'.trans hd⟩

namespace PchOk

theorem init (dirs : List CompilerId) : PchOk names { compilerDirs := dirs } where
  session _ _ h := by cases h
  owner _ _ _ h := by cases h
  required _ h := by rcases h with h | h <;> cases h
  early _ h := by cases h
  ended _ _ h := by cases h.1
  opened _ h := by cases h
  pending _ h := by cases h
  complete _ _ h := by cases h

/-- Nothing happens to the PCH files, or to what the sessions know of them. -/
theorem of_core (h : PchOk names s) (hcore : ∀ w, (s'.sessions w).core = (s.sessions w).core)
    (hpch : ∀ w, (s'.sessions w).state = .downloadingPCH → (s.sessions w).state = .downloadingPCH)
    (hearly : ∀ w, (s'.sessions w).Early → (s.sessions w).Early) (hfiles : s'.files = s.files)
    (hincomplete : s'.partialFiles = s.partialFiles) (hdisk : s'.disk = s.disk) (hdown : s'.downloaded = s.downloaded)
    (hopened : s'.opened = s.opened) (hcompletions : s'.completions ⊆ s.completions) : PchNext names s s' := by
  have htask : ∀ w, (s'.sessions w).task = (s.sessions w).task := fun w => by
    change (s'.sessions w).core.task = (s.sessions w).core.task
    rw [hcore]
  have hfile : ∀ w, (s'.sessions w).pchFile = (s.sessions w).pchFile := fun w => by
    change (s'.sessions w).core.pchFile = (s.sessions w).core.pchFile
    rw [hcore]
  have hrequired : ∀ w, (s'.sessions w).pchRequired = (s.sessions w).pchRequired := fun w => by
    change (s'.sessions w).core.pchRequired = (s.sessions w).core.pchRequired
    rw [hcore]
  have hended : ∀ w, (s'.sessions w).pchEnded = (s.sessions w).pchEnded := fun w => by
    change (s'.sessions w).core.pchEnded = (s.sessions w).core.pchEnded
    rw [hcore]
  have hdesc : ∀ w, (s'.sessions w).pchDesc = (s.sessions w).pchDesc := fun w => by
    change (s'.sessions w).core.pchDesc = (s.sessions w).core.pchDesc
    rw [hcore]
  have hplace : ∀ w, s'.pchPlace w names = s.pchPlace w names := fun w => by
    unfold Server.pchPlace
    rw [hfile]
  refine ⟨?_, fun pch file hf => ⟨by rw [hfiles]; exact hf, by rw [hdisk]⟩⟩
  refine
    { session := fun w pch => ?_
      owner := fun w w' pch => ?_
      required := fun w hw => ?_
      early := fun w hw he => ?_
      ended := fun w pch => ?_
      opened := fun w hw => ?_
      pending := fun w hw => ?_
      complete := fun pch file => ?_ }
  · rw [htask, hfile, hfiles, hincomplete]
    exact h.session w pch
  · rw [hrequired, hrequired, htask, htask]
    exact h.owner w w' pch
  · rw [hrequired]
    exact h.required w (hw.imp (hpch w) fun he => hended w ▸ he)
  · rw [hended] at hw
    exact h.early w hw (hearly w he)
  · unfold Session.Received
    rw [hended, htask, hdesc, hdown]
    exact h.ended w pch
  · rw [hplace, hdisk]
    exact h.opened w (hopened ▸ hw)
  · rw [hended, hplace, hdisk, hdesc]
    exact h.pending w (hcompletions hw)
  · unfold Session.Received
    rw [hfiles, hdisk]
    intro hf
    obtain ⟨w, hw, hd⟩ := h.complete pch file hf
    exact ⟨w, by rw [hended, htask]; exact hw, by rw [hdesc]; exact hd⟩

theorem acts {A : SessionId → Prop} (h : PchOk names s) (ha : Acts A s s') : PchNext names s s' := by
  have hsame : ∀ w, (s'.sessions w).Providing → (s'.sessions w).state = (s.sessions w).state := by
    intro w hw
    rcases ha.state w with hs | hs
    · exact hs
    · exact absurd hw hs
  have hcompletions : s'.completions = s.completions := by
    change s'.common.completions = s.common.completions
    rw [ha.common]
  refine h.of_core ha.core (fun w hw => ?_) (fun w hw => ?_) ha.files ?_ ?_ ?_ ?_
    (fun w => by rw [hcompletions]; exact id)
  · exact (hsame w (.inr (.inr (.inr hw)))).symm.trans hw
  · have hp : (s'.sessions w).Providing := by
      rcases hw with hw | hw | hw
      · exact .inl hw
      · exact .inr (.inl hw)
      · exact .inr (.inr (.inl hw))
    unfold Session.Early at hw ⊢
    rwa [hsame w hp] at hw
  · change s'.common.partialFiles = s.common.partialFiles
    rw [ha.common]
  · change s'.common.disk = s.common.disk
    rw [ha.common]
  · change s'.common.downloaded = s.common.downloaded
    rw [ha.common]
  · change s'.common.opened = s.common.opened
    rw [ha.common]

/-- A session's own change, of what does not concern its PCH file. -/
theorem modify (h : PchOk names s) {sid : SessionId} {f : Session → Session}
    (hcore : (f (s.sessions sid)).core = (s.sessions sid).core)
    (hpch : (f (s.sessions sid)).state = .downloadingPCH → (s.sessions sid).state = .downloadingPCH)
    (hearly : (f (s.sessions sid)).Early → (s.sessions sid).Early) : PchNext names s (s.modify sid f) := by
  have hcases : ∀ (P : Session → Session → Prop), (∀ x, P x x) → P (f (s.sessions sid)) (s.sessions sid) →
      ∀ w, P ((s.modify sid f).sessions w) (s.sessions w) := by
    intro P hrefl hsid w
    by_cases heq : w = sid
    · subst heq
      rw [Server.modify_self]
      exact hsid
    · rw [Server.modify_other s sid f heq]
      exact hrefl _
  exact h.of_core (hcases (fun x y => x.core = y.core) (fun _ => rfl) hcore)
    (hcases (fun x y => x.state = .downloadingPCH → y.state = .downloadingPCH) (fun _ => id) hpch)
    (hcases (fun x y => x.Early → y.Early) (fun _ => id) hearly) rfl rfl rfl rfl rfl (List.Subset.refl _)

/-- A session goes on with its download: it has not received its file, or what it received stays as it is. -/
theorem download (h : PchOk names s) {sid : SessionId} {f : Session → Session} {writes : List SessionId}
    {downloaded : PchFile → Option Bytes}
    (htask : (f (s.sessions sid)).task = (s.sessions sid).task)
    (hfile : (f (s.sessions sid)).pchFile = (s.sessions sid).pchFile)
    (hrequired : (f (s.sessions sid)).pchRequired = (s.sessions sid).pchRequired)
    (hr : (s.sessions sid).pchRequired) (hstate : (f (s.sessions sid)).state = .downloadingPCH)
    (hkeeps : (s.sessions sid).pchEnded →
      (f (s.sessions sid)).pchEnded ∧ (f (s.sessions sid)).pchDesc = (s.sessions sid).pchDesc)
    (hdown : ∀ w pch, (s.sessions w).Received pch → downloaded pch = s.downloaded pch)
    (hended : ∀ pch, (f (s.sessions sid)).Received pch → downloaded pch = some (f (s.sessions sid)).pchDesc) :
    PchNext names s { s.modify sid f with writes, downloaded } := by
  refine ⟨?_, fun pch file hf => ⟨hf, rfl⟩⟩
  have hself : (s.modify sid f).sessions sid = f (s.sessions sid) := Server.modify_self s sid f
  have hother : ∀ w, w ≠ sid → (s.modify sid f).sessions w = s.sessions w := fun w hw => Server.modify_other s sid f hw
  have htask' := Server.modify_keeps s sid (·.task) htask
  have hfile' := Server.modify_keeps s sid (·.pchFile) hfile
  have hrequired' := Server.modify_keeps s sid (·.pchRequired) hrequired
  -- Where a session's file is depends on its name alone, which the call does not change.
  have hplace : ∀ w, (s.modify sid f).pchPlace w names = s.pchPlace w names := fun w => by
    unfold Server.pchPlace
    rw [hfile']
  refine
    { session := fun w pch hk => ?_
      owner := fun w w' pch hw hw' hk hk' => ?_
      required := fun w hw => ?_
      early := fun w hw he => ?_
      ended := fun w pch hw => ?_
      opened := fun w hw place hp => h.opened w hw place ((hplace w).symm.trans hp)
      pending := fun w hw => ?_
      complete := fun pch file hf => ?_ }
  · change ∃ file, ((s.modify sid f).sessions w).pchFile = some file ∧ _
    rw [hfile' w]
    exact h.session w pch ((htask' w).symm ▸ hk)
  · exact h.owner w w' pch ((hrequired' w).symm.trans hw) ((hrequired' w').symm.trans hw')
      (htask' w ▸ hk) (htask' w' ▸ hk')
  · change ((s.modify sid f).sessions w).pchRequired
    rw [hrequired' w]
    by_cases heq : w = sid
    · rw [heq]
      exact hr
    · change ((s.modify sid f).sessions w).state = _ ∨ ((s.modify sid f).sessions w).pchEnded at hw
      rw [hother w heq] at hw
      exact h.required w hw
  · change ((s.modify sid f).sessions w).pchEnded at hw
    change ((s.modify sid f).sessions w).Early at he
    by_cases heq : w = sid
    · subst heq
      rw [hself] at he
      rcases he with he | he | he <;> simp [hstate] at he
    · rw [hother w heq] at hw he
      exact h.early w hw he
  · change ((s.modify sid f).sessions w).Received pch at hw
    change downloaded pch = some ((s.modify sid f).sessions w).pchDesc
    by_cases heq : w = sid
    · subst heq
      rw [hself] at hw ⊢
      exact hended pch hw
    · rw [hother w heq] at hw ⊢
      rw [hdown w pch hw]
      exact h.ended w pch hw
  · change ((s.modify sid f).sessions w).pchEnded ∧ ∀ place, (s.modify sid f).pchPlace w names = some place →
      s.disk place = .holds ((s.modify sid f).sessions w).pchDesc
    rw [hplace w]
    obtain ⟨he, hd⟩ := h.pending w hw
    -- What is written was received to its end, and stays as it is.
    by_cases heq : w = sid
    · subst heq
      rw [hself]
      obtain ⟨he', hdesc⟩ := hkeeps he
      exact ⟨he', by rw [hdesc]; exact hd⟩
    · rw [hother w heq]
      exact ⟨he, hd⟩
  · obtain ⟨w, hw, hd⟩ := h.complete pch file hf
    refine ⟨w, ?_⟩
    change ((s.modify sid f).sessions w).Received pch ∧
      s.disk (names.place file) = .holds ((s.modify sid f).sessions w).pchDesc
    by_cases heq : w = sid
    · subst heq
      rw [hself]
      obtain ⟨he, hdesc⟩ := hkeeps hw.1
      exact ⟨⟨he, htask.symm ▸ hw.2⟩, hdesc ▸ hd⟩
    · rw [hother w heq]
      exact ⟨hw, hd⟩

theorem move (h : PchOk names s) (hm : Move s s') : PchNext names s s' := by
  cases hm with
  | still _ hs => exact h.acts (hs.own.acts (.inl hs.execs))
  | acts ha _ => exact h.acts ha
  | compilerDirs dirs => exact ⟨{ h with }, fun _ _ hf => ⟨hf, rfl⟩⟩
  | noCompilerData _ => exact h.modify rfl id id
  | downloadCompiler hd => exact h.modify rfl (fun h => by cases h) fun _ => .inr (.inl hd)
  | compilerReady _ _ => exact ⟨{ h with }, fun _ _ hf => ⟨hf, rfl⟩⟩
  | clearCompilerWaiters id => exact ⟨{ h with }, fun _ _ hf => ⟨hf, rfl⟩⟩
  | @downloadPch sid hd _ hr =>
    -- the session is early, and has received nothing yet
    have hnot : ¬ (s.sessions sid).pchEnded := fun he => h.early sid he (.inr hd)
    refine h.download (f := fun x => { x with state := .downloadingPCH, pchDesc := [], pchEnded := false }) rfl rfl rfl
      hr rfl (fun he => absurd he hnot) (fun _ _ _ => rfl) fun _ hw => ?_
    cases hw.1
  | @pchChunk sid data hd _ hdata =>
    refine h.download (f := fun x => { x with pchDesc := x.pchDesc ++ data }) rfl rfl rfl (h.required sid (.inl hd)) hd
      (fun he => ⟨he, by simp [hdata he]⟩) (fun _ _ _ => rfl) fun pch hw => ?_
    have hended := h.ended sid pch hw
    rw [hdata hw.1, List.append_nil]
    exact hended
  | @write sid hd _ =>
    refine h.download (f := fun x => { x with pchEnded := true }) rfl rfl rfl (h.required sid (.inl hd)) hd
      (fun _ => ⟨rfl, rfl⟩) (fun w pch hw => ?_) fun pch hw => ?_
    · cases hk : (s.sessions sid).task.pchFile with
      | none => rfl
      | some k =>
        by_cases heq : pch = k
        · -- whoever has received the file is the session that provides it
          subst heq
          obtain rfl := h.owner w sid pch (h.required w (.inr hw.1)) (h.required sid (.inl hd)) hw.2 hk
          rw [h.ended w pch hw]
          exact Function.update_self ..
        · exact Function.update_of_ne heq ..
    · rw [show (s.sessions sid).task.pchFile = some pch from hw.2]
      exact Function.update_self ..
  | clearPchWaiters pch => exact ⟨{ h with }, fun _ _ hf => ⟨hf, rfl⟩⟩
  | dropCompletion sid =>
    exact h.of_core (fun _ => rfl) (fun _ => id) (fun _ => id) rfl rfl rfl rfl rfl List.erase_subset
  | @start sid _ _ _ _ _ =>
    have hnote : PchOk names (s.note (.compiles sid)) := { h with }
    have hm : PchNext names (s.note (.compiles sid)) (s.enterRunningCompiler sid) := by
      refine hnote.modify (f := fun x => { x with state := .runningCompiler }) rfl (fun h => by cases h) fun he => ?_
      rcases he with he | he | he <;> cases he
    exact ⟨hm.ok, hm.kept⟩
  | launch _ => exact ⟨{ h with }, fun _ _ hf => ⟨hf, rfl⟩⟩
  | dropExec sid => exact ⟨{ h with }, fun _ _ hf => ⟨hf, rfl⟩⟩
  | dropRunning sid => exact ⟨{ h with }, fun _ _ hf => ⟨hf, rfl⟩⟩
  | @upload sid _ =>
    have hm : PchNext names s (s.modify sid fun x => { x with state := .uploadingFile }) :=
      h.modify rfl (fun h => by cases h) fun he => by rcases he with he | he | he <;> cases he
    exact ⟨{ hm.ok with }, hm.kept⟩
  | dropUpload sid l => exact ⟨{ h with }, fun _ _ hf => ⟨hf, rfl⟩⟩

theorem moves (h : PchOk names s) (hm : Moves s s') : PchNext names s s' := by
  induction hm with
  | refl => exact ⟨h, fun _ _ hf => ⟨hf, rfl⟩⟩
  | tail _ hlast ih => exact ih.trans (ih.ok.move hlast)

theorem born {task : Task} (h : PchOk names s) (hs : Stages s) (hb : Server.Born names task s s') :
    PchNext names s s' := by
  obtain ⟨file, c, p, hsessions, -, hold, -, -, hp, hp'⟩ := hb.session
  obtain ⟨hfiles, hdisk, hdown⟩ := hb.files
  have hfresh := hs.fresh s.counter (Nat.le_refl _)
  have hself : s'.sessions s.counter = { task, selfdestruct := true, state := .downloadMissingHeaders
                                         compilerRequired := c, pchRequired := p, pchFile := file } := by
    rw [hsessions, Function.update_self, hfresh]
  have hother : ∀ w, w ≠ s.counter → s'.sessions w = s.sessions w := fun w hw => by
    rw [hsessions, Function.update_of_ne hw]
  -- what was registered stays so, under the same name
  have hregistered : ∀ pch f, s.files pch = some f ∨ s.partialFiles pch = some f →
      s'.files pch = some f ∨ s'.partialFiles pch = some f := by
    intro pch f hf
    cases p with
    | false => rwa [hfiles, hp rfl]
    | true =>
      obtain ⟨k, -, -, hnone, hnone', hpart⟩ := hp' rfl
      rw [hfiles, hpart]
      refine hf.imp_right fun hf => ?_
      rwa [Function.update_of_ne]
      rintro rfl
      simp [hnone'] at hf
  -- a session that was there before does not have the key the new one is to provide
  have hnew : ∀ w pch, w ≠ s.counter → p = true → task.pchFile = some pch → (s.sessions w).task.pchFile ≠ some pch := by
    intro w pch _ hptrue hk hk'
    obtain ⟨k, hk'', -, hnone, hnone', -⟩ := hp' hptrue
    cases hk.symm.trans hk''
    obtain ⟨f, -, hf | hf⟩ := h.session w pch hk'
    · simp [hnone] at hf
    · simp [hnone'] at hf
  refine ⟨?_, fun pch f hf => ⟨by rw [hfiles]; exact hf, by rw [hdisk]⟩⟩
  refine
    { session := fun w pch hk => ?_
      owner := fun w w' pch hw hw' hk hk' => ?_
      required := fun w hw => ?_
      early := fun w hw he => ?_
      ended := fun w pch hw => ?_
      opened := fun w hw place hp => ?_
      pending := fun w hw => ?_
      complete := fun pch f hf => ?_ }
  · by_cases heq : w = s.counter
    · subst heq
      rw [hself] at hk ⊢
      cases p with
      | false =>
        obtain ⟨hf, hsome⟩ := hold pch hk rfl
        obtain ⟨f, rfl⟩ := Option.isSome_iff_exists.1 hsome
        exact ⟨f, rfl, hregistered pch f hf⟩
      | true =>
        obtain ⟨k, hk', hfile, -, -, hpart⟩ := hp' rfl
        cases (show task.pchFile = some pch from hk).symm.trans hk'
        exact ⟨_, hfile, .inr (by rw [hpart, Function.update_self])⟩
    · rw [hother w heq] at hk ⊢
      obtain ⟨f, hf, hreg⟩ := h.session w pch hk
      exact ⟨f, hf, hregistered pch f hreg⟩
  · by_cases heq : w = s.counter
    · by_cases heq' : w' = s.counter
      · rw [heq, heq']
      · rw [heq, hself] at hw hk
        rw [hother w' heq'] at hk'
        exact absurd hk' (hnew w' pch heq' hw hk)
    · by_cases heq' : w' = s.counter
      · rw [heq', hself] at hw' hk'
        rw [hother w heq] at hk
        exact absurd hk (hnew w pch heq hw' hk')
      · rw [hother w heq] at hw hk
        rw [hother w' heq'] at hw' hk'
        exact h.owner w w' pch hw hw' hk hk'
  · by_cases heq : w = s.counter
    · rw [heq, hself] at hw
      rcases hw with hw | hw <;> cases hw
    · rw [hother w heq] at hw ⊢
      exact h.required w hw
  · by_cases heq : w = s.counter
    · rw [heq, hself] at hw
      cases hw
    · rw [hother w heq] at hw he
      exact h.early w hw he
  · by_cases heq : w = s.counter
    · rw [heq, hself] at hw
      cases hw.1
    · rw [hother w heq] at hw ⊢
      rw [hdown]
      exact h.ended w pch hw
  · have hw' : w ∈ s.opened := hb.threads.1 ▸ hw
    have heq : w ≠ s.counter := by
      rintro rfl
      have hstate := (hs.writes _ (hs.opened _ hw')).1
      rw [hfresh] at hstate
      cases hstate
    unfold Server.pchPlace at hp
    rw [hother w heq] at hp
    rw [hdisk]
    exact h.opened w hw' place hp
  · obtain ⟨he, hd⟩ := h.pending w (hb.threads.2 ▸ hw)
    have heq : w ≠ s.counter := by
      rintro rfl
      rw [hfresh] at he
      cases he
    unfold Server.pchPlace at hd ⊢
    rw [hother w heq, hdisk]
    exact ⟨he, hd⟩
  · rw [hfiles] at hf
    rw [hdisk]
    obtain ⟨w, hw, hd⟩ := h.complete pch f hf
    refine ⟨w, ?_⟩
    rw [hother w]
    · exact ⟨hw, hd⟩
    · rintro rfl
      rw [hfresh] at hw
      cases hw.1

/-- The session's file is opened where no file is that counts. -/
theorem pchOpened (h : PchOk names s) {sid : SessionId}
    (hfree : ∀ place, s.pchPlace sid names = some place → s.Free names place) :
    PchNext names s (s.pchOpened sid names) := by
  unfold Server.pchOpened
  split
  · exact ⟨h, fun _ _ hf => ⟨hf, rfl⟩⟩
  · rename_i place hplace
    obtain ⟨hfiles, hopened, hpending⟩ := hfree place hplace
    rw [if_neg fun ⟨w, hw, hp⟩ => hopened w hw hp]
    refine ⟨?_, fun pch file hf => ⟨hf, Function.update_of_ne (hfiles pch file hf) ..⟩⟩
    refine { h with
      opened := fun w hw place' hp => ?_
      pending := fun w hw => ⟨(h.pending w hw).1, fun place' hp => ?_⟩
      complete := fun pch file hf => ?_ }
    · rcases List.mem_cons.1 hw with rfl | hmem
      · cases hplace.symm.trans hp
        exact Function.update_self ..
      · refine (Function.update_of_ne ?_ ..).trans (h.opened w hmem place' hp)
        rintro rfl
        exact hopened w hmem hp
    · refine (Function.update_of_ne ?_ ..).trans ((h.pending w hw).2 place' hp)
      rintro rfl
      exact hpending w hw hp
    · obtain ⟨w, hw, hd⟩ := h.complete pch file hf
      exact ⟨w, hw, (Function.update_of_ne (hfiles pch file hf) ..).trans hd⟩

/-- The file is written by the one thread that has it open. -/
theorem pchWritten (h : PchOk names s) (hs : Stages s) {sid : SessionId} (hw : sid ∈ s.writes)
    (hopened : sid ∈ s.opened) :
    PchNext names s (s.pchWritten sid names true) := by
  have hended := (hs.writes sid hw).2
  have hkept : ∀ place, s.disk place ≠ .opened sid → (s.pchWritten sid names true).disk place = s.disk place := by
    intro place hne
    simp only [Server.pchWritten, if_pos hopened, Server.storePch]
    cases hp : s.pchPlace sid names with
    | none => rfl
    | some p =>
      refine Function.update_of_ne ?_ ..
      rintro rfl
      exact hne (h.opened sid hopened _ hp)
  refine ⟨?_, fun pch file hf => ⟨hf, hkept _ ?_⟩⟩
  · refine { h with
      opened := fun w hw' place hp => ?_
      pending := fun w hw' => ?_
      complete := fun pch file hf => ?_ }
    · obtain ⟨hne, hw'⟩ := (List.Nodup.mem_erase_iff hs.nodup.2).1 hw'
      have hd := h.opened w hw' place hp
      rw [hkept place (by rw [hd]; simpa using hne)]
      exact hd
    · by_cases heq : w = sid
      · subst heq
        refine ⟨hended, fun place hp => ?_⟩
        change s.pchPlace w names = some place at hp
        simp [Server.pchWritten, hopened, Server.storePch, hp, h.opened w hopened place hp]
      · have hw' : w ∈ s.completions := (List.mem_cons.1 hw').resolve_left heq
        refine ⟨(h.pending w hw').1, fun place hp => ?_⟩
        have hd := (h.pending w hw').2 place hp
        rw [hkept place (by simp [hd])]
        exact hd
    · obtain ⟨w, hw', hd⟩ := h.complete pch file hf
      refine ⟨w, hw', ?_⟩
      rw [hkept _ (by simp [hd])]
      exact hd
  · obtain ⟨w, -, hd⟩ := h.complete pch file hf
    simp [hd]

/-- The file has been written, and becomes available. -/
theorem completed (h : PchOk names s) (hs : Stages s) {sid : SessionId} {pch : PchFile} {f : LocalFile}
    (hw : sid ∈ s.completions) (hk : (s.sessions sid).task.pchFile = some pch) (hp : s.partialFiles pch = some f) :
    PchNext names s ((s.dropCompletion sid).complete pch f) := by
  obtain ⟨hended, hdisk⟩ := h.pending sid hw
  have hnone : s.files pch = none := by
    by_contra hne
    simp [hs.alone pch hne] at hp
  have hplace : s.pchPlace sid names = some (names.place f) := by
    obtain ⟨g, hg, hreg | hreg⟩ := h.session sid pch hk
    · simp [hnone] at hreg
    · cases hp.symm.trans hreg
      simp [Server.pchPlace, hg]
  refine ⟨?_, fun k g hg => ⟨?_, rfl⟩⟩
  · refine { h with
      session := fun w k hk' => ?_
      pending := fun w hw' => h.pending w (List.mem_of_mem_erase hw')
      complete := fun k g hg => ?_ }
    · obtain ⟨g, hg, hreg⟩ := h.session w k hk'
      refine ⟨g, hg, ?_⟩
      by_cases heq : k = pch
      · subst heq
        refine .inl ?_
        rcases hreg with hreg | hreg
        · simp [hnone] at hreg
        · cases hp.symm.trans hreg
          exact Function.update_self ..
      · simpa only [Server.complete, Server.dropCompletion, Function.update_of_ne heq] using hreg
    · by_cases heq : k = pch
      · subst heq
        simp only [Server.complete, Function.update_self] at hg
        cases hg
        exact ⟨sid, ⟨hended, hk⟩, hdisk _ hplace⟩
      · simp only [Server.complete, Server.dropCompletion, Function.update_of_ne heq] at hg
        exact h.complete k g hg
  · have heq : k ≠ pch := by
      rintro rfl
      simp [hnone] at hg
    simpa only [Server.complete, Server.dropCompletion, Function.update_of_ne heq] using hg

end PchOk

/-- Whenever a PCH file is opened its place is free, and writing it succeeds. -/
def KeepsOthers (names : Names) (s : Server) : Event → Prop
  | .pchOpened sid => ∀ place, s.pchPlace sid names = some place → s.Free names place
  | .pchWritten _ ok => ok = true
  | _ => True

theorem step_pchNext {limit : Nat} {e : Event} (hs : Stages s) (h : PchOk names s) (he : KeepsOthers names s e)
    (hstep : step names limit s e = some s') : PchNext names s s' := by
  rcases step_cases hs hstep with ⟨task, -, hb⟩ | ⟨sid, -, -, rfl⟩ | ⟨sid, rfl, -, -, rfl⟩ |
    ⟨sid, ok, rfl, hw, hok, rfl⟩ |
    ⟨sid, pch, f, rfl, hw, hk, hp, hm⟩ | hm
  · exact h.born hs hb
  · refine h.acts (Server.selfdestruct_own.acts (.inl ?_))
    unfold Server.selfdestruct
    dsimp only
    split <;> rfl
  · exact h.pchOpened he
  · obtain rfl : ok = true := he
    exact h.pchWritten hs hw (hok rfl)
  · have hcompleted := h.completed hs hw hk hp
    exact hcompleted.trans (hcompleted.ok.moves hm)
  · exact h.moves hm

theorem run_pchNext {limit : Nat} {es : List Event} (hs : Stages s) (h : PchOk names s)
    (hm : Meets (step names limit) (KeepsOthers names) s es) (hr : run (step names limit) s es = some s') :
    Stages s' ∧ PchNext names s s' := by
  refine run_inv_of_meets (step names limit) (I := fun t => Stages t ∧ PchNext names s t) (fun t e t' hi he hstep => ?_)
    es s s' ⟨hs, h, fun _ _ hf => ⟨hf, rfl⟩⟩ hm hr
  exact ⟨hi.1.step hstep, hi.2.trans (step_pchNext hi.1 hi.2.ok he hstep)⟩

/-- **A session compiles with the PCH file it registered.** In every run that opens PCH files only in places that are
free, and writes them, a session that is about to start its compiler, or runs it, finds in the local file
`register_file` gave it what was downloaded for its key, and so it stays for the rest of the run. -/
theorem compiles_with_registered_pch {limit : Nat} {dirs : List CompilerId} {es es' : List Event} {s s' : Server}
    (hm : Meets (step names limit) (KeepsOthers names) { compilerDirs := dirs } es)
    (hr : run (step names limit) { compilerDirs := dirs } es = some s)
    (hm' : Meets (step names limit) (KeepsOthers names) s es') (hr' : run (step names limit) s es' = some s')
    {sid : SessionId} (hsid : sid ∈ s.execs ∨ sid ∈ s.running) {pch : PchFile}
    (hk : (s.sessions sid).task.pchFile = some pch) :
    ∃ file data, (s.sessions sid).pchFile = some file ∧ s.downloaded pch = some data ∧
      s.disk (names.place file) = .holds data ∧ s'.disk (names.place file) = .holds data := by
  obtain ⟨hs, hnext⟩ := run_pchNext (Stages.init dirs) (PchOk.init dirs) hm hr
  have hpch : s.HasPch sid := hsid.elim (fun h => (hs.execs sid h).2) fun h => (hs.running sid h).2
  obtain ⟨file, hfile, hreg⟩ := hnext.ok.session sid pch hk
  have hcomplete : s.files pch = some file := by
    refine hreg.resolve_right fun hpart => ?_
    have hnone := hs.alone pch (by simpa [Option.isSome_iff_ne_none] using hpch pch hk)
    simp [hnone] at hpart
  obtain ⟨w, hw, hd⟩ := hnext.ok.complete pch file hcomplete
  obtain ⟨-, hlater⟩ := run_pchNext hs hnext.ok hm' hr'
  exact ⟨file, _, hfile, hnext.ok.ended w pch hw, hd, (hlater.kept pch file hcomplete).2.trans hd⟩

/-- Two sessions with PCH files of different directories. -/
def twoPchEvents : List Event :=
  [.newSession { compilerId := "cl", pchFile := some ⟨"c:\\a\\x.pch", 1, 1⟩ },
    .newSession { compilerId := "cl", pchFile := some ⟨"c:\\b\\x.pch", 1, 1⟩ },
    .message 0 .taskFiles, .message 0 (.chunk [1] true true), .pchOpened 0, .pchWritten 0 true, .pchCompleted 0,
    .message 1 .taskFiles, .message 1 (.chunk [2] true true)]

def secondPchEvents : List Event := [.pchOpened 1, .pchWritten 1 true, .pchCompleted 1, .execStart 0 true []]

theorem compiles_with_registered_pch_two :
    ∃ s s' : Server, run (step ⟨id, id⟩ 1) { compilerDirs := ["cl"] } twoPchEvents = some s ∧
      run (step ⟨id, id⟩ 1) s secondPchEvents = some s' ∧ 0 ∈ s.execs ∧
      ∃ file data, (s.sessions 0).pchFile = some file ∧ s.downloaded ⟨"c:\\a\\x.pch", 1, 1⟩ = some data ∧
        s.disk file = .holds data ∧ s'.disk file = .holds data := by
  have hm : Meets (step ⟨id, id⟩ 1) (KeepsOthers ⟨id, id⟩) { compilerDirs := ["cl"] } twoPchEvents := by
    refine ⟨trivial, fun s₁ h₁ => ?_⟩
    cases h₁
    refine ⟨trivial, fun s₂ h₂ => ?_⟩
    cases h₂
    refine ⟨trivial, fun s₃ h₃ => ?_⟩
    cases h₃
    refine ⟨trivial, fun s₄ h₄ => ?_⟩
    cases h₄
    refine ⟨fun place _ => ⟨fun pch file hf => by (cases hf), fun w hw => by (cases hw), fun w hw => by (cases hw)⟩,
      fun s₅ h₅ => ?_⟩
    cases h₅
    exact ⟨rfl, fun _ _ => ⟨trivial, fun _ _ => ⟨trivial, fun _ _ => ⟨trivial, fun _ _ => trivial⟩⟩⟩⟩
  obtain ⟨s, hs⟩ : ∃ s, run (step ⟨id, id⟩ 1) { compilerDirs := ["cl"] } twoPchEvents = some s := ⟨_, rfl⟩
  obtain ⟨s', hs'⟩ : ∃ s', run (step ⟨id, id⟩ 1) s secondPchEvents = some s' := by
    cases hs
    exact ⟨_, rfl⟩
  have hm' : Meets (step ⟨id, id⟩ 1) (KeepsOthers ⟨id, id⟩) s secondPchEvents := by
    cases hs
    refine ⟨fun place hplace => ⟨fun pch file hf => ?_, fun w hw => by (cases hw), fun w hw => by (cases hw)⟩,
      fun _ _ => ⟨rfl, fun _ _ => ⟨trivial, fun _ _ => ⟨trivial, fun _ _ => trivial⟩⟩⟩⟩
    cases hplace
    -- the one file that is complete is the other session's
    change Function.update (fun _ => none) (⟨"c:\\a\\x.pch", 1, 1⟩ : PchFile) (some _) pch = _ at hf
    by_cases hk : pch = ⟨"c:\\a\\x.pch", 1, 1⟩
    · rw [hk, Function.update_self] at hf
      cases hf
      decide
    · rw [Function.update_of_ne hk] at hf
      cases hf
  have hmem : 0 ∈ s.execs ∧ (s.sessions 0).task.pchFile = some ⟨"c:\\a\\x.pch", 1, 1⟩ := by
    cases hs
    exact ⟨by decide, rfl⟩
  exact ⟨s, s', hs, hs', hmem.1, compiles_with_registered_pch hm hs hm' hs' (.inl hmem.1) hmem.2⟩

/-- A second key with the same path: its file replaces the one the first session is about to use. -/
def replacedEvents : List Event :=
  [.newSession { compilerId := "cl", pchFile := some ⟨"c:\\x.pch", 1, 1⟩ }, .message 0 .taskFiles,
    .message 0 (.chunk [1] true true), .pchOpened 0, .pchWritten 0 true, .pchCompleted 0,
    .newSession { compilerId := "cl", pchFile := some ⟨"c:\\x.pch", 1, 2⟩ }, .message 1 .taskFiles,
    .message 1 (.chunk [2] true true), .pchOpened 1, .pchWritten 1 true, .pchCompleted 1, .execStart 0 true []]

theorem compiles_with_replaced_pch :
    ∃ s file, run (step ⟨id, id⟩ 1) { compilerDirs := ["cl"] } replacedEvents = some s ∧ 0 ∈ s.running ∧
      (s.sessions 0).pchFile = some file ∧ s.downloaded ⟨"c:\\x.pch", 1, 1⟩ = some [1] ∧ s.disk file = .holds [2] :=
  ⟨_, _, rfl, by decide, rfl, rfl, rfl⟩

end Disk

end BuildPal.Runner
