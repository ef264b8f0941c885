import BuildPal.Server.HeaderRepository
import BuildPal.Scanner.RecordedNames
/-!
# The source among the headers

`prepare_dir` takes the files of a bundle in the order of a dictionary. Which
of them is the source it knows by the empty directory only, and headers that
are included by an absolute path have that as well. We say for which tasks
every order gives the source, and every file its own content.
-/
open BuildPal.Lib

namespace BuildPal.Headers

variable {κ Path : Type}

/-! ## `prepare_dir` -/

/-- `src_file`: the last file without a directory. -/
def srcFile (temps : List (Key × κ)) : Option String :=
  temps.foldl (fun src (key, _) => if key.1 = "" then some key.2 else src) none

section Prepare
variable [DecidableEq Path] (vpath : Key → Path) (mid : MachineId) (sid : SessionId) (needed : List (Key × Nat))

/-- `create_shared`, when nothing comes between. -/
def HeaderRepository.createShared (r : HeaderRepository κ Path) (key : Key) (c : Nat) (content : κ) :
    HeaderRepository κ Path :=
  match lockFirst r mid key c with
  | (r, none) => r
  | (r, some .createLocal) => r.createTempFile vpath sid key content
  | (r, some _) => (r.createSharedFile vpath mid key content).setChecksum mid key (.sum c)

/-- One round of the loop of `prepare_dir`. -/
def prepareFile (s : HeaderRepository κ Path × List (Key × κ)) (file : Key × κ) :
    HeaderRepository κ Path × List (Key × κ) :=
  match needed.lookup file.1 with
  | some c => (s.1.createShared vpath mid sid file.1 c file.2, s.2)
  | none => (s.1, s.2 ++ [file])

/-- `prepare_dir`, with the `needed_files` of the session. -/
def HeaderRepository.prepareDir (r : HeaderRepository κ Path) (files : List (Key × κ)) (includeDirs : List String) :
    HeaderRepository κ Path × List String × Option String :=
  let (r, temps) := files.foldl (prepareFile vpath mid sid needed) (r, [])
  (r.processTempFiles vpath sid temps, includeDirs, srcFile temps)

end Prepare

/-! ## What is expected -/

/-- What the dictionary may iterate over for the files of the task. -/
def Task.Order (t : Task κ) (needed : List (Key × Nat)) (files : List (Key × κ)) : Prop :=
  files.Perm (newFiles (t.bundle (needed.map (·.1))))

/-- The files that are not shared. -/
def unshared (needed : List (Key × Nat)) (files : List (Key × κ)) : List (Key × κ) :=
  files.filter fun file => (needed.lookup file.1).isNone

/-- The session compiles the source of its task, and finds the content of each file at its path. -/
structure Prepared (vpath : Key → Path) (sid : SessionId) (t : Task κ) (files : List (Key × κ))
    (r : HeaderRepository κ Path) (src : Option String) : Prop where
  source : src = some t.source
  mapped : ∀ p ∈ files, ∃ f, r.tempMap sid (vpath p.1) = some f ∧ f.content = p.2

/-- The source is not among the headers that are missing; a header that was found next to one without a directory is
missing, unless it is the source; and the files that are not shared have one content for each path. -/
structure RightSource (vpath : Key → Path) (t : Task κ) (needed : List (Key × Nat)) : Prop where
  source : needed.lookup ("", t.source) = none
  headers : ∀ name content, (("", name), true, content) ∈ t.headers → name = t.source ∨ (needed.lookup ("", name)).isSome
  apart : ∀ p ∈ unshared needed (newFiles (t.bundle (needed.map (·.1)))),
    ∀ q ∈ unshared needed (newFiles (t.bundle (needed.map (·.1)))), vpath p.1 = vpath q.1 → p.2 = q.2

/-! ## The source -/

section Source
variable {needed : List (Key × Nat)} {files : List (Key × κ)} {name : String}

theorem srcFile_append (files : List (Key × κ)) (p : Key × κ) :
    srcFile (files ++ [p]) = if p.1.1 = "" then some p.1.2 else srcFile files := by
  simp [srcFile]

theorem srcFile_mem (h : srcFile files = some name) : ("", name) ∈ files.map (·.1) := by
  induction files using List.reverseRecOn with
  | nil => cases h
  | append_singleton files p ih =>
    rw [srcFile_append] at h
    rw [List.map_append, List.mem_append]
    split at h
    · next hdir =>
      obtain ⟨⟨dir, name'⟩, content⟩ := p
      cases h
      cases hdir
      exact .inr List.mem_cons_self
    · exact .inl (ih h)

theorem srcFile_isSome (h : ("", name) ∈ files.map (·.1)) : (srcFile files).isSome := by
  induction files using List.reverseRecOn with
  | nil => cases h
  | append_singleton files p ih =>
    rw [srcFile_append]
    split
    · rfl
    · next hdir =>
      rw [List.map_append, List.mem_append] at h
      refine ih (h.resolve_right fun hlast => hdir ?_)
      exact congrArg Prod.fst (List.mem_singleton.1 hlast).symm

/-- All orders give the same source exactly if there is no other file without a directory. -/
theorem srcFile_orders (source : String) : (∀ order : List (Key × κ), order.Perm files → srcFile order = some source) ↔
    ("", source) ∈ files.map (·.1) ∧ ∀ name, ("", name) ∈ files.map (·.1) → name = source := by
  constructor
  · intro hall
    refine ⟨srcFile_mem (hall files (List.Perm.refl _)), fun name hname => ?_⟩
    obtain ⟨p, hp, hkey⟩ := List.mem_map.1 hname
    obtain ⟨before, after, rfl⟩ := List.append_of_mem hp
    -- the order in which the file comes last
    have hlast := hall (before ++ after ++ [p]) (by
      rw [List.append_assoc]
      exact (List.perm_append_singleton _ _).append_left _)
    rw [srcFile_append, hkey, if_pos rfl] at hlast
    exact Option.some.inj hlast
  · rintro ⟨hsource, honly⟩ order hperm
    obtain ⟨name, hname⟩ := Option.isSome_iff_exists.1
      (srcFile_isSome (((hperm.map (·.1)).mem_iff).2 hsource))
    rw [hname, honly name (((hperm.map (·.1)).mem_iff).1 (srcFile_mem hname))]

end Source

/-! ## The files -/

section Files
variable [DecidableEq Path] {vpath : Key → Path} {sid : SessionId} {temps : List (Key × κ)}

theorem processTempFiles_append (r : HeaderRepository κ Path) (temps : List (Key × κ)) (p : Key × κ) :
    r.processTempFiles vpath sid (temps ++ [p]) =
      (r.processTempFiles vpath sid temps).createTempFile vpath sid p.1 p.2 := by
  simp [HeaderRepository.processTempFiles]

theorem createTempFile_tempMap (r : HeaderRepository κ Path) (key : Key) (content : κ) :
    (r.createTempFile vpath sid key content).tempMap sid =
      Function.update (r.tempMap sid) (vpath key) (some ⟨r.nextName, content⟩) :=
  Function.update_self ..

/-- At the path of a file there is a file, which may be another one's. -/
theorem processTempFiles_finds (r : HeaderRepository κ Path) {p : Key × κ} (hp : p ∈ temps) :
    ∃ f q, (r.processTempFiles vpath sid temps).tempMap sid (vpath p.1) = some f ∧ q ∈ temps ∧
      vpath q.1 = vpath p.1 ∧ f.content = q.2 := by
  induction temps using List.reverseRecOn with
  | nil => cases hp
  | append_singleton temps q ih =>
    rw [processTempFiles_append, createTempFile_tempMap]
    by_cases hpath : vpath p.1 = vpath q.1
    · rw [hpath, Function.update_self]
      exact ⟨_, q, rfl, List.mem_append_right _ List.mem_cons_self, rfl, rfl⟩
    · rw [Function.update_of_ne hpath]
      have hold : p ∈ temps := by
        refine (List.mem_append.1 hp).resolve_right fun hlast => hpath ?_
        rw [List.mem_singleton.1 hlast]
      obtain ⟨f, q', hf, hq', hpath', hcontent⟩ := ih hold
      exact ⟨f, q', hf, List.mem_append_left _ hq', hpath', hcontent⟩

/-- Each file has its own content exactly if there is one for each path. -/
theorem processTempFiles_own (r : HeaderRepository κ Path) :
    (∀ p ∈ temps, ∃ f, (r.processTempFiles vpath sid temps).tempMap sid (vpath p.1) = some f ∧ f.content = p.2) ↔
      ∀ p ∈ temps, ∀ q ∈ temps, vpath p.1 = vpath q.1 → p.2 = q.2 := by
  constructor
  · intro hown p hp q hq hpath
    obtain ⟨f, hf, hcontent⟩ := hown p hp
    obtain ⟨f', hf', hcontent'⟩ := hown q hq
    rw [hpath, hf'] at hf
    cases hf
    exact hcontent.symm.trans hcontent'
  · intro hone p hp
    obtain ⟨f, q, hf, hq, hpath, hcontent⟩ := processTempFiles_finds r hp
    exact ⟨f, hf, hcontent.trans (hone q hq p hp hpath)⟩

end Files

/-! ## What is put aside -/

section PutAside
variable {checksum : κ → Nat} {vpath : Key → Path} {mid : MachineId} {sid : SessionId} {needed : List (Key × Nat)}
variable {t : Task κ} {files : List (Key × κ)}

theorem prepareFiles_temps [DecidableEq Path] (r : HeaderRepository κ Path) (temps : List (Key × κ)) :
    (files.foldl (prepareFile vpath mid sid needed) (r, temps)).2 = temps ++ unshared needed files := by
  induction files generalizing r temps with
  | nil => exact (List.append_nil _).symm
  | cons file files ih =>
    rw [List.foldl_cons, prepareFile]
    unfold unshared at ih ⊢
    cases hneeded : needed.lookup file.1 with
    | some c =>
      rw [List.filter_cons_of_neg (by simp [hneeded])]
      exact ih _ temps
    | none =>
      rw [List.filter_cons_of_pos (by simp [hneeded])]
      have hrest := ih r (temps ++ [file])
      rwa [List.append_assoc] at hrest

theorem mem_unshared {key : Key} : key ∈ (unshared needed files).map (·.1) ↔
    key ∈ files.map (·.1) ∧ needed.lookup key = none := by
  unfold unshared
  constructor
  · intro h
    obtain ⟨p, hp, rfl⟩ := List.mem_map.1 h
    obtain ⟨hmem, hnone⟩ := List.mem_filter.1 hp
    exact ⟨List.mem_map_of_mem hmem, Option.isNone_iff_eq_none.1 hnone⟩
  · rintro ⟨hmem, hnone⟩
    obtain ⟨p, hp, rfl⟩ := List.mem_map.1 hmem
    exact List.mem_map_of_mem (List.mem_filter.2 ⟨hp, Option.isNone_iff_eq_none.2 hnone⟩)

/-- The files without a directory that are not shared: the source, and headers. -/
theorem unshared_bundle {name : String} :
    ("", name) ∈ (unshared needed (newFiles (t.bundle (needed.map (·.1))))).map (·.1) ↔
      needed.lookup ("", name) = none ∧ (name = t.source ∨ ∃ content, (("", name), true, content) ∈ t.headers) := by
  rw [mem_unshared, newFiles_keys, and_comm]
  refine and_congr_right fun hnone => ?_
  have hmissing : ("", name) ∉ needed.map (·.1) := fun hmem => by
    obtain ⟨p, hp, hkey⟩ := List.mem_map.1 hmem
    have hall := List.lookup_eq_none_iff.1 hnone p hp
    simp [hkey] at hall
  unfold Task.bundle
  rw [List.map_append, List.mem_append, or_comm]
  refine or_congr ?_ ?_
  · simp
  · constructor
    · intro hmem
      obtain ⟨p, hp, hkey⟩ := List.mem_map.1 hmem
      obtain ⟨⟨key, relative, content⟩, hheader, hsent⟩ := List.mem_filterMap.1 hp
      dsimp only at hsent
      split at hsent
      · cases hsent
      · next hrelative =>
        cases hsent
        obtain rfl : key = ("", name) := hkey
        cases relative with
        | true => exact ⟨content, hheader⟩
        | false => exact absurd ⟨rfl, hmissing⟩ hrelative
    · rintro ⟨content, hheader⟩
      exact List.mem_map.2 ⟨(("", name), content), List.mem_filterMap.2 ⟨_, hheader, by simp⟩, rfl⟩

theorem Task.Order.unshared (h : t.Order needed files) :
    (unshared needed files).Perm (unshared needed (newFiles (t.bundle (needed.map (·.1))))) :=
  h.filter _

/-- Every order of the files that are not shared is that of an order of all. -/
theorem exists_order {order : List (Key × κ)}
    (h : order.Perm (unshared needed (newFiles (t.bundle (needed.map (·.1)))))) :
    ∃ files, t.Order needed files ∧ Headers.unshared needed files = order := by
  have hnone : ∀ p ∈ order, (needed.lookup p.1).isNone := fun p hp => (List.mem_filter.1 (h.mem_iff.1 hp)).2
  let rest := (newFiles (t.bundle (needed.map (·.1)))).filter fun file => !(needed.lookup file.1).isNone
  refine ⟨order ++ rest, (h.append_right rest).trans (List.filter_append_perm _ _), ?_⟩
  have hrest : Headers.unshared needed rest = [] := by
    refine List.filter_eq_nil_iff.2 fun p hp => ?_
    rw [Bool.eq_false_of_not_eq_true' (List.mem_filter.1 hp).2]
    exact Bool.false_ne_true
  rw [Headers.unshared, List.filter_append, List.filter_eq_self.2 hnone]
  exact (congrArg (order ++ ·) hrest).trans (List.append_nil _)

theorem prepareDir_eq [DecidableEq Path] (r : HeaderRepository κ Path) (includeDirs : List String) :
    ∃ r' : HeaderRepository κ Path, r.prepareDir vpath mid sid needed files includeDirs =
      (r'.processTempFiles vpath sid (unshared needed files), includeDirs, srcFile (unshared needed files)) := by
  have htemps := @prepareFiles_temps κ Path vpath mid sid needed files _ r []
  rw [List.nil_append] at htemps
  exact ⟨_, by rw [HeaderRepository.prepareDir, ← htemps]⟩

/-- The orders give the source exactly if it is the only file without a directory that is not shared. -/
theorem source_orders : (∀ files, t.Order needed files → srcFile (unshared needed files) = some t.source) ↔
    needed.lookup ("", t.source) = none ∧
      ∀ name content, (("", name), true, content) ∈ t.headers → name = t.source ∨ (needed.lookup ("", name)).isSome := by
  have horders : (∀ files, t.Order needed files → srcFile (unshared needed files) = some t.source) ↔
      ∀ order : List (Key × κ), order.Perm (unshared needed (newFiles (t.bundle (needed.map (·.1))))) →
        srcFile order = some t.source := by
    constructor
    · intro hall order horder
      obtain ⟨files, hfiles, rfl⟩ := exists_order horder
      exact hall files hfiles
    · exact fun hall files hfiles => hall _ hfiles.unshared
  rw [horders, srcFile_orders]
  simp only [unshared_bundle]
  constructor
  · rintro ⟨⟨hsource, -⟩, honly⟩
    refine ⟨hsource, fun name content hheader => ?_⟩
    by_cases hnone : needed.lookup ("", name) = none
    · exact .inl (honly name ⟨hnone, .inr ⟨content, hheader⟩⟩)
    · exact .inr (Option.isSome_iff_ne_none.2 hnone)
  · rintro ⟨hsource, hheaders⟩
    refine ⟨⟨hsource, .inl trivial⟩, ?_⟩
    rintro name ⟨hnone, rfl | ⟨content, hheader⟩⟩
    · rfl
    · refine (hheaders name content hheader).resolve_right ?_
      rw [hnone]
      exact Bool.false_ne_true

end PutAside

/-- Whatever is in the repository, every order in which the files of a task may come gives the source and every file that
is not shared its own content exactly if there is no other file without a directory among these, and one content for each
path. -/
theorem prepares_right_source [DecidableEq Path] (vpath : Key → Path) (r : HeaderRepository κ Path) (mid : MachineId)
    (sid : SessionId) (t : Task κ) (needed : List (Key × Nat)) (includeDirs : List String) :
    (∀ files, t.Order needed files → ∃ r' src,
      r.prepareDir vpath mid sid needed files includeDirs = (r', includeDirs, src) ∧
        Prepared vpath sid t (unshared needed files) r' src) ↔ RightSource vpath t needed := by
  constructor
  · intro hall
    have hsource : ∀ files, t.Order needed files → srcFile (unshared needed files) = some t.source := by
      intro files hfiles
      obtain ⟨r', src, heq, hprepared⟩ := hall files hfiles
      obtain ⟨r₀, hr₀⟩ := @prepareDir_eq κ Path vpath mid sid needed files _ r includeDirs
      rw [hr₀] at heq
      cases heq
      exact hprepared.source
    obtain ⟨hnone, hheaders⟩ := source_orders.1 hsource
    refine ⟨hnone, hheaders, ?_⟩
    obtain ⟨r', src, heq, hprepared⟩ := hall _ (List.Perm.refl _)
    obtain ⟨r₀, hr₀⟩ := @prepareDir_eq κ Path vpath mid sid needed _ _ r includeDirs
    rw [hr₀] at heq
    cases heq
    exact (processTempFiles_own r₀).1 hprepared.mapped
  · intro hright files hfiles
    obtain ⟨r₀, hr₀⟩ := @prepareDir_eq κ Path vpath mid sid needed files _ r includeDirs
    refine ⟨_, _, hr₀, source_orders.2 ⟨hright.source, hright.headers⟩ files hfiles, ?_⟩
    refine (processTempFiles_own r₀).2 fun p hp q hq hpath => ?_
    exact hright.apart p (hfiles.unshared.mem_iff.1 hp) q (hfiles.unshared.mem_iff.1 hq) hpath

/-! ## Headers without a directory -/

section Scanner
open Scanner

theorem recordHeader_dir (dirName : FileId → String) (parent : IncludedHeaders) (i : FoundHeader) :
    (recordHeader dirName parent i).place.dir =
      if nextToParent dirName parent.file i then parent.place.dir else i.searchPath := by
  unfold recordHeader
  split <;> rfl

/-- A header has a directory unless it, or one that it is included through, was included by an absolute path. -/
theorem dir_of_includeStack {dirName : FileId → String} {source : IncludedHeaders} (hsource : source.place.dir ≠ "") :
    ∀ {is : List FoundHeader}, (∀ i ∈ is, i.searchPath ≠ "") →
      ∀ h ∈ includeStack (recordHeader dirName) source is, h.place.dir ≠ "" := by
  intro is
  induction is with
  | nil =>
    intro _ h hh
    cases hh
  | cons i outer ih =>
    intro hpaths h hh
    have houter := ih fun i hi => hpaths i (List.mem_cons_of_mem _ hi)
    rcases List.mem_cons.1 hh with rfl | hh
    · have hparent : ((includeStack (recordHeader dirName) source outer).headD source).place.dir ≠ "" := by
        cases hstack : includeStack (recordHeader dirName) source outer with
        | nil => exact hsource
        | cons parent _ => exact houter parent (by rw [hstack]; exact List.mem_cons_self)
      rw [recordHeader_dir]
      split
      · exact hparent
      · exact hpaths i List.mem_cons_self
    · exact houter h hh

/-- `a.h` is included by its path, and includes `b.h`, which is next to it. -/
def absoluteInclude : List FoundHeader :=
  [⟨"b.h", false, ⟨0, 2⟩, "C:/abs", "b.h"⟩, ⟨"C:/abs/a.h", false, ⟨0, 1⟩, "", "C:/abs/a.h"⟩]

end Scanner

/-- The task of a source with an absolute include. -/
def absoluteTask : Task (List Nat) where
  headerInfo := [("", [("C:/abs/a.h", false, [1]), ("C:/abs/b.h", true, [2])])]
  source := "C:/p/main.cpp"
  sourceContent := [0]

/-- The scanner records `b.h` without a directory, and the server takes it for the source. -/
theorem header_taken_for_source :
    let needed := ({} : HeaderRepository (List Nat) String).neededFiles 0 (absoluteTask.filelist adler32)
    let files := [(("", "C:/abs/a.h"), [1]), (("", "C:/p/main.cpp"), [0]), (("", "C:/abs/b.h"), [2])]
    (Scanner.includeStack (Scanner.recordHeader fun file => if file.file = 0 then "C:/p" else "C:/abs")
        ⟨⟨"C:/p", "main.cpp"⟩, true, ⟨0, 0⟩⟩ absoluteInclude).map (fun h => (h.place.dir, h.place.name, h.relative)) =
      [("", "C:/abs/b.h", true), ("", "C:/abs/a.h", false)] ∧
    absoluteTask.Order needed files ∧
    ∃ r', ({} : HeaderRepository (List Nat) String).prepareDir joinPath 0 1 needed files [] =
        (r', [], some "C:/abs/b.h") ∧
      ¬ Prepared joinPath 1 absoluteTask (unshared needed files) r' (some "C:/abs/b.h") := by
  refine ⟨by decide, List.isPerm_iff.1 (by decide), _, rfl, fun h => absurd h.source (by decide)⟩

/-! ## Every run -/

section Run
variable [DecidableEq κ] [DecidableEq Path] {checksum : κ → Nat} {vpath : Key → Path} {s s' : State κ Path}
variable {sid : SessionId} {x : Session κ} {needed : List (Key × Nat)} {temps todo : List (Key × κ)}

/-- What was put aside are the files that are not shared, of those that have come. -/
def Phase.InOrder (t : Task κ) : Phase κ → Prop
  | .preparing needed todo _ temps => ∃ done, t.Order needed (done ++ todo) ∧ temps = unshared needed done
  | _ => True

def InOrder (s : State κ Path) : Prop := ∀ sid x, s.sessions sid = some x → x.phase.InOrder x.task

omit [DecidableEq κ] [DecidableEq Path] in
theorem Moves.inOrder {t : Task κ} {phase phase' : Phase κ} (hm : Moves t phase phase') (h : phase.InOrder t) :
    phase'.InOrder t := by
  cases hm with
  | start order => exact ⟨[], order, rfl⟩
  | @putAside needed todo temps key content free =>
    obtain ⟨done, horder, rfl⟩ := h
    refine ⟨done ++ [(key, content)], ?_, by simp [unshared, free]⟩
    rw [List.append_assoc]
    exact horder
  | @upload needed todo temps key content c listed cur =>
    obtain ⟨done, horder, rfl⟩ := h
    refine ⟨done ++ [(key, content)], ?_, by simp [unshared, listed]⟩
    rw [List.append_assoc]
    exact horder
  | uploading cur' => exact h
  | failed => trivial
  | prepared => trivial
  | compiling => trivial
  | completed => exact h

theorem step_inOrder {e : Event κ} (h : InOrder s) (hs : step checksum vpath s e = some s') : InOrder s' := by
  obtain ⟨sid, y, hsessions, hmoves⟩ := step_moves hs
  intro sid' x' hx'
  rw [hsessions] at hx'
  rcases update_cases hx' with ⟨rfl, rfl⟩ | ⟨-, hx⟩
  · rcases hmoves with ⟨mid, task, -, rfl⟩ | ⟨x, hx, htask, hmove⟩
    · trivial
    · rw [htask]
      exact hmove.inOrder (h _ x hx)
  · exact h sid' x' hx

/-- The steps of a file, with nothing between them. -/
theorem prepareFile_run {file : Key × κ} (hx : s.sessions sid = some x)
    (hphase : x.phase = .preparing needed (file :: todo) none temps) :
    ∃ es, run (step checksum vpath) s es = some
      { repo := (prepareFile vpath x.machine sid needed (s.repo, temps) file).1
        sessions := Function.update s.sessions sid (some { x with
          phase := .preparing needed todo none (prepareFile vpath x.machine sid needed (s.repo, temps) file).2 }) } := by
  obtain ⟨key, content⟩ := file
  cases hneeded : needed.lookup key with
  | none => exact ⟨[.nextFile sid], by simp [run, step, hx, hphase, hneeded, prepareFile, State.withPhase]⟩
  | some c =>
    -- what is known of the header says which steps there are
    cases hold : s.repo.checksums x.machine key with
    | none =>
      have hlock : lockFirst s.repo x.machine key c =
          (s.repo.setChecksum x.machine key .inProgress, some .createShared) := by simp [lockFirst, hold]
      exact ⟨[.nextFile sid, .createFile sid true, .publish sid], by
        simp [run, step, hx, hphase, hneeded, hlock, prepareFile, HeaderRepository.createShared, State.withPhase]⟩
    | some old =>
      by_cases hsum : old = .sum c
      · have hlock : lockFirst s.repo x.machine key c = (s.repo, none) := by simp [lockFirst, hold, hsum]
        exact ⟨[.nextFile sid], by
          simp [run, step, hx, hphase, hneeded, hlock, prepareFile, HeaderRepository.createShared, State.withPhase]⟩
      · have hlock : lockFirst s.repo x.machine key c = (s.repo, some .createLocal) := by simp [lockFirst, hold, hsum]
        exact ⟨[.nextFile sid, .createFile sid true], by
          simp [run, step, hx, hphase, hneeded, hlock, prepareFile, HeaderRepository.createShared, State.withPhase]⟩

theorem prepareFiles_run (hx : s.sessions sid = some x) (hphase : x.phase = .preparing needed todo none temps) :
    ∃ es, run (step checksum vpath) s es = some
      { repo := (todo.foldl (prepareFile vpath x.machine sid needed) (s.repo, temps)).1
        sessions := Function.update s.sessions sid (some { x with
          phase := .preparing needed [] none
            (todo.foldl (prepareFile vpath x.machine sid needed) (s.repo, temps)).2 }) } := by
  induction todo generalizing s x temps with
  | nil =>
    refine ⟨[], congrArg some ?_⟩
    rw [List.foldl_nil, ← hphase]
    exact congrArg (State.mk s.repo) (Function.update_eq_self_iff.2 hx.symm).symm
  | cons file todo ih =>
    obtain ⟨es, hes⟩ := @prepareFile_run κ Path _ _ checksum vpath s sid x needed temps todo file hx hphase
    let next := prepareFile vpath x.machine sid needed (s.repo, temps) file
    let y : Session κ := { x with phase := .preparing needed todo none next.2 }
    let s₁ : State κ Path := ⟨next.1, Function.update s.sessions sid (some y)⟩
    obtain ⟨es', hes'⟩ := ih (s := s₁) (x := y) (Function.update_self ..) rfl
    exact ⟨es ++ es', by rw [run_append, hes, Option.bind_some, hes', Function.update_idem]; rfl⟩

/-- What `prepare_dir` does is what its steps do, with nothing between them. -/
theorem prepareDir_run (hx : s.sessions sid = some x) {files : List (Key × κ)}
    (hphase : x.phase = .preparing needed files none []) (includeDirs : List String) :
    ∃ es, run (step checksum vpath) s es = some
      { repo := (s.repo.prepareDir vpath x.machine sid needed files includeDirs).1
        sessions := Function.update s.sessions sid (some { x with phase := .prepared }) } := by
  obtain ⟨es, hes⟩ := @prepareFiles_run κ Path _ _ checksum vpath s sid x needed [] files hx hphase
  refine ⟨es ++ [.processTempFiles sid (files.foldl (prepareFile vpath x.machine sid needed) (s.repo, [])).2.length], ?_⟩
  rw [run_concat, hes]
  simp [step, State.withPhase, HeaderRepository.prepareDir]

/-- Other sessions may come between: the files are put aside in an order of the bundle, and stored for the session. -/
theorem run_prepares_right_source {es : List (Event κ)} (hr : run (step checksum vpath) {} es = some s)
    (hx : s.sessions sid = some x) (hphase : x.phase = .preparing needed [] none temps)
    (hright : RightSource vpath x.task needed)
    (hs : step checksum vpath s (.processTempFiles sid temps.length) = some s') :
    (∃ files, x.task.Order needed files ∧ temps = unshared needed files) ∧
      Prepared vpath sid x.task temps s'.repo (srcFile temps) := by
  have hinv : InOrder s :=
    run_inv (step checksum vpath) (fun _ _ _ h hs => step_inOrder h hs) (fun _ _ hx => by (cases hx)) hr
  have horder := hinv sid x hx
  rw [hphase] at horder
  obtain ⟨files, hfiles, rfl⟩ := horder
  rw [List.append_nil] at hfiles
  refine ⟨⟨files, hfiles, rfl⟩, source_orders.2 ⟨hright.source, hright.headers⟩ files hfiles, ?_⟩
  have hrepo : s'.repo = s.repo.processTempFiles vpath sid (unshared needed files) := by
    simp only [step, hx, Option.bind_eq_bind, Option.bind_some, hphase, Option.some.injEq, List.take_length] at hs
    rw [← hs]
    rfl
  rw [hrepo]
  refine (processTempFiles_own s.repo).2 fun p hp q hq hpath => ?_
  exact hright.apart p (hfiles.unshared.mem_iff.1 hp) q (hfiles.unshared.mem_iff.1 hq) hpath

end Run

end BuildPal.Headers
