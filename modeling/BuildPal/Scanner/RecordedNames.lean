import BuildPal.Lib.Paths
import BuildPal.Scanner.NaivePreprocessor
/-!
# What recorded names denote

A header is recorded by a directory and a name in it. One that was found next
to its parent gets the parent's directory, and a name that starts like the
parent's name, up to the last `/`. Names may have backslashes as well: what they
set apart after the last `/` is lost, and the header is then recorded in another
directory than the one it is in.
-/

namespace BuildPal.Scanner

open BuildPal.Lib.Paths

/-! ## Nested includes -/

/-- An include whose header was found: what stands in the directive, and what `HeaderSearch` says. -/
structure FoundHeader where
  fileName : String
  isAngled : Bool
  file : FileId
  searchPath : String
  relativePath : String
  deriving DecidableEq, Repr

/-- The headers of includes that each stand in the header of the next one, the last in the source. -/
def includeStack (record : IncludedHeaders → FoundHeader → IncludedHeaders) (source : IncludedHeaders) :
    List FoundHeader → List IncludedHeaders
  | [] => []
  | i :: outer =>
    record ((includeStack record source outer).headD source) i :: includeStack record source outer

namespace Setup

/-- What `enterSourceFile` pushes to `fileStack_`. -/
def enterSourceFile (S : Setup) (main : FileId) (fileName : String) : IncludedHeaders :=
  ⟨⟨S.dirName main, String.ofList (baseName fileName.toList)⟩, true, main⟩

/-- `fileStack_` without the source. -/
def fileStack (S : Setup) : IncludedHeaders → List FoundHeader → List IncludedHeaders :=
  includeStack fun parent i =>
    S.included parent ⟨i.fileName, i.isAngled, some i.file, i.searchPath, i.relativePath⟩ i.file

end Setup

/-- `headerStack_` without the source. -/
def Naive.Clang.headerStack (C : Naive.Clang) : IncludedHeaders → List FoundHeader → List IncludedHeaders :=
  includeStack fun parent i => C.included parent ⟨i.fileName, i.isAngled⟩ ⟨i.file, i.searchPath, i.relativePath⟩

/-! ## The directories that names lead to -/

section
variable {Dir : Type} (fs : FileSystem Dir FileId) (cwd : Dir) (dirName : FileId → String)

/-- The name, joined to the directory, is a path to the file. -/
def Denotes (h : IncludedHeaders) : Prop :=
  fs.lookup (fs.walk cwd h.place.dir.toList) h.place.name.toList = some h.file

instance (h : IncludedHeaders) : Decidable (Denotes fs cwd h) := inferInstanceAs (Decidable (_ = _))

/-- `HeaderSearch` found each header below the search path, and the directory of a file is one it is in. -/
structure Looked (is : List FoundHeader) : Prop where
  found : ∀ i ∈ is, fs.file (fs.seek (fs.walk cwd i.searchPath.toList) (dirPart i.relativePath.toList))
    (baseName i.relativePath.toList) = some i.file
  directory : ∀ i ∈ is, ∃ name, fs.file (fs.walk cwd (dirName i.file).toList) name = some i.file

def slash (c : Char) : Bool := c == '/'

/-- Where a file is, and how its headers are named: `kept` is to lead to `dir` from `base`. -/
structure Trail (Dir : Type) where
  base : Dir
  kept : List Char
  dir : Dir

def nextToParent (parent : FileId) (i : FoundHeader) : Bool := !i.isAngled && dirName parent == i.searchPath

/-- Where the header's name is followed from, and where the header was looked for. -/
def Trail.search (t : Trail Dir) (parent : FileId) (i : FoundHeader) : Trail Dir :=
  if nextToParent dirName parent i then t
  else ⟨fs.walk cwd i.searchPath.toList, [], fs.walk cwd i.searchPath.toList⟩

def Trail.enter (t : Trail Dir) (i : FoundHeader) : Trail Dir where
  base := t.base
  kept := t.kept ++ upToLast slash i.relativePath.toList
  dir := fs.seek t.dir (dirPart i.relativePath.toList)

/-- The file that the includes stand in. -/
def includer (main : FileId) : List FoundHeader → FileId
  | [] => main
  | i :: _ => i.file

/-- `kept` is what the headers of the source start with that are next to it. -/
def trail (main : FileId) (kept : List Char) : List FoundHeader → Trail Dir
  | [] => ⟨fs.walk cwd (dirName main).toList, kept, fs.walk cwd (dirName main).toList⟩
  | i :: outer => ((trail main kept outer).search fs cwd dirName (includer main outer) i).enter fs i

/-- From the names of the parents it is enough to keep what stands up to the last `/` of each. -/
def NothingLost (main : FileId) (kept : List Char) : List FoundHeader → Prop
  | [] => True
  | i :: outer =>
    let t := (trail fs cwd dirName main kept outer).search fs cwd dirName (includer main outer) i
    fs.walk t.base (t.kept ++ dirPart i.relativePath.toList) = fs.seek t.dir (dirPart i.relativePath.toList) ∧
      NothingLost main kept outer

end

/-! ## What is recorded -/

/-- `inclusionDirective` and `handleInclude` name headers alike. -/
def recordHeader (dirName : FileId → String) (parent : IncludedHeaders) (i : FoundHeader) : IncludedHeaders where
  place :=
    if nextToParent dirName parent.file i then
      ⟨parent.place.dir, Setup.upToSlash parent.place.name ++ i.relativePath⟩
    else ⟨i.searchPath, i.relativePath⟩
  relative := nextToParent dirName parent.file i
  file := i.file

theorem Setup.fileStack_eq (S : Setup) : S.fileStack = includeStack (recordHeader S.dirName) := rfl

theorem Naive.Clang.headerStack_eq (C : Naive.Clang) : C.headerStack = includeStack (recordHeader C.dirName) := rfl

@[simp] theorem toList_upToSlash (name : String) :
    (Setup.upToSlash name).toList = upToLast slash name.toList := by
  rw [Setup.upToSlash, String.toList_ofList, upToLast]
  congr 2
  funext c
  by_cases hc : c = '/' <;> simp [slash, hc]

theorem isSep_of_slash (c : Char) (hc : slash c) : isSep c := by
  simp only [slash, beq_iff_eq] at hc
  subst hc
  rfl

/-- Both ways of naming a source keep nothing of the part after the last separator. -/
theorem upToLast_slash_baseName (path : List Char) : upToLast slash (baseName path) = [] := by
  induction path using List.reverseRecOn with
  | nil => rfl
  | append_singleton path c ih =>
    rw [baseName, afterLast_snoc]
    split
    · rfl
    · next hc =>
      have : ¬ slash c := fun h => hc (isSep_of_slash c h)
      rw [upToLast_snoc, if_neg this]
      exact ih

section
variable {Dir : Type} {fs : FileSystem Dir FileId} {cwd : Dir} {dirName : FileId → String} {main : FileId}
  {kept : List Char}

/-- The header is named as the trail says. -/
structure Follows (fs : FileSystem Dir FileId) (cwd : Dir) (h : IncludedHeaders) (t : Trail Dir) : Prop where
  base : fs.walk cwd h.place.dir.toList = t.base
  kept : upToLast slash h.place.name.toList = t.kept

/-- The name of a header, by what is kept of its parent's. -/
theorem recordHeader_name {parent : IncludedHeaders} {t : Trail Dir} (hp : Follows fs cwd parent t)
    (i : FoundHeader) :
    let h := recordHeader dirName parent i
    let s := t.search fs cwd dirName parent.file i
    fs.walk cwd h.place.dir.toList = s.base ∧ h.place.name.toList = s.kept ++ i.relativePath.toList ∧
      upToLast slash s.kept = s.kept := by
  simp only [recordHeader, Trail.search]
  split
  · refine ⟨hp.base, ?_, ?_⟩
    · rw [String.toList_append, toList_upToSlash, hp.kept]
    · rw [← hp.kept, upToLast_upToLast]
  · exact ⟨rfl, rfl, rfl⟩

theorem Follows.record {parent : IncludedHeaders} {t : Trail Dir} (hp : Follows fs cwd parent t) (i : FoundHeader) :
    Follows fs cwd (recordHeader dirName parent i) ((t.search fs cwd dirName parent.file i).enter fs i) := by
  obtain ⟨hbase, hname, hclosed⟩ := @recordHeader_name _ _ _ dirName _ _ hp i
  refine ⟨hbase, ?_⟩
  rw [hname, upToLast_append hclosed]
  rfl

theorem includer_includeStack {source : IncludedHeaders} (is : List FoundHeader) :
    ((includeStack (recordHeader dirName) source is).headD source).file = includer source.file is := by
  cases is <;> rfl

theorem follows_includeStack {source : IncludedHeaders}
    (hs : Follows fs cwd source (trail fs cwd dirName source.file kept [])) (is : List FoundHeader) :
    Follows fs cwd ((includeStack (recordHeader dirName) source is).headD source)
      (trail fs cwd dirName source.file kept is) := by
  induction is with
  | nil => exact hs
  | cons i outer ih =>
    have h := @Follows.record _ _ _ dirName _ _ ih i
    rw [includer_includeStack] at h
    exact h

/-- The directory of an included file is the one where it was found. -/
theorem Looked.dir_eq {is : List FoundHeader} (hl : Looked fs cwd dirName is) :
    (trail fs cwd dirName main kept is).dir = fs.walk cwd (dirName (includer main is)).toList ∧
    ∀ i outer, is = i :: outer →
      ((trail fs cwd dirName main kept outer).search fs cwd dirName (includer main outer) i).dir =
        fs.walk cwd i.searchPath.toList := by
  induction is with
  | nil => exact ⟨rfl, by simp⟩
  | cons i outer ih =>
    have hl' : Looked fs cwd dirName outer :=
      ⟨fun j hj => hl.found j (.tail _ hj), fun j hj => hl.directory j (.tail _ hj)⟩
    have hsearch : ((trail fs cwd dirName main kept outer).search fs cwd dirName (includer main outer) i).dir =
        fs.walk cwd i.searchPath.toList := by
      rw [Trail.search]
      split
      · next hnext =>
        simp only [nextToParent, Bool.and_eq_true, beq_iff_eq] at hnext
        rw [(ih hl').1, hnext.2]
      · rfl
    refine ⟨?_, by rintro _ _ ⟨⟩; exact hsearch⟩
    obtain ⟨name, hname⟩ := hl.directory i List.mem_cons_self
    have hfound := hl.found i List.mem_cons_self
    rw [← hsearch] at hfound
    exact fs.alone hfound hname

/-- A header's name leads to its directory, or it leads to no place where the file is. -/
theorem denotes_recordHeader {parent : IncludedHeaders} {t : Trail Dir} (hp : Follows fs cwd parent t)
    {i : FoundHeader}
    (hfound : fs.file (fs.seek (t.search fs cwd dirName parent.file i).dir (dirPart i.relativePath.toList))
      (baseName i.relativePath.toList) = some i.file) :
    Denotes fs cwd (recordHeader dirName parent i) ↔
      fs.walk (t.search fs cwd dirName parent.file i).base
          ((t.search fs cwd dirName parent.file i).kept ++ dirPart i.relativePath.toList) =
        fs.seek (t.search fs cwd dirName parent.file i).dir (dirPart i.relativePath.toList) := by
  obtain ⟨hbase, hname, hclosed⟩ := @recordHeader_name _ _ _ dirName _ _ hp i
  have hclosed := upToLast_mono isSep_of_slash hclosed
  have hdir := upToLast_append hclosed i.relativePath.toList
  have hfile := afterLast_append hclosed i.relativePath.toList
  rw [Denotes, FileSystem.lookup, hbase, hname, dirPart, baseName, hdir, hfile]
  constructor
  · intro h
    exact fs.alone h hfound
  · intro h
    exact (congrArg (fs.file · (baseName i.relativePath.toList)) h).trans hfound

theorem denotes_includeStack {source : IncludedHeaders}
    (hs : Follows fs cwd source (trail fs cwd dirName source.file kept [])) {is : List FoundHeader}
    (hl : Looked fs cwd dirName is) :
    (∀ h ∈ includeStack (recordHeader dirName) source is, Denotes fs cwd h) ↔
      NothingLost fs cwd dirName source.file kept is := by
  induction is with
  | nil => simp [includeStack, NothingLost]
  | cons i outer ih =>
    have hl' : Looked fs cwd dirName outer :=
      ⟨fun j hj => hl.found j (.tail _ hj), fun j hj => hl.directory j (.tail _ hj)⟩
    have hparent := follows_includeStack hs outer
    have hfound := hl.found i List.mem_cons_self
    rw [← (@Looked.dir_eq _ _ _ _ source.file kept _ hl).2 i outer rfl] at hfound
    rw [← @includer_includeStack dirName] at hfound
    have hi := denotes_recordHeader hparent hfound
    rw [includer_includeStack] at hi
    rw [includeStack, List.forall_mem_cons, hi, ih hl']
    rfl

end

/-- Nothing is lost where the names of headers are relative, or lead to their drive, and have no backslash after
their last `/`, if the source's own name keeps to this. -/
theorem nothingLost_of_slashes {Dir : Type} {fs : FileSystem Dir FileId} {cwd : Dir} {dirName : FileId → String}
    {main : FileId} {kept : List Char} {is : List FoundHeader}
    (hkept : upToLast slash kept = kept)
    (hmain : fs.walk (fs.walk cwd (dirName main).toList) kept = fs.walk cwd (dirName main).toList)
    (hslash : ∀ i ∈ is, upToLast slash i.relativePath.toList = dirPart i.relativePath.toList)
    (htop : ∀ i ∈ is, start i.relativePath.toList ≠ .top)
    (habsolute : ∀ i ∈ is, absolute i.relativePath.toList → ∀ f, dirName f ≠ i.searchPath) :
    NothingLost fs cwd dirName main kept is := by
  suffices h : ∀ t, t = trail fs cwd dirName main kept is →
      (upToLast slash t.kept = t.kept ∧ fs.walk t.base t.kept = t.dir) ∧ NothingLost fs cwd dirName main kept is from
    (h _ rfl).2
  rintro _ rfl
  induction is with
  | nil => exact ⟨⟨hkept, hmain⟩, trivial⟩
  | cons i outer ih =>
    obtain ⟨⟨hclosed, hwalk⟩, hlost⟩ := ih (fun j hj => hslash j (.tail _ hj)) (fun j hj => htop j (.tail _ hj))
      (fun j hj => habsolute j (.tail _ hj))
    have hdir := hslash i List.mem_cons_self
    have htop := htop i List.mem_cons_self
    rw [← start_dirPart] at htop
    -- what leads to the search path leads on from there
    have hs : ∀ s, s = (trail fs cwd dirName main kept outer).search fs cwd dirName (includer main outer) i →
        upToLast slash s.kept = s.kept ∧
          fs.walk s.base (s.kept ++ dirPart i.relativePath.toList) = fs.seek s.dir (dirPart i.relativePath.toList) := by
      rintro _ rfl
      rw [Trail.search]
      split
      · next hnext =>
        refine ⟨hclosed, ?_⟩
        have hhere : start (dirPart i.relativePath.toList) = .here := by
          by_contra hne
          simp only [nextToParent, Bool.and_eq_true, beq_iff_eq] at hnext
          refine habsolute i List.mem_cons_self ?_ _ hnext.2
          rw [absolute, ← start_dirPart]
          cases hst : start (dirPart i.relativePath.toList) <;> simp_all
        rw [fs.walk_append _ (upToLast_mono isSep_of_slash hclosed) hhere, hwalk, fs.seek_eq_walk _ htop]
      · exact ⟨rfl, (fs.seek_eq_walk _ htop).symm⟩
    obtain ⟨hclosed', hwalk'⟩ := hs _ rfl
    refine ⟨⟨?_, ?_⟩, hwalk', hlost⟩
    · rw [trail, Trail.enter, upToLast_append hclosed', upToLast_upToLast]
    · rw [trail, Trail.enter, hdir]
      exact hwalk'

/-! ## A directory set apart by a backslash -/

/-- `x.cpp` and, in a directory `b`, `c.h` and `d.h`. -/
def bundle : List ((Folder × Name) × FileId) :=
  [((⟨.drive 'C', [['p']]⟩, "x.cpp".toList), ⟨0, 0⟩),
    ((⟨.drive 'C', [['p'], ['b']]⟩, "c.h".toList), ⟨0, 1⟩),
    ((⟨.drive 'C', [['p'], ['b']]⟩, "d.h".toList), ⟨0, 2⟩)]

def bundleDisk : FileSystem Folder FileId := lexical bundle (by decide)

def bundleDir (file : FileId) : String := if file.file = 0 then "C:/p" else "C:/p/b"

def bundleSetup : Setup where
  files _ := .done
  dirName := bundleDir
  contentEntry _ := ""

def bundleClang : Naive.Clang where
  text _ := []
  prog _ := .done
  lookupFile _ _ _ := none
  dirName := bundleDir
  name _ := "C:/p/x.cpp"

/-- The source includes `c.h` by some name, and `c.h` includes `d.h`. -/
def throughHeader (name : String) : List FoundHeader :=
  [⟨"d.h", false, ⟨0, 2⟩, "C:/p/b", "d.h"⟩, ⟨name, false, ⟨0, 1⟩, "C:/p", name⟩]

theorem looked_throughHeader {name : String}
    (hname : bundleDisk.file (bundleDisk.seek (bundleDisk.walk ⟨.drive 'C', []⟩ "C:/p".toList) (dirPart name.toList))
      (baseName name.toList) = some ⟨0, 1⟩) :
    Looked bundleDisk ⟨.drive 'C', []⟩ bundleDir (throughHeader name) where
  found := by
    simp only [throughHeader, List.forall_mem_cons]
    exact ⟨by decide +kernel, hname, by simp⟩
  directory := by
    simp only [throughHeader, List.forall_mem_cons]
    exact ⟨⟨"d.h".toList, by decide +kernel⟩, ⟨"c.h".toList, by decide +kernel⟩, by simp⟩

/-- A recorded name denotes the included file if, and only if, no directory is lost with what stands after the
last `/` of a parent's name. -/
theorem recorded_names_denote {Dir : Type} (fs : FileSystem Dir FileId) (cwd : Dir) :
    (∀ (S : Setup) (main : FileId) (fileName : String) (is : List FoundHeader), Looked fs cwd S.dirName is →
      ((∀ h ∈ S.fileStack (S.enterSourceFile main fileName) is, Denotes fs cwd h) ↔
        NothingLost fs cwd S.dirName main [] is)) ∧
    (∀ (C : Naive.Clang) (main : FileId) (is : List FoundHeader), Looked fs cwd C.dirName is →
      ((∀ h ∈ C.headerStack (C.mainHeader main) is, Denotes fs cwd h) ↔
        NothingLost fs cwd C.dirName main (upToLast slash (C.name main).toList) is)) := by
  constructor
  · intro S main fileName is hl
    rw [S.fileStack_eq]
    refine @denotes_includeStack _ _ _ _ _ (S.enterSourceFile main fileName) ⟨rfl, ?_⟩ _ hl
    rw [Setup.enterSourceFile, String.toList_ofList, upToLast_slash_baseName]
    rfl
  · intro C main is hl
    rw [C.headerStack_eq]
    exact @denotes_includeStack _ _ _ _ _ (C.mainHeader main) ⟨rfl, rfl⟩ _ hl

theorem recorded_names_denote_slash :
    (∀ h ∈ bundleSetup.fileStack (bundleSetup.enterSourceFile ⟨0, 0⟩ "C:/p/x.cpp") (throughHeader "b/c.h"),
      Denotes bundleDisk ⟨.drive 'C', []⟩ h) ∧
    (∀ h ∈ bundleClang.headerStack (bundleClang.mainHeader ⟨0, 0⟩) (throughHeader "b/c.h"),
      Denotes bundleDisk ⟨.drive 'C', []⟩ h) := by
  have hl := @looked_throughHeader "b/c.h" (by decide +kernel)
  refine ⟨((recorded_names_denote bundleDisk ⟨.drive 'C', []⟩).1 bundleSetup ⟨0, 0⟩ "C:/p/x.cpp" _ hl).2 ?_,
    ((recorded_names_denote bundleDisk ⟨.drive 'C', []⟩).2 bundleClang ⟨0, 0⟩ _ hl).2 ?_⟩
  · simp only [NothingLost, throughHeader]
    decide +kernel
  · simp only [NothingLost, throughHeader]
    decide +kernel

/-- Included as `b\c.h`, it is recorded right, but `d.h` is recorded in the directory of the source. -/
theorem directory_lost :
    Looked bundleDisk ⟨.drive 'C', []⟩ bundleDir (throughHeader "b\\c.h") ∧
    (∃ h ∈ bundleSetup.fileStack (bundleSetup.enterSourceFile ⟨0, 0⟩ "C:/p/x.cpp") (throughHeader "b\\c.h"),
      h.place = ⟨"C:/p", "d.h"⟩ ∧ ¬ Denotes bundleDisk ⟨.drive 'C', []⟩ h) ∧
    (∃ h ∈ bundleClang.headerStack (bundleClang.mainHeader ⟨0, 0⟩) (throughHeader "b\\c.h"),
      h.place = ⟨"C:/p", "C:/p/d.h"⟩ ∧ ¬ Denotes bundleDisk ⟨.drive 'C', []⟩ h) :=
  ⟨looked_throughHeader (by decide +kernel), ⟨_, List.mem_cons_self, by decide +kernel⟩,
    ⟨_, List.mem_cons_self, by decide +kernel⟩⟩

end BuildPal.Scanner
