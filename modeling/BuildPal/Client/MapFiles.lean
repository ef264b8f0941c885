import BuildPal.Common.Message
import Mathlib.Data.List.AList
/-!
# Handing file mappings to a child process

`Extensions/MapFiles/mapFiles.cpp`: a `FileMapping` maps the files of virtual
directories to real files. `writeMappings` writes some of them into the pipe of
a new process, where `Initialize` reads them into the global mapping. Names are
`std::wstring`s, whose characters have two bytes; `size_t` has 64 bits.
-/
open BuildPal.Lib BuildPal.Message

namespace BuildPal.MapFiles

abbrev WString := List UInt16

/-! ## File mappings -/

abbrev FileList := AList fun _ : WString => WString

structure FileMapping where
  dirMap : AList fun _ : WString => FileList

namespace FileMapping

def empty : FileMapping := ⟨∅⟩

/-- `dirMap_[ virtualDir ]`, which is an empty list when it was not there. -/
def dir (m : FileMapping) (virtualDir : WString) : FileList := (m.dirMap.lookup virtualDir).getD ∅

/-- `addFile` on a directory and a file. -/
def addFile (m : FileMapping) (virtualDir virtualFile realFile : WString) : FileMapping :=
  ⟨m.dirMap.insert virtualDir ((m.dir virtualDir).insert virtualFile realFile)⟩

section Paths
-- `decomposePath` normalises a path and splits it with the Windows shell functions.
variable (decomposePath : WString → WString × WString)

/-- `L"\\??\\"`. -/
def ntPrefix : WString := [92, 63, 63, 92]

/-- `addFile` on a virtual path. -/
def addPath (m : FileMapping) (virtualAbsPath realFile : WString) : FileMapping :=
  let dirAndFile := decomposePath virtualAbsPath
  m.addFile dirAndFile.1 dirAndFile.2 (ntPrefix ++ realFile)

/-- `removeFile`; the directory stays, or is made. -/
def removeFile (m : FileMapping) (virtualAbsPath : WString) : FileMapping :=
  let dirAndFile := decomposePath virtualAbsPath
  ⟨m.dirMap.insert dirAndFile.1 ((m.dir dirAndFile.1).erase dirAndFile.2)⟩

inductive Call
  | addFile (virtualAbsPath realFile : WString)
  | removeFile (virtualAbsPath : WString)

def apply (m : FileMapping) : Call → FileMapping
  | .addFile virtualAbsPath realFile => m.addPath decomposePath virtualAbsPath realFile
  | .removeFile virtualAbsPath => m.removeFile decomposePath virtualAbsPath

/-- The mapping after some calls. -/
def build (calls : List Call) : FileMapping := calls.foldl (apply decomposePath) empty

end Paths

/-- The real file a mapping has for a file of a directory. -/
def find (m : FileMapping) (virtualDir virtualFile : WString) : Option WString :=
  (m.dirMap.lookup virtualDir).bind (·.lookup virtualFile)

end FileMapping

/-- What `getDirs` and the lists of files are iterated over: each directory with its files. -/
abbrev Listing := List (WString × List (WString × WString))

/-- `l` goes once over the directories of `m` and, for each, once over its
files. The order is that of a hash map for the directories; it is left open for
the files too. -/
structure Lists (l : Listing) (m : FileMapping) : Prop where
  keys : (l.map Prod.fst).Nodup
  files : ∀ d ∈ l, ∃ fileList, m.dirMap.lookup d.1 = some fileList ∧
    d.2.Perm (fileList.entries.map fun e => (e.1, e.2))
  all : ∀ dir, (m.dirMap.lookup dir).isSome → ∃ d ∈ l, d.1 = dir

/-- The directories and files in the order in which the model keeps them. -/
def FileMapping.listing (m : FileMapping) : Listing :=
  m.dirMap.entries.map fun d => (d.1, d.2.entries.map fun file => (file.1, file.2))

theorem lists_listing (m : FileMapping) : Lists m.listing m where
  keys := by
    rw [FileMapping.listing, List.map_map]
    exact m.dirMap.keys_nodup
  files := by
    intro d hd
    obtain ⟨e, he, rfl⟩ := List.mem_map.1 hd
    exact ⟨e.2, AList.mem_lookup_iff.2 he, .refl _⟩
  all := by
    intro dir hdir
    obtain ⟨fileList, hlookup⟩ := Option.isSome_iff_exists.1 hdir
    exact ⟨_, List.mem_map_of_mem (AList.mem_lookup_iff.1 hlookup), rfl⟩

/-! ## Writing -/

/-- The bytes of a string in memory. -/
def wideBytes (s : WString) : Bytes := s.flatMap fun c => toLE 2 c.toNat

def writeDir (dirName : WString) (entries : Nat) : Bytes :=
  toLE 4 entries ++ (toLE 2 dirName.length ++ wideBytes dirName)

def writeMapping (first second : WString) : Bytes :=
  toLE 2 first.length ++ toLE 2 second.length ++ (wideBytes first ++ wideBytes second)

def writeEnd : Bytes := [0, 0, 0, 0]

/-- The body of the loop over `getDirs`. -/
def writeDirEntry (d : WString × List (WString × WString)) : Bytes :=
  writeDir d.1 d.2.length ++ d.2.flatMap fun fileEntry => writeMapping fileEntry.1 fileEntry.2

/-- `writeMappings`, every write of which succeeds. -/
def writeMappings (mappings : List Listing) : Bytes :=
  (mappings.flatMap fun dirs => dirs.flatMap writeDirEntry) ++ writeEnd

/-! ## Reading -/

/-- `ReadFile` of `n` bytes; it waits for ever when they do not come. -/
def readFile (n : Nat) (stream : Bytes) : Option (Bytes × Bytes) :=
  if n ≤ stream.length then some (stream.take n, stream.drop n) else none

/-- The string whose bytes are in memory. -/
def wideOf : Bytes → WString
  | b₀ :: b₁ :: rest => UInt16.ofNat (ofLE [b₀, b₁]) :: wideOf rest
  | _ => []

/-- `( b[3] << 24 ) | ( b[2] << 16 ) | ( b[1] << 8 ) | b[0]` is an `int`, which is
negative when the highest bit is set, and is then converted to `size_t`. -/
def entriesOf (entriesBuffer : Bytes) : Nat :=
  let n := ofLE entriesBuffer
  if n < 2 ^ 31 then n else n + 2 ^ 64 - 2 ^ 32

/-- `readDir`: the count, and the name when the count is not zero. -/
def readDir (dirName : WString) (stream : Bytes) : Option (WString × Nat × Bytes) := do
  let (entriesBuffer, stream) ← readFile 4 stream
  let entries := entriesOf entriesBuffer
  if entries ≠ 0 then
    let (sizeBuff, stream) ← readFile 2 stream
    let (str, stream) ← readFile (ofLE sizeBuff * 2) stream
    return (wideOf str, entries, stream)
  else
    return (dirName, entries, stream)

def readMapping (stream : Bytes) : Option (WString × WString × Bytes) := do
  let (sizes, stream) ← readFile 4 stream
  let (first, stream) ← readFile (ofLE (sizes.take 2) * 2) stream
  let (second, stream) ← readFile (ofLE (sizes.drop 2) * 2) stream
  return (wideOf first, wideOf second, stream)

/-- The loop over `entry` in `Initialize`. -/
def readEntries (dirName : WString) : Nat → FileMapping → Bytes → Option (FileMapping × Bytes)
  | 0, globalMapping, stream => some (globalMapping, stream)
  | numEntries + 1, globalMapping, stream => do
    let (fileName, realFile, stream) ← readMapping stream
    readEntries dirName numEntries (globalMapping.addFile dirName fileName realFile) stream

/-- The loop of `Initialize`. Each turn reads four bytes at least. -/
def readDirs : Nat → WString → FileMapping → Bytes → Option (FileMapping × Bytes)
  | 0, _, _, _ => none
  | fuel + 1, dirName, globalMapping, stream => do
    let (dirName, numEntries, stream) ← readDir dirName stream
    if numEntries = 0 then return (globalMapping, stream)
    let (globalMapping, stream) ← readEntries dirName numEntries globalMapping stream
    readDirs fuel dirName globalMapping stream

/-- `Initialize` in a process that has no mappings yet: the global mapping and the
bytes left in the pipe. -/
def Initialize (stream : Bytes) : Option (FileMapping × Bytes) :=
  readDirs (stream.length + 1) [] .empty stream

/-! ## What the child should know -/

/-- The real file in the union of some mappings, the later ones overriding the earlier. -/
def union (mappings : List FileMapping) (virtualDir virtualFile : WString) : Option WString :=
  mappings.foldl (fun found m => (m.find virtualDir virtualFile).or found) none

/-- The global mapping of the child is the union of the mappings, and nothing is
left in the pipe. -/
def Received (mappings : List FileMapping) (stream : Bytes) : Prop :=
  ∃ globalMapping, Initialize stream = some (globalMapping, []) ∧
    ∀ virtualDir virtualFile, globalMapping.find virtualDir virtualFile = union mappings virtualDir virtualFile

/-! ## Strings and reads -/

@[simp] theorem length_wideBytes (s : WString) : (wideBytes s).length = s.length * 2 := by
  induction s with
  | nil => rfl
  | cons c s ih =>
    simp only [wideBytes, List.flatMap_cons, List.length_append, length_toLE, List.length_cons] at ih ⊢
    omega

theorem wideOf_wideBytes (s : WString) : wideOf (wideBytes s) = s := by
  induction s with
  | nil => rfl
  | cons c s ih =>
    have hc : c.toNat < 256 ^ 2 := c.toNat_lt
    have htwo : toLE 2 c.toNat = [UInt8.ofNat c.toNat, UInt8.ofNat (c.toNat / 256)] := rfl
    have hread : UInt16.ofNat (ofLE (toLE 2 c.toNat)) = c := by rw [ofLE_toLE hc]; simp
    rw [htwo] at hread
    have hcons : wideBytes (c :: s) = UInt8.ofNat c.toNat :: UInt8.ofNat (c.toNat / 256) :: wideBytes s := rfl
    rw [hcons, wideOf, hread, ih]

theorem readFile_append {a b : Bytes} {n : Nat} (h : a.length = n) : readFile n (a ++ b) = some (a, b) := by
  subst h
  simp [readFile]

theorem readMapping_write {first second : WString} (hf : first.length < 0xFFFF) (hs : second.length < 0xFFFF)
    (rest : Bytes) : readMapping (writeMapping first second ++ rest) = some (first, second, rest) := by
  have hsizes : readFile 4 (writeMapping first second ++ rest) =
      some (toLE 2 first.length ++ toLE 2 second.length, wideBytes first ++ (wideBytes second ++ rest)) := by
    rw [writeMapping, List.append_assoc, List.append_assoc (wideBytes first)]
    exact readFile_append (by simp)
  have h₁ : ofLE ((toLE 2 first.length ++ toLE 2 second.length).take 2) = first.length := by
    rw [List.take_left' (length_toLE ..), ofLE_toLE (by omega)]
  have h₂ : ofLE ((toLE 2 first.length ++ toLE 2 second.length).drop 2) = second.length := by
    rw [List.drop_left' (length_toLE ..), ofLE_toLE (by omega)]
  simp only [readMapping, hsizes, h₁, h₂, Option.bind_eq_bind, Option.bind_some,
    readFile_append (length_wideBytes first), readFile_append (length_wideBytes second), wideOf_wideBytes]
  rfl

theorem readDir_write {name : WString} {entries : Nat} (hname : name.length < 0xFFFF) (hpos : 0 < entries)
    (hlt : entries < 2 ^ 31) (dirName : WString) (rest : Bytes) :
    readDir dirName (writeDir name entries ++ rest) = some (name, entries, rest) := by
  have hfour : readFile 4 (writeDir name entries ++ rest) =
      some (toLE 4 entries, toLE 2 name.length ++ (wideBytes name ++ rest)) := by
    rw [writeDir, List.append_assoc, List.append_assoc]
    exact readFile_append (by simp)
  have hentries : entriesOf (toLE 4 entries) = entries := by
    rw [entriesOf, ofLE_toLE (by omega)]
    exact if_pos hlt
  have hsize : ofLE (toLE 2 name.length) = name.length := ofLE_toLE (by omega)
  have hne : entries ≠ 0 := by omega
  simp [readDir, hfour, hentries, hne, readFile_append, hsize, wideOf_wideBytes]

/-- A directory without files is the end to the reader, which leaves its name unread. -/
theorem readDir_write_zero (name dirName : WString) (rest : Bytes) :
    readDir dirName (writeDir name 0 ++ rest) = some (dirName, 0, toLE 2 name.length ++ wideBytes name ++ rest) := by
  have hfour : readFile 4 (writeDir name 0 ++ rest) = some (toLE 4 0, toLE 2 name.length ++ wideBytes name ++ rest) := by
    rw [writeDir, List.append_assoc]
    exact readFile_append (by simp)
  have hentries : entriesOf (toLE 4 0) = 0 := by decide
  simp [readDir, hfour, hentries]

theorem readDir_writeEnd (dirName : WString) (rest : Bytes) :
    readDir dirName (writeEnd ++ rest) = some (dirName, 0, rest) := by
  have hfour : readFile 4 (writeEnd ++ rest) = some (writeEnd, rest) := readFile_append rfl
  have hentries : entriesOf writeEnd = 0 := by decide
  simp [readDir, hfour, hentries]

/-! ## What is read is what was written -/

/-- Names that fit their length fields. -/
structure ShortNames (d : WString × List (WString × WString)) : Prop where
  dir : d.1.length < 0xFFFF
  files : ∀ file ∈ d.2, file.1.length < 0xFFFF ∧ file.2.length < 0xFFFF

def addEntries (g : FileMapping) (d : WString × List (WString × WString)) : FileMapping :=
  d.2.foldl (fun g file => g.addFile d.1 file.1 file.2) g

theorem readEntries_write (dirName : WString) (files : List (WString × WString))
    (hshort : ∀ file ∈ files, file.1.length < 0xFFFF ∧ file.2.length < 0xFFFF) : ∀ (g : FileMapping) (rest : Bytes),
    readEntries dirName files.length g ((files.flatMap fun file => writeMapping file.1 file.2) ++ rest) =
      some (addEntries g (dirName, files), rest) := by
  induction files with
  | nil => intro g rest; rfl
  | cons file files ih =>
    intro g rest
    obtain ⟨hf, hs⟩ := hshort file (by simp)
    have hrest := ih (fun f hf => hshort f (by simp [hf])) (g.addFile dirName file.1 file.2) rest
    simp only [List.length_cons, readEntries, List.flatMap_cons, List.append_assoc, readMapping_write hf hs,
      Option.bind_eq_bind, Option.bind_some]
    exact hrest

/-- The reader goes over whole directories, as long as none of them is empty. -/
theorem readDirs_write (dirs : Listing) (hshort : ∀ d ∈ dirs, ShortNames d)
    (hsize : ∀ d ∈ dirs, 0 < d.2.length ∧ d.2.length < 2 ^ 31) : ∀ (fuel : Nat) (dirName : WString) (g : FileMapping)
    (rest : Bytes), ∃ dirName', readDirs (dirs.length + fuel) dirName g (dirs.flatMap writeDirEntry ++ rest) =
      readDirs fuel dirName' (dirs.foldl addEntries g) rest := by
  induction dirs with
  | nil => intro fuel dirName g rest; exact ⟨dirName, by simp⟩
  | cons d dirs ih =>
    intro fuel dirName g rest
    obtain ⟨hdir, hfiles⟩ := hshort d (by simp)
    obtain ⟨hpos, hlt⟩ := hsize d (by simp)
    obtain ⟨dirName', hrest⟩ := ih (fun e he => hshort e (by simp [he])) (fun e he => hsize e (by simp [he])) fuel d.1
      (addEntries g d) rest
    have hlen : (d :: dirs).length + fuel = (dirs.length + fuel) + 1 := by
      simp only [List.length_cons]; omega
    have hstream : (d :: dirs).flatMap writeDirEntry ++ rest = writeDir d.1 d.2.length ++
        ((d.2.flatMap fun file => writeMapping file.1 file.2) ++ (dirs.flatMap writeDirEntry ++ rest)) := by
      simp [writeDirEntry]
    have hne : d.2.length ≠ 0 := by omega
    refine ⟨dirName', ?_⟩
    rw [hlen, hstream, readDirs]
    simp only [readDir_write hdir hpos hlt, Option.bind_eq_bind, Option.bind_some, hne, if_false]
    rw [readEntries_write d.1 d.2 hfiles]
    exact hrest

theorem length_writeDirEntry (dirs : Listing) : dirs.length ≤ (dirs.flatMap writeDirEntry).length := by
  induction dirs with
  | nil => simp
  | cons d dirs ih =>
    simp only [List.flatMap_cons, List.length_cons, List.length_append, writeDirEntry, writeDir, length_toLE]
    omega

/-- Between the directories already read and the rest of the stream. -/
theorem initialize_write (dirs : Listing) (hshort : ∀ d ∈ dirs, ShortNames d)
    (hsize : ∀ d ∈ dirs, 0 < d.2.length ∧ d.2.length < 2 ^ 31) (rest : Bytes) :
    ∃ fuel dirName, Initialize (dirs.flatMap writeDirEntry ++ rest) =
      readDirs (fuel + 1) dirName (dirs.foldl addEntries .empty) rest := by
  have hlen := length_writeDirEntry dirs
  obtain ⟨fuel, hfuel⟩ : ∃ fuel, (dirs.flatMap writeDirEntry ++ rest).length + 1 = dirs.length + (fuel + 1) :=
    ⟨(dirs.flatMap writeDirEntry ++ rest).length - dirs.length, by rw [List.length_append]; omega⟩
  obtain ⟨dirName, hrun⟩ := readDirs_write dirs hshort hsize (fuel + 1) [] .empty rest
  exact ⟨fuel, dirName, by rw [Initialize, hfuel, hrun]⟩

/-! ## The union of the mappings -/

theorem find_addFile (m : FileMapping) (d f r d' f' : WString) :
    (m.addFile d f r).find d' f' = if d' = d ∧ f' = f then some r else m.find d' f' := by
  by_cases hd : d' = d
  · subst hd
    by_cases hf : f' = f
    · subst hf
      simp [FileMapping.find, FileMapping.addFile]
    · rw [if_neg (by simp [hf])]
      simp only [FileMapping.find, FileMapping.addFile, AList.lookup_insert, Option.bind_some,
        AList.lookup_insert_ne hf, FileMapping.dir]
      cases m.dirMap.lookup d' <;> simp
  · rw [if_neg (by simp [hd])]
    simp [FileMapping.find, FileMapping.addFile, AList.lookup_insert_ne hd]

theorem find_addEntries_other (d : WString × List (WString × WString)) (dir file : WString)
    (h : dir ≠ d.1 ∨ ∀ r, (file, r) ∉ d.2) : ∀ g : FileMapping, (addEntries g d).find dir file = g.find dir file := by
  obtain ⟨name, files⟩ := d
  induction files with
  | nil => intro g; rfl
  | cons e files ih =>
    intro g
    have hrest := ih (h.imp_right fun hn r hr => hn r (by simp [hr])) (g.addFile name e.1 e.2)
    have hne : ¬ (dir = name ∧ file = e.1) := by
      rintro ⟨rfl, rfl⟩
      rcases h with h | h
      · exact h rfl
      · exact h e.2 (by simp)
    rw [find_addFile, if_neg hne] at hrest
    exact hrest

theorem find_addEntries (d : WString × List (WString × WString)) (hkeys : (d.2.map Prod.fst).Nodup) {file r : WString}
    (h : (file, r) ∈ d.2) : ∀ g : FileMapping, (addEntries g d).find d.1 file = some r := by
  obtain ⟨name, files⟩ := d
  induction files with
  | nil => simp at h
  | cons e files ih =>
    intro g
    simp only [List.map_cons, List.nodup_cons] at hkeys
    rcases List.mem_cons.1 h with rfl | htail
    · -- the files after it have other names
      have hnot : ∀ r', (file, r') ∉ files := fun r' hr' => hkeys.1 (List.mem_map.2 ⟨(file, r'), hr', rfl⟩)
      have := find_addEntries_other (name, files) name file (.inr hnot) (g.addFile name file r)
      rw [find_addFile, if_pos ⟨rfl, rfl⟩] at this
      exact this
    · exact ih hkeys.2 htail (g.addFile name e.1 e.2)

theorem find_addDirs_other (l : Listing) (dir file : WString)
    (h : ∀ d ∈ l, dir ≠ d.1 ∨ ∀ r, (file, r) ∉ d.2) : ∀ g : FileMapping,
    (l.foldl addEntries g).find dir file = g.find dir file := by
  induction l with
  | nil => intro g; rfl
  | cons d l ih =>
    intro g
    rw [List.foldl_cons, ih (fun e he => h e (by simp [he])), find_addEntries_other d dir file (h d (by simp))]

theorem find_addDirs (l : Listing) (hkeys : (l.map Prod.fst).Nodup) (hfiles : ∀ d ∈ l, (d.2.map Prod.fst).Nodup)
    {d : WString × List (WString × WString)} (hd : d ∈ l) {file r : WString} (hr : (file, r) ∈ d.2) :
    ∀ g : FileMapping, (l.foldl addEntries g).find d.1 file = some r := by
  induction l with
  | nil => simp at hd
  | cons e l ih =>
    intro g
    simp only [List.map_cons, List.nodup_cons] at hkeys
    rcases List.mem_cons.1 hd with rfl | htail
    · have hother : ∀ e ∈ l, d.1 ≠ e.1 ∨ ∀ r, (file, r) ∉ e.2 := fun e he =>
        .inl fun heq => hkeys.1 (List.mem_map.2 ⟨e, he, heq.symm⟩)
      rw [List.foldl_cons, find_addDirs_other l d.1 file hother, find_addEntries d (hfiles d (by simp)) hr]
    · exact ih hkeys.2 (fun d hd => hfiles d (by simp [hd])) htail (addEntries g e)

/-- Adding what a listing goes over adds the mapping. -/
theorem find_addListing {l : Listing} {m : FileMapping} (h : Lists l m) (g : FileMapping) (dir file : WString) :
    (l.foldl addEntries g).find dir file = (m.find dir file).or (g.find dir file) := by
  have hfiles : ∀ d ∈ l, (d.2.map Prod.fst).Nodup := fun d hd => by
    obtain ⟨fileList, -, hperm⟩ := h.files d hd
    rw [(hperm.map Prod.fst).nodup_iff, List.map_map]
    exact fileList.keys_nodup
  have hmem : ∀ d ∈ l, ∀ file r, (file, r) ∈ d.2 ↔ m.find d.1 file = some r := by
    intro d hd file r
    obtain ⟨fileList, hlookup, hperm⟩ := h.files d hd
    rw [hperm.mem_iff, FileMapping.find, hlookup, Option.bind_some, ← Option.mem_def, AList.mem_lookup_iff]
    simp
  -- what the mapping knows is in one of the directories, and otherwise none of them changes it
  cases hm : m.find dir file with
  | some r =>
    obtain ⟨fileList, hlookup, -⟩ := Option.bind_eq_some_iff.1 hm
    obtain ⟨d, hd, rfl⟩ := h.all dir (by simp [hlookup])
    rw [find_addDirs l h.keys hfiles hd ((hmem d hd file r).2 hm) g, Option.some_or]
  | none =>
    rw [Option.none_or]
    apply find_addDirs_other
    intro d hd
    by_cases heq : dir = d.1
    · refine .inr fun r hr => ?_
      rw [hmem d hd file r, ← heq, hm] at hr
      cases hr
    · exact .inl heq

theorem find_union {listings : List Listing} {mappings : List FileMapping} (h : List.Forall₂ Lists listings mappings)
    (dir file : WString) : ∀ (g : FileMapping) (found : Option WString), g.find dir file = found →
    ((listings.flatten).foldl addEntries g).find dir file =
      mappings.foldl (fun found m => (m.find dir file).or found) found := by
  induction h with
  | nil => intro g found hg; exact hg
  | cons hl _ ih =>
    intro g found hg
    rw [List.flatten_cons, List.foldl_append, List.foldl_cons]
    exact ih _ _ (by rw [find_addListing hl, hg])

/-! ## Main theorem -/

namespace FileMapping

/-- Every name of the mapping is shorter than 0xFFFF characters. -/
def ShortNames (m : FileMapping) : Prop :=
  ∀ d ∈ m.dirMap.entries, d.1.length < 0xFFFF ∧ ∀ file ∈ d.2.entries, file.1.length < 0xFFFF ∧ file.2.length < 0xFFFF

/-- The number of files of each directory. -/
def sizes (m : FileMapping) : List Nat := m.dirMap.entries.map fun e => e.2.entries.length

end FileMapping

/-- The directories that are written have the sizes and names of the mappings. -/
theorem mem_listings {listings : List Listing} {mappings : List FileMapping} (h : List.Forall₂ Lists listings mappings) :
    (∀ d ∈ listings.flatten, ∃ m ∈ mappings, ∃ fileList, m.dirMap.lookup d.1 = some fileList ∧
        d.2.Perm (fileList.entries.map fun e => (e.1, e.2))) ∧
      ∀ m ∈ mappings, ∀ n ∈ m.sizes, ∃ d ∈ listings.flatten, d.2.length = n := by
  induction h with
  | nil => simp
  | @cons l m listings mappings hl _ ih =>
    obtain ⟨ih₁, ih₂⟩ := ih
    constructor
    · intro d hd
      rw [List.flatten_cons, List.mem_append] at hd
      rcases hd with hd | hd
      · exact ⟨m, by simp, hl.files d hd⟩
      · obtain ⟨m', hm', hfiles⟩ := ih₁ d hd
        exact ⟨m', by simp [hm'], hfiles⟩
    · intro m' hm' n hn
      rw [List.flatten_cons]
      rcases List.mem_cons.1 hm' with rfl | hm'
      · obtain ⟨e, he, rfl⟩ := List.mem_map.1 hn
        have hlookup : m'.dirMap.lookup e.1 = some e.2 := AList.mem_lookup_iff.2 he
        obtain ⟨d, hd, heq⟩ := hl.all e.1 (by simp [hlookup])
        obtain ⟨fileList, hlookup', hperm⟩ := hl.files d hd
        rw [heq, hlookup, Option.some.injEq] at hlookup'
        subst hlookup'
        exact ⟨d, List.mem_append_left _ hd, by simpa using hperm.length_eq⟩
      · obtain ⟨d, hd, hlen⟩ := ih₂ m' hm' n hn
        exact ⟨d, List.mem_append_right _ hd, hlen⟩

theorem shortNames_listings {listings : List Listing} {mappings : List FileMapping}
    (h : List.Forall₂ Lists listings mappings) (hshort : ∀ m ∈ mappings, m.ShortNames) :
    ∀ d ∈ listings.flatten, ShortNames d := by
  intro d hd
  obtain ⟨m, hm, fileList, hlookup, hperm⟩ := (mem_listings h).1 d hd
  obtain ⟨hdir, hfiles⟩ := hshort m hm ⟨d.1, fileList⟩ (AList.mem_lookup_iff.1 hlookup)
  refine ⟨hdir, fun file hfile => ?_⟩
  obtain ⟨e, he, rfl⟩ := List.mem_map.1 (hperm.mem_iff.1 hfile)
  exact hfiles e he

theorem sizes_listings {listings : List Listing} {mappings : List FileMapping}
    (h : List.Forall₂ Lists listings mappings) (d : WString × List (WString × WString)) (hd : d ∈ listings.flatten) :
    ∃ m ∈ mappings, d.2.length ∈ m.sizes := by
  obtain ⟨m, hm, fileList, hlookup, hperm⟩ := (mem_listings h).1 d hd
  refine ⟨m, hm, List.mem_map.2 ⟨⟨d.1, fileList⟩, AList.mem_lookup_iff.1 hlookup, ?_⟩⟩
  simpa using hperm.length_eq.symm

/-- The first directory without files. -/
theorem first_empty (dirs : Listing) (h : ∃ d ∈ dirs, d.2.length = 0) :
    ∃ before d after, dirs = before ++ d :: after ∧ d.2.length = 0 ∧ ∀ e ∈ before, 0 < e.2.length := by
  induction dirs with
  | nil => simp at h
  | cons d dirs ih =>
    by_cases hd : d.2.length = 0
    · exact ⟨[], d, dirs, rfl, hd, by simp⟩
    · have htail : ∃ d ∈ dirs, d.2.length = 0 := by
        obtain ⟨e, he, hzero⟩ := h
        rcases List.mem_cons.1 he with rfl | he
        · exact absurd hzero hd
        · exact ⟨e, he, hzero⟩
      obtain ⟨before, e, after, rfl, hzero, hbefore⟩ := ih htail
      refine ⟨d :: before, e, after, rfl, hzero, ?_⟩
      simp only [List.forall_mem_cons]
      exact ⟨by omega, hbefore⟩

theorem writeMappings_eq (listings : List Listing) :
    writeMappings listings = listings.flatten.flatMap writeDirEntry ++ writeEnd := by
  simp [writeMappings, List.flatMap_def, List.map_flatten, List.flatten_flatten, Function.comp_def]

/-- The child receives the union of the mappings when every directory of every
mapping has a file, and fewer than `2 ^ 31`. It does not when a directory has
none, as after `removeFile` on its last file: the count of zero is the end marker. -/
theorem mappings_received (decomposePath : WString → WString × WString) (calls : List (List FileMapping.Call))
    (listings : List Listing) (hlists : List.Forall₂ Lists listings (calls.map (FileMapping.build decomposePath)))
    (hshort : ∀ m ∈ calls.map (FileMapping.build decomposePath), m.ShortNames) :
    ((∀ m ∈ calls.map (FileMapping.build decomposePath), ∀ n ∈ m.sizes, 0 < n ∧ n < 2 ^ 31) →
      Received (calls.map (FileMapping.build decomposePath)) (writeMappings listings)) ∧
    (Received (calls.map (FileMapping.build decomposePath)) (writeMappings listings) →
      (∀ m ∈ calls.map (FileMapping.build decomposePath), ∀ n ∈ m.sizes, n < 2 ^ 31) →
      ∀ m ∈ calls.map (FileMapping.build decomposePath), ∀ n ∈ m.sizes, 0 < n) := by
  generalize calls.map (FileMapping.build decomposePath) = mappings at hlists hshort ⊢
  have hnames := shortNames_listings hlists hshort
  rw [writeMappings_eq]
  constructor
  · intro hsizes
    have hok : ∀ d ∈ listings.flatten, 0 < d.2.length ∧ d.2.length < 2 ^ 31 := fun d hd => by
      obtain ⟨m, hm, hn⟩ := sizes_listings hlists d hd
      exact hsizes m hm _ hn
    obtain ⟨fuel, dirName, hrun⟩ := initialize_write listings.flatten hnames hok writeEnd
    refine ⟨listings.flatten.foldl addEntries .empty, ?_, fun dir file => find_union hlists dir file _ _ rfl⟩
    have hend := readDir_writeEnd dirName []
    rw [List.append_nil] at hend
    rw [hrun, readDirs, hend]
    rfl
  · rintro ⟨g, hrun, -⟩ hsizes m hm n hn
    by_contra hzero
    -- The reader stops at the first directory without files, and leaves at least the length of its name.
    obtain ⟨d, hd, hlen⟩ := (mem_listings hlists).2 m hm n hn
    obtain ⟨before, e, after, hsplit, hempty, hbefore⟩ := first_empty listings.flatten ⟨d, hd, by omega⟩
    have hmem : ∀ b ∈ before, b ∈ listings.flatten := fun b hb => by simp [hsplit, hb]
    have hok : ∀ b ∈ before, 0 < b.2.length ∧ b.2.length < 2 ^ 31 := fun b hb => by
      obtain ⟨m', hm', hn'⟩ := sizes_listings hlists b (hmem b hb)
      exact ⟨hbefore b hb, hsizes m' hm' _ hn'⟩
    obtain ⟨fuel, dirName, hpart⟩ := initialize_write before (fun b hb => hnames b (hmem b hb)) hok
      (writeDirEntry e ++ (after.flatMap writeDirEntry ++ writeEnd))
    have hstream : listings.flatten.flatMap writeDirEntry ++ writeEnd =
        before.flatMap writeDirEntry ++ (writeDirEntry e ++ (after.flatMap writeDirEntry ++ writeEnd)) := by
      simp [hsplit]
    have hzero := readDir_write_zero e.1 dirName (after.flatMap writeDirEntry ++ writeEnd)
    have hentry : writeDirEntry e = writeDir e.1 0 := by
      rw [writeDirEntry, hempty, List.length_eq_zero_iff.1 hempty]
      simp
    rw [hstream, hpart, readDirs, hentry, hzero] at hrun
    simp only [Option.bind_eq_bind, Option.bind_some, if_true, Option.pure_def, Option.some.injEq, Prod.mk.injEq] at hrun
    have := congrArg List.length hrun.2
    simp at this

/-- A path that is already normal, split behind its last backslash. -/
def splitPath (path : WString) : WString × WString :=
  ((path.reverse.dropWhile (· ≠ 92)).reverse, (path.reverse.takeWhile (· ≠ 92)).reverse)

/-- Two mappings, of which the second maps the file of the first elsewhere. -/
theorem mappings_received_two :
    let calls : List (List FileMapping.Call) := [[.addFile [100, 92, 97] [120]], [.addFile [100, 92, 97] [121]]]
    let mappings := calls.map (FileMapping.build splitPath)
    Received mappings (writeMappings (mappings.map FileMapping.listing)) :=
  (mappings_received splitPath [[.addFile [100, 92, 97] [120]], [.addFile [100, 92, 97] [121]]] _
    (.cons (lists_listing _) (.cons (lists_listing _) .nil)) (by unfold FileMapping.ShortNames; decide)).1 (by decide)

/-- A mapping that lost its only file comes before one with a file: the child gets nothing. -/
theorem emptied_directory_ends_stream :
    let calls : List (List FileMapping.Call) :=
      [[.addFile [100, 92, 97] [120], .removeFile [100, 92, 97]], [.addFile [101, 92, 98] [121]]]
    let mappings := calls.map (FileMapping.build splitPath)
    (∀ m ∈ mappings, m.ShortNames) ∧ List.Forall₂ Lists (mappings.map FileMapping.listing) mappings ∧
      ¬ Received mappings (writeMappings (mappings.map FileMapping.listing)) := by
  refine ⟨by unfold FileMapping.ShortNames; decide, .cons (lists_listing _) (.cons (lists_listing _) .nil), ?_⟩
  rintro ⟨g, hrun, -⟩
  have hleft : (Initialize (writeMappings [[([100, 92], [])], [([101, 92], [([98], [92, 63, 63, 92, 121])])]])).map
      Prod.snd ≠ some [] := by decide
  exact hleft (congrArg (Option.map Prod.snd) hrun)

end BuildPal.MapFiles
