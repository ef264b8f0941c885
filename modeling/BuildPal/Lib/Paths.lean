import Mathlib.Data.List.Nodup
import Mathlib.Data.List.Induction
/-!
# Paths

A path is text in which `/` and the backslash separate names. What it leads to
depends on the file system and on the directory it is followed from: names are
followed one after another, from that directory, from the top of its drive, or
from a drive of its own.
-/

namespace BuildPal.Lib.Paths

/-! ## Text up to a character -/

section Text
variable {α : Type} (p : α → Bool)

/-- The text up to the last character of a kind, this one included. -/
def upToLast (text : List α) : List α := (text.reverse.dropWhile (! p ·)).reverse

def afterLast (text : List α) : List α := (text.reverse.takeWhile (! p ·)).reverse

@[simp] theorem upToLast_nil : upToLast p [] = [] := rfl

@[simp] theorem afterLast_nil : afterLast p [] = [] := rfl

@[simp] theorem upToLast_snoc (text : List α) (c : α) :
    upToLast p (text ++ [c]) = if p c then text ++ [c] else upToLast p text := by
  by_cases hc : p c <;> simp [upToLast, hc]

@[simp] theorem afterLast_snoc (text : List α) (c : α) :
    afterLast p (text ++ [c]) = if p c then [] else afterLast p text ++ [c] := by
  by_cases hc : p c <;> simp [afterLast, hc]

variable {p}

theorem upToLast_append {u : List α} (hu : upToLast p u = u) (r : List α) :
    upToLast p (u ++ r) = u ++ upToLast p r := by
  induction r using List.reverseRecOn with
  | nil => simpa using hu
  | append_singleton r c ih =>
    rw [← List.append_assoc, upToLast_snoc, upToLast_snoc, ih]
    split <;> simp

theorem upToLast_upToLast (text : List α) : upToLast p (upToLast p text) = upToLast p text := by
  induction text using List.reverseRecOn with
  | nil => rfl
  | append_singleton text c ih =>
    rw [upToLast_snoc]
    split
    · next hc => rw [upToLast_snoc, if_pos hc]
    · exact ih

theorem length_upToLast_le (text : List α) : (upToLast p text).length ≤ text.length := by
  simpa [upToLast] using (List.dropWhile_sublist (! p ·) (l := text.reverse)).length_le

/-- Text that ends with a character of the kind, or is empty. -/
theorem upToLast_eq_self {u : List α} (hu : upToLast p u = u) : u = [] ∨ ∃ v c, u = v ++ [c] ∧ p c := by
  cases u using List.reverseRecOn with
  | nil => exact .inl rfl
  | append_singleton v c =>
    refine .inr ⟨v, c, rfl, ?_⟩
    by_contra hc
    have hlen := length_upToLast_le (p := p) v
    rw [upToLast_snoc, if_neg hc] at hu
    rw [hu, List.length_append, List.length_singleton] at hlen
    omega

theorem afterLast_append {u : List α} (hu : upToLast p u = u) (r : List α) :
    afterLast p (u ++ r) = afterLast p r := by
  induction r using List.reverseRecOn with
  | nil =>
    rcases upToLast_eq_self hu with rfl | ⟨v, c, rfl, hc⟩
    · rfl
    · simp [hc]
  | append_singleton r c ih =>
    rw [← List.append_assoc, afterLast_snoc, afterLast_snoc, ih]

theorem upToLast_mono {q : α → Bool} (h : ∀ c, p c → q c) {u : List α} (hu : upToLast p u = u) :
    upToLast q u = u := by
  rcases upToLast_eq_self hu with rfl | ⟨v, c, rfl, hc⟩
  · rfl
  · rw [upToLast_snoc, if_pos (h c hc)]

end Text

/-! ## Names -/

abbrev Name := List Char

def isSep (c : Char) : Bool := c == '/' || c == '\\'

def consName (name : Name) (names : List Name) : List Name := if name = [] then names else name :: names

/-- The text up to the first separator, and the names after it. -/
def split : List Char → Name × List Name
  | [] => ([], [])
  | c :: path =>
    if isSep c then ([], consName (split path).1 (split path).2) else (c :: (split path).1, (split path).2)

def names (path : List Char) : List Name := consName (split path).1 (split path).2

/-- The part of a path that says which directory its last name is in. -/
def dirPart (path : List Char) : List Char := upToLast isSep path

def baseName (path : List Char) : Name := afterLast isSep path

theorem isSep_getLast {u : List Char} (hu : dirPart u = u) {c : Char} (hc : u.getLast? = some c) : isSep c := by
  rcases upToLast_eq_self hu with rfl | ⟨v, d, rfl, hd⟩
  · cases hc
  · rw [List.getLast?_append, List.getLast?_singleton, Option.some_or, Option.some.injEq] at hc
    exact hc ▸ hd

theorem split_append_sep {c : Char} (hc : isSep c) (u r : List Char) :
    split (u ++ c :: r) = ((split u).1, (split u).2 ++ names r) := by
  induction u with
  | nil => simp [split, hc, names]
  | cons d u ih =>
    rw [List.cons_append, split, split, ih]
    by_cases hd : isSep d
    · simp only [hd, if_true, consName]
      split <;> simp
    · simp [hd]

theorem names_append {u : List Char} (hu : dirPart u = u) (r : List Char) : names (u ++ r) = names u ++ names r := by
  rcases upToLast_eq_self hu with rfl | ⟨v, c, rfl, hc⟩
  · simp [names, split, consName]
  · have h : names (v ++ [c]) = names v := by
      simp [names, split_append_sep hc, split, consName]
    rw [h, List.append_assoc, List.singleton_append, names, split_append_sep hc]
    show consName (split v).1 ((split v).2 ++ names r) = consName (split v).1 (split v).2 ++ names r
    rw [consName, consName]
    split <;> rfl

/-! ## Where a path starts -/

inductive Start where
  | here
  | top
  | drive (letter : Char)
  | network
  deriving DecidableEq, Repr

def start : List Char → Start
  | [] => .here
  | [c] => if isSep c then .top else .here
  | c :: d :: rest =>
    if isSep c then if isSep d then .network else .top
    else if c.isAlpha && d == ':' && rest.head?.any isSep then .drive c.toUpper
    else .here

/-- A path that names its drive or computer leads to the same place from everywhere. -/
def absolute (path : List Char) : Bool :=
  match start path with
  | .drive _ | .network => true
  | .here | .top => false

/-- The path without its drive. -/
def below (path : List Char) : List Char :=
  match start path with
  | .drive _ => path.drop 2
  | _ => path

theorem not_isSep_of_start {c : Char} {r : List Char} (h : start (c :: r) = .here) : isSep c = false := by
  cases r with
  | nil => simpa [start] using h
  | cons d r =>
    rw [start] at h
    split at h
    · split at h <;> cases h
    · next hc => simpa using hc

theorem start_append {u : List Char} (hu : dirPart u = u) (hne : u ≠ []) {r : List Char} (hr : start r = .here) :
    start (u ++ r) = start u := by
  match u, hne with
  | [c], _ =>
    have hc : isSep c := isSep_getLast hu (by simp)
    cases r with
    | nil => simp
    | cons d r => simp [start, hc, not_isSep_of_start hr]
  | [c, d], _ =>
    have hd : isSep d := isSep_getLast hu (by simp)
    have hcolon : (d == ':') = false := by
      simp only [isSep, Bool.or_eq_true, beq_iff_eq] at hd
      rcases hd with rfl | rfl <;> rfl
    simp [start, hcolon]
  | c :: d :: e :: rest, _ => simp [start]

theorem below_append {u : List Char} (hu : dirPart u = u) (hne : u ≠ []) {r : List Char} (hr : start r = .here) :
    below (u ++ r) = below u ++ r := by
  have hs := start_append hu hne hr
  rw [below, below, hs]
  split
  · next letter hd =>
    match u, hd with
    | [c], hd => simp only [start] at hd; split at hd <;> cases hd
    | c :: d :: rest, _ => rfl
  · rfl

theorem dirPart_below {u : List Char} (hu : dirPart u = u) : dirPart (below u) = below u := by
  rw [below]
  split
  · next letter hd =>
    match u, hd with
    | [c], hd => simp only [start] at hd; split at hd <;> cases hd
    | c :: d :: rest, hd =>
      cases rest using List.reverseRecOn with
      | nil => rfl
      | append_singleton w t =>
        have ht : isSep t := isSep_getLast hu (by rw [← List.cons_append, ← List.cons_append, List.getLast?_append]; rfl)
        show dirPart (w ++ [t]) = w ++ [t]
        rw [dirPart, upToLast_snoc, if_pos ht]
  · exact hu

/-- The file's name does not matter for where its path starts. -/
theorem start_dirPart (path : List Char) : start (dirPart path) = start path := by
  induction path using List.reverseRecOn with
  | nil => rfl
  | append_singleton path c ih =>
    rw [dirPart, upToLast_snoc]
    split
    · rfl
    · next hc =>
      rw [← dirPart, ih]
      match path with
      | [] => simp [start, hc]
      | [d] =>
        by_cases hd : isSep d
        · simp [start, hd, hc]
        · simp [start, hd]
      | d :: e :: [] => simp [start, hc]
      | d :: e :: f :: rest => simp [start]

/-! ## File systems -/

/-- Directories need not exist. No file is in two directories. -/
structure FileSystem (Dir File : Type) where
  start : Start → Dir → Dir
  step : Dir → Name → Dir
  file : Dir → Name → Option File
  start_here : ∀ d, start .here d = d
  alone : ∀ {d name d' name' f}, file d name = some f → file d' name' = some f → d = d'

namespace FileSystem
variable {Dir File : Type} (fs : FileSystem Dir File)

def goto (d : Dir) (path : List Name) : Dir := path.foldl fs.step d

/-- The directory a path leads to. -/
def walk (d : Dir) (path : List Char) : Dir := fs.goto (fs.start (Paths.start path) d) (names (below path))

/-- The directory that is reached by following the path below another one, unless it is absolute. -/
def seek (d : Dir) (path : List Char) : Dir :=
  fs.goto (fs.start (if absolute path then Paths.start path else .here) d) (names (below path))

/-- The file that a path leads to. -/
def lookup (d : Dir) (path : List Char) : Option File := fs.file (fs.walk d (dirPart path)) (baseName path)

theorem goto_append (d : Dir) (path path' : List Name) : fs.goto d (path ++ path') = fs.goto (fs.goto d path) path' :=
  List.foldl_append

@[simp] theorem walk_nil (d : Dir) : fs.walk d [] = d := by
  simp [walk, goto, Paths.start, names, below, split, consName, fs.start_here]

/-- What follows a separator is followed from where the path before it leads. -/
theorem walk_append (d : Dir) {u r : List Char} (hu : dirPart u = u) (hr : Paths.start r = .here) :
    fs.walk d (u ++ r) = fs.walk (fs.walk d u) r := by
  by_cases hne : u = []
  · subst hne
    simp
  · have hbelow : below r = r := by simp [below, hr]
    rw [walk, start_append hu hne hr, below_append hu hne hr, names_append (dirPart_below hu), goto_append]
    rw [walk, walk, hr, hbelow, fs.start_here]

theorem seek_eq_walk (d : Dir) {path : List Char} (h : Paths.start path ≠ .top) : fs.seek d path = fs.walk d path := by
  rw [seek, walk]
  cases hs : Paths.start path <;> simp_all [absolute]

end FileSystem

/-! ## Directories without links -/

/-- A directory by its names from the top of its drive. -/
structure Folder where
  drive : Start
  names : List Name
  deriving DecidableEq, Repr

namespace Folder

def start : Start → Folder → Folder
  | .here, d => d
  | .top, d => ⟨d.drive, []⟩
  | s, _ => ⟨s, []⟩

def step (d : Folder) (name : Name) : Folder :=
  if name = ['.'] then d
  else if name = ['.', '.'] then ⟨d.drive, d.names.dropLast⟩
  else ⟨d.drive, d.names ++ [name]⟩

end Folder

/-- The files of the table and no others. -/
def lexical {File : Type} (table : List ((Folder × Name) × File)) (h : (table.map (·.2)).Nodup) :
    FileSystem Folder File where
  start := Folder.start
  step := Folder.step
  file d name := (table.find? fun e => decide (e.1 = (d, name))).map (·.2)
  start_here _ := rfl
  alone {d name d' name' f} hf hf' := by
    obtain ⟨e, he, rfl⟩ := Option.map_eq_some_iff.1 hf
    obtain ⟨e', he', heq⟩ := Option.map_eq_some_iff.1 hf'
    have hee : e' = e :=
      List.inj_on_of_nodup_map h (List.mem_of_find?_eq_some he') (List.mem_of_find?_eq_some he) heq
    have h1 : e.1 = (d, name) := by simpa using List.find?_some he
    have h2 : e'.1 = (d', name') := by simpa using List.find?_some he'
    rw [hee, h1] at h2
    exact congrArg Prod.fst h2

end BuildPal.Lib.Paths
