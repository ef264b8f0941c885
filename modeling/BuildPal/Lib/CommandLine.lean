import Mathlib.Algebra.Ring.Nat
import Mathlib.Data.List.Basic
import Mathlib.Data.List.Forall2
import Mathlib.Tactic.Common
/-!
# Command lines of Windows

The rules by which a command line is split into arguments, and `list2cmdline` of
`subprocess`, which joins arguments. The latter looks at its arguments only
element by element, so an argument may also be a list of strings, and a string is
the list of its characters.
-/

namespace BuildPal.Lib.CommandLine

abbrev Text := List Char

/-! ## The rules -/

def isBlank (c : Char) : Bool := c = ' ' ∨ c = '\t'

/-- What has been read of a command line. -/
structure Reader where
  args : List Text := []
  /-- An argument that may go on. -/
  word : Option Text := none
  /-- Backslashes after it. -/
  backslashes : Nat := 0
  quoted : Bool := false
  deriving DecidableEq, Repr

namespace Reader

/-- The argument as it is where no quotation mark follows. -/
def pending (r : Reader) : Option Text :=
  if r.backslashes = 0 then r.word else some (r.word.getD [] ++ List.replicate r.backslashes '\\')

/-- A quotation mark. After an odd number of backslashes it is one of the argument's characters. -/
def mark (r : Reader) : Reader :=
  let word := r.word.getD [] ++ List.replicate (r.backslashes / 2) '\\'
  if r.backslashes % 2 = 0 then { r with word := some word, backslashes := 0, quoted := !r.quoted }
  else { r with word := some (word ++ ['"']), backslashes := 0 }

def step (r : Reader) (c : Char) : Reader :=
  if c = '\\' then { r with backslashes := r.backslashes + 1 }
  else if c = '"' then r.mark
  else if isBlank c ∧ !r.quoted then { r with args := r.args ++ r.pending.toList, word := none, backslashes := 0 }
  else { r with word := some (r.pending.getD [] ++ [c]), backslashes := 0 }

def read (r : Reader) (text : Text) : Reader := text.foldl step r

def finish (r : Reader) : List Text := r.args ++ r.pending.toList

end Reader

/-- The arguments of a command line. -/
def split (text : Text) : List Text := (({} : Reader).read text).finish

/-! ## `list2cmdline` -/

/-- What is put out, and the number of backslashes that are held back. -/
def appendPiece (s : List Text × Nat) (piece : Text) : List Text × Nat :=
  if piece = ['\\'] then (s.1, s.2 + 1)
  else if piece = ['"'] then (s.1 ++ [List.replicate (2 * s.2) '\\', ['\\', '"']], 0)
  else (s.1 ++ (List.replicate s.2 ['\\'] ++ [piece]), 0)

def needQuote (arg : List Text) : Bool := arg.contains [' '] || arg.contains ['\t'] || arg.isEmpty

def appendArg (result : List Text) (arg : List Text) : List Text :=
  let result := if result = [] then [] else result ++ [[' ']]
  let s := arg.foldl appendPiece (if needQuote arg then result ++ [['"']] else result, 0)
  let result := s.1 ++ List.replicate s.2 ['\\']
  if needQuote arg then result ++ (List.replicate s.2 ['\\'] ++ [['"']]) else result

def list2cmdline (seq : List (List Text)) : Text := (seq.foldl appendArg []).flatten

theorem needQuote_iff (arg : List Text) : needQuote arg = true ↔ [' '] ∈ arg ∨ ['\t'] ∈ arg ∨ arg = [] := by
  simp [needQuote, or_assoc]

/-! ## What reading makes of a text -/

namespace Reader

@[simp] theorem read_nil (r : Reader) : r.read [] = r := rfl

@[simp] theorem read_cons (r : Reader) (c : Char) (text : Text) : r.read (c :: text) = (r.step c).read text := rfl

@[simp] theorem read_append (r : Reader) (text more : Text) : r.read (text ++ more) = (r.read text).read more :=
  List.foldl_append

/-- The size of arguments, each with what separates it from the next one. -/
def size (args : List Text) : Nat := (args.map fun a => a.length + 1).sum

@[simp] theorem size_append (args more : List Text) : size (args ++ more) = size args + size more := by
  simp [size]

@[simp] theorem size_singleton (arg : Text) : size [arg] = arg.length + 1 := rfl

/-- The most that arguments can come to that have been read so far. -/
def weight (r : Reader) : Nat := size r.args + (r.word.getD []).length + r.backslashes + 1

theorem pending_length (r : Reader) : (r.pending.getD []).length = (r.word.getD []).length + r.backslashes := by
  rw [pending]
  split
  · next h => rw [h, Nat.add_zero]
  · simp

/-- A character makes this grow by one at most. -/
theorem weight_step_le (r : Reader) (c : Char) (hc : c ≠ '"') : (r.step c).weight ≤ r.weight + 1 := by
  have hlength := r.pending_length
  rw [step]
  by_cases hb : c = '\\'
  · rw [if_pos hb]
    simp only [weight]
    omega
  · rw [if_neg hb, if_neg hc]
    split
    · cases hp : r.pending with
      | none =>
        simp only [weight, Option.toList_none, List.append_nil, Option.getD_none, List.length_nil]
        omega
      | some word =>
        rw [hp, Option.getD_some] at hlength
        simp only [weight, size_append, size_singleton, Option.toList_some, Option.getD_none, List.length_nil]
        omega
    · simp only [weight, Option.getD_some, List.length_append, hlength, List.length_singleton]
      omega

theorem step_mark (r : Reader) : r.step '"' = r.mark := by
  rw [step, if_neg (by decide), if_pos rfl]

theorem step_mark_even (r : Reader) {n : Nat} (h : r.backslashes = 2 * n) : r.step '"' =
    { r with word := some (r.word.getD [] ++ List.replicate n '\\'), backslashes := 0, quoted := !r.quoted } := by
  rw [step_mark, mark, if_pos (by omega), show r.backslashes / 2 = n by omega]

theorem step_mark_odd (r : Reader) {n : Nat} (h : r.backslashes = 2 * n + 1) : r.step '"' =
    { r with word := some (r.word.getD [] ++ List.replicate n '\\' ++ ['"']), backslashes := 0 } := by
  rw [step_mark, mark, if_neg (by omega), show r.backslashes / 2 = n by omega]

/-- A quotation mark takes away half of the backslashes before it. -/
theorem weight_mark (r : Reader) : (r.step '"').weight + r.backslashes / 2 = r.weight := by
  rw [step_mark, mark]
  split
  · simp only [weight, Option.getD_some, List.length_append, List.length_replicate]
    omega
  · simp only [weight, Option.getD_some, List.length_append, List.length_replicate, List.length_singleton]
    omega

theorem weight_read (text : Text) : ∀ r : Reader, (r.read text).weight + text.count '"' ≤ r.weight + text.length := by
  induction text with
  | nil => exact fun _ => Nat.le_refl _
  | cons c text ih =>
    intro r
    have htext := ih (r.step c)
    rw [read_cons, List.length_cons]
    by_cases hc : c = '"'
    · subst hc
      have hmark := r.weight_mark
      rw [List.count_cons_self]
      omega
    · have hstep := r.weight_step_le c hc
      rw [List.count_cons_of_ne hc]
      omega

theorem read_backslashes (r : Reader) (n : Nat) :
    r.read (List.replicate n '\\') = { r with backslashes := r.backslashes + n } := by
  induction n generalizing r with
  | zero => rfl
  | succ n ih =>
    rw [List.replicate_succ, read_cons, ih, step, if_pos rfl]
    simp [Nat.add_assoc, Nat.add_comm 1 n]

/-- Backslashes that are doubled before a quotation mark count once. -/
theorem weight_doubled (r : Reader) (n : Nat) :
    ((r.read (List.replicate (2 * n) '\\')).step '"').weight ≤ r.weight + n := by
  have hmark := (r.read (List.replicate (2 * n) '\\')).weight_mark
  rw [read_backslashes] at hmark ⊢
  simp only [weight] at hmark ⊢
  omega

theorem size_finish (r : Reader) : size r.finish ≤ r.weight := by
  have hlength := r.pending_length
  rw [finish, size_append, weight]
  cases hp : r.pending with
  | none =>
    rw [Option.toList_none, show size [] = 0 from rfl]
    omega
  | some word =>
    rw [hp, Option.getD_some] at hlength
    rw [Option.toList_some, size_singleton]
    omega

end Reader

/-! ## How much of the arguments can come out -/

/-- After what has been put out. -/
def reader (result : List Text) : Reader := ({} : Reader).read result.flatten

theorem reader_append (result more : List Text) : reader (result ++ more) = (reader result).read more.flatten := by
  rw [reader, List.flatten_append, Reader.read_append]
  rfl

open Reader (size)

theorem weight_append (result : List Text) (text : Text) :
    (reader (result ++ [text])).weight + text.count '"' ≤ (reader result).weight + text.length := by
  have htext := (reader result).weight_read text
  rwa [reader_append, List.flatten_singleton]

theorem flatten_backslashes (n : Nat) : (List.replicate n ['\\']).flatten = List.replicate n '\\' := by
  rw [List.flatten_replicate_singleton]

theorem weight_backslashes (result : List Text) (n : Nat) :
    (reader (result ++ List.replicate n ['\\'])).weight = (reader result).weight + n := by
  rw [reader_append, flatten_backslashes, Reader.read_backslashes]
  simp only [Reader.weight]
  omega

theorem weight_appendPiece (s : List Text × Nat) (piece : Text) :
    (reader (appendPiece s piece).1).weight + (appendPiece s piece).2 ≤ (reader s.1).weight + s.2 + piece.length := by
  obtain ⟨result, n⟩ := s
  rw [appendPiece]
  by_cases hbackslash : piece = ['\\']
  · rw [if_pos hbackslash, hbackslash]
    exact Nat.le_of_eq (Nat.add_assoc _ n 1).symm
  rw [if_neg hbackslash]
  by_cases hquote : piece = ['"']
  · have hread : (reader (result ++ [List.replicate (2 * n) '\\', ['\\', '"']])) =
        ((reader result).read (List.replicate (2 * n + 1) '\\')).step '"' := by
      rw [reader_append, List.replicate_succ']
      simp
    have hmark := ((reader result).read (List.replicate (2 * n + 1) '\\')).weight_mark
    rw [if_pos hquote, hquote, hread]
    rw [Reader.read_backslashes] at hmark ⊢
    simp only [Reader.weight, List.length_singleton] at hmark ⊢
    omega
  · have hpiece := weight_append (result ++ List.replicate n ['\\']) piece
    rw [weight_backslashes, List.append_assoc] at hpiece
    rw [if_neg hquote]
    exact Nat.le_trans (Nat.le_add_right _ _) hpiece

theorem weight_pieces (arg : List Text) : ∀ s : List Text × Nat,
    (reader (arg.foldl appendPiece s).1).weight + (arg.foldl appendPiece s).2 ≤
      (reader s.1).weight + s.2 + (arg.map List.length).sum := by
  induction arg with
  | nil => exact fun _ => Nat.le_refl _
  | cons piece arg ih =>
    intro s
    have hpiece := weight_appendPiece s piece
    have hmore := ih (appendPiece s piece)
    rw [List.foldl_cons, List.map_cons, List.sum_cons]
    omega

/-- What an argument costs beyond its own characters is what separates it from the one before. -/
def separator (result : List Text) : Nat := if result = [] then 0 else 1

theorem weight_separator (result : List Text) :
    (reader (if result = [] then [] else result ++ [[' ']])).weight ≤ (reader result).weight + separator result := by
  rw [separator]
  split
  · next h => rw [h]; exact Nat.le_refl _
  · exact Nat.le_trans (Nat.le_add_right _ _) (weight_append result [' '])

theorem weight_appendArg (result arg : List Text) :
    (reader (appendArg result arg)).weight ≤ (reader result).weight + separator result + (arg.map List.length).sum := by
  have hseparator := weight_separator result
  rw [appendArg]
  generalize (if result = [] then [] else result ++ [[' ']]) = opened at hseparator ⊢
  cases needQuote arg with
  | false =>
    have hpieces := weight_pieces arg (opened, 0)
    simp only [Bool.false_eq_true, if_false] at hpieces ⊢
    rw [weight_backslashes]
    omega
  | true =>
    have hopen := weight_append opened ['"']
    have hpieces := weight_pieces arg (opened ++ [['"']], 0)
    simp only [if_true] at hpieces ⊢
    generalize arg.foldl appendPiece (opened ++ [['"']], 0) = s at hpieces ⊢
    have hclose := Reader.weight_doubled (reader s.1) s.2
    have hread : reader (s.1 ++ List.replicate s.2 ['\\'] ++ (List.replicate s.2 ['\\'] ++ [['"']])) =
        ((reader s.1).read (List.replicate (2 * s.2) '\\')).step '"' := by
      rw [reader_append, reader_append, List.flatten_append, flatten_backslashes, ← Reader.read_append,
        ← List.append_assoc,
        List.replicate_append_replicate, ← Nat.two_mul]
      rw [Reader.read_append]
      rfl
    rw [hread]
    simp only [List.count_singleton_self, List.length_singleton] at hopen
    omega

/-- Every piece is put out or held back. -/
theorem appendPiece_ne_nil (s : List Text × Nat) (piece : Text) :
    (appendPiece s piece).1 ≠ [] ∨ (appendPiece s piece).2 ≠ 0 := by
  rw [appendPiece]
  split
  · exact .inr (Nat.succ_ne_zero _)
  · split <;> exact .inl (by simp)

theorem appendArg_ne_nil {result arg : List Text} (harg : arg ≠ []) : appendArg result arg ≠ [] := by
  have hput : ∀ s : List Text × Nat,
      (arg.foldl appendPiece s).1 ++ List.replicate (arg.foldl appendPiece s).2 ['\\'] ≠ [] := by
    intro s
    obtain ⟨init, last, rfl⟩ := (List.eq_nil_or_concat arg).resolve_left harg
    rw [List.concat_eq_append, List.foldl_append]
    rcases appendPiece_ne_nil (init.foldl appendPiece s) last with h | h
    · exact List.append_ne_nil_of_left_ne_nil h _
    · exact List.append_ne_nil_of_right_ne_nil _ (by simpa using h)
  rw [appendArg]
  split
  · exact List.append_ne_nil_of_left_ne_nil (hput _) _
  · exact hput _

theorem foldl_ne_nil {seq : List (List Text)} (hseq : ∀ arg ∈ seq, arg ≠ []) : ∀ {result}, result ≠ [] ∨ seq ≠ [] →
    seq.foldl appendArg result ≠ [] := by
  induction seq with
  | nil => exact fun h => h.resolve_right (absurd rfl)
  | cons arg seq ih =>
    intro result _
    obtain ⟨harg, hseq⟩ := List.forall_mem_cons.mp hseq
    exact ih hseq (.inl (appendArg_ne_nil harg))

/-- A string by itself, with a quotation mark only where that is all there is. -/
def Single (arg : List Text) : Prop := ∃ p, arg = [p] ∧ (p = ['"'] ∨ '"' ∉ p)

/-- What is put out for a string by itself. -/
def quote (p : Text) : List Text :=
  if p = [' '] ∨ p = ['\t'] then [['"'], p, ['"']] else if p = ['"'] then [[], ['\\', '"']] else [p]

theorem appendArg_single (result : List Text) (p : Text) :
    appendArg result [p] = (if result = [] then [] else result ++ [[' ']]) ++ quote p := by
  generalize hopened : (if result = [] then [] else result ++ [[' ']]) = opened
  rw [appendArg, hopened, quote]
  by_cases hblank : p = [' '] ∨ p = ['\t']
  · have hquote : needQuote [p] = true := by
      rw [needQuote_iff]
      exact hblank.imp (fun h => List.mem_singleton.mpr h.symm) fun h => .inl (List.mem_singleton.mpr h.symm)
    have hne : p ≠ ['\\'] ∧ p ≠ ['"'] := by
      rcases hblank with rfl | rfl <;> decide
    rw [if_pos hblank]
    simp [hquote, appendPiece, hne.1, hne.2]
  · have hquote : needQuote [p] = false := by
      rw [Bool.eq_false_iff, Ne, needQuote_iff]
      rintro (h | h | h)
      · exact hblank (.inl (List.mem_singleton.mp h).symm)
      · exact hblank (.inr (List.mem_singleton.mp h).symm)
      · cases h
    rw [if_neg hblank]
    simp only [hquote, Bool.false_eq_true, if_false]
    by_cases hbackslash : p = ['\\']
    · simp [appendPiece, hbackslash]
    · by_cases hmark : p = ['"'] <;> simp [appendPiece, hbackslash, hmark]

theorem size_eq (arg : List Text) : size arg = (arg.map List.length).sum + arg.length := by
  induction arg with
  | nil => rfl
  | cons p arg ih =>
    rw [size] at ih ⊢
    rw [List.map_cons, List.sum_cons, ih, List.map_cons, List.sum_cons, List.length_cons]
    omega

/-- What an argument adds. Something is lost of several strings, and of a quotation mark among other characters. -/
theorem weight_arg (result : List Text) {arg : List Text} (harg : arg ≠ []) :
    (reader (appendArg result arg)).weight + 1 ≤ (reader result).weight + separator result + size arg ∧
      (¬ Single arg →
        (reader (appendArg result arg)).weight + 1 < (reader result).weight + separator result + size arg) := by
  have happend := weight_appendArg result arg
  have hpos := List.length_pos_iff.mpr harg
  rw [size_eq]
  refine ⟨by omega, fun hsingle => ?_⟩
  by_cases hone : arg.length = 1
  · obtain ⟨p, rfl⟩ := List.length_eq_one_iff.mp hone
    have hp : ¬ (p = ['"'] ∨ '"' ∉ p) := fun h => hsingle ⟨p, rfl, h⟩
    obtain ⟨hne, hmem⟩ := not_or.mp hp
    rw [not_not] at hmem
    have hblank : ¬ (p = [' '] ∨ p = ['\t']) := by
      rintro (rfl | rfl) <;> exact absurd hmem (by decide)
    have hraw : appendArg result [p] = (if result = [] then [] else result ++ [[' ']]) ++ [p] := by
      rw [appendArg_single, quote, if_neg hblank, if_neg hne]
    have hweight := weight_append (if result = [] then [] else result ++ [[' ']]) p
    have hseparator := weight_separator result
    have hcount := List.count_pos_iff.mpr hmem
    rw [hraw]
    simp only [List.map_singleton, List.sum_singleton, List.length_singleton]
    omega
  · omega

theorem weight_args (seq : List (List Text)) : ∀ result, (∀ arg ∈ seq, arg ≠ []) →
    (reader (seq.foldl appendArg result)).weight + separator (seq.foldl appendArg result) ≤
        (reader result).weight + separator result + size seq.flatten ∧
      ((∃ arg ∈ seq, ¬ Single arg) →
        (reader (seq.foldl appendArg result)).weight + separator (seq.foldl appendArg result) <
          (reader result).weight + separator result + size seq.flatten) := by
  induction seq with
  | nil => exact fun _ _ => ⟨Nat.le_refl _, fun ⟨_, h, _⟩ => absurd h List.not_mem_nil⟩
  | cons arg seq ih =>
    intro result hseq
    obtain ⟨harg, hseq⟩ := List.forall_mem_cons.mp hseq
    obtain ⟨hle, hlt⟩ := weight_arg result harg
    obtain ⟨hle', hlt'⟩ := ih (appendArg result arg) hseq
    have hone : separator (appendArg result arg) = 1 := if_neg (appendArg_ne_nil harg)
    rw [List.foldl_cons, List.flatten_cons, Reader.size_append]
    refine ⟨by omega, fun hlost => ?_⟩
    rcases (List.exists_mem_cons_iff ..).mp hlost with hlost | hlost
    · have hlt := hlt hlost
      omega
    · have hlt' := hlt' hlost
      omega

/-- Nothing but single strings comes out as it was. -/
theorem single_of_split {seq : List (List Text)} (hseq : ∀ arg ∈ seq, arg ≠ [])
    (h : split (list2cmdline seq) = seq.flatten) : ∀ arg ∈ seq, Single arg := by
  by_contra hlost
  simp only [not_forall, exists_prop] at hlost
  have hlt := (weight_args seq [] hseq).2 hlost
  have hsize := (reader (seq.foldl appendArg [])).size_finish
  have hsplit : (reader (seq.foldl appendArg [])).finish = seq.flatten := h
  have hzero : (reader []).weight + separator [] = 1 := rfl
  have hone : separator (seq.foldl appendArg []) = 1 := by
    obtain ⟨arg, harg, -⟩ := hlost
    exact if_neg (foldl_ne_nil hseq (.inr (List.ne_nil_of_mem harg)))
  rw [hsplit] at hsize
  omega

/-! ## What comes out as it is -/

/-- A blank or a quotation mark by itself, or characters without any. -/
def Intact (p : Text) : Prop :=
  p = [' '] ∨ p = ['\t'] ∨ p = ['"'] ∨ (p ≠ [] ∧ ∀ c ∈ p, isBlank c = false ∧ c ≠ '"')

theorem Intact.of_all {p : Text} (hne : p ≠ []) (h : p.all fun c => !isBlank c && c != '"') : Intact p := by
  refine .inr (.inr (.inr ⟨hne, fun c hc => ?_⟩))
  simpa using List.all_eq_true.mp h c hc

namespace Reader

theorem step_blank {r : Reader} {c : Char} (hc : isBlank c) (hr : r.quoted = false) :
    r.step c = { args := r.finish } := by
  have hbackslash : c ≠ '\\' := by rintro rfl; exact absurd hc (by decide)
  have hquote : c ≠ '"' := by rintro rfl; exact absurd hc (by decide)
  rw [step, if_neg hbackslash, if_neg hquote, if_pos ⟨hc, by simp [hr]⟩, finish, hr]

theorem step_other {r : Reader} {c : Char} (hbackslash : c ≠ '\\') (hc : c ≠ '"')
    (hword : isBlank c = false ∨ r.quoted) :
    r.step c = { r with word := some (r.pending.getD [] ++ [c]), backslashes := 0 } := by
  have hnot : ¬ (isBlank c ∧ !r.quoted) := by
    rintro ⟨hblank, hquoted⟩
    rcases hword with h | h
    · rw [h] at hblank; cases hblank
    · rw [h] at hquoted; cases hquoted
  rw [step, if_neg hbackslash, if_neg hc, if_neg hnot]

theorem pending_getD (r : Reader) : r.pending.getD [] = r.word.getD [] ++ List.replicate r.backslashes '\\' := by
  rw [pending]
  split
  · next h => rw [h]; simp
  · rfl

/-- A character of an argument. -/
theorem step_char {r : Reader} {c : Char} (hc : c ≠ '"') (hword : isBlank c = false ∨ r.quoted) :
    (r.step c).pending = some (r.pending.getD [] ++ [c]) ∧ (r.step c).args = r.args ∧ (r.step c).quoted = r.quoted := by
  by_cases hbackslash : c = '\\'
  · rw [hbackslash, step, if_pos rfl, pending_getD, List.append_assoc, ← List.replicate_succ']
    exact ⟨if_neg (Nat.succ_ne_zero _), rfl, rfl⟩
  · rw [step_other hbackslash hc hword]
    exact ⟨rfl, rfl, rfl⟩

theorem read_chars {text : Text} (htext : ∀ c ∈ text, isBlank c = false ∧ c ≠ '"') : ∀ {r : Reader}, text ≠ [] →
    (r.read text).pending = some (r.pending.getD [] ++ text) ∧ (r.read text).args = r.args ∧
      (r.read text).quoted = r.quoted := by
  induction text with
  | nil => exact fun h => absurd rfl h
  | cons c text ih =>
    intro r _
    obtain ⟨⟨hblank, hc⟩, hmore⟩ := List.forall_mem_cons.mp htext
    obtain ⟨hpending, hargs, hquoted⟩ := r.step_char hc (.inl hblank)
    rw [read_cons]
    cases text with
    | nil => exact ⟨hpending, hargs, hquoted⟩
    | cons c' text =>
      obtain ⟨hpending', hargs', hquoted'⟩ := @ih hmore (r.step c) (List.cons_ne_nil _ _)
      rw [hpending', hargs', hquoted', hpending, Option.getD_some, List.append_assoc]
      exact ⟨rfl, hargs, hquoted⟩

/-- Outside quotation marks, with arguments that come out as they are. -/
structure Whole (r : Reader) : Prop where
  unquoted : r.quoted = false
  args : ∀ a ∈ r.args, Intact a
  pending : ∀ w ∈ r.pending, Intact w

/-- Text without quotation marks gives words. -/
theorem read_words {text : Text} (htext : '"' ∉ text) : ∀ {r : Reader}, r.quoted = false → (∀ a ∈ r.args, Intact a) →
    (∀ w ∈ r.pending, w ≠ [] ∧ ∀ c ∈ w, isBlank c = false ∧ c ≠ '"') → (r.read text).Whole := by
  induction text with
  | nil => exact fun hquoted hargs hpending => ⟨hquoted, hargs, fun w hw => .inr (.inr (.inr (hpending w hw)))⟩
  | cons c text ih =>
    intro r hquoted hargs hpending
    rw [List.mem_cons, not_or] at htext
    rw [read_cons]
    cases hblank : isBlank c with
    | true =>
      rw [step_blank hblank hquoted]
      refine ih htext.2 rfl ?_ nofun
      refine List.forall_mem_append.mpr ⟨hargs, fun a ha => .inr (.inr (.inr (hpending a ?_)))⟩
      exact Option.mem_toList.mp ha
    | false =>
      have hc : c ≠ '"' := fun h => htext.1 h.symm
      obtain ⟨hpending', hargs', hquoted'⟩ := r.step_char hc (.inl hblank)
      refine ih htext.2 (hquoted'.trans hquoted) (hargs' ▸ hargs) ?_
      rw [hpending']
      intro w hw
      cases hw
      refine ⟨by simp, List.forall_mem_append.mpr ⟨?_, List.forall_mem_singleton.mpr ⟨hblank, hc⟩⟩⟩
      cases hw : r.pending with
      | none => exact nofun
      | some w => exact (hpending w hw).2

theorem read_special (args : List Text) {p : Text} (hp : p = [' '] ∨ p = ['\t'] ∨ p = ['"']) :
    ({ args := args } : Reader).read (quote p).flatten = { args := args, word := some p } := by
  rcases hp with rfl | rfl | rfl <;> simp [quote, step, mark, pending, isBlank]

/-- A single string is read as arguments that come out as they are. -/
theorem read_single {args : List Text} (hargs : ∀ a ∈ args, Intact a) {p : Text} (hp : p = ['"'] ∨ '"' ∉ p) :
    (({ args := args } : Reader).read (quote p).flatten).Whole := by
  by_cases hspecial : p = [' '] ∨ p = ['\t'] ∨ p = ['"']
  · rw [read_special args hspecial]
    refine ⟨rfl, hargs, fun w hw => ?_⟩
    cases hw
    exact hspecial.imp_right fun h => h.imp_right .inl
  · have hblank : ¬ (p = [' '] ∨ p = ['\t']) := fun h => hspecial (h.imp_right .inl)
    have hquote : p ≠ ['"'] := fun h => hspecial (.inr (.inr h))
    rw [quote, if_neg hblank, if_neg hquote, List.flatten_singleton]
    exact read_words (hp.resolve_left hquote) rfl hargs nofun

theorem Whole.finish {r : Reader} (h : r.Whole) : ∀ a ∈ r.finish, Intact a :=
  List.forall_mem_append.mpr ⟨h.args, fun a ha => h.pending a (Option.mem_toList.mp ha)⟩

/-- One that comes out as it is does so. -/
theorem read_intact (args : List Text) {p : Text} (hp : Intact p) :
    (({ args := args } : Reader).read (quote p).flatten).quoted = false ∧
      (({ args := args } : Reader).read (quote p).flatten).finish = args ++ [p] := by
  by_cases hspecial : p = [' '] ∨ p = ['\t'] ∨ p = ['"']
  · rw [read_special args hspecial]
    exact ⟨rfl, rfl⟩
  · have hblank : ¬ (p = [' '] ∨ p = ['\t']) := fun h => hspecial (h.imp_right .inl)
    have hquote : p ≠ ['"'] := fun h => hspecial (.inr (.inr h))
    obtain ⟨hne, hchars⟩ : p ≠ [] ∧ ∀ c ∈ p, isBlank c = false ∧ c ≠ '"' := by
      rcases hp with h | h | h | h
      · exact absurd (.inl h) hblank
      · exact absurd (.inr h) hblank
      · exact absurd h hquote
      · exact h
    obtain ⟨hpending, hargs, hquoted⟩ := @read_chars p hchars { args := args } hne
    rw [quote, if_neg hblank, if_neg hquote, List.flatten_singleton]
    refine ⟨hquoted, ?_⟩
    rw [finish, hpending, hargs]
    rfl

end Reader

theorem reader_separated {result : List Text} (h : (reader result).quoted = false) :
    reader (if result = [] then [] else result ++ [[' ']]) = { args := (reader result).finish } := by
  split
  · next hnil => rw [hnil]; rfl
  · rw [reader_append]
    exact Reader.step_blank (show isBlank ' ' from by decide) h

theorem whole_args (seq : List (List Text)) : ∀ {result}, (reader result).Whole → (∀ arg ∈ seq, Single arg) →
    (reader (seq.foldl appendArg result)).Whole := by
  induction seq with
  | nil => exact fun h _ => h
  | cons arg seq ih =>
    intro result h hseq
    obtain ⟨⟨p, rfl, hp⟩, hmore⟩ := List.forall_mem_cons.mp hseq
    refine ih ?_ hmore
    rw [appendArg_single, reader_append, reader_separated h.unquoted]
    exact Reader.read_single h.finish hp

/-- An argument that is read as this one, whatever is before it. -/
def ReadAs (arg : List Text) (a : Text) : Prop := ∀ result, (reader result).quoted = false →
  (reader (appendArg result arg)).quoted = false ∧ (reader (appendArg result arg)).finish =
    (reader result).finish ++ [a]

theorem ReadAs.foldl {seq : List (List Text)} {args : List Text} (h : List.Forall₂ ReadAs seq args) :
    ∀ {result}, (reader result).quoted = false →
      (reader (seq.foldl appendArg result)).finish = (reader result).finish ++ args := by
  induction h with
  | nil => exact fun _ => (List.append_nil _).symm
  | cons harg _ ih =>
    intro result hquoted
    obtain ⟨hquoted', hfinish⟩ := harg result hquoted
    rw [List.foldl_cons, ih hquoted', hfinish, List.append_assoc]
    rfl

theorem ReadAs.split {seq : List (List Text)} {args : List Text} (h : List.Forall₂ ReadAs seq args) :
    split (list2cmdline seq) = args :=
  @ReadAs.foldl seq args h [] rfl

theorem Intact.readAs {p : Text} (hp : Intact p) : ReadAs [p] p := by
  intro result h
  rw [appendArg_single, reader_append, reader_separated h]
  exact Reader.read_intact _ hp

/-- What `list2cmdline` makes of lists of strings is split into these strings exactly where each list has one, which
comes out as it is. -/
theorem split_iff {seq : List (List Text)} (hseq : ∀ arg ∈ seq, arg ≠ []) :
    split (list2cmdline seq) = seq.flatten ↔ ∀ arg ∈ seq, ∃ p, arg = [p] ∧ Intact p := by
  constructor
  · intro h arg harg
    have hsingle := single_of_split hseq h
    obtain ⟨p, rfl, -⟩ := hsingle arg harg
    have hwhole : (reader []).Whole := ⟨rfl, nofun, nofun⟩
    have hall : ∀ a ∈ split (list2cmdline seq), Intact a := (whole_args seq hwhole hsingle).finish
    rw [h] at hall
    exact ⟨p, rfl, hall p (List.mem_flatten.mpr ⟨[p], harg, List.mem_singleton_self p⟩)⟩
  · intro h
    refine ReadAs.split ?_
    clear hseq
    induction seq with
    | nil => exact .nil
    | cons arg seq ih =>
      obtain ⟨⟨p, rfl, hp⟩, hmore⟩ := List.forall_mem_cons.mp h
      exact .cons hp.readAs (ih hmore)

/-! ## Strings -/

/-- A string as what it is a sequence of. -/
def characters (a : Text) : List Text := a.map ([·])

/-- What was read and what is held back make up the characters so far. -/
def Quoting (args : List Text) (inQuotes : Bool) (word : Text) (s : List Text × Nat) : Prop :=
  ∃ w, reader s.1 = { args := args, word := w, quoted := inQuotes } ∧ w.getD [] ++ List.replicate s.2 '\\' = word ∧
    (w = none → inQuotes = false)

theorem Quoting.piece {args : List Text} {inQuotes : Bool} {word : Text} {s : List Text × Nat}
    (h : Quoting args inQuotes word s) {c : Char} (hc : isBlank c = false ∨ inQuotes) :
    Quoting args inQuotes (word ++ [c]) (appendPiece s [c]) := by
  obtain ⟨result, n⟩ := s
  obtain ⟨w, hreader, hword, hbegun⟩ := h
  rw [appendPiece]
  by_cases hbackslash : c = '\\'
  · subst hbackslash
    rw [if_pos rfl]
    refine ⟨w, hreader, ?_, hbegun⟩
    rw [← hword, List.replicate_succ', List.append_assoc]
  rw [if_neg (by simpa using hbackslash)]
  by_cases hquote : c = '"'
  · subst hquote
    rw [if_pos rfl]
    refine ⟨some (word ++ ['"']), ?_, by simp, nofun⟩
    have hread : reader (result ++ [List.replicate (2 * n) '\\', ['\\', '"']]) =
        ((reader result).read (List.replicate (2 * n + 1) '\\')).step '"' := by
      rw [reader_append, List.replicate_succ']
      simp
    rw [hread, Reader.read_backslashes, hreader, Reader.step_mark_odd (n := n) _ (Nat.zero_add _), ← hword]
  · rw [if_neg (by simpa using hquote)]
    refine ⟨some (word ++ [c]), ?_, by simp, nofun⟩
    rw [reader_append, List.flatten_append, flatten_backslashes, List.flatten_singleton, Reader.read_append, hreader,
      Reader.read_backslashes, Reader.read_cons, Reader.read_nil, Reader.step_other hbackslash hquote hc,
      Reader.pending_getD, ← hword]
    simp

theorem Quoting.pieces {args : List Text} {inQuotes : Bool} (a : Text) : ∀ {word : Text} {s : List Text × Nat},
    Quoting args inQuotes word s → (∀ c ∈ a, isBlank c = false ∨ inQuotes) →
      Quoting args inQuotes (word ++ a) ((characters a).foldl appendPiece s) := by
  induction a with
  | nil => exact fun h _ => (List.append_nil _).symm ▸ h
  | cons c a ih =>
    intro word s h ha
    obtain ⟨hc, ha⟩ := List.forall_mem_cons.mp ha
    have hmore := ih (h.piece hc) ha
    rwa [List.append_assoc] at hmore

theorem needQuote_characters (a : Text) : needQuote (characters a) = true ↔ a = [] ∨ ∃ c ∈ a, isBlank c := by
  rw [needQuote_iff, characters]
  simp only [List.mem_map, List.map_eq_nil_iff, List.cons.injEq, and_true, exists_eq_right, isBlank, decide_eq_true_eq]
  constructor
  · rintro (h | h | h)
    · exact .inr ⟨' ', h, .inl rfl⟩
    · exact .inr ⟨'\t', h, .inr rfl⟩
    · exact .inl h
  · rintro (h | ⟨c, h, rfl | rfl⟩)
    · exact .inr (.inr h)
    · exact .inl h
    · exact .inr (.inl h)

theorem characters_readAs (a : Text) : ReadAs (characters a) a := by
  intro result h
  have hopened := reader_separated h
  generalize (reader result).finish = args at hopened ⊢
  rw [appendArg]
  generalize (if result = [] then [] else result ++ [[' ']]) = opened at hopened ⊢
  cases hneed : needQuote (characters a) with
  | true =>
    have hbegin : Quoting args true [] (opened ++ [['"']], 0) := by
      refine ⟨some [], ?_, rfl, nofun⟩
      rw [reader_append, hopened]
      exact Reader.step_mark_even (n := 0) { args := args } rfl
    obtain ⟨w, hreader, hword, -⟩ := hbegin.pieces a fun _ _ => .inr rfl
    simp only [if_true]
    generalize (characters a).foldl appendPiece (opened ++ [['"']], 0) = s at hreader hword ⊢
    rw [reader_append, reader_append, List.flatten_append, flatten_backslashes, hreader, ← Reader.read_append,
      ← List.append_assoc, List.replicate_append_replicate, ← Nat.two_mul, Reader.read_append, Reader.read_backslashes,
      List.flatten_singleton, Reader.read_cons, Reader.read_nil,
        Reader.step_mark_even (n := s.2) _ (Nat.zero_add _), hword]
    exact ⟨rfl, rfl⟩
  | false =>
    have hplain := mt (needQuote_characters a).mpr (by simp [hneed])
    rw [not_or] at hplain
    have hbegin : Quoting args false [] (opened, 0) := ⟨none, hopened, rfl, fun _ => rfl⟩
    obtain ⟨w, hreader, hword, -⟩ := hbegin.pieces a fun c hc =>
      .inl (Bool.eq_false_iff.mpr fun hblank => hplain.2 ⟨c, hc, hblank⟩)
    simp only [Bool.false_eq_true, if_false]
    generalize (characters a).foldl appendPiece (opened, 0) = s at hreader hword ⊢
    rw [reader_append, flatten_backslashes, hreader, Reader.read_backslashes, Nat.zero_add, Reader.finish]
    generalize hr : ({ args := args, word := w, backslashes := s.2 } : Reader) = r
    have hpending : r.pending.getD [] = a := by
      rw [Reader.pending_getD, ← hr]
      exact hword
    subst hr
    refine ⟨rfl, ?_⟩
    cases hp : Reader.pending _ with
    | none => exact absurd (hp ▸ hpending).symm hplain.1
    | some word =>
      rw [hp] at hpending
      rw [show word = a from hpending]
      rfl

/-- Strings come out as they were. -/
theorem split_strings (args : List Text) : split (list2cmdline (args.map characters)) = args := by
  refine ReadAs.split ?_
  induction args with
  | nil => exact .nil
  | cons a args ih => exact .cons (characters_readAs a) ih

end BuildPal.Lib.CommandLine
