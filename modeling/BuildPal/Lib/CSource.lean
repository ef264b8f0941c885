import Mathlib.Data.List.Basic
import Mathlib.Data.List.Infix
import Mathlib.Tactic.Common
/-!
# C text and its line comments

Text as the first phases of translation see it: a backslash at the end of a line
joins it with the next one, and then what follows `//` up to the end of a line
is left out. Block comments and literals are not considered.
-/

namespace BuildPal.Lib.CSource

abbrev Text := List Char

/-- The lines of a text, without those that are continued. -/
def splice : Text → Text
  | '\\' :: '\n' :: text => splice text
  | c :: text => c :: splice text
  | [] => []

/-- The text outside comments, where it starts in one or not. -/
def strip : Bool → Text → Text
  | _, [] => []
  | true, '\n' :: text => '\n' :: strip false text
  | true, _ :: text => strip true text
  | false, '/' :: '/' :: text => strip true text
  | false, c :: text => c :: strip false text

def isBlank (c : Char) : Bool := c = ' ' ∨ c = '\n'

/-- Words and commas; `word` is what has been read of a word. -/
def lex (word : Text) : Text → List Text
  | [] => if word = [] then [] else [word]
  | c :: text =>
    if isBlank c then (if word = [] then [] else [word]) ++ lex [] text
    else if c = ',' then (if word = [] then [] else [word]) ++ [','] :: lex [] text
    else lex (word ++ [c]) text

/-- The tokens outside comments. -/
def tokens (text : Text) : List Text := lex [] (strip false (splice text))

/-! ## Splices -/

def Continued (line : Text) : Prop := line.getLast? = some '\\'

instance (line : Text) : Decidable (Continued line) := inferInstanceAs (Decidable (_ = _))

theorem splice_cons {c : Char} {text : Text} (h : c ≠ '\\' ∨ text.head? ≠ some '\n') :
    splice (c :: text) = c :: splice text := by
  rw [splice.eq_2]
  rintro rest rfl rfl
  simp at h

theorem splice_line (line : Text) (hline : '\n' ∉ line) (rest : Text) : splice (line ++ '\n' :: rest) =
    if Continued line then line.dropLast ++ splice rest else line ++ '\n' :: splice rest := by
  induction line with
  | nil => rw [if_neg (by decide), List.nil_append, splice_cons (.inl (by decide))]; rfl
  | cons c line ih =>
    rw [List.mem_cons, not_or] at hline
    cases line with
    | nil =>
      by_cases hc : c = '\\'
      · subst hc
        rfl
      · rw [if_neg (by simpa [Continued] using hc), List.cons_append, splice_cons (.inl hc), ih List.not_mem_nil]
        rfl
    | cons d line =>
      have hd : d ≠ '\n' := fun h => hline.2 (h ▸ List.mem_cons_self)
      have hcont : Continued (c :: d :: line) ↔ Continued (d :: line) := by simp [Continued]
      rw [List.cons_append, splice_cons (.inr (by simpa using hd)), ih hline.2]
      by_cases h : Continued (d :: line)
      · rw [if_pos h, if_pos (hcont.mpr h)]
        rfl
      · rw [if_neg h, if_neg (mt hcont.mp h)]
        rfl

/-! ## Comments -/

theorem strip_comment {line : Text} (hline : '\n' ∉ line) (rest : Text) :
    strip true (line ++ rest) = strip true rest := by
  induction line with
  | nil => rfl
  | cons c line ih =>
    rw [List.mem_cons, not_or] at hline
    rw [List.cons_append, strip, ih hline.2]
    exact fun h => hline.1 h.symm

theorem strip_code {head : Text} (hhead : '/' ∉ head) (rest : Text) :
    strip false (head ++ '/' :: '/' :: rest) = head ++ strip true rest := by
  induction head with
  | nil => rfl
  | cons c head ih =>
    rw [List.mem_cons, not_or] at hhead
    rw [List.cons_append, strip, ih hhead.2]
    · rfl
    · rintro _ h -
      exact hhead.1 h.symm

/-- A line that ends in a comment, read in one or not. Whether it is continued shows in what is after it. -/
theorem strip_line {head comment : Text} (hhead : '/' ∉ head) (hline : '\n' ∉ head ++ '/' :: '/' :: comment)
    (hcomment : comment ≠ []) (rest : Text) (inside : Bool) : ∃ blanks, (∀ c ∈ blanks, isBlank c) ∧
      strip inside (splice (head ++ '/' :: '/' :: comment ++ '\n' :: rest)) =
        (if inside then [] else head) ++ (blanks ++ strip (decide (Continued comment)) (splice rest)) := by
  have hcont : Continued (head ++ '/' :: '/' :: comment) ↔ Continued comment := by
    rw [Continued, Continued, List.getLast?_append_of_ne_nil _ (List.cons_ne_nil _ _),
      List.getLast?_cons_of_ne_nil (List.cons_ne_nil _ _), List.getLast?_cons_of_ne_nil hcomment]
  have hnew : '\n' ∉ comment := fun h => hline (by simp [h])
  rw [splice_line _ hline]
  by_cases h : Continued comment
  · have hdrop : (head ++ '/' :: '/' :: comment).dropLast = head ++ '/' :: '/' :: comment.dropLast := by
      rw [List.dropLast_append_of_ne_nil (List.cons_ne_nil _ _), List.dropLast_cons_of_ne_nil (List.cons_ne_nil _ _),
        List.dropLast_cons_of_ne_nil hcomment]
    have hnew' : '\n' ∉ comment.dropLast := fun h => hnew (List.mem_of_mem_dropLast h)
    refine ⟨[], nofun, ?_⟩
    rw [if_pos (hcont.mpr h), hdrop, List.nil_append, decide_eq_true h]
    cases inside with
    | false => rw [List.append_assoc, List.cons_append, List.cons_append, strip_code hhead, strip_comment hnew']; rfl
    | true =>
      have hall : '\n' ∉ head ++ '/' :: '/' :: comment.dropLast := fun hm => hline (by
        rw [← hdrop] at hm
        exact List.mem_of_mem_dropLast hm)
      exact strip_comment hall _
  · refine ⟨['\n'], by simp [isBlank], ?_⟩
    rw [if_neg (mt hcont.mp h), decide_eq_false h]
    cases inside with
    | false => rw [List.append_assoc, List.cons_append, List.cons_append, strip_code hhead, strip_comment hnew]; rfl
    | true => exact strip_comment hline _

/-! ## Tokens -/

theorem lex_blank {c : Char} (hc : isBlank c) (text : Text) : lex [] (c :: text) = lex [] text := by
  rw [lex, if_pos hc, if_pos rfl, List.nil_append]

theorem lex_blanks {blanks : Text} (h : ∀ c ∈ blanks, isBlank c) (text : Text) :
    lex [] (blanks ++ text) = lex [] text := by
  induction blanks with
  | nil => rfl
  | cons c blanks ih =>
    rw [List.forall_mem_cons] at h
    rw [List.cons_append, lex_blank h.1, ih h.2]

/-- A word is read up to what ends it. -/
theorem lex_word {chars : Text} (h : ∀ c ∈ chars, isBlank c = false ∧ c ≠ ',') : ∀ (word text : Text),
    lex word (chars ++ text) = lex (word ++ chars) text := by
  induction chars with
  | nil =>
    intro word text
    rw [List.append_nil]
    rfl
  | cons c chars ih =>
    intro word text
    obtain ⟨⟨hblank, hcomma⟩, hrest⟩ := List.forall_mem_cons.mp h
    rw [List.cons_append, lex, if_neg (by simp [hblank]), if_neg hcomma, ih hrest, List.append_assoc]
    rfl

end BuildPal.Lib.CSource
