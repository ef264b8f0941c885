import BuildPal.BuildDeps.AsmParser
import BuildPal.Lib.CSource
/-!
# The printer of the C array

`_CodeArrayPrinter` of `asm_to_inc.py`. The bytes are separated by commas, and
the assembler code is in line comments at a fixed column.
-/

namespace BuildPal.AsmToInc

open Lib.CSource (Continued lex strip splice isBlank)

/-! ## The printer -/

structure Widths where
  maxCodeLen : Nat := 0
  lastCodeStrictlyLongest : Bool := false
  asmInstWidth : Nat := 0
  /-- Not set where there is no code line. -/
  lastCodeLine : Option Nat := none
  deriving DecidableEq, Repr

namespace Widths

def step (w : Widths) : Item × Nat → Widths
  | (.comment _, _) => w
  | (.code _ code inst _ _, i) =>
    let strictly := w.maxCodeLen < code.length
    { lastCodeLine := some i
      lastCodeStrictlyLongest := strictly
      maxCodeLen := if strictly then code.length else w.maxCodeLen
      asmInstWidth := if w.asmInstWidth < inst.length then inst.length else w.asmInstWidth }

def codeWidth (w : Widths) : Int := 6 * w.maxCodeLen - 2 + if w.lastCodeStrictlyLongest then 0 else 1

end Widths

/-- `__calculate_output_column_widths` -/
def widths (parsedCode : List Item) : Widths := parsedCode.zipIdx.foldl Widths.step {}

/-- `"{:{}}".format(text, width)` -/
def ljust (text : Line) (width : Nat) : Line := text ++ List.replicate (width - text.length) ' '

def hexByte (x : Line) : Line := '0' :: 'x' :: x

def codeString (code : List Line) (addTrailingComma : Bool) : Line :=
  [',', ' '].intercalate (code.map hexByte) ++ if addTrailingComma then [','] else []

/-- What is left of the assembler code. -/
def asmString (width : Nat) (inst args comment : Line) : Line :=
  if args ≠ [] ∨ comment ≠ [] then ljust inst width ++ ' ' :: (args ++ comment) else inst

def formatCodeLine (w : Widths) (offset : Line) (code : List Line) (inst args comment : Line)
    (addTrailingComma : Bool) :
    Except Raised Line :=
  let string := codeString code addTrailingComma
  if ¬ (string.length : Int) ≤ w.codeWidth then .error .assertionError
  else
    .ok (ljust string w.codeWidth.toNat ++ ' ' :: ' ' :: '/' :: '/' :: ' ' :: (offset ++ ' ' :: '-' :: ' ' ::
      asmString w.asmInstWidth inst args comment))

def formatItem (w : Widths) : Item × Nat → Except Raised Line
  | (.comment text, _) => .ok ('/' :: '/' :: ' ' :: text)
  | (.code offset code inst args comment, i) =>
    formatCodeLine w offset code inst args (comment.getD []) (some i ≠ w.lastCodeLine)

def printTo (parsedCode : List Item) : Except Raised (List Char) := do
  let lines ← parsedCode.zipIdx.mapM (formatItem (widths parsedCode))
  return lines.flatMap (· ++ ['\n'])

/-! ## Well-formed items -/

/-- Two hexadecimal digits. -/
def IsByte (x : Line) : Prop := ∃ h l, x = [h, l] ∧ isHex h ∧ isHex l

/-- What is known of an item that was read from lines. -/
def Item.Fine : Item → Prop
  | .comment text => '\n' ∉ text
  | .code offset bytes inst args asmComment => bytes ≠ [] ∧ (∀ b ∈ bytes, IsByte b) ∧ inst ≠ [] ∧ asmComment ≠ some [] ∧
      '\n' ∉ offset ∧ '\n' ∉ inst ∧ '\n' ∉ args ∧ '\n' ∉ asmComment.getD []


/-! ## Columns -/

def Item.IsCode (x : Item) : Prop := x.code?.isSome

instance (x : Item) : Decidable x.IsCode := inferInstanceAs (Decidable (_ = true))

/-- There is code among the items. -/
def HasCode (items : List Item) : Prop := ∃ x ∈ items, x.IsCode

instance (items : List Item) : Decidable (HasCode items) := inferInstanceAs (Decidable (∃ x ∈ items, _))

namespace Widths

theorem foldl_comments {items : List Item} (h : ¬ HasCode items) : ∀ (w : Widths) (n : Nat),
    (items.zipIdx n).foldl step w = w := by
  induction items with
  | nil => exact fun _ _ => rfl
  | cons x items ih =>
    intro w n
    cases x with
    | comment text => exact ih (fun ⟨y, hy, hcode⟩ => h ⟨y, List.mem_cons_of_mem _ hy, hcode⟩) w (n + 1)
    | code => exact absurd ⟨_, List.mem_cons_self, rfl⟩ h

theorem hasCode_cons {x : Item} {items : List Item} : HasCode (x :: items) ↔ x.IsCode ∨ HasCode items :=
  List.exists_mem_cons_iff ..

/-- The line the last comma is left out of is one of those with code. -/
theorem foldl_lastCodeLine (items : List Item) : ∀ (w : Widths) (n : Nat), HasCode items →
    ∃ i, n ≤ i ∧ ((items.zipIdx n).foldl step w).lastCodeLine = some i := by
  induction items with
  | nil => exact fun _ _ ⟨_, hx, _⟩ => absurd hx List.not_mem_nil
  | cons x items ih =>
    intro w n h
    by_cases hmore : HasCode items
    · obtain ⟨i, hi, hlast⟩ := ih (step w (x, n)) (n + 1) hmore
      exact ⟨i, by omega, hlast⟩
    · have hfold : (((x :: items).zipIdx n).foldl step w) = step w (x, n) := foldl_comments hmore _ _
      cases x with
      | comment => exact absurd h (by simp [hasCode_cons, hmore, Item.IsCode, Item.code?])
      | code => exact ⟨n, Nat.le_refl n, by rw [hfold]; rfl⟩

/-- The longest code seen only grows, and it has grown where the last code is said to be the longest. -/
theorem foldl_maxCodeLen (items : List Item) : ∀ (w : Widths) (n : Nat),
    w.maxCodeLen ≤ ((items.zipIdx n).foldl step w).maxCodeLen ∧
      (HasCode items → ((items.zipIdx n).foldl step w).lastCodeStrictlyLongest →
        w.maxCodeLen < ((items.zipIdx n).foldl step w).maxCodeLen) := by
  induction items with
  | nil => exact fun w n => ⟨Nat.le_refl _, fun ⟨_, hx, _⟩ => absurd hx List.not_mem_nil⟩
  | cons x items ih =>
    intro w n
    obtain ⟨hle, hlt⟩ := ih (step w (x, n)) (n + 1)
    cases x with
    | comment text =>
      refine ⟨hle, fun h => hlt ?_⟩
      simpa [hasCode_cons, Item.IsCode, Item.code?] using h
    | code offset bytes inst args asmComment =>
      have hstep : w.maxCodeLen ≤ (step w (.code offset bytes inst args asmComment, n)).maxCodeLen := by
        simp only [step]
        split <;> omega
      refine ⟨Nat.le_trans hstep hle, fun _ hlongest => ?_⟩
      by_cases hmore : HasCode items
      · exact Nat.lt_of_le_of_lt hstep (hlt hmore hlongest)
      · -- this is the last code line
        have hfold : (((Item.code offset bytes inst args asmComment :: items).zipIdx n).foldl step w) =
            step w (.code offset bytes inst args asmComment, n) := foldl_comments hmore _ _
        rw [hfold] at hlongest ⊢
        have hlonger : w.maxCodeLen < bytes.length := by simpa [step] using hlongest
        simp [step, hlonger]

end Widths

section Position
variable {pre : List Item} {offset : Line} {bytes : List Line} {inst args : Line} {asmComment : Option Line}
  {post : List Item}

/-- The widths, as they are found from this line on. -/
theorem widths_split (pre : List Item) (x : Item) (post : List Item) : ∃ w : Widths, widths (pre ++ x :: post) =
    (post.zipIdx (pre.length + 1)).foldl Widths.step (w.step (x, pre.length)) :=
  ⟨pre.zipIdx.foldl Widths.step {}, by
    rw [widths, List.zipIdx_append, List.foldl_append, List.zipIdx_cons, List.foldl_cons, Nat.zero_add]⟩

/-- Every code line but the last gets a comma. -/
theorem comma_iff : some pre.length ≠ (widths (pre ++ .code offset bytes inst args asmComment :: post)).lastCodeLine ↔
    HasCode post := by
  obtain ⟨w, hw⟩ := widths_split pre (.code offset bytes inst args asmComment) post
  rw [hw]
  by_cases hpost : HasCode post
  · obtain ⟨i, hi, hlast⟩ := Widths.foldl_lastCodeLine post
      (w.step (.code offset bytes inst args asmComment, pre.length)) (pre.length + 1) hpost
    rw [hlast]
    exact iff_of_true (by simp; omega) hpost
  · rw [Widths.foldl_comments hpost]
    exact iff_of_false (by simp [Widths.step]) hpost

theorem codeString_length {code : List Line} (hbytes : ∀ b ∈ code, IsByte b) (hcode : code ≠ []) (comma : Bool) :
    (codeString code comma).length + 2 = 6 * code.length + if comma then 1 else 0 := by
  have hstring : ([',', ' '].intercalate (code.map hexByte)).length + 2 = 6 * code.length := by
    induction code with
    | nil => exact absurd rfl hcode
    | cons b code ih =>
      obtain ⟨⟨h, l, rfl, -⟩, hrest⟩ := List.forall_mem_cons.mp hbytes
      cases code with
      | nil => simp [hexByte]
      | cons c code =>
        have ih := ih hrest (List.cons_ne_nil _ _)
        simp only [List.map_cons, List.intercalate_cons_cons, List.length_append, List.length_cons, List.length_nil,
          hexByte] at ih ⊢
        omega
  rw [codeString, List.length_append]
  cases comma with
  | false => simpa using hstring
  | true =>
    rw [if_pos rfl, if_pos rfl, List.length_singleton]
    omega

/-- The assertion on the width of the code holds for every line. -/
theorem codeString_fits (hbytes : ∀ b ∈ bytes, IsByte b) (hne : bytes ≠ []) :
    ((codeString bytes (decide (HasCode post))).length : Int) ≤
      (widths (pre ++ .code offset bytes inst args asmComment :: post)).codeWidth := by
  obtain ⟨w, hw⟩ := widths_split pre (.code offset bytes inst args asmComment) post
  obtain ⟨hle, hlt⟩ := Widths.foldl_maxCodeLen post (w.step (.code offset bytes inst args asmComment, pre.length))
    (pre.length + 1)
  have hstep : bytes.length ≤ (w.step (.code offset bytes inst args asmComment, pre.length)).maxCodeLen := by
    simp only [Widths.step]
    split <;> omega
  have hlength := codeString_length hbytes hne (decide (HasCode post))
  rw [hw, Widths.codeWidth]
  by_cases hpost : HasCode post
  · rw [if_pos (decide_eq_true hpost)] at hlength
    split
    · next hlongest =>
      have hgrown := hlt hpost hlongest
      omega
    · omega
  · rw [if_neg (by simpa using hpost)] at hlength
    split <;> omega

end Position

/-! ## Lines -/

/-- The last thing that is printed of the assembler code. -/
def lastPart (inst args : Line) (comment : Option Line) : Line := comment.getD (if args = [] then inst else args)

/-- A line that is printed with a backslash at its end. -/
def Item.Continued : Item → Prop
  | .comment text => Lib.CSource.Continued text
  | .code _ _ inst args asmComment => Lib.CSource.Continued (lastPart inst args asmComment)

instance (x : Item) : Decidable x.Continued :=
  match x with
  | .comment _ => inferInstanceAs (Decidable (Lib.CSource.Continued _))
  | .code .. => inferInstanceAs (Decidable (Lib.CSource.Continued _))

/-- The tokens of a line outside comments. -/
def Item.tokens (comma : Bool) : Item → List Line
  | .comment _ => []
  | .code _ bytes _ _ _ => (bytes.map hexByte).intersperse [','] ++ if comma then [[',']] else []

theorem continued_append {start rest : Line} (h : rest ≠ []) : Lib.CSource.Continued (start ++ rest) ↔
    Lib.CSource.Continued rest := by
  rw [Lib.CSource.Continued, Lib.CSource.Continued, List.getLast?_append_of_ne_nil _ h]

theorem asmString_continued {inst args : Line} {comment : Option Line} (hcomment : comment ≠ some []) (width : Nat) :
    Lib.CSource.Continued (asmString width inst args (comment.getD [])) ↔
      Lib.CSource.Continued (lastPart inst args comment) := by
  rw [asmString, lastPart]
  cases comment with
  | none =>
    by_cases hargs : args = []
    · simp [hargs]
    · rw [Option.getD_none, if_pos (.inl hargs), List.append_nil, continued_append (List.cons_ne_nil _ _),
        ← List.singleton_append, continued_append hargs, Option.getD_none, if_neg hargs]
  | some comment =>
    have hne : comment ≠ [] := fun h => hcomment (congrArg some h)
    rw [Option.getD_some, Option.getD_some, if_pos (.inr hne), continued_append (List.cons_ne_nil _ _),
      ← List.singleton_append, continued_append (List.append_ne_nil_of_right_ne_nil _ hne), continued_append hne]

theorem hex_char {c : Char} (h : isHex c) : isBlank c = false ∧ c ≠ ',' ∧ c ≠ '/' ∧ c ≠ '\n' := by
  refine ⟨?_, ?_, ?_, ?_⟩
  · rw [isBlank, decide_eq_false_iff_not]
    rintro (rfl | rfl) <;> exact absurd h (by decide)
  all_goals rintro rfl; exact absurd h (by decide)

theorem hexByte_char {b : Line} (h : IsByte b) : ∀ c ∈ hexByte b, isBlank c = false ∧ c ≠ ',' ∧ c ≠ '/' ∧ c ≠ '\n' := by
  obtain ⟨d, l, rfl, hd, hl⟩ := h
  intro c hc
  simp only [hexByte, List.mem_cons, List.not_mem_nil, or_false] at hc
  rcases hc with rfl | rfl | rfl | rfl
  · decide
  · decide
  · exact hex_char hd
  · exact hex_char hl

/-- The code of a line, up to the blanks after it. -/
theorem lex_codeString {code : List Line} (hbytes : ∀ b ∈ code, IsByte b) (comma : Bool) {c : Char} (hc : isBlank c)
    (rest : Line) : code ≠ [] → lex [] (codeString code comma ++ c :: rest) =
      (code.map hexByte).intersperse [','] ++ (if comma then [[',']] else []) ++ lex [] rest := by
  induction code with
  | nil => exact fun h => absurd rfl h
  | cons b code ih =>
    intro _
    obtain ⟨hb, hrest⟩ := List.forall_mem_cons.mp hbytes
    have hchars : ∀ c ∈ hexByte b, isBlank c = false ∧ c ≠ ',' :=
      fun c hc => ⟨(hexByte_char hb c hc).1, (hexByte_char hb c hc).2.1⟩
    cases code with
    | nil =>
      have hcomma : isBlank ',' = false := by decide
      rw [codeString, List.map_singleton, List.intercalate_singleton, List.append_assoc, Lib.CSource.lex_word hchars]
      cases comma with
      | false => simp [lex, hc, hexByte]
      | true => simp [lex, hc, hexByte, hcomma]
    | cons b' code =>
      have hsplit : codeString (b :: b' :: code) comma ++ c :: rest =
          hexByte b ++ ',' :: ' ' :: (codeString (b' :: code) comma ++ c :: rest) := by
        simp [codeString, List.intercalate_cons_cons]
      have hcomma : isBlank ',' = false := by decide
      rw [hsplit, Lib.CSource.lex_word hchars, List.nil_append, lex, if_neg (by simp [hcomma]), if_pos rfl,
        if_neg (by simp [hexByte]), Lib.CSource.lex_blank (by decide), ih hrest (List.cons_ne_nil _ _)]
      rfl

theorem codeString_chars {code : List Line} (hbytes : ∀ b ∈ code, IsByte b) (comma : Bool) :
    ∀ c ∈ codeString code comma, c ≠ '/' ∧ c ≠ '\n' := by
  have hseparator : ∀ c ∈ [',', ' '], c ≠ '/' ∧ c ≠ '\n' := by simp
  have hcodes : ∀ c ∈ [',', ' '].intercalate (code.map hexByte), c ≠ '/' ∧ c ≠ '\n' := by
    induction code with
    | nil => exact nofun
    | cons b code ih =>
      obtain ⟨hb, hrest⟩ := List.forall_mem_cons.mp hbytes
      have hchars : ∀ c ∈ hexByte b, c ≠ '/' ∧ c ≠ '\n' := fun c hc => (hexByte_char hb c hc).2.2
      cases code with
      | nil => rwa [List.map_singleton, List.intercalate_singleton]
      | cons b' code =>
        rw [List.map_cons, List.map_cons, List.intercalate_cons_cons]
        exact List.forall_mem_append.mpr ⟨List.forall_mem_append.mpr ⟨hchars, hseparator⟩, ih hrest⟩
  refine List.forall_mem_append.mpr ⟨hcodes, ?_⟩
  cases comma <;> simp

theorem ljust_blanks (text : Line) (width : Nat) :
    ∃ blanks, ljust text width ++ [' ', ' '] = text ++ ' ' :: List.replicate blanks ' ' := by
  refine ⟨width - text.length + 1, ?_⟩
  have hblanks : List.replicate (width - text.length) ' ' ++ List.replicate 2 ' ' =
      List.replicate (width - text.length + 2) ' ' :=
    List.replicate_append_replicate
  rw [ljust, List.append_assoc]
  exact congrArg (text ++ ·) hblanks

/-- A fine item is printed as its tokens and a comment, which shows whether the line is continued. -/
theorem formatItem_spec {pre : List Item} {x : Item} {post : List Item} (hfine : x.Fine) : ∃ head note,
    formatItem (widths (pre ++ x :: post)) (x, pre.length) = .ok (head ++ '/' :: '/' :: note) ∧
      '/' ∉ head ∧ '\n' ∉ head ++ '/' :: '/' :: note ∧ note ≠ [] ∧ (Lib.CSource.Continued note ↔ x.Continued) ∧
        ∀ rest, lex [] (head ++ rest) = x.tokens (decide (HasCode post)) ++ lex [] rest := by
  cases x with
  | comment text =>
    have hnew : '\n' ∉ '/' :: '/' :: ' ' :: text := by simpa [Item.Fine] using hfine
    refine ⟨[], ' ' :: text, rfl, List.not_mem_nil, hnew, List.cons_ne_nil _ _, ?_, fun _ => rfl⟩
    by_cases htext : text = []
    · subst htext
      decide
    · exact @continued_append [' '] text htext
  | code offset bytes inst args asmComment =>
    obtain ⟨hne, hbytes, hinst, hcomment, hoffset, hinstNew, hargs, hcommentNew⟩ := hfine
    have hfits := @codeString_fits pre offset bytes inst args asmComment post hbytes hne
    have hslash : '/' ∉ codeString bytes (decide (HasCode post)) := fun h => (codeString_chars hbytes _ _ h).1 rfl
    have hnew : '\n' ∉ codeString bytes (decide (HasCode post)) := fun h => (codeString_chars hbytes _ _ h).2 rfl
    have hformat : formatItem (widths (pre ++ .code offset bytes inst args asmComment :: post))
        (.code offset bytes inst args asmComment, pre.length) =
        formatCodeLine (widths (pre ++ .code offset bytes inst args asmComment :: post)) offset bytes inst args
          (asmComment.getD []) (decide (HasCode post)) := by
      rw [formatItem, decide_eq_decide.mpr comma_iff]
    rw [hformat]
    generalize widths (pre ++ .code offset bytes inst args asmComment :: post) = w at hfits ⊢
    obtain ⟨blanks, hpad⟩ := ljust_blanks (codeString bytes (decide (HasCode post))) w.codeWidth.toNat
    have hasmNew : '\n' ∉ asmString w.asmInstWidth inst args (asmComment.getD []) := by
      rw [asmString]
      split <;> simp [ljust, hinstNew, hargs, hcommentNew]
    have hasmNe : asmString w.asmInstWidth inst args (asmComment.getD []) ≠ [] := by
      rw [asmString]
      split
      · simp
      · exact hinst
    refine ⟨ljust (codeString bytes (decide (HasCode post))) w.codeWidth.toNat ++ [' ', ' '],
      ' ' :: (offset ++ ' ' :: '-' :: ' ' :: asmString w.asmInstWidth inst args (asmComment.getD [])),
      ?_, ?_, ?_, List.cons_ne_nil _ _, ?_, fun rest => ?_⟩
    · rw [formatCodeLine, if_neg (not_not_intro hfits)]
      simp
    · rw [hpad]
      simp [hslash]
    · rw [hpad]
      simp [hnew, hoffset, hasmNew]
    · have hsplit : ' ' :: (offset ++ ' ' :: '-' :: ' ' :: asmString w.asmInstWidth inst args (asmComment.getD [])) =
          (' ' :: (offset ++ [' ', '-', ' '])) ++ asmString w.asmInstWidth inst args (asmComment.getD []) := by simp
      rw [hsplit, continued_append hasmNe]
      exact asmString_continued hcomment _
    · rw [hpad, List.append_assoc, List.cons_append, lex_codeString hbytes _ (by decide) _ hne,
        Lib.CSource.lex_blanks (by simp [isBlank])]
      rfl

/-! ## What is printed -/

/-- The tokens outside comments, where the first line is in one or not. -/
def printedTokens : Bool → List Item → List Line
  | _, [] => []
  | inside, x :: items =>
    (if inside then [] else x.tokens (decide (HasCode items))) ++ printedTokens (decide x.Continued) items

theorem printed_tokens (post : List Item) : ∀ (pre : List Item), (∀ x ∈ post, x.Fine) → ∃ lines,
    (post.zipIdx pre.length).mapM (formatItem (widths (pre ++ post))) = .ok lines ∧
      ∀ inside, lex [] (strip inside (splice (lines.flatMap (· ++ ['\n'])))) = printedTokens inside post := by
  induction post with
  | nil => exact fun _ _ => ⟨[], rfl, fun inside => by cases inside <;> rfl⟩
  | cons x post ih =>
    intro pre hfine
    obtain ⟨hx, hpost⟩ := List.forall_mem_cons.mp hfine
    obtain ⟨head, note, hformat, hslash, hnew, hne, hcontinued, htokens⟩ := @formatItem_spec pre x post hx
    obtain ⟨lines, hlines, hmore⟩ := ih (pre ++ [x]) hpost
    rw [List.append_assoc, List.singleton_append, List.length_append, List.length_singleton] at hlines
    refine ⟨(head ++ '/' :: '/' :: note) :: lines, ?_, fun inside => ?_⟩
    · rw [List.zipIdx_cons, List.mapM_cons, hformat, ok_bind, hlines]
      rfl
    · obtain ⟨blanks, hblanks, hstrip⟩ := Lib.CSource.strip_line hslash hnew hne (lines.flatMap (· ++ ['\n'])) inside
      have hnext := hmore (decide (Lib.CSource.Continued note))
      rw [List.flatMap_cons, List.append_assoc, List.singleton_append, hstrip, printedTokens]
      cases inside with
      | false =>
        rw [if_neg Bool.false_ne_true, if_neg Bool.false_ne_true, htokens, Lib.CSource.lex_blanks hblanks, hnext,
          decide_eq_decide.mpr hcontinued]
      | true =>
        rw [if_pos rfl, if_pos rfl, List.nil_append, Lib.CSource.lex_blanks hblanks, hnext,
          decide_eq_decide.mpr hcontinued]
        rfl

/-- Printing never fails, and these are the tokens of the output. -/
theorem printTo_tokens {items : List Item} (hfine : ∀ x ∈ items, x.Fine) :
    ∃ output, printTo items = .ok output ∧ Lib.CSource.tokens output = printedTokens false items := by
  obtain ⟨lines, hlines, htokens⟩ := printed_tokens items [] hfine
  refine ⟨lines.flatMap (· ++ ['\n']), ?_, htokens false⟩
  rw [printTo, show items.zipIdx.mapM (formatItem (widths items)) = .ok lines from hlines]
  rfl

/-- The bytes of the code lines, as they are to be printed. -/
def Item.bytes : Item → List Line
  | .comment _ => []
  | .code _ bytes _ _ _ => bytes.map hexByte

/-- Directly before an item with code, one is printed with a backslash at its end. -/
def SplicedItems : (printedBackslash : Bool) → List Item → Prop
  | _, [] => False
  | printedBackslash, x :: items => (printedBackslash ∧ x.IsCode) ∨ SplicedItems (decide x.Continued) items

theorem intersperse_append {sep : Line} {xs ys : List Line} (hxs : xs ≠ []) (hys : ys ≠ []) :
    (xs ++ ys).intersperse sep = xs.intersperse sep ++ sep :: ys.intersperse sep := by
  induction xs with
  | nil => exact absurd rfl hxs
  | cons x xs ih =>
    cases xs with
    | nil =>
      obtain ⟨y, ys, rfl⟩ := List.exists_cons_of_ne_nil hys
      rfl
    | cons x' xs => simpa using ih (List.cons_ne_nil _ _)

theorem bytes_ne_nil {items : List Item} (hfine : ∀ x ∈ items, x.Fine) :
    items.flatMap Item.bytes ≠ [] ↔ HasCode items := by
  simp only [Ne, List.flatMap_eq_nil_iff, HasCode, not_forall, exists_prop]
  refine exists_congr fun x => and_congr_right fun hx => ?_
  cases x with
  | comment => exact iff_of_false (fun h => h rfl) Bool.false_ne_true
  | code => exact iff_of_true (by simpa [Item.bytes] using (hfine _ hx).1) rfl

/-- Without a splice before code, all bytes are printed. -/
theorem printedTokens_eq (items : List Item) : ∀ {inside : Bool}, (∀ x ∈ items, x.Fine) → ¬ SplicedItems inside items →
    printedTokens inside items = (items.flatMap Item.bytes).intersperse [','] := by
  induction items with
  | nil => exact fun _ _ => rfl
  | cons x items ih =>
    intro inside hfine hspliced
    obtain ⟨hx, hitems⟩ := List.forall_mem_cons.mp hfine
    obtain ⟨hhere, hmore⟩ := not_or.mp hspliced
    rw [printedTokens, ih hitems hmore, List.flatMap_cons]
    cases x with
    | comment => cases inside <;> rfl
    | code offset bytes inst args asmComment =>
      have hinside : inside ≠ true := fun h => hhere ⟨h, rfl⟩
      have hbytes : bytes.map hexByte ≠ [] := by simpa using hx.1
      rw [if_neg hinside, Item.tokens, Item.bytes]
      by_cases hcode : HasCode items
      · rw [if_pos (decide_eq_true hcode), intersperse_append hbytes ((bytes_ne_nil hitems).mpr hcode),
        List.append_assoc]
        rfl
      · have hnil : items.flatMap Item.bytes = [] := not_not.mp (mt (bytes_ne_nil hitems).mp hcode)
        rw [if_neg (by simpa using hcode), hnil]
        simp

theorem intersperse_count {words : List Line} (h : ∀ w ∈ words, w ≠ [',']) :
    (words.intersperse [',']).countP (· ≠ [',']) = words.length := by
  induction words with
  | nil => rfl
  | cons w words ih =>
    obtain ⟨hw, hwords⟩ := List.forall_mem_cons.mp h
    cases words with
    | nil => simp [hw]
    | cons w' words => simpa [hw] using ih hwords

theorem bytes_words (x : Item) : ∀ w ∈ x.bytes, w ≠ [','] := by
  cases x with
  | comment => exact nofun
  | code offset bytes inst args asmComment =>
    intro w hw h
    obtain ⟨b, -, rfl⟩ := List.mem_map.mp hw
    cases h

theorem tokens_count (x : Item) (comma : Bool) : (x.tokens comma).countP (· ≠ [',']) = x.bytes.length := by
  cases x with
  | comment => rfl
  | code offset bytes inst args asmComment =>
    have hcount := intersperse_count (bytes_words (.code offset bytes inst args asmComment))
    rw [Item.bytes] at hcount ⊢
    rw [Item.tokens, List.countP_append, hcount]
    cases comma <;> rfl

/-- A splice before code loses bytes. -/
theorem printedTokens_lost (items : List Item) : ∀ {inside : Bool}, (∀ x ∈ items, x.Fine) →
    (printedTokens inside items).countP (· ≠ [',']) ≤ (items.flatMap Item.bytes).length ∧
      (SplicedItems inside items →
        (printedTokens inside items).countP (· ≠ [',']) < (items.flatMap Item.bytes).length) := by
  induction items with
  | nil => exact fun _ => ⟨Nat.le_refl 0, nofun⟩
  | cons x items ih =>
    intro inside hfine
    obtain ⟨hx, hitems⟩ := List.forall_mem_cons.mp hfine
    obtain ⟨hle, hlt⟩ := @ih (decide x.Continued) hitems
    have hhere : (if inside then [] else x.tokens (decide (HasCode items))).countP (· ≠ [',']) ≤ x.bytes.length := by
      cases inside with
      | false => exact (tokens_count x _).le
      | true => exact Nat.zero_le _
    rw [printedTokens, List.countP_append, List.flatMap_cons, List.length_append]
    refine ⟨Nat.add_le_add hhere hle, fun hspliced => ?_⟩
    rcases hspliced with ⟨rfl, hcode⟩ | hmore
    · have hbytes : 0 < x.bytes.length := by
        cases x with
        | comment => exact absurd hcode Bool.false_ne_true
        | code => simpa [Item.bytes, List.length_pos_iff] using hx.1
      exact Nat.add_lt_add_of_lt_of_le hbytes hle
    · exact Nat.add_lt_add_of_le_of_lt hhere (hlt hmore)

/-- The bytes are printed in their order exactly where no comment swallows one. -/
theorem printedTokens_iff {items : List Item} (hfine : ∀ x ∈ items, x.Fine) :
    printedTokens false items = (items.flatMap Item.bytes).intersperse [','] ↔ ¬ SplicedItems false items := by
  refine ⟨fun h hspliced => ?_, printedTokens_eq items hfine⟩
  have hlost := (printedTokens_lost items hfine).2 hspliced
  have hwords : ∀ w ∈ items.flatMap Item.bytes, w ≠ [','] := by
    intro w hw
    obtain ⟨x, -, hx⟩ := List.mem_flatMap.mp hw
    exact bytes_words x w hx
  rw [h, intersperse_count hwords] at hlost
  exact absurd hlost (Nat.lt_irrefl _)

end BuildPal.AsmToInc
