import BuildPal.BuildDeps.CodeArrayPrinter
import Mathlib.Data.List.Chain
/-!
# From a listing to a C array

`convert_to_c_array` of `asm_to_inc.py`. What comes out is C text, whose tokens
outside comments are to be the bytes of the procedure.
-/

namespace BuildPal.AsmToInc

open Lib.CSource (Continued tokens)

def convertToCArray (compile : String → Option Pattern) (procName : String) (listing : List Char) :
    Except Raised (List Char) := do
  let parsed ← parseAsmCode compile procName listing
  printTo parsed

/-! ## What is to be printed -/

/-- The lines of a listing, without their newlines. -/
def listingLines (listing : List Char) : List Line := (rawLines listing).map stripTrailingNewline

/-- Offset and bytes of the code lines, each joined with the lines that continue it. -/
def codeLines : Option (Line × List Line) → List Line → List (Line × List Line)
  | _, [] => []
  | none, line :: lines =>
    match codeLine line with
    | none => codeLines none lines
    | some (offset, code, none) => codeLines (some (offset, code)) lines
    | some (offset, code, some _) => (offset, code) :: codeLines none lines
  | some (offset, code), line :: lines =>
    match codePlusAsm line with
    | none => codeLines none lines
    | some (bytes, none) => codeLines (some (offset, code ++ bytes)) lines
    | some (bytes, some _) => (offset, code ++ bytes) :: codeLines none lines

/-- The lines between the PROC and the ENDP line, which are the only ones of the procedure. -/
def Between (procStart procEnd : Pattern) (lines body : List Line) : Prop :=
  ∃ before proc endp after, lines = before ++ proc :: (body ++ endp :: after) ∧
    (∀ line ∈ before ++ body ++ after, Other procStart procEnd line) ∧
      (procStart.find proc).isSome ∧ procStart.find endp = none ∧ (procEnd.find endp).isSome

structure Extracted (body : List Line) (output : List Char) : Prop where
  /-- The bytes in their order, a comma between any two of them. -/
  tokens : tokens output = (((codeLines none body).flatMap Prod.snd).map hexByte).intersperse [',']
  offsets : (codeLines none body).IsChain fun a b => hexValue b.1 = hexValue a.1 + a.2.length

/-- The bytes are extracted, or there is a parser error. -/
def Extracts (compile : String → Option Pattern) (procName : String) (listing : List Char) : Prop :=
  match convertToCArray compile procName listing with
  | .ok output => ∃ procStart procEnd body, compile (procPattern "PROC" procName) = some procStart ∧
      compile (procPattern "ENDP" procName) = some procEnd ∧ Between procStart procEnd (listingLines listing) body ∧
        Extracted body output
  | .error e => ∃ msg lineNumber, e = .parserError msg lineNumber

/-! ### When it is -/

/-- Whether a line is printed with a backslash at its end, and whether it leaves code that is to be continued. -/
def lineEnd (asm : Option (Option Line)) (line : Line) : Bool × Bool :=
  match asm with
  | none => (decide (Continued line), false)
  | some none => (false, true)
  | some (some asm) =>
    ((asmCodeAndComment asm).any fun (inst, args, comment) => decide (Continued (lastPart inst args comment)), false)

/-- Directly before a line on which code begins, a line is printed with a backslash at its end. -/
def Spliced : (printedBackslash pending : Bool) → List Line → Prop
  | _, _, [] => False
  | printedBackslash, pending, line :: lines =>
    (printedBackslash ∧ ¬ pending ∧ (codeLine line).isSome) ∨
      let asm := if pending then (codePlusAsm line).map (·.2) else (codeLine line).map (·.2.2)
      Spliced (lineEnd asm line).1 (lineEnd asm line).2 lines

/-- The name makes regular expressions whose groups are set, and no printed line joins a code line to its comment. -/
structure Convertible (compile : String → Option Pattern) (procName : String) (listing : List Char) : Prop where
  compiles : ∃ procStart procEnd, compile (procPattern "PROC" procName) = some procStart ∧
    compile (procPattern "ENDP" procName) = some procEnd
  set : ∀ procStart procEnd, compile (procPattern "PROC" procName) = some procStart →
    compile (procPattern "ENDP" procName) = some procEnd → ¬ Unset procStart procEnd (listingLines listing)
  unspliced : ∀ procStart procEnd body text items endText, compile (procPattern "PROC" procName) = some procStart →
    compile (procPattern "ENDP" procName) = some procEnd →
    Converted procStart procEnd (listingLines listing) body text items endText →
      ¬ Spliced (decide (Continued text)) false body

/-! ## What the expressions match -/

theorem codeBytes_spec (line : Line) : ∀ {bytes rest}, codeBytes line = some (bytes, rest) →
    bytes ≠ [] ∧ (∀ b ∈ bytes, IsByte b) ∧ rest <:+ line := by
  induction line using codeBytes.induct with
  | case1 h l hhex more bytes rest hmore ih =>
    intro bytes' rest' heq
    obtain ⟨-, hbytes, hsuffix⟩ := ih hmore
    rw [codeBytes, if_pos hhex, hmore] at heq
    cases heq
    refine ⟨List.cons_ne_nil _ _, List.forall_mem_cons.mpr ⟨⟨h, l, rfl, hhex⟩, hbytes⟩, ?_⟩
    exact hsuffix.trans ⟨[h, l, ' '], rfl⟩
  | case2 h l hhex more hmore ih =>
    intro bytes' rest' heq
    rw [codeBytes, if_pos hhex, hmore] at heq
    cases heq
    exact ⟨List.cons_ne_nil _ _, List.forall_mem_singleton.mpr ⟨h, l, rfl, hhex⟩, [h, l], rfl⟩
  | case3 h l hhex rest hrest =>
    intro bytes' rest' heq
    rw [codeBytes, if_pos hhex] at heq
    · cases heq
      exact ⟨List.cons_ne_nil _ _, List.forall_mem_singleton.mpr ⟨h, l, rfl, hhex⟩, [h, l], rfl⟩
    · exact hrest
  | case4 h l rest hhex =>
    intro bytes' rest' heq
    rw [codeBytes.eq_def] at heq
    simp only [if_neg hhex, reduceCtorEq] at heq
  | case5 line hshort =>
    intro bytes' rest' heq
    rw [codeBytes] at heq
    · cases heq
    · exact hshort

theorem mem_of_suffix {part line : Line} (h : part <:+ line) {c : Char} (hc : c ∉ line) : c ∉ part :=
  fun hm => hc (h.subset hm)

theorem asmPart_suffix (rest : Line) : asmPart rest <:+ rest := by
  rw [asmPart]
  split
  · next h => exact (List.suffix_cons ' ' _).trans (h ▸ List.dropWhile_suffix _)
  · exact List.dropWhile_suffix _

theorem codePlusAsm_spec {line : Line} {bytes : List Line} {asm : Option Line}
    (h : codePlusAsm line = some (bytes, asm)) :
    bytes ≠ [] ∧ (∀ b ∈ bytes, IsByte b) ∧ ∀ text ∈ asm, text <:+ line := by
  rw [codePlusAsm.eq_def] at h
  split at h
  · next rest =>
    split at h
    · next hbytes =>
      cases h
      obtain ⟨hne, hall, -⟩ := codeBytes_spec rest hbytes
      exact ⟨hne, hall, nofun⟩
    · next after hbytes =>
      cases h
      obtain ⟨hne, hall, hsuffix⟩ := codeBytes_spec rest hbytes
      refine ⟨hne, hall, fun text htext => ?_⟩
      cases htext
      exact ((asmPart_suffix _).trans (List.suffix_cons '\t' _)).trans (hsuffix.trans (List.suffix_cons '\t' _))
    · cases h
  · cases h

theorem codeLine_spec {line offset : Line} {bytes : List Line} {asm : Option Line}
    (h : codeLine line = some (offset, bytes, asm)) :
    bytes ≠ [] ∧ (∀ b ∈ bytes, IsByte b) ∧ offset <:+: line ∧ ∀ text ∈ asm, text <:+ line := by
  rw [codeLine.eq_def] at h
  split at h
  · next rest =>
    simp only at h
    split at h
    · cases h
    · obtain ⟨⟨bytes', asm'⟩, hplus, heq⟩ := Option.map_eq_some_iff.mp h
      cases heq
      obtain ⟨hne, hall, hasm⟩ := codePlusAsm_spec hplus
      have hrest : rest <:+ ' ' :: ' ' :: rest := ⟨[' ', ' '], rfl⟩
      refine ⟨hne, hall, ?_, fun text htext => (hasm text htext).trans ((List.dropWhile_suffix _).trans hrest)⟩
      exact (List.takeWhile_prefix _).isInfix.trans hrest.isInfix
  · cases h

theorem argsAndComment_spec {rest args : Line} {comment : Option Line}
    (h : argsAndComment rest = some (args, comment)) :
    comment ≠ some [] ∧ (∀ c ∈ args, c ∈ rest) ∧ ∀ c ∈ comment.getD [], c ∈ rest := by
  have htake : ∀ c ∈ rest.takeWhile (· ≠ '\t'), c ∈ rest := fun c hc => (List.takeWhile_prefix _).subset hc
  have hdrop : ∀ c ∈ rest.dropWhile (· ≠ '\t'), c ∈ rest := fun c hc => (List.dropWhile_suffix _).subset hc
  rw [argsAndComment] at h
  split at h
  · cases h
    exact ⟨nofun, htake, nofun⟩
  · split at h
    · next more hmore =>
      cases h
      refine ⟨by simp, htake, fun c hc => hdrop c ?_⟩
      exact (List.dropWhile_suffix _).subset (hmore ▸ hc)
    · split at h
      · next hsemi =>
        cases h
        refine ⟨by simp, fun c hc => htake c (List.mem_of_mem_take hc), fun c hc => ?_⟩
        simp only [Option.getD_some, List.cons_append, List.mem_cons, List.mem_append, List.mem_reverse] at hc
        rcases hc with rfl | hc | hc
        · exact htake _ hsemi
        · exact htake c (List.mem_reverse.mp ((List.takeWhile_prefix _).subset hc))
        · exact hdrop c hc
      · cases h

theorem asmCodeAndComment_spec {data inst args : Line} {comment : Option Line}
    (h : asmCodeAndComment data = some (inst, args, comment)) :
    inst ≠ [] ∧ comment ≠ some [] ∧ (∀ c ∈ inst, c ∈ data) ∧ (∀ c ∈ args, c ∈ data) ∧ ∀ c ∈ comment.getD [],
      c ∈ data := by
  rw [asmCodeAndComment] at h
  split at h
  · cases h
  · next hne =>
    split at h
    · next rest hrest =>
      obtain ⟨⟨args', comment'⟩, hargs, heq⟩ := Option.map_eq_some_iff.mp h
      cases heq
      obtain ⟨hcomment, hargs, hin⟩ := argsAndComment_spec hargs
      have hdata : ∀ c ∈ rest, c ∈ data := by
        intro c hc
        have hmem := (List.dropWhile_suffix _).subset (hrest ▸ List.mem_cons_of_mem ' ' hc)
        exact (List.dropWhile_suffix _).subset hmem
      exact ⟨hne, hcomment, fun c hc => (List.takeWhile_prefix _).subset hc, fun c hc => hdata c (hargs c hc),
        fun c hc => hdata c (hin c hc)⟩
    · cases h

/-! ## What the lines of a procedure are read as -/

/-- The lines, after some partial code and where an offset is expected, are read as these items. -/
inductive Reads : Option (Line × List Line) → Option Nat → List Line → List Item → Prop where
  | nil {expected} : Reads none expected [] []
  | comment {expected line lines items} : codeLine line = none → Reads none expected lines items →
    Reads none expected (line :: lines) (.comment line :: items)
  | start {expected line offset code lines items} : codeLine line = some (offset, code, none) →
    (∀ n ∈ expected, n = hexValue offset) → Reads (some (offset, code)) none lines items →
    Reads none expected (line :: lines) items
  | whole {expected line offset code asm inst args comment lines items} :
    codeLine line = some (offset, code, some asm) → (∀ n ∈ expected, n = hexValue offset) →
    asmCodeAndComment asm = some (inst, args, comment) →
    Reads none (some (hexValue offset + code.length)) lines items →
    Reads none expected (line :: lines) (.code offset code inst args comment :: items)
  | continued {line offset code bytes lines items} : codePlusAsm line = some (bytes, none) →
    Reads (some (offset, code ++ bytes)) none lines items → Reads (some (offset, code)) none (line :: lines) items
  | ended {line offset code bytes asm inst args comment lines items} : codePlusAsm line = some (bytes, some asm) →
    asmCodeAndComment asm = some (inst, args, comment) →
    Reads none (some (hexValue offset + (code ++ bytes).length)) lines items →
    Reads (some (offset, code)) none (line :: lines) (.code offset (code ++ bytes) inst args comment :: items)

theorem not_any_expected {expected : Option Nat} {n : Nat} (h : ¬ expected.any (· ≠ n)) : ∀ m ∈ expected, m = n := by
  intro m hm
  cases hm
  simpa using h

/-- What was scanned to its end was read. -/
theorem reads_of_scan (lines : List Line) : ∀ {s : Scan} {e : Option Nat} {items : List Item},
    (s.partialCode ≠ none → s.expected = none) → scan s lines = some (⟨none, e⟩, items) →
    Reads s.partialCode s.expected lines items := by
  induction lines with
  | nil =>
    intro s e items _ h
    cases h
    exact .nil
  | cons line lines ih =>
    intro s e items hinv h
    obtain ⟨⟨s', first⟩, hline, hmore⟩ := Option.bind_eq_some_iff.mp h
    obtain ⟨⟨s'', more⟩, hscan, heq⟩ := Option.map_eq_some_iff.mp hmore
    cases heq
    obtain ⟨partialCode, expected⟩ := s
    cases partialCode with
    | none =>
      cases hcode : codeLine line with
      | none =>
        simp only [scanLine, hcode] at hline
        cases hline
        exact .comment hcode (ih (absurd rfl) hscan)
      | some found =>
        obtain ⟨offset, code, asm⟩ := found
        simp only [scanLine, hcode] at hline
        cases asm with
        | none =>
          rw [scanCode] at hline
          split at hline
          · cases hline
          · next hexpected =>
            cases hline
            exact .start hcode (not_any_expected hexpected) (ih (fun _ => rfl) hscan)
        | some asm =>
          rw [scanCode] at hline
          split at hline
          · cases hline
          · next hexpected =>
            obtain ⟨⟨inst, args, comment⟩, hasm, heq⟩ := Option.map_eq_some_iff.mp hline
            cases heq
            exact .whole hcode (not_any_expected hexpected) hasm (ih (absurd rfl) hscan)
    | some pending =>
      obtain ⟨offset, code⟩ := pending
      -- While an instruction is incomplete no offset is expected.
      obtain rfl : expected = none := hinv (by simp)
      obtain ⟨⟨bytes, asm⟩, hcode, hline⟩ := Option.bind_eq_some_iff.mp hline
      cases asm with
      | none =>
        replace hline : scanCode none offset (code ++ bytes) none = some (s', first) := hline
        rw [scanCode, if_neg (by simp)] at hline
        cases hline
        exact .continued hcode (ih (fun _ => rfl) hscan)
      | some asm =>
        replace hline : scanCode none offset (code ++ bytes) (some asm) = some (s', first) := hline
        rw [scanCode, if_neg (by simp)] at hline
        obtain ⟨⟨inst, args, comment⟩, hasm, heq⟩ := Option.map_eq_some_iff.mp hline
        cases heq
        exact .ended hcode hasm (ih (absurd rfl) hscan)

/-- The code lines are those of the listing. -/
theorem Reads.codeLines_eq {pending : Option (Line × List Line)} {expected : Option Nat} {lines : List Line}
    {items : List Item} (h : Reads pending expected lines items) : items.filterMap Item.code? =
      codeLines pending lines := by
  induction h with
  | nil => rfl
  | comment hcode _ ih =>
    rw [codeLines, hcode]
    exact ih
  | start hcode _ _ ih => rw [codeLines, hcode, ih]
  | whole hcode _ _ _ ih =>
    rw [codeLines, hcode]
    exact congrArg _ ih
  | continued hcode _ ih => rw [codeLines, hcode, ih]
  | ended hcode _ _ ih =>
    rw [codeLines, hcode]
    exact congrArg _ ih

/-- The first code line is at the offset that is expected, or has been begun already. -/
theorem Reads.first {pending : Option (Line × List Line)} {expected : Option Nat} {lines : List Line}
    {items : List Item} (h : Reads pending expected lines items) : ∀ first ∈ (items.filterMap Item.code?).head?,
      (∀ n ∈ expected, n = hexValue first.1) ∧ ∀ p ∈ pending, p.1 = first.1 := by
  induction h with
  | nil => exact nofun
  | comment _ _ ih => exact ih
  | start _ hexpected _ ih =>
    intro first hfirst
    refine ⟨fun n hn => ?_, nofun⟩
    exact (hexpected n hn).trans (congrArg hexValue ((ih first hfirst).2 _ rfl))
  | whole _ hexpected _ _ _ =>
    intro first hfirst
    cases hfirst
    exact ⟨hexpected, nofun⟩
  | continued _ _ ih =>
    intro first hfirst
    refine ⟨nofun, fun p hp => ?_⟩
    cases hp
    have hbegun := (ih first hfirst).2 _ rfl
    exact hbegun
  | ended _ _ _ _ =>
    intro first hfirst
    cases hfirst
    exact ⟨nofun, fun p hp => by cases hp; rfl⟩

/-- Each code line is at the offset where the one before it ends. -/
theorem Reads.chain {pending : Option (Line × List Line)} {expected : Option Nat} {lines : List Line}
    {items : List Item} (h : Reads pending expected lines items) :
    (items.filterMap Item.code?).IsChain fun a b => hexValue b.1 = hexValue a.1 + a.2.length := by
  induction h with
  | nil => exact .nil
  | comment _ _ ih => exact ih
  | start _ _ _ ih => exact ih
  | whole _ _ _ hrest ih => exact List.isChain_cons.mpr ⟨fun b hb => ((hrest.first b hb).1 _ rfl).symm, ih⟩
  | continued _ _ ih => exact ih
  | ended _ _ hrest ih => exact List.isChain_cons.mpr ⟨fun b hb => ((hrest.first b hb).1 _ rfl).symm, ih⟩

/-- Items of lines are well-formed. -/
theorem Reads.fine {pending : Option (Line × List Line)} {expected : Option Nat} {lines : List Line}
    {items : List Item} (h : Reads pending expected lines items) (hlines : ∀ line ∈ lines, '\n' ∉ line)
    (hpending : ∀ p ∈ pending, p.2 ≠ [] ∧ (∀ b ∈ p.2, IsByte b) ∧ '\n' ∉ p.1) : ∀ x ∈ items, x.Fine := by
  induction h with
  | nil => exact nofun
  | comment _ _ ih =>
    obtain ⟨hline, hlines⟩ := List.forall_mem_cons.mp hlines
    exact List.forall_mem_cons.mpr ⟨hline, ih hlines hpending⟩
  | start hcode _ _ ih =>
    obtain ⟨hline, hlines⟩ := List.forall_mem_cons.mp hlines
    obtain ⟨hne, hall, hoffset, -⟩ := codeLine_spec hcode
    exact ih hlines fun p hp => by cases hp; exact ⟨hne, hall, fun hm => hline (hoffset.subset hm)⟩
  | whole hcode _ hasm _ ih =>
    obtain ⟨hline, hlines⟩ := List.forall_mem_cons.mp hlines
    obtain ⟨hne, hall, hoffset, hsuffix⟩ := codeLine_spec hcode
    obtain ⟨hinst, hcomment, hi, ha, hc⟩ := asmCodeAndComment_spec hasm
    have hasm := mem_of_suffix (hsuffix _ rfl) hline
    refine List.forall_mem_cons.mpr ⟨⟨hne, hall, hinst, hcomment, fun hm => hline (hoffset.subset hm), ?_⟩,
      ih hlines nofun⟩
    exact ⟨fun hm => hasm (hi _ hm), fun hm => hasm (ha _ hm), fun hm => hasm (hc _ hm)⟩
  | continued hcode _ ih =>
    obtain ⟨hline, hlines⟩ := List.forall_mem_cons.mp hlines
    obtain ⟨hne, hall, -⟩ := codePlusAsm_spec hcode
    obtain ⟨hpne, hpall, hpoffset⟩ := hpending _ rfl
    refine ih hlines fun p hp => ?_
    cases hp
    exact ⟨List.append_ne_nil_of_left_ne_nil hpne _, List.forall_mem_append.mpr ⟨hpall, hall⟩, hpoffset⟩
  | ended hcode hasm _ ih =>
    obtain ⟨hline, hlines⟩ := List.forall_mem_cons.mp hlines
    obtain ⟨hne, hall, hsuffix⟩ := codePlusAsm_spec hcode
    obtain ⟨hpne, hpall, hpoffset⟩ := hpending _ rfl
    obtain ⟨hinst, hcomment, hi, ha, hc⟩ := asmCodeAndComment_spec hasm
    have hasm := mem_of_suffix (hsuffix _ rfl) hline
    refine List.forall_mem_cons.mpr
      ⟨⟨List.append_ne_nil_of_left_ne_nil hpne _, List.forall_mem_append.mpr ⟨hpall, hall⟩,
      hinst, hcomment, hpoffset, ?_⟩, ih hlines nofun⟩
    exact ⟨fun hm => hasm (hi _ hm), fun hm => hasm (ha _ hm), fun hm => hasm (hc _ hm)⟩

/-! ## Splices -/

/-- Partial code becomes an item of its own. -/
theorem Reads.begun {pending : Option (Line × List Line)} {expected : Option Nat} {lines : List Line}
    {items : List Item} (h : Reads pending expected lines items) (hpending : pending.isSome) :
    ∃ x more, items = x :: more ∧ x.IsCode := by
  induction h with
  | nil => cases hpending
  | comment => cases hpending
  | start => cases hpending
  | whole => cases hpending
  | continued _ _ ih => exact ih rfl
  | ended => exact ⟨_, _, rfl, rfl⟩

/-- After a line on which no code is pending. -/
theorem spliced_new (printedBackslash : Bool) (line : Line) (lines : List Line) :
    Spliced printedBackslash false (line :: lines) ↔ (printedBackslash ∧ (codeLine line).isSome) ∨
      Spliced (lineEnd ((codeLine line).map (·.2.2)) line).1 (lineEnd ((codeLine line).map (·.2.2)) line).2 lines := by
  rw [Spliced]
  simp

theorem spliced_pending (printedBackslash : Bool) (line : Line) (lines : List Line) :
    Spliced printedBackslash true (line :: lines) ↔
      Spliced (lineEnd ((codePlusAsm line).map (·.2)) line).1
        (lineEnd ((codePlusAsm line).map (·.2)) line).2 lines := by
  rw [Spliced]
  simp

theorem lineEnd_whole {asm inst args : Line} {comment : Option Line}
    (h : asmCodeAndComment asm = some (inst, args, comment))
    (line offset : Line) (code : List Line) :
    lineEnd (some (some asm)) line = (decide (Item.code offset code inst args comment).Continued, false) := by
  rw [lineEnd, h]
  rfl

/-- A line is printed with a backslash before code in the listing exactly where this is so among the items. -/
theorem Reads.spliced {pending : Option (Line × List Line)} {expected : Option Nat} {lines : List Line}
    {items : List Item} (h : Reads pending expected lines items) (printedBackslash : Bool) :
    Spliced printedBackslash pending.isSome lines ↔ SplicedItems (printedBackslash && pending.isNone) items := by
  induction h generalizing printedBackslash with
  | nil => exact Iff.rfl
  | @comment _ line _ _ hcode hrest ih =>
    have hcomment : ¬ (Item.comment line).IsCode := Bool.false_ne_true
    have hnext := ih (decide (Continued line))
    rw [Option.isNone_none, Bool.and_true] at hnext ⊢
    rw [Option.isSome_none, spliced_new, hcode, SplicedItems]
    exact or_congr (iff_of_false (fun h => Bool.false_ne_true h.2) (fun h => hcomment h.2)) hnext
  | start hcode _ hrest ih =>
    obtain ⟨x, more, rfl, hx⟩ := hrest.begun rfl
    rw [Option.isNone_none, Bool.and_true, Option.isSome_none, spliced_new, hcode, SplicedItems]
    have hnext : Spliced false true _ ↔ SplicedItems false (x :: more) := ih false
    rw [SplicedItems] at hnext
    exact or_congr (and_congr_right fun _ => iff_of_true rfl hx)
      (hnext.trans ⟨fun h => h.resolve_left fun h => Bool.false_ne_true h.1, .inr⟩)
  | @whole _ _ offset code _ inst args comment _ _ hcode _ hasm hrest ih =>
    rw [Option.isNone_none, Bool.and_true, Option.isSome_none, spliced_new, hcode, SplicedItems, Option.map_some,
      lineEnd_whole hasm _ offset code]
    refine or_congr (and_congr_right fun _ => iff_of_true rfl rfl) ?_
    have hnext := ih (decide (Item.code offset code inst args comment).Continued)
    rwa [Option.isNone_none, Bool.and_true] at hnext
  | continued hcode hrest ih =>
    rw [Option.isSome_some, spliced_pending, hcode, Option.isNone_some, Bool.and_false]
    exact ih false
  | @ended _ offset code bytes _ inst args comment _ _ hcode hasm hrest ih =>
    rw [Option.isSome_some, spliced_pending, hcode, Option.isNone_some, Bool.and_false, SplicedItems, Option.map_some,
      lineEnd_whole hasm _ offset (code ++ bytes)]
    have hnext := ih (decide (Item.code offset (code ++ bytes) inst args comment).Continued)
    rw [Option.isNone_none, Bool.and_true] at hnext
    exact hnext.trans ⟨.inr, fun h => h.resolve_left fun h => Bool.false_ne_true h.1⟩

theorem splicedItems_append (items : List Item) (text : Line) : ∀ printedBackslash,
    SplicedItems printedBackslash (items ++ [.comment text]) ↔ SplicedItems printedBackslash items := by
  induction items with
  | nil =>
    intro printedBackslash
    exact iff_of_false (by simp [SplicedItems, Item.IsCode, Item.code?]) id
  | cons x items ih =>
    intro printedBackslash
    rw [List.cons_append, SplicedItems, SplicedItems, ih]

/-! ## Lines of a listing -/

theorem not_mem_splitOn (listing : List Char) : ∀ line ∈ listing.splitOn '\n', '\n' ∉ line := by
  induction listing with
  | nil => simp [List.splitOn_eq_singleton]
  | cons c listing ih =>
    rw [List.splitOn_cons_eq_if_modifyHead]
    split
    · simpa using ih
    · next hc =>
      obtain ⟨first, others, hsplit⟩ := List.exists_cons_of_ne_nil (List.splitOn_ne_nil '\n' listing)
      rw [hsplit] at ih ⊢
      simp only [List.modifyHead_cons, List.forall_mem_cons] at ih ⊢
      refine ⟨fun hmem => ?_, ih.2⟩
      rcases List.mem_cons.1 hmem with heq | hin
      · exact hc (by simp [← heq])
      · exact ih.1 hin

theorem stripTrailingNewline_line {line : Line} (h : '\n' ∉ line) : stripTrailingNewline (line ++ ['\n']) = line ∧
    stripTrailingNewline line = line := by
  have hlast : line.getLast? ≠ some '\n' := fun hl => h (List.mem_of_getLast? hl)
  simp [stripTrailingNewline, hlast]

theorem listingLines_free (listing : List Char) : ∀ line ∈ listingLines listing, '\n' ∉ line := by
  intro line hline
  obtain ⟨raw, hraw, rfl⟩ := List.mem_map.mp hline
  have hsplit := not_mem_splitOn listing
  rcases List.mem_append.mp hraw with hmem | hmem
  · obtain ⟨part, hpart, rfl⟩ := List.mem_map.mp hmem
    have hfree := hsplit part (List.mem_of_mem_dropLast hpart)
    rwa [(stripTrailingNewline_line hfree).1]
  · cases hlast : (listing.splitOn '\n').getLast? with
    | none => simp [hlast] at hmem
    | some last =>
      have hfree := hsplit last (List.mem_of_getLast? hlast)
      rw [hlast] at hmem
      cases last with
      | nil => exact absurd hmem List.not_mem_nil
      | cons c last =>
        obtain rfl := List.mem_singleton.mp hmem
        rwa [(stripTrailingNewline_line hfree).2]

/-! ## The procedure -/

section Patterns
variable {procStart procEnd : Pattern}

theorem first_unique {before before' rest rest' : List Line} {line line' : Line}
    (hbefore : ∀ line ∈ before, Other procStart procEnd line)
    (hbefore' : ∀ line ∈ before', Other procStart procEnd line)
    (hline : ¬ Other procStart procEnd line) (hline' : ¬ Other procStart procEnd line')
    (h : before ++ line :: rest = before' ++ line' :: rest') : line = line' ∧ before = before' ∧ rest = rest' := by
  induction before generalizing before' with
  | nil =>
    cases before' with
    | nil => cases h; exact ⟨rfl, rfl, rfl⟩
    | cons x before' =>
      cases h
      exact absurd (hbefore' _ List.mem_cons_self) hline
  | cons x before ih =>
    cases before' with
    | nil =>
      cases h
      exact absurd (hbefore _ List.mem_cons_self) hline'
    | cons x' before' =>
      rw [List.cons_append, List.cons_append, List.cons.injEq] at h
      obtain ⟨rfl, h⟩ := h
      obtain ⟨hsame, rfl, hrest⟩ := ih (List.forall_mem_cons.mp hbefore).2 (List.forall_mem_cons.mp hbefore').2 h
      exact ⟨hsame, rfl, hrest⟩

/-- There is one procedure in a listing. -/
theorem Between.unique {lines body body' : List Line} (h : Between procStart procEnd lines body)
    (h' : Between procStart procEnd lines body') : body = body' := by
  obtain ⟨before, proc, endp, after, hlines, hothers, hproc, -, hendp⟩ := h
  obtain ⟨before', proc', endp', after', hlines', hothers', hproc', -, hendp'⟩ := h'
  have hnot : ∀ {line}, (procStart.find line).isSome → ¬ Other procStart procEnd line := fun h hother => by
    rw [hother.1] at h
    exact Bool.false_ne_true h
  have hnotEnd : ∀ {line}, (procEnd.find line).isSome → ¬ Other procStart procEnd line := fun h hother => by
    rw [hother.2] at h
    exact Bool.false_ne_true h
  simp only [List.mem_append] at hothers hothers'
  obtain ⟨-, -, hrest⟩ :=
    first_unique (fun l hl => hothers l (.inl (.inl hl))) (fun l hl => hothers' l (.inl (.inl hl)))
    (hnot hproc) (hnot hproc') (hlines.symm.trans hlines')
  exact (first_unique (fun l hl => hothers l (.inl (.inr hl))) (fun l hl => hothers' l (.inl (.inr hl)))
    (hnotEnd hendp) (hnotEnd hendp') hrest).2.1

theorem Converted.between {lines body : List Line} {text : Line} {items : List Item} {endText : Line}
    (h : Converted procStart procEnd lines body text items endText) : Between procStart procEnd lines body := by
  obtain ⟨before, proc, groups, rest, endp, endGroups, after, hbegun, -, hclosed, -, hafter, -⟩ := h
  refine ⟨before, proc, endp, after, by rw [hbegun.split, hclosed.split], ?_, ?_, hclosed.start, ?_⟩
  · exact List.forall_mem_append.mpr ⟨List.forall_mem_append.mpr ⟨hbegun.before, hclosed.others⟩, hafter⟩
  · rw [hbegun.proc]; rfl
  · rw [hclosed.endp]; rfl

theorem Converted.reads {lines body : List Line} {text : Line} {items : List Item} {endText : Line}
    (h : Converted procStart procEnd lines body text items endText) : Reads none none body items := by
  obtain ⟨before, proc, groups, rest, endp, endGroups, after, -, -, hclosed, -⟩ := h
  obtain ⟨expected, hscan⟩ := hclosed.items
  exact reads_of_scan body (s := {}) (absurd rfl) hscan

/-- The text of a line is made of parts of it. -/
theorem joined_free {p : Pattern} {line text : Line} {groups : Groups} (hfind : p.find line = some groups)
    (hjoined : AsmParser.joined groups = .ok text) (hline : '\n' ∉ line) : '\n' ∉ text := by
  rw [AsmParser.joined] at hjoined
  split at hjoined
  · next first third hfirst hthird =>
    cases hjoined
    rw [List.mem_append, not_or]
    exact ⟨fun hm => hline ((p.part hfind hfirst).subset hm), fun hm => hline ((p.part hfind hthird).subset hm)⟩
  · cases hjoined

theorem Converted.fine {lines body : List Line} {text : Line} {items : List Item} {endText : Line}
    (h : Converted procStart procEnd lines body text items endText) (hlines : ∀ line ∈ lines, '\n' ∉ line) :
    ∀ x ∈ .comment text :: items ++ [.comment endText], x.Fine := by
  have hreads := h.reads
  obtain ⟨before, proc, groups, rest, endp, endGroups, after, hbegun, htext, hclosed, hendText, -⟩ := h
  have hsplit : lines = before ++ proc :: (body ++ endp :: after) := by rw [hbegun.split, hclosed.split]
  subst hsplit
  have hitems := hreads.fine (fun line hl => hlines line (by simp [hl])) nofun
  refine List.forall_mem_cons.mpr ⟨joined_free hbegun.proc htext (hlines proc (by simp)), ?_⟩
  refine List.forall_mem_append.mpr ⟨hitems, List.forall_mem_singleton.mpr ?_⟩
  exact joined_free hclosed.endp hendText (hlines endp (by simp))

theorem bytes_eq (items : List Item) :
    items.flatMap Item.bytes = ((items.filterMap Item.code?).flatMap Prod.snd).map hexByte := by
  induction items with
  | nil => rfl
  | cons x items ih =>
    cases x with
    | comment => exact ih
    | code => simp [Item.code?, Item.bytes, ih]

/-- What is printed of a converted procedure are its bytes exactly where none is swallowed by a comment. -/
theorem Converted.extracted {lines body : List Line} {text : Line} {items : List Item} {endText : Line}
    (h : Converted procStart procEnd lines body text items endText) (hlines : ∀ line ∈ lines, '\n' ∉ line) :
    ∃ output, printTo (.comment text :: items ++ [.comment endText]) = .ok output ∧
      (Extracted body output ↔ ¬ Spliced (decide (Continued text)) false body) := by
  have hfine := h.fine hlines
  obtain ⟨output, hprint, htokens⟩ := printTo_tokens hfine
  refine ⟨output, hprint, ?_⟩
  have hspliced : SplicedItems false (.comment text :: items ++ [.comment endText]) ↔
      Spliced (decide (Continued text)) false body := by
    have hreads := h.reads.spliced (decide (Continued text))
    rw [Option.isNone_none, Bool.and_true, Option.isSome_none] at hreads
    rw [hreads, List.cons_append, SplicedItems, splicedItems_append]
    exact or_iff_right fun h => Bool.false_ne_true h.1
  have hbytes : (Item.comment text :: items ++ [Item.comment endText]).flatMap Item.bytes =
      ((codeLines none body).flatMap Prod.snd).map hexByte := by
    rw [← h.reads.codeLines_eq, ← bytes_eq]
    simp [Item.bytes]
  rw [← hspliced, ← printedTokens_iff hfine, hbytes, ← htokens]
  refine ⟨fun hextracted => hextracted.tokens, fun htokens => ⟨htokens, ?_⟩⟩
  rw [← h.reads.codeLines_eq]
  exact h.reads.chain

end Patterns

theorem convertToCArray_eq {compile : String → Option Pattern} {procName : String} {procStart procEnd : Pattern}
    (hstart : compile (procPattern "PROC" procName) = some procStart)
    (hend : compile (procPattern "ENDP" procName) = some procEnd) (listing : List Char) :
    convertToCArray compile procName listing =
      ((listingLines listing).foldlM (AsmParser.processInput procStart procEnd) {} >>=
        AsmParser.finalResult) >>= printTo := by
  rw [convertToCArray, parseAsmCode, hstart, hend]
  rfl

theorem convertToCArray_uncompiled {compile : String → Option Pattern} {procName : String}
    (h : ¬ ∃ procStart procEnd, compile (procPattern "PROC" procName) = some procStart ∧
      compile (procPattern "ENDP" procName) = some procEnd) (listing : List Char) :
    convertToCArray compile procName listing = .error .reError := by
  rw [convertToCArray, parseAsmCode]
  split
  · next procStart procEnd hstart hend => exact absurd ⟨procStart, procEnd, hstart, hend⟩ h
  · rfl

/-- A line before code that is printed with a backslash at its end makes bytes be lost. -/
theorem not_extracts {compile : String → Option Pattern} {procName : String} {procStart procEnd : Pattern}
    {listing : List Char} {body : List Line} {text : Line} {items : List Item} {endText : Line}
    (hstart : compile (procPattern "PROC" procName) = some procStart)
    (hend : compile (procPattern "ENDP" procName) = some procEnd)
    (hconverted : Converted procStart procEnd (listingLines listing) body text items endText)
    (hspliced : Spliced (decide (Continued text)) false body) : ¬ Extracts compile procName listing := by
  intro h
  obtain ⟨output, hprint, hextracted⟩ := hconverted.extracted (listingLines_free listing)
  rw [Extracts, convertToCArray_eq hstart hend, AsmParser.parse_converted hconverted, ok_bind, hprint] at h
  obtain ⟨_, _, body', hstart', hend', hbetween, hbody⟩ := h
  cases hstart.symm.trans hstart'
  cases hend.symm.trans hend'
  cases hconverted.between.unique hbetween
  exact hextracted.mp hbody hspliced

/-- The bytes of the procedure come out, or a parser error, exactly where the name makes expressions whose groups are
set and no line before code is printed with a backslash at its end. -/
theorem extracts_iff (compile : String → Option Pattern) (procName : String) (listing : List Char) :
    Extracts compile procName listing ↔ Convertible compile procName listing := by
  by_cases hcompiles : ∃ procStart procEnd, compile (procPattern "PROC" procName) = some procStart ∧
      compile (procPattern "ENDP" procName) = some procEnd
  · obtain ⟨procStart, procEnd, hstart, hend⟩ := hcompiles
    have heq := convertToCArray_eq hstart hend listing
    constructor
    · intro h
      rw [Extracts, heq] at h
      refine ⟨⟨procStart, procEnd, hstart, hend⟩, ?_, ?_⟩
      · rintro _ _ hstart' hend' hunset
        cases hstart.symm.trans hstart'
        cases hend.symm.trans hend'
        rw [AsmParser.parse_unset hunset] at h
        obtain ⟨_, _, h⟩ := h
        cases h
      · rintro _ _ body text items endText hstart' hend' hconverted hspliced
        exact not_extracts hstart' hend' hconverted hspliced (by rwa [Extracts, heq])
    · intro h
      rw [Extracts, heq]
      have houtcome := @AsmParser.parse_outcome procStart procEnd (listingLines listing)
      generalize hparse : (listingLines listing).foldlM (AsmParser.processInput procStart procEnd) {} >>=
        AsmParser.finalResult = result at houtcome
      cases houtcome with
      | parserError msg lineNumber => exact ⟨msg, lineNumber, rfl⟩
      | unset hunset => exact absurd hunset (h.set procStart procEnd hstart hend)
      | ok hconverted =>
        obtain ⟨output, hprint, hextracted⟩ := hconverted.extracted (listingLines_free listing)
        rw [ok_bind, hprint]
        exact ⟨procStart, procEnd, _, hstart, hend, hconverted.between,
          hextracted.mpr (h.unspliced procStart procEnd _ _ _ _ hstart hend hconverted)⟩
  · refine iff_of_false (fun h => ?_) fun h => hcompiles h.compiles
    rw [Extracts, convertToCArray_uncompiled hcompiles] at h
    obtain ⟨_, _, h⟩ := h
    cases h

/-- The line that starts or ends a procedure without decorations. -/
def nameLine (what name : Line) : Line := name ++ ' ' :: what ++ '\t' :: ';' :: ' ' :: name

def nameGroups (what name : Line) : Groups
  | 1 => some (name ++ ' ' :: what)
  | 2 => some name
  | 3 => some (';' :: ' ' :: name)
  | _ => none

/-- What the expression finds where no other name contains this one. -/
def namePattern (what name : Line) : Pattern where
  find line := if line = nameLine what name then some (nameGroups what name) else none
  part := by
    intro line groups n text hfind hgroup
    split at hfind
    · next h =>
      cases hfind
      subst h
      rw [nameGroups.eq_def] at hgroup
      split at hgroup <;> cases hgroup
      · exact (List.prefix_append _ _).isInfix
      · exact ⟨[], ' ' :: what ++ '\t' :: ';' :: ' ' :: name, by simp [nameLine]⟩
      · exact ⟨name ++ ' ' :: what ++ ['\t'], [], by simp [nameLine]⟩
    · cases hfind

theorem namePattern_find (what name : Line) :
    (namePattern what name).find (nameLine what name) = some (nameGroups what name) :=
  if_pos rfl

theorem namePattern_other {what name line : Line} (h : line ≠ nameLine what name) :
    (namePattern what name).find line = none :=
  if_neg h

/-- The text of the line in the output. -/
def nameText (what name : Line) : Line := name ++ ' ' :: what ++ ';' :: ' ' :: name

theorem nameGroups_joined (what name : Line) : AsmParser.joined (nameGroups what name) = .ok (nameText what name) := rfl

def compileName (procName expression : String) : Option Pattern :=
  if expression = procPattern "PROC" procName then some (namePattern "PROC".toList procName.toList)
  else if expression = procPattern "ENDP" procName then some (namePattern "ENDP".toList procName.toList) else none

/-- A source line that ends in a backslash: the byte of the line after it is in a comment of the output. -/
theorem byte_swallowed : ¬ Extracts (compileName "f") "f"
    "f PROC\t; f\n; 1 : #define X \\\n  00000\tc3\t\t ret\t 0\nf ENDP\t; f\n".toList := by
  have hends : procPattern "ENDP" "f" ≠ procPattern "PROC" "f" := by decide
  have hlines : listingLines
      "f PROC\t; f\n; 1 : #define X \\\n  00000\tc3\t\t ret\t 0\nf ENDP\t; f\n".toList =
      nameLine "PROC".toList "f".toList ::
        (["; 1 : #define X \\".toList, "  00000\tc3\t\t ret\t 0".toList] ++ [nameLine "ENDP".toList "f".toList]) := by
    decide +kernel
  have hscan : scan {} ["; 1 : #define X \\".toList, "  00000\tc3\t\t ret\t 0".toList] = some (⟨none, some 1⟩,
      [.comment "; 1 : #define X \\".toList, .code "00000".toList ["c3".toList] "ret".toList "0".toList none]) := by
    decide +kernel
  have hothers : ∀ line ∈ ["; 1 : #define X \\".toList, "  00000\tc3\t\t ret\t 0".toList],
      Other (namePattern "PROC".toList "f".toList) (namePattern "ENDP".toList "f".toList) line := by
    intro line hline
    have hnot : line ≠ nameLine "PROC".toList "f".toList ∧ line ≠ nameLine "ENDP".toList "f".toList := by
      revert line
      decide +kernel
    exact ⟨namePattern_other hnot.1, namePattern_other hnot.2⟩
  have hendp : nameLine "ENDP".toList "f".toList ≠ nameLine "PROC".toList "f".toList := by decide +kernel
  have hconverted : Converted (namePattern "PROC".toList "f".toList) (namePattern "ENDP".toList "f".toList)
      (listingLines "f PROC\t; f\n; 1 : #define X \\\n  00000\tc3\t\t ret\t 0\nf ENDP\t; f\n".toList)
      ["; 1 : #define X \\".toList, "  00000\tc3\t\t ret\t 0".toList] (nameText "PROC".toList "f".toList)
      [.comment "; 1 : #define X \\".toList, .code "00000".toList ["c3".toList] "ret".toList "0".toList none]
      (nameText "ENDP".toList "f".toList) := by
    rw [hlines]
    exact ⟨[], _, _, _, _, _, [], ⟨rfl, nofun, namePattern_find _ _⟩, nameGroups_joined _ _,
      ⟨rfl, hothers, ⟨_, hscan⟩, namePattern_other hendp, namePattern_find _ _, rfl⟩, nameGroups_joined _ _, nofun, rfl⟩
  have hsource : lineEnd ((codeLine "; 1 : #define X \\".toList).map (·.2.2)) "; 1 : #define X \\".toList =
      (true, false) := by
    decide +kernel
  have hcode : (codeLine "  00000\tc3\t\t ret\t 0".toList).isSome := by decide +kernel
  refine not_extracts (if_pos rfl) ((if_neg hends).trans (if_pos rfl)) hconverted ?_
  rw [spliced_new, hsource, spliced_new]
  exact .inr (.inl ⟨rfl, hcode⟩)

end BuildPal.AsmToInc
