import Mathlib.Data.List.Basic
import Mathlib.Data.List.TakeWhile
import Mathlib.Tactic.Common
/-!
# The parser of assembler listings

`_AsmParser` of `asm_to_inc.py`. The name of the procedure is a part of two
regular expressions, so `re.compile` is a parameter of what depends on them. The
other expressions are fixed, and what they match is written out.
-/

namespace BuildPal.AsmToInc

abbrev Line := List Char

inductive Raised where
  | parserError (msg : String) (lineNumber : Nat)
  | assertionError
  | typeError
  /-- `re.error` -/
  | reError
  deriving DecidableEq, Repr

/-! ## Expressions -/

/-- The groups of a match by their numbers. One that takes no part in the match is `None`. -/
abbrev Groups := Nat → Option Line

/-- A compiled expression, matched at the start of a line. A group is a part of it. -/
structure Pattern where
  find : Line → Option Groups
  part : ∀ {line groups n text}, find line = some groups → groups n = some text → text <:+: line

/-- What `\S` does not match. -/
def isSpace (c : Char) : Bool :=
  c.toNat ∈ [0x20, 0x85, 0xA0, 0x1680, 0x2028, 0x2029, 0x202F, 0x205F, 0x3000] ∨
    (9 ≤ c.toNat ∧ c.toNat ≤ 13) ∨ (28 ≤ c.toNat ∧ c.toNat ≤ 31) ∨ (0x2000 ≤ c.toNat ∧ c.toNat ≤ 0x200A)

def isHex (c : Char) : Bool :=
  ('0' ≤ c ∧ c ≤ '9') ∨ ('a' ≤ c ∧ c ≤ 'f') ∨ ('A' ≤ c ∧ c ≤ 'F')

def hexDigit (c : Char) : Nat :=
  if c ≤ '9' then c.toNat - '0'.toNat else if c ≤ 'F' then c.toNat - 'A'.toNat + 10 else c.toNat - 'a'.toNat + 10

/-- `int(offset, 16)` -/
def hexValue (offset : Line) : Nat := offset.foldl (fun n c => 16 * n + hexDigit c) 0

/-- `([0-9a-fA-F]{2}(?: [0-9a-fA-F]{2})*)`, as its bytes, with what is after it. -/
def codeBytes : Line → Option (List Line × Line)
  | h :: l :: rest =>
    if isHex h ∧ isHex l then
      match rest with
      | ' ' :: more =>
        match codeBytes more with
        | some (bytes, rest) => some ([h, l] :: bytes, rest)
        | none => some ([[h, l]], rest)
      | rest => some ([[h, l]], rest)
    else none
  | _ => none

/-- `\t+ ?(.*)` after the bytes. -/
def asmPart (rest : Line) : Line :=
  match rest.dropWhile (· = '\t') with
  | ' ' :: asm => asm
  | asm => asm

/-- `__rs_code_plus_asm`: the bytes, and the assembler code where there is any. -/
def codePlusAsm : Line → Option (List Line × Option Line)
  | '\t' :: rest =>
    match codeBytes rest with
    | some (bytes, []) => some (bytes, none)
    | some (bytes, '\t' :: rest) => some (bytes, some (asmPart rest))
    | _ => none
  | _ => none

/-- `__rs_code_line` -/
def codeLine : Line → Option (Line × List Line × Option Line)
  | ' ' :: ' ' :: rest =>
    let offset := rest.takeWhile isHex
    if offset = [] then none else (codePlusAsm (rest.dropWhile isHex)).map fun (bytes, asm) => (offset, bytes, asm)
  | _ => none

/-- The arguments and the comment. A comment after tabs starts there, and one without them at the last semicolon, but
only where tabs follow. -/
def argsAndComment (rest : Line) : Option (Line × Option Line) :=
  let args := rest.takeWhile (· ≠ '\t')
  let after := rest.dropWhile (· ≠ '\t')
  if after = [] then some (args, none)
  else
    match after.dropWhile (· = '\t') with
    | ';' :: comment => some (args, some (';' :: comment))
    | _ =>
      if ';' ∈ args then
        let comment := ';' :: (args.reverse.takeWhile (· ≠ ';')).reverse
        some (args.take (args.length - comment.length), some (comment ++ after))
      else none

/-- `__rs_asm_code_and_comment`: the instruction, its arguments and the comment. -/
def asmCodeAndComment (data : Line) : Option (Line × Line × Option Line) :=
  let inst := data.takeWhile fun c => !isSpace c
  if inst = [] then none
  else
    match (data.dropWhile fun c => !isSpace c).dropWhile (· = '\t') with
    | ' ' :: rest => (argsAndComment rest).map fun (args, comment) => (inst, args, comment)
    | _ => none

/-! ## The parser -/

/-- What a printed line is made from. -/
inductive Item where
  | comment (text : Line)
  | code (offset : Line) (code : List Line) (asmInst asmArgs : Line) (asmComment : Option Line)
  deriving DecidableEq, Repr

/-- `STATE_…`. In the other states nothing is processed any more. -/
inductive State where
  | notCollecting
  | collecting
  | collected
  deriving DecidableEq, Repr

structure AsmParser where
  lineNumber : Nat := 0
  result : List Item := []
  /-- The offset and the bytes of a code line that is not complete. -/
  partialCode : Option (Line × List Line) := none
  hasCode : Bool := false
  expectedOffsetValue : Option Nat := none
  startedProcDecoratedName : Option Line := none
  state : State := .notCollecting
  deriving DecidableEq, Repr

@[simp] theorem ok_bind {α β : Type} (a : α) (f : α → Except Raised β) : (Except.ok a >>= f) = f a := rfl

@[simp] theorem error_bind {α β : Type} (e : Raised) (f : α → Except Raised β) :
    ((Except.error e : Except Raised α) >>= f) = .error e := rfl

theorem ok_map {α β : Type} (f : α → β) (a : α) : (Except.ok a : Except Raised α).map f = .ok (f a) := rfl

@[simp] theorem pure_eq {α : Type} (a : α) : (pure a : Except Raised α) = .ok a := rfl

namespace AsmParser

def parserError {α : Type} (p : AsmParser) (message : String) :
    Except Raised α := .error (.parserError message p.lineNumber)

def checkOffset (p : AsmParser) (offsetValue : Nat) : Except Raised AsmParser :=
  match p.expectedOffsetValue with
  | none => .ok p
  | some expected =>
    if expected ≠ offsetValue then p.parserError "bad code offset" else .ok { p with expectedOffsetValue := none }

/-- `__parse_code_line`: `none` for a comment line, and no assembler code for a partial one. -/
def parseCodeLine (p : AsmParser) (line : Line) :
    Except Raised (Option (Line × List Line × Option (Line × Line × Option Line))) := do
  let parsed ← match p.partialCode with
    | some (offset, binaryCode) =>
      match codePlusAsm line with
      | none => p.parserError "incomplete code line"
      | some (bytes, asm) => .ok (some (offset, binaryCode ++ bytes, asm))
    | none => .ok (codeLine line)
  match parsed with
  | none => return none
  | some (offset, binaryCode, none) => return some (offset, binaryCode, none)
  | some (offset, binaryCode, some asm) =>
    match asmCodeAndComment asm with
    | none => p.parserError "could not parse code line comment"
    | some asm => return some (offset, binaryCode, some asm)

def processProcedureCodeLine (p : AsmParser) (offset : Line) (code : List Line)
    (asm : Option (Line × Line × Option Line)) :
    Except Raised AsmParser := do
  let offsetValue := hexValue offset
  let p ← p.checkOffset offsetValue
  match asm with
  | none => return { p with partialCode := some (offset, code) }
  | some (inst, args, comment) =>
    return { p with
      hasCode := true
      result := p.result ++ [.code offset code inst args comment]
      expectedOffsetValue := some (offsetValue + code.length) }

def processProcedureCommentLine (p : AsmParser) (line : Line) : AsmParser :=
  { p with result := p.result ++ [.comment line] }

/-- `__process_procedure_line`. The assertions of what it calls hold, as `__parse_code_line` leaves no partial code. -/
def processProcedureLine (p : AsmParser) (line : Line) : Except Raised AsmParser := do
  let parsed ← p.parseCodeLine line
  let p := { p with partialCode := none }
  match parsed with
  | none => return p.processProcedureCommentLine line
  | some (offset, code, asm) => p.processProcedureCodeLine offset code asm

/-- `"".join(match.group(1, 3))` -/
def joined (groups : Groups) : Except Raised Line :=
  match groups 1, groups 3 with
  | some first, some third => .ok (first ++ third)
  | _, _ => .error .typeError

section Patterns
variable (procStart procEnd : Pattern)

/-- `__foundproc_start`, `none` where it does not match. -/
def matchProcStart (p : AsmParser) (data : Line) : Except Raised (Option AsmParser) :=
  match procStart.find data with
  | none => .ok none
  | some groups =>
    if p.state ≠ .notCollecting then p.parserError "multiple procedure start"
    else if p.partialCode ≠ none ∨ p.startedProcDecoratedName ≠ none then .error .assertionError
    else do
      let text ← joined groups
      return some { p with
        state := .collecting
        startedProcDecoratedName := groups 2
        result := p.result ++ [.comment text] }

def matchProcEnd (p : AsmParser) (data : Line) : Except Raised (Option AsmParser) :=
  match procEnd.find data with
  | none => .ok none
  | some groups =>
    if p.state ≠ .collecting then p.parserError "unexpected ENDP"
    else if p.partialCode ≠ none then p.parserError "incomplete code line"
    else if p.startedProcDecoratedName ≠ groups 2 then p.parserError "decorated PROC/ENDP proc name mismatch"
    else do
      let text ← joined groups
      return some { p with state := .collected, result := p.result ++ [.comment text] }

def processInput (p : AsmParser) (line : Line) : Except Raised AsmParser := do
  let p := { p with lineNumber := p.lineNumber + 1 }
  match ← p.matchProcStart procStart line with
  | some p => return p
  | none =>
    match ← p.matchProcEnd procEnd line with
    | some p => return p
    | none => if p.state ≠ .collecting then return p else p.processProcedureLine line

end Patterns

def finalResult (p : AsmParser) : Except Raised (List Item) :=
  if p.state = .notCollecting then p.parserError "missing procedure"
  else if p.state ≠ .collected then p.parserError "procedure incomplete"
  else if !p.hasCode then p.parserError "missing procedure code"
  else .ok p.result

end AsmParser

/-! ## Listings -/

/-- What a stream gives, each line with the newline that ends it. -/
def rawLines (listing : List Char) : List Line :=
  (listing.splitOn '\n').dropLast.map (· ++ ['\n']) ++
    match (listing.splitOn '\n').getLast? with
    | some (c :: line) => [c :: line]
    | _ => []

/-- `__strip_trailing_newline` -/
def stripTrailingNewline (line : Line) : Line := if line.getLast? = some '\n' then line.dropLast else line

/-- The expression for a line that starts or ends the procedure. -/
def procPattern (what procName : String) : String :=
  "((\\S*" ++ procName ++ "\\S*) " ++ what ++ ")\t+(; " ++ procName ++ ")$"

/-- `_parse_asm_code` -/
def parseAsmCode (compile : String → Option Pattern) (procName : String) (listing : List Char) :
    Except Raised (List Item) :=
  match compile (procPattern "PROC" procName), compile (procPattern "ENDP" procName) with
  | some procStart, some procEnd => do
    let p ← ((rawLines listing).map stripTrailingNewline).foldlM (AsmParser.processInput procStart procEnd) {}
    p.finalResult
  | _, _ => .error .reError

/-! ## What the lines of a procedure come to -/

def Item.code? : Item → Option (Line × List Line)
  | .comment _ => none
  | .code offset bytes _ _ _ => some (offset, bytes)

/-- What is known between two lines. -/
structure Scan where
  partialCode : Option (Line × List Line) := none
  expected : Option Nat := none
  deriving DecidableEq, Repr

/-- A code line with the lines it continues, where its offset is the one that is expected. -/
def scanCode (expected : Option Nat) (offset : Line) (code : List Line) : Option Line → Option (Scan × List Item)
  | none =>
    if expected.any (· ≠ hexValue offset) then none else some ({ partialCode := some (offset, code) }, [])
  | some asm =>
    if expected.any (· ≠ hexValue offset) then none
    else (asmCodeAndComment asm).map fun (inst, args, comment) =>
      ({ expected := some (hexValue offset + code.length) }, [.code offset code inst args comment])

def scanLine (s : Scan) (line : Line) : Option (Scan × List Item) :=
  match s.partialCode with
  | some (offset, code) => (codePlusAsm line).bind fun (bytes, asm) => scanCode s.expected offset (code ++ bytes) asm
  | none =>
    match codeLine line with
    | none => some (s, [.comment line])
    | some (offset, code, asm) => scanCode s.expected offset code asm

def scan : Scan → List Line → Option (Scan × List Item)
  | s, [] => some (s, [])
  | s, line :: lines => (scanLine s line).bind fun (s, items) => (scan s lines).map fun (s, more) => (s, items ++ more)

namespace AsmParser

def toScan (p : AsmParser) : Scan := ⟨p.partialCode, p.expectedOffsetValue⟩

/-- The parser after lines that come to this. -/
def scanned (p : AsmParser) (s : Scan) (items : List Item) : AsmParser :=
  { p with
    partialCode := s.partialCode
    expectedOffsetValue := s.expected
    hasCode := p.hasCode || items.any (·.code?.isSome)
    result := p.result ++ items }

/-- The parser goes on as the scan says, or there is a parser error. -/
def Agrees (p : AsmParser) : Option (Scan × List Item) → Except Raised AsmParser → Prop
  | some (s, items), out => out = .ok (p.scanned s items)
  | none, out => ∃ msg n, out = .error (.parserError msg n)

theorem processCode_agrees (p : AsmParser) (offset : Line) (code : List Line) :
    Agrees p (scanCode p.expectedOffsetValue offset code none)
      (({ p with partialCode := none } : AsmParser).processProcedureCodeLine offset code none) := by
  obtain ⟨lineNumber, result, partialCode, hasCode, expected, started, state⟩ := p
  cases expected with
  | none => simp [scanCode, processProcedureCodeLine, checkOffset, Agrees, scanned]
  | some n =>
    by_cases h : n = hexValue offset
    · simp [scanCode, processProcedureCodeLine, checkOffset, Agrees, scanned, h]
    · simp [scanCode, processProcedureCodeLine, checkOffset, Agrees, parserError, h]

theorem processWholeCode_agrees (p : AsmParser) (offset : Line) (code : List Line) {asm : Line}
    {parsed : Line × Line × Option Line} (hasm : asmCodeAndComment asm = some parsed) :
    Agrees p (scanCode p.expectedOffsetValue offset code (some asm))
      (({ p with partialCode := none } : AsmParser).processProcedureCodeLine offset code (some parsed)) := by
  obtain ⟨lineNumber, result, partialCode, hasCode, expected, started, state⟩ := p
  cases expected with
  | none => simp [scanCode, processProcedureCodeLine, checkOffset, Agrees, scanned, hasm, Item.code?]
  | some n =>
    by_cases h : n = hexValue offset
    · simp [scanCode, processProcedureCodeLine, checkOffset, Agrees, scanned, hasm, Item.code?, h]
    · simp [scanCode, processProcedureCodeLine, checkOffset, Agrees, parserError, h]

theorem scanCode_unparsed (expected : Option Nat) (offset : Line) (code : List Line) {asm : Line}
    (hasm : asmCodeAndComment asm = none) : scanCode expected offset code (some asm) = none := by
  simp [scanCode, hasm]

/-- A line either comes to what the scan says, or is a parser error. -/
theorem processProcedureLine_agrees (p : AsmParser) (line : Line) :
    Agrees p (scanLine p.toScan line) (p.processProcedureLine line) := by
  rw [processProcedureLine, parseCodeLine, scanLine, toScan]
  cases hp : p.partialCode with
  | some pending =>
    obtain ⟨offset, binaryCode⟩ := pending
    cases hc : codePlusAsm line with
    | none => exact ⟨_, _, rfl⟩
    | some found =>
      obtain ⟨bytes, asm⟩ := found
      cases asm with
      | none => exact processCode_agrees p offset (binaryCode ++ bytes)
      | some asm =>
        cases hasm : asmCodeAndComment asm with
        | none =>
          simp only [Option.bind_some, scanCode_unparsed _ _ _ hasm]
          exact ⟨"could not parse code line comment", p.lineNumber, by simp [hasm, parserError]⟩
        | some parsed => simpa [hasm] using processWholeCode_agrees p offset (binaryCode ++ bytes) hasm
  | none =>
    cases hc : codeLine line with
    | none =>
      obtain ⟨lineNumber, result, partialCode, hasCode, expected, started, state⟩ := p
      cases hp
      simp [Agrees, scanned, processProcedureCommentLine, Item.code?]
    | some found =>
      obtain ⟨offset, bytes, asm⟩ := found
      cases asm with
      | none => exact processCode_agrees p offset bytes
      | some asm =>
        cases hasm : asmCodeAndComment asm with
        | none =>
          simp only [scanCode_unparsed _ _ _ hasm]
          exact ⟨"could not parse code line comment", p.lineNumber, by simp [hasm, parserError]⟩
        | some parsed => simpa [hasm] using processWholeCode_agrees p offset bytes hasm

end AsmParser

/-! ## Procedures in a listing -/

section Procedures
variable (procStart procEnd : Pattern)

def Other (line : Line) : Prop := procStart.find line = none ∧ procEnd.find line = none

/-- The first line that is one of the procedure's is its PROC line. -/
structure Begun (lines before : List Line) (proc : Line) (groups : Groups) (rest : List Line) : Prop where
  split : lines = before ++ proc :: rest
  before : ∀ line ∈ before, Other procStart procEnd line
  proc : procStart.find proc = some groups

/-- The lines up to the ENDP line are comments and complete code lines, each at the offset where the one before ends. -/
structure Closed (groups : Groups) (rest body : List Line) (items : List Item) (endp : Line) (endGroups : Groups)
    (after : List Line) : Prop where
  split : rest = body ++ endp :: after
  others : ∀ line ∈ body, Other procStart procEnd line
  items : ∃ expected, scan {} body = some (⟨none, expected⟩, items)
  start : procStart.find endp = none
  endp : procEnd.find endp = some endGroups
  same : groups 2 = endGroups 2

/-- A procedure that is converted, with the texts of its PROC and ENDP lines: it has code, and no other line is one of
the procedure's. -/
def Converted (lines body : List Line) (text : Line) (items : List Item) (endText : Line) : Prop :=
  ∃ before proc groups rest endp endGroups after,
    Begun procStart procEnd lines before proc groups rest ∧ AsmParser.joined groups = .ok text ∧
      Closed procStart procEnd groups rest body items endp endGroups after ∧ AsmParser.joined endGroups = .ok endText ∧
        (∀ line ∈ after, Other procStart procEnd line) ∧ items.any (·.code?.isSome)

/-- A line of the procedure matches with a group that is not set. -/
def Unset (lines : List Line) : Prop :=
  ∃ before proc groups rest, Begun procStart procEnd lines before proc groups rest ∧
    (AsmParser.joined groups = .error .typeError ∨ ∃ text, AsmParser.joined groups = .ok text ∧
      ∃ body items endp endGroups after, Closed procStart procEnd groups rest body items endp endGroups after ∧
        AsmParser.joined endGroups = .error .typeError)

/-- How parsing can end. -/
inductive Outcome (lines : List Line) : Except Raised (List Item) → Prop where
  | parserError (msg : String) (lineNumber : Nat) : Outcome lines (.error (.parserError msg lineNumber))
  | unset : Unset procStart procEnd lines → Outcome lines (.error .typeError)
  | ok {body text items endText} : Converted procStart procEnd lines body text items endText →
    Outcome lines (.ok (.comment text :: items ++ [.comment endText]))

theorem joined_cases (groups : Groups) :
    (∃ text, AsmParser.joined groups = .ok text) ∨ AsmParser.joined groups = .error .typeError := by
  rw [AsmParser.joined]
  cases groups 1 with
  | none => exact .inr rfl
  | some first =>
    cases groups 3 with
    | none => exact .inr rfl
    | some third => exact .inl ⟨_, rfl⟩

/-- The first line that is one of the procedure's. -/
theorem exists_first (lines : List Line) : (∀ line ∈ lines, Other procStart procEnd line) ∨
    ∃ before line after, lines = before ++ line :: after ∧ (∀ line ∈ before, Other procStart procEnd line) ∧
      ¬ Other procStart procEnd line := by
  induction lines with
  | nil => exact .inl nofun
  | cons line lines ih =>
    by_cases h : Other procStart procEnd line
    · rcases ih with hall | ⟨before, first, after, rfl, hbefore, hfirst⟩
      · exact .inl (List.forall_mem_cons.mpr ⟨h, hall⟩)
      · exact .inr ⟨line :: before, first, after, rfl, List.forall_mem_cons.mpr ⟨h, hbefore⟩, hfirst⟩
    · exact .inr ⟨[], line, lines, rfl, nofun, h⟩

namespace AsmParser

/-- The line is read. -/
def ticks (p : AsmParser) (n : Nat) : AsmParser := { p with lineNumber := p.lineNumber + n }

theorem processInput_other (p : AsmParser) {line : Line} (h : Other procStart procEnd line) :
    p.processInput procStart procEnd line =
      if p.state ≠ .collecting then .ok (p.ticks 1) else (p.ticks 1).processProcedureLine line := by
  simp [processInput, matchProcStart, matchProcEnd, h.1, h.2, ticks]

theorem processInput_start (p : AsmParser) {line : Line} {groups : Groups} (h : procStart.find line = some groups)
    (hstate : p.state = .notCollecting) (hpending : p.partialCode = none) (hname : p.startedProcDecoratedName = none) :
    p.processInput procStart procEnd line = (joined groups).map fun text =>
      { p.ticks 1 with
        state := .collecting, startedProcDecoratedName := groups 2, result := p.result ++ [.comment text] } := by
  rcases joined_cases groups with ⟨text, ht⟩ | ht <;>
  simp [processInput, matchProcStart, h, hstate, hpending, hname, ht, ticks, Except.map]

theorem processInput_again (p : AsmParser) {line : Line} {groups : Groups} (h : procStart.find line = some groups)
    (hstate : p.state ≠ .notCollecting) : ∃ msg n, p.processInput procStart procEnd line =
      .error (.parserError msg n) :=
  ⟨"multiple procedure start", p.lineNumber + 1, by simp [processInput, matchProcStart, h, hstate, parserError]⟩

theorem processInput_unexpected (p : AsmParser) {line : Line} {groups : Groups} (hs : procStart.find line = none)
    (h : procEnd.find line = some groups) (hstate : p.state ≠ .collecting) :
    ∃ msg n, p.processInput procStart procEnd line = .error (.parserError msg n) :=
  ⟨"unexpected ENDP", p.lineNumber + 1, by simp [processInput, matchProcStart, matchProcEnd, hs, h, hstate,
    parserError]⟩

theorem processInput_incomplete (p : AsmParser) {line : Line} {groups : Groups} (hs : procStart.find line = none)
    (h : procEnd.find line = some groups) (hstate : p.state = .collecting)
    (hbad : p.partialCode ≠ none ∨ p.startedProcDecoratedName ≠ groups 2) :
    ∃ msg n, p.processInput procStart procEnd line = .error (.parserError msg n) := by
  by_cases hpending : p.partialCode = none
  · have hname := hbad.resolve_left (not_not_intro hpending)
    exact ⟨"decorated PROC/ENDP proc name mismatch", p.lineNumber + 1,
      by simp [processInput, matchProcStart, matchProcEnd, hs, h, hstate, hpending, hname, parserError]⟩
  · exact ⟨"incomplete code line", p.lineNumber + 1,
      by simp [processInput, matchProcStart, matchProcEnd, hs, h, hstate, hpending, parserError]⟩

theorem processInput_end (p : AsmParser) {line : Line} {groups : Groups} (hs : procStart.find line = none)
    (h : procEnd.find line = some groups) (hstate : p.state = .collecting) (hpending : p.partialCode = none)
    (hname : p.startedProcDecoratedName = groups 2) :
    p.processInput procStart procEnd line = (joined groups).map fun text =>
      { p.ticks 1 with state := .collected, result := p.result ++ [.comment text] } := by
  rcases joined_cases groups with ⟨text, ht⟩ | ht <;>
  simp [processInput, matchProcStart, matchProcEnd, hs, h, hstate, hpending, hname, ht, ticks, Except.map]

/-- Lines outside the procedure. -/
theorem foldlM_outside (lines : List Line) : ∀ {p : AsmParser}, p.state ≠ .collecting →
    (∀ line ∈ lines, Other procStart procEnd line) →
    lines.foldlM (processInput procStart procEnd) p = .ok (p.ticks lines.length) := by
  induction lines with
  | nil => exact fun _ _ => rfl
  | cons line lines ih =>
    intro p hstate hlines
    obtain ⟨hline, hrest⟩ := List.forall_mem_cons.mp hlines
    rw [List.foldlM_cons, processInput_other procStart procEnd p hline, if_pos hstate, ok_bind,
      ih (p := p.ticks 1) hstate hrest]
    simp [ticks, Nat.add_comm, Nat.add_left_comm]

/-- Lines inside. -/
theorem foldlM_inside (lines : List Line) : ∀ {p : AsmParser}, p.state = .collecting →
    (∀ line ∈ lines, Other procStart procEnd line) →
    match scan p.toScan lines with
    | some (s, items) =>
      lines.foldlM (processInput procStart procEnd) p = .ok ((p.scanned s items).ticks lines.length)
    | none => ∃ msg n, lines.foldlM (processInput procStart procEnd) p = .error (.parserError msg n) := by
  induction lines with
  | nil =>
    intro p _ _
    simp [scan, toScan, scanned, ticks]
  | cons line lines ih =>
    intro p hstate hlines
    obtain ⟨hline, hrest⟩ := List.forall_mem_cons.mp hlines
    have hstep := processProcedureLine_agrees (p.ticks 1) line
    rw [List.foldlM_cons, processInput_other procStart procEnd p hline, if_neg (not_not_intro hstate), scan]
    cases hscan : scanLine p.toScan line with
    | none =>
      obtain ⟨msg, n, herror⟩ : Agrees (p.ticks 1) none ((p.ticks 1).processProcedureLine line) := hscan ▸ hstep
      exact ⟨msg, n, by rw [herror, error_bind]⟩
    | some found =>
      obtain ⟨s, items⟩ := found
      have hok : Agrees (p.ticks 1) (some (s, items)) ((p.ticks 1).processProcedureLine line) := hscan ▸ hstep
      have hnext := ih (p := (p.ticks 1).scanned s items) hstate hrest
      rw [show (p.ticks 1).processProcedureLine line = .ok ((p.ticks 1).scanned s items) from hok, ok_bind]
      rw [show ((p.ticks 1).scanned s items).toScan = s from rfl] at hnext
      cases hmore : scan s lines with
      | none =>
        rw [hmore] at hnext
        simpa [hmore] using hnext
      | some found =>
        obtain ⟨s', more⟩ := found
        rw [hmore] at hnext
        simp only [Option.bind_some, hmore, Option.map_some, hnext]
        simp [scanned, ticks, Bool.or_assoc, Nat.add_comm, Nat.add_left_comm]

/-- The parser after the PROC line. -/
def begun (n : Nat) (text : Line) (groups : Groups) : AsmParser where
  lineNumber := n
  result := [.comment text]
  startedProcDecoratedName := groups 2
  state := .collecting

/-- The parser after the ENDP line. -/
def ended (n : Nat) (text : Line) (groups : Groups) (items : List Item) (expected : Option Nat) (endText : Line) :
    AsmParser where
  lineNumber := n
  result := .comment text :: items ++ [.comment endText]
  hasCode := items.any (·.code?.isSome)
  expectedOffsetValue := expected
  startedProcDecoratedName := groups 2
  state := .collected

variable {procStart procEnd}

/-- The ENDP line that closes a procedure is read, unless a group of it is not set. -/
theorem foldlM_closed {groups : Groups} {rest body : List Line} {items : List Item} {endp : Line} {endGroups : Groups}
    {after : List Line} (h : Closed procStart procEnd groups rest body items endp endGroups after) (n : Nat)
    (text : Line) :
    ∃ m expected, rest.foldlM (processInput procStart procEnd) (begun n text groups) =
      (joined endGroups).map (ended m text groups items expected) >>=
        fun p => after.foldlM (processInput procStart procEnd) p := by
  obtain ⟨expected, hscan⟩ := h.items
  have hbody := foldlM_inside procStart procEnd body (p := begun n text groups) rfl h.others
  rw [show (begun n text groups).toScan = {} from rfl, hscan] at hbody
  refine ⟨n + body.length + 1, expected, ?_⟩
  rw [h.split, List.foldlM_append, hbody, ok_bind, List.foldlM_cons,
    processInput_end procStart procEnd _ h.start h.endp rfl rfl h.same]
  rfl

/-- After the ENDP line nothing may follow that is the procedure's. -/
theorem finish_outcome (after : List Line) (p : AsmParser) (hstate : p.state = .collected) :
    (∃ msg n, (after.foldlM (processInput procStart procEnd) p >>= finalResult) = .error (.parserError msg n)) ∨
      (∀ line ∈ after, Other procStart procEnd line) ∧ p.hasCode ∧
        (after.foldlM (processInput procStart procEnd) p >>= finalResult) = .ok p.result := by
  rcases exists_first procStart procEnd after with hall | ⟨skipped, line, more, rfl, hskipped, hline⟩
  · rw [foldlM_outside procStart procEnd after (by simp [hstate]) hall, ok_bind]
    cases hcode : p.hasCode with
    | true => exact .inr ⟨hall, rfl, by simp [finalResult, ticks, hstate, hcode]⟩
    | false =>
      exact .inl ⟨"missing procedure code", p.lineNumber + after.length,
        by simp [finalResult, ticks, hstate, hcode, parserError]⟩
  · left
    rw [List.foldlM_append, foldlM_outside procStart procEnd skipped (by simp [hstate]) hskipped, ok_bind,
      List.foldlM_cons]
    cases hstart : procStart.find line with
    | some groups =>
      obtain ⟨msg, n, herror⟩ :=
        processInput_again procStart procEnd (p.ticks skipped.length) hstart (by simp [ticks, hstate])
      exact ⟨msg, n, by rw [herror, error_bind, error_bind]⟩
    | none =>
      cases hend : procEnd.find line with
      | none => exact absurd ⟨hstart, hend⟩ hline
      | some groups =>
        obtain ⟨msg, n, herror⟩ :=
          processInput_unexpected procStart procEnd (p.ticks skipped.length) hstart hend (by simp [ticks, hstate])
        exact ⟨msg, n, by rw [herror, error_bind, error_bind]⟩

/-- From the PROC line on there is a parser error, or the procedure is closed. -/
theorem rest_outcome (rest : List Line) (n : Nat) (text : Line) (groups : Groups) :
    (∃ msg m, (rest.foldlM (processInput procStart procEnd) (begun n text groups) >>= finalResult) =
      .error (.parserError msg m)) ∨
      ∃ body items endp endGroups after, Closed procStart procEnd groups rest body items endp endGroups after := by
  rcases exists_first procStart procEnd rest with hall | ⟨body, line, after, rfl, hbody, hline⟩
  · left
    have hfold := foldlM_inside procStart procEnd rest (p := begun n text groups) rfl hall
    cases hscan : scan (begun n text groups).toScan rest with
    | none =>
      rw [hscan] at hfold
      obtain ⟨msg, m, herror⟩ := hfold
      exact ⟨msg, m, by rw [herror, error_bind]⟩
    | some found =>
      rw [hscan] at hfold
      exact ⟨"procedure incomplete", _, by rw [hfold]; rfl⟩
  · have hfold := foldlM_inside procStart procEnd body (p := begun n text groups) rfl hbody
    rw [List.foldlM_append]
    cases hscan : scan (begun n text groups).toScan body with
    | none =>
      rw [hscan] at hfold
      obtain ⟨msg, m, herror⟩ := hfold
      exact .inl ⟨msg, m, by rw [herror, error_bind, error_bind]⟩
    | some found =>
      obtain ⟨s, items⟩ := found
      rw [hscan] at hfold
      have hok : body.foldlM (processInput procStart procEnd) (begun n text groups) =
        .ok (((begun n text groups).scanned s items).ticks body.length) := hfold
      rw [hok, ok_bind, List.foldlM_cons]
      cases hstart : procStart.find line with
      | some again =>
        obtain ⟨msg, m, herror⟩ := processInput_again procStart procEnd
          (((begun n text groups).scanned s items).ticks body.length) hstart State.noConfusion
        exact .inl ⟨msg, m, by rw [herror, error_bind, error_bind]⟩
      | none =>
        cases hend : procEnd.find line with
        | none => exact absurd ⟨hstart, hend⟩ hline
        | some endGroups =>
          -- The end closes the procedure only with no code pending, and under the name it was begun with.
          by_cases hbad : s.partialCode ≠ none ∨ groups 2 ≠ endGroups 2
          · obtain ⟨msg, m, herror⟩ := processInput_incomplete procStart procEnd
              (((begun n text groups).scanned s items).ticks body.length) hstart hend rfl hbad
            exact .inl ⟨msg, m, by rw [herror, error_bind, error_bind]⟩
          · rw [not_or, not_not, not_not] at hbad
            obtain ⟨hpending, hsame⟩ := hbad
            obtain ⟨partialCode, expected⟩ := s
            obtain rfl : partialCode = none := hpending
            exact .inr ⟨body, items, line, endGroups, after, rfl, hbody, ⟨expected, hscan⟩, hstart, hend, hsame⟩

theorem foldlM_begun {lines before : List Line} {proc : Line} {groups : Groups} {rest : List Line}
    (h : Begun procStart procEnd lines before proc groups rest) :
    ∃ n, lines.foldlM (processInput procStart procEnd) {} =
      (joined groups).map (begun n · groups) >>= fun p => rest.foldlM (processInput procStart procEnd) p := by
  refine ⟨0 + before.length + 1, ?_⟩
  rw [h.split, List.foldlM_append, foldlM_outside procStart procEnd before (p := {}) (by decide) h.before, ok_bind,
    List.foldlM_cons, processInput_start procStart procEnd _ h.proc rfl rfl rfl]
  rfl

/-- Parsing ends in a parser error, in a type error for a group that is not set, or with what was converted. -/
theorem parse_outcome (lines : List Line) : Outcome procStart procEnd lines
    (lines.foldlM (processInput procStart procEnd) {} >>= finalResult) := by
  rcases exists_first procStart procEnd lines with hall | ⟨before, proc, rest, rfl, hbefore, hproc⟩
  · rw [foldlM_outside procStart procEnd lines (by decide) hall, ok_bind]
    exact .parserError "missing procedure" _
  · cases hstart : procStart.find proc with
    | none =>
      cases hend : procEnd.find proc with
      | none => exact absurd ⟨hstart, hend⟩ hproc
      | some groups =>
        obtain ⟨msg, n, herror⟩ :=
          processInput_unexpected procStart procEnd (({} : AsmParser).ticks before.length) hstart hend
          (by simp [ticks])
        rw [List.foldlM_append, foldlM_outside procStart procEnd before (p := {}) (by decide) hbefore, ok_bind,
          List.foldlM_cons, herror]
        exact .parserError msg n
    | some groups =>
      have hbegun : Begun procStart procEnd (before ++ proc :: rest) before proc groups rest := ⟨rfl, hbefore, hstart⟩
      obtain ⟨n, hfold⟩ := foldlM_begun hbegun
      rw [hfold]
      rcases joined_cases groups with ⟨text, htext⟩ | hunset
      · rw [htext]
        rcases rest_outcome rest n text groups with ⟨msg, m, herror⟩ | ⟨body, items, endp, endGroups, after, hclosed⟩
        · rw [ok_map, ok_bind, herror]
          exact .parserError msg m
        · obtain ⟨m, expected, hrest⟩ := foldlM_closed hclosed n text
          rw [ok_map, ok_bind, hrest]
          rcases joined_cases endGroups with ⟨endText, hendText⟩ | hunset
          · rw [hendText, ok_map, ok_bind]
            rcases finish_outcome after (ended m text groups items expected endText) rfl with
              ⟨msg, k, herror⟩ | ⟨hafter, hcode, hok⟩
            · rw [herror]
              exact .parserError msg k
            · rw [hok]
              exact .ok ⟨before, proc, groups, rest, endp, endGroups, after, hbegun, htext, hclosed, hendText,
                hafter, hcode⟩
          · rw [hunset]
            exact .unset ⟨before, proc, groups, rest, hbegun, .inr ⟨text, htext, body, items, endp, endGroups, after,
              hclosed, hunset⟩⟩
      · rw [hunset]
        exact .unset ⟨before, proc, groups, rest, hbegun, .inl hunset⟩

/-- What is a converted procedure is parsed as such. -/
theorem parse_converted {lines body : List Line} {text : Line} {items : List Item} {endText : Line}
    (h : Converted procStart procEnd lines body text items endText) :
    (lines.foldlM (processInput procStart procEnd) {} >>= finalResult) =
      .ok (.comment text :: items ++ [.comment endText]) := by
  obtain ⟨before, proc, groups, rest, endp, endGroups, after, hbegun, htext, hclosed, hendText, hafter, hcode⟩ := h
  obtain ⟨n, hfold⟩ := foldlM_begun hbegun
  obtain ⟨m, expected, hrest⟩ := foldlM_closed hclosed n text
  rw [hfold, htext, ok_map, ok_bind, hrest, hendText, ok_map, ok_bind,
    foldlM_outside procStart procEnd after State.noConfusion hafter,
    ok_bind]
  simp [finalResult, ticks, ended, hcode]

theorem parse_unset {lines : List Line} (h : Unset procStart procEnd lines) :
    (lines.foldlM (processInput procStart procEnd) {} >>= finalResult) = .error .typeError := by
  obtain ⟨before, proc, groups, rest, hbegun, hunset⟩ := h
  obtain ⟨n, hfold⟩ := foldlM_begun hbegun
  rw [hfold]
  rcases hunset with hunset | ⟨text, htext, body, items, endp, endGroups, after, hclosed, hunset⟩
  · rw [hunset]
    rfl
  · obtain ⟨m, expected, hrest⟩ := foldlM_closed hclosed n text
    rw [htext, ok_map, ok_bind, hrest, hunset]
    rfl

end AsmParser

end Procedures

end BuildPal.AsmToInc