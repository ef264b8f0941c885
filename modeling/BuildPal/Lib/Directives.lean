import Mathlib.Data.List.Basic
import Mathlib.Data.List.Pairwise
import Mathlib.Data.List.TakeWhile
/-!
# Macro definitions and their tokens

How a `#define` is read, over any lexer. A lexer takes the text from a place in
a directive apart into the tokens up to the directive's end, and says where each
of them is. What is needed of it is that text which ends with a token can be
followed by a new line, and that a backslash at the end of a line is no part of a
token.
-/

namespace BuildPal.Lib

/-! ## Tokens -/

/-- A token is spelled without the splices that its text may have. -/
structure Token where
  spelling : List Char
  offset : Nat
  length : Nat
  leadingSpace : Bool := false
  isIdentifier : Bool := false
  deriving DecidableEq, Repr

def Token.stop (t : Token) : Nat := t.offset + t.length

/-- `line` gives the tokens of a directive and the text after it. `escape` says which digits behind a backslash stand
for which characters of an identifier. -/
structure Lexer where
  line : List Char → List Token × List Char
  identChar : Char → Bool
  escape : List Char → List Char → Prop

def Blank (text : List Char) : Prop := ∀ c ∈ text, c = ' ' ∨ c = '\t'

def LineEnd (text : List Char) : Prop := text = ['\n'] ∨ text = ['\r', '\n']

/-- Text that spells an identifier: splices are left out, and a character may be written as an escape. -/
inductive Spelled (L : Lexer) : List Char → List Char → Prop where
  | nil : Spelled L [] []
  | char {c text spelling} : L.identChar c → Spelled L text spelling → Spelled L (c :: text) (c :: spelling)
  | splice {blanks lineEnd text c spelling} : Blank blanks → LineEnd lineEnd → Spelled L text (c :: spelling) →
    Spelled L ('\\' :: (blanks ++ (lineEnd ++ text))) (c :: spelling)
  | escape {digits chars text spelling} : L.escape digits chars → (∀ c ∈ digits, L.identChar c) → chars ≠ [] →
    chars.length ≤ digits.length → Spelled L text spelling → Spelled L ('\\' :: (digits ++ text)) (chars ++ spelling)

/-- Text that goes on with the identifier before it. -/
inductive Continues (L : Lexer) : List Char → Prop where
  | char {c text} : L.identChar c → Continues L (c :: text)
  | splice {blanks lineEnd text} : Blank blanks → LineEnd lineEnd → Continues L text →
    Continues L ('\\' :: (blanks ++ (lineEnd ++ text)))
  | escape {digits chars text} : L.escape digits chars → Continues L ('\\' :: (digits ++ text))

structure Lexer.Lawful (L : Lexer) : Prop where
  /-- A new line after a token ends the directive there, unless a backslash makes it a splice. -/
  cut : ∀ {s t tokens last more}, (L.line (s ++ t)).1 = tokens ++ last :: more → last.stop = s.length →
    s.getLast? ≠ some '\\' → ∀ rest, L.line (s ++ '\n' :: rest) = (tokens ++ [last], rest)
  /-- A backslash before a new line is a splice, also when another text makes it a token or the end of one. -/
  backslash : ∀ {s t tokens last more}, (L.line (s ++ '\\' :: t)).1 = tokens ++ last :: more →
    last.stop = s.length + 1 → (L.line (s ++ ['\\', '\n'])).1 = tokens ∨
      ∃ other, (L.line (s ++ ['\\', '\n'])).1 = tokens ++ [other] ∧ other.spelling ≠ last.spelling
  ordered : ∀ s, (L.line s).1.Pairwise fun t t' => t.stop ≤ t'.stop
  inside : ∀ {s t}, t ∈ (L.line s).1 → t.stop ≤ s.length
  paren : ∀ {s t}, t ∈ (L.line s).1 → t.spelling = [')'] → ')' ∈ s
  spelled : ∀ {s t}, t ∈ (L.line s).1 → t.isIdentifier →
    Spelled L ((s.drop t.offset).take t.length) t.spelling
  identifier : ∀ {s t}, t ∈ (L.line s).1 → t.isIdentifier → t.spelling ≠ [] ∧ ∀ c ∈ t.spelling, L.identChar c
  /-- An identifier is an identifier wherever it stands. -/
  alone : ∀ {s t}, t ∈ (L.line s).1 → t.isIdentifier → ∀ blanks lineEnd rest, Blank blanks → LineEnd lineEnd →
    ∃ leadingSpace rest', L.line (t.spelling ++ (blanks ++ (lineEnd ++ rest))) =
      ([⟨t.spelling, 0, t.spelling.length, leadingSpace, true⟩], rest') ∧ (lineEnd = ['\n'] → rest' = rest)
  /-- No identifier ends where it could go on. -/
  maximal : ∀ {r t more}, t.isIdentifier → (L.line (t.spelling ++ r)).1 = t :: more → ¬ Continues L r
  identChar_paren : L.identChar ')' = false

/-! ### How identifiers are spelled -/

section
variable {L : Lexer} {text spelling : List Char}

theorem Continues.append (h : Continues L text) (r : List Char) : Continues L (text ++ r) := by
  induction h with
  | char hc => exact .char hc
  | splice hb he _ ih => simpa using Continues.splice hb he ih
  | escape hesc => simpa using Continues.escape hesc

theorem Spelled.length_le (h : Spelled L text spelling) : spelling.length ≤ text.length := by
  induction h with
  | nil => exact Nat.le_refl _
  | char _ _ ih => simpa using ih
  | splice _ _ _ ih =>
    simp only [List.length_cons, List.length_append] at ih ⊢
    omega
  | escape _ _ _ hlen _ ih =>
    simp only [List.length_cons, List.length_append]
    omega

/-- Only characters that stand for themselves take no more room than they have to. -/
theorem Spelled.eq_of_length (h : Spelled L text spelling) (hlen : text.length = spelling.length) :
    text = spelling := by
  induction h with
  | nil => rfl
  | char _ _ ih =>
    rw [ih (by simpa using hlen)]
  | splice _ _ hs _ =>
    have := hs.length_le
    simp only [List.length_cons, List.length_append] at hlen this
    omega
  | escape _ _ _ hle hs _ =>
    have := hs.length_le
    simp only [List.length_cons, List.length_append] at hlen
    omega

theorem Spelled.continues (h : Spelled L text spelling) (hne : spelling ≠ []) : Continues L text := by
  induction h with
  | nil => exact absurd rfl hne
  | char hc _ _ => exact .char hc
  | splice hb he _ ih => exact .splice hb he (ih (by simp))
  | escape hesc _ _ _ _ _ => exact .escape hesc

/-- What is left of the end of a line is blank up to the end of the line. -/
theorem LineEnd.drop {lineEnd : List Char} (h : LineEnd lineEnd) {k : Nat} (hk : k < lineEnd.length) :
    LineEnd (lineEnd.drop k) := by
  rcases h with rfl | rfl
  · obtain rfl : k = 0 := by simpa using hk
    exact .inl rfl
  · obtain rfl | rfl : k = 0 ∨ k = 1 := by
      simp only [List.length_cons, List.length_nil] at hk
      omega
    · exact .inr rfl
    · exact .inl rfl

/-- What is left of the text from any place on goes on with the identifier, or is at the end of its line. -/
theorem Spelled.drop (h : Spelled L text spelling) {k : Nat} (hk : k < text.length) :
    Continues L (text.drop k) ∨ ∃ blanks lineEnd rest, Blank blanks ∧ LineEnd lineEnd ∧
      text.drop k = blanks ++ (lineEnd ++ rest) := by
  induction h generalizing k with
  | nil => exact absurd hk (Nat.not_lt_zero k)
  | @char c text spelling hc _ ih =>
    cases k with
    | zero => exact .inl (.char hc)
    | succ k => exact ih (by simpa using hk)
  | @splice blanks lineEnd text c spelling hb he hs ih =>
    cases k with
    | zero => exact .inl (.splice hb he (hs.continues (by simp)))
    | succ k =>
      simp only [List.drop_succ_cons]
      by_cases hkb : k ≤ blanks.length
      · refine .inr ⟨blanks.drop k, lineEnd, text, fun d hd => hb d (List.mem_of_mem_drop hd), he, ?_⟩
        rw [List.drop_append_of_le_length hkb]
      · obtain ⟨j, rfl⟩ : ∃ j, k = blanks.length + j := ⟨k - blanks.length, by omega⟩
        rw [← List.drop_drop, List.drop_left' rfl]
        by_cases hje : j < lineEnd.length
        · refine .inr ⟨[], lineEnd.drop j, text, by simp [Blank], he.drop hje, ?_⟩
          rw [List.drop_append_of_le_length (Nat.le_of_lt hje), List.nil_append]
        · obtain ⟨i, rfl⟩ : ∃ i, j = lineEnd.length + i := ⟨j - lineEnd.length, by omega⟩
          rw [← List.drop_drop, List.drop_left' rfl]
          refine ih ?_
          simp only [List.length_cons, List.length_append] at hk
          omega
  | @escape digits chars text spelling hesc hchars hcs hle hs ih =>
    cases k with
    | zero => exact .inl (.escape hesc)
    | succ k =>
      simp only [List.drop_succ_cons]
      by_cases hkd : k < digits.length
      · rw [List.drop_append_of_le_length (Nat.le_of_lt hkd), List.drop_eq_getElem_cons hkd]
        exact .inl (.char (hchars _ (List.getElem_mem hkd)))
      · rw [List.drop_append, List.drop_eq_nil_of_le (by omega), List.nil_append]
        refine ih ?_
        simp only [List.length_cons, List.length_append] at hk
        omega

end

/-! ## Definitions -/

/-- The kind of a macro, its parameters and its replacement tokens, each with whether a space stands before it.
A function-like macro has a list of parameters, and may be variadic. -/
structure MacroDefinition where
  params : Option (List (List Char) × Bool)
  body : List (List Char × Bool)
  deriving DecidableEq, Repr

/-- A `#define`, from the name on. -/
structure DefineDirective where
  name : Token
  params : Option (List (List Char) × Bool)
  body : List Token
  deriving DecidableEq, Repr

def DefineDirective.definition (d : DefineDirective) : MacroDefinition :=
  ⟨d.params, d.body.map fun t => (t.spelling, t.leadingSpace)⟩

/-- The parameters after `(`, and the tokens after `)`. -/
def readParams (params : List (List Char)) : List Token → Option ((List (List Char) × Bool) × List Token)
  | [] => none
  | t :: rest =>
    if t.spelling = [')'] then if params = [] then some (([], false), rest) else none
    else if t.spelling = ['.', '.', '.'] then
      match rest with
      | close :: body =>
        if close.spelling = [')'] then some ((params ++ ["__VA_ARGS__".toList], true), body) else none
      | [] => none
    else if t.isIdentifier ∧ t.spelling ∉ params then
      match rest with
      | [] => none
      | next :: more =>
        if next.spelling = [')'] then some ((params ++ [t.spelling], false), more)
        else if next.spelling = [','] then readParams (params ++ [t.spelling]) more
        else if next.spelling = ['.', '.', '.'] then
          match more with
          | close :: body =>
            if close.spelling = [')'] then some ((params ++ [t.spelling], true), body) else none
          | [] => none
        else none
    else none

/-- A parenthesis right behind the name starts the parameters. -/
def readDefine : List Token → Option DefineDirective
  | [] => none
  | name :: rest =>
    if name.isIdentifier then
      match rest with
      | [] => some ⟨name, none, []⟩
      | t :: more =>
        if t.spelling = ['('] ∧ t.leadingSpace = false then
          (readParams [] more).map fun r => ⟨name, some r.1, r.2⟩
        else some ⟨name, none, t :: more⟩
    else none

/-- What the parameters are does not depend on the tokens after them. -/
theorem readParams_eq {params : List (List Char)} {tokens body : List Token} {ps : List (List Char) × Bool}
    (h : readParams params tokens = some (ps, body)) :
    ∃ header, tokens = header ++ body ∧ (∃ t ∈ header, t.spelling = [')']) ∧
      ∀ body', readParams params (header ++ body') = some (ps, body') := by
  fun_induction readParams params tokens with
  | case2 t more ht =>
    cases h
    refine ⟨[t], rfl, ⟨t, by simp, ht⟩, fun body' => ?_⟩
    rw [List.singleton_append, readParams.eq_def]
    simp [ht]
  | case4 params t ht hdots close more hclose =>
    cases h
    exact ⟨[t, close], rfl, ⟨close, by simp, hclose⟩, by simp [readParams, hdots, hclose]⟩
  | case8 params t ht hdots hid next more hnext =>
    cases h
    exact ⟨[t, next], rfl, ⟨next, by simp, hnext⟩, by simp [readParams, ht, hdots, hid, hnext]⟩
  | case9 params t ht hdots hid next more hnext hcomma ih =>
    obtain ⟨header, rfl, ⟨u, hu, hparen⟩, hbody⟩ := ih h
    refine ⟨t :: next :: header, rfl, ⟨u, by simp [hu], hparen⟩, fun body' => ?_⟩
    simp [readParams, ht, hdots, hid, hcomma, hbody]
  | case10 params t ht hdots hid next hnext hcomma hnextdots close more hclose =>
    cases h
    exact ⟨[t, next, close], rfl, ⟨close, by simp, hclose⟩, by simp [readParams, ht, hdots, hid, hnextdots, hclose]⟩
  | _ => cases h

/-- The directive without its replacement tokens. -/
theorem readDefine_eq {tokens : List Token} {d : DefineDirective} (h : readDefine tokens = some d) :
    d.name.isIdentifier ∧ ∃ header, tokens = d.name :: (header ++ d.body) ∧ (d.params = none → header = []) ∧
      (d.params ≠ none → ∃ t ∈ header, t.spelling = [')']) := by
  cases tokens with
  | nil => cases h
  | cons name rest =>
    rw [readDefine.eq_def] at h
    simp only at h
    by_cases hid : name.isIdentifier
    · rw [if_pos hid] at h
      cases rest with
      | nil =>
        cases h
        exact ⟨hid, [], by simp⟩
      | cons t more =>
        simp only at h
        split at h
        · obtain ⟨⟨ps, body⟩, hps, rfl⟩ := Option.map_eq_some_iff.1 h
          obtain ⟨header, rfl, ⟨u, hu, hparen⟩, -⟩ := readParams_eq hps
          exact ⟨hid, t :: header, rfl, by simp, fun _ => ⟨u, by simp [hu], hparen⟩⟩
        · cases h
          exact ⟨hid, [], by simp⟩
    · rw [if_neg hid] at h
      cases h

/-- Without the last of its replacement tokens the directive defines another macro. -/
theorem readDefine_dropLast {tokens : List Token} {d : DefineDirective} (h : readDefine tokens = some d)
    (hbody : d.body ≠ []) : readDefine tokens.dropLast = some { d with body := d.body.dropLast } := by
  cases tokens with
  | nil => cases h
  | cons name rest =>
    rw [readDefine.eq_def] at h
    simp only at h
    by_cases hid : name.isIdentifier
    · rw [if_pos hid] at h
      cases rest with
      | nil =>
        cases h
        exact absurd rfl hbody
      | cons t more =>
        simp only at h
        split at h
        · next hparen =>
          obtain ⟨⟨ps, body⟩, hps, rfl⟩ := Option.map_eq_some_iff.1 h
          obtain ⟨header, rfl, ⟨u, hu, -⟩, hread⟩ := readParams_eq hps
          have hne : header ≠ [] := List.ne_nil_of_mem hu
          rw [List.dropLast_cons_of_ne_nil (by simp), List.dropLast_cons_of_ne_nil (by simp [hne]),
            List.dropLast_append_of_ne_nil hbody, readDefine, if_pos hid]
          simp only [if_pos hparen, hread, Option.map_some]
        · next hparen =>
          cases h
          cases more with
          | nil => simp [readDefine, hid]
          | cons u more => simp [readDefine, hid, hparen]
    · rw [if_neg hid] at h
      cases h

/-! ## Preprocessing -/

/-- The macros that are defined. -/
abbrev MacroTable := List Char → Option MacroDefinition

def MacroTable.set (σ : MacroTable) (name : List Char) (d : Option MacroDefinition) : MacroTable :=
  fun n => if n = name then d else σ n

/-- A line of text in which directives are spelled without more space than they need. One that is not well
formed has no effect. -/
def Lexer.readLine (L : Lexer) (σ : MacroTable) (text : List Char) : MacroTable × List Char :=
  if "#define ".toList.isPrefixOf text then
    let r := L.line (text.drop 8)
    ((readDefine r.1).elim σ fun d => σ.set d.name.spelling (some d.definition), r.2)
  else if "#undef ".toList.isPrefixOf text then
    let r := L.line (text.drop 7)
    ((r.1.head?.filter (·.isIdentifier)).elim σ fun t => σ.set t.spelling none, r.2)
  else (σ, (L.line text).2)

/-- At most so many lines. -/
def Lexer.preprocess (L : Lexer) : Nat → MacroTable → List Char → MacroTable
  | 0, σ, _ => σ
  | _ + 1, σ, [] => σ
  | lines + 1, σ, c :: text => L.preprocess lines (L.readLine σ (c :: text)).1 (L.readLine σ (c :: text)).2

/-! ## Lines without splices, comments and literals -/

namespace Plain

def identChar (c : Char) : Bool := c.isAlphanum || c == '_'

/-- The token that ends at the given place. -/
def word (stop : Nat) (space : Bool) (pending : List Char) : List Token :=
  if pending = [] then []
  else [⟨pending, stop - pending.length, pending.length, space, !(pending.headD ' ').isDigit⟩]

/-- Identifiers and numbers are words, and any other character is a token. The word in front of the text comes with
whether a space stands before it. -/
def tokens (offset : Nat) (space : Bool) (pending : List Char) : List Char → List Token
  | [] => word offset space pending
  | c :: text =>
    if identChar c then tokens (offset + 1) space (pending ++ [c]) text
    else if c = ' ' ∨ c = '\t' ∨ c = '\r' then word offset space pending ++ tokens (offset + 1) true [] text
    else word offset space pending ++
      ⟨[c], offset, 1, space && pending.isEmpty, false⟩ :: tokens (offset + 1) false [] text

/-- The tokens of the first line, if it has no backslash. -/
def lexer : Lexer where
  line text :=
    let line := text.takeWhile (· ≠ '\n')
    (if '\\' ∈ line then [] else tokens 0 false [] line, text.drop (line.length + 1))
  identChar := identChar
  escape _ _ := False

/-- Where a token of the line is, and what it can be. -/
structure At (line : List Char) (start : Nat) (t : Token) : Prop where
  found : ∃ u v, line = u ++ (t.spelling ++ v) ∧ t.offset = u.length
  after : start ≤ t.offset
  length : t.length = t.spelling.length
  nonempty : t.spelling ≠ []
  identifier : t.isIdentifier → (t.spelling.headD ' ').isDigit = false ∧
    ∀ c ∈ t.spelling, identChar c

theorem mem_word {stop : Nat} {space : Bool} {pending : List Char} {t : Token}
    (h : t ∈ word stop space pending) : pending ≠ [] ∧
      t = ⟨pending, stop - pending.length, pending.length, space, !(pending.headD ' ').isDigit⟩ := by
  rw [word] at h
  split at h
  · cases h
  · next hne => exact ⟨hne, List.mem_singleton.1 h⟩

theorem At.word {before pending after : List Char} {space : Bool} {t : Token} (hp : ∀ c ∈ pending, identChar c)
    (h : t ∈ word (before ++ pending).length space pending) : At (before ++ (pending ++ after)) before.length t := by
  obtain ⟨hne, rfl⟩ := mem_word h
  have hoffset : (before ++ pending).length - pending.length = before.length := by simp
  exact ⟨⟨before, after, rfl, hoffset⟩, Nat.le_of_eq hoffset.symm, rfl, hne, fun hid => ⟨by simpa using hid, hp⟩⟩

theorem At.weaken {line : List Char} {start start' : Nat} {t : Token} (h : At line start t) (hle : start' ≤ start) :
    At line start' t :=
  ⟨h.found, Nat.le_trans hle h.after, h.length, h.nonempty, h.identifier⟩

theorem at_of_mem {text before pending : List Char} {space : Bool} {t : Token} (hp : ∀ c ∈ pending, identChar c)
    (h : t ∈ tokens (before ++ pending).length space pending text) :
    At (before ++ (pending ++ text)) before.length t := by
  induction text generalizing before pending space with
  | nil => exact At.word hp h
  | cons c text ih =>
    -- what comes after the word and the character
    have hrest : ∀ space, t ∈ tokens ((before ++ pending).length + 1) space [] text →
        At (before ++ (pending ++ c :: text)) before.length t := by
      intro space h
      have hlen : (before ++ pending).length + 1 = ((before ++ pending ++ [c]) ++ []).length := by simp [Nat.add_assoc]
      rw [hlen] at h
      have h := @ih (before ++ pending ++ [c]) [] space (by simp) h
      have hline : before ++ pending ++ [c] ++ ([] ++ text) = before ++ (pending ++ c :: text) := by simp
      rw [hline] at h
      exact h.weaken (by simp only [List.length_append]; omega)
    rw [tokens] at h
    split at h
    · next hc =>
      have hlen : (before ++ pending).length + 1 = (before ++ (pending ++ [c])).length := by
        simp only [List.length_append, List.length_singleton]
        omega
      rw [hlen] at h
      have h := @ih before (pending ++ [c]) _ (by simpa [or_imp, forall_and] using ⟨hp, hc⟩) h
      rwa [List.append_assoc pending] at h
    · next hc =>
      split at h
      · rcases List.mem_append.1 h with h | h
        · exact At.word hp h
        · exact hrest _ h
      · rcases List.mem_append.1 h with h | h
        · exact At.word hp h
        · rcases List.mem_cons.1 h with rfl | h
          · exact ⟨⟨before ++ pending, text, by simp, rfl⟩, by simp, rfl, by simp, by simp⟩
          · exact hrest _ h

/-- Tokens end at or after the text read so far. -/
theorem le_stop {text pending : List Char} {offset : Nat} {space : Bool} {t : Token} (hp : pending.length ≤ offset)
    (h : t ∈ tokens offset space pending text) : offset ≤ t.stop := by
  have hword : ∀ t ∈ word offset space pending, offset ≤ t.stop := by
    intro t ht
    obtain ⟨-, rfl⟩ := mem_word ht
    simp only [Token.stop]
    omega
  induction text generalizing offset space pending with
  | nil => exact hword t h
  | cons c text ih =>
    have hrest : ∀ {space}, t ∈ tokens (offset + 1) space [] text → offset ≤ t.stop := by
      intro space h
      refine Nat.le_of_succ_le (ih (by simp) h ?_)
      intro t ht
      exact absurd rfl (mem_word ht).1
    rw [tokens] at h
    split at h
    · refine Nat.le_of_succ_le (ih (by simpa using hp) h ?_)
      intro t ht
      obtain ⟨-, rfl⟩ := mem_word ht
      simp only [Token.stop, List.length_append, List.length_singleton]
      omega
    · split at h
      · rcases List.mem_append.1 h with h | h
        · exact hword t h
        · exact hrest h
      · rcases List.mem_append.1 h with h | h
        · exact hword t h
        · rcases List.mem_cons.1 h with rfl | h
          · simp [Token.stop]
          · exact hrest h

theorem word_stop {stop : Nat} {space : Bool} {pending : List Char} {t : Token} (hp : pending.length ≤ stop)
    (h : t ∈ word stop space pending) : t.stop = stop := by
  obtain ⟨-, rfl⟩ := mem_word h
  simp only [Token.stop]
  omega

theorem pairwise_word {R : Token → Token → Prop} (stop : Nat) (space : Bool) (pending : List Char) :
    (word stop space pending).Pairwise R := by
  rw [word]
  split <;> simp

theorem pairwise_tokens {text pending : List Char} {offset : Nat} {space : Bool} (hp : pending.length ≤ offset) :
    (tokens offset space pending text).Pairwise fun t t' => t.stop ≤ t'.stop := by
  induction text generalizing offset space pending with
  | nil => exact pairwise_word _ _ _
  | cons c text ih =>
    have hnil : ([] : List Char).length ≤ offset + 1 := Nat.zero_le _
    rw [tokens]
    split
    · exact ih (by simpa using hp)
    · split
      · refine List.pairwise_append.2 ⟨pairwise_word _ _ _, ih hnil, ?_⟩
        intro t ht t' ht'
        rw [word_stop hp ht]
        exact Nat.le_of_succ_le (le_stop hnil ht')
      · refine List.pairwise_append.2 ⟨pairwise_word _ _ _, List.pairwise_cons.2 ⟨?_, ih hnil⟩, ?_⟩
        · intro t' ht'
          exact le_stop hnil ht'
        · intro t ht t' ht'
          rw [word_stop hp ht]
          rcases List.mem_cons.1 ht' with rfl | ht'
          · simp [Token.stop]
          · exact Nat.le_of_succ_le (le_stop hnil ht')

/-- A token that does not end with the word is after it. -/
theorem word_append {stop : Nat} {space : Bool} {pending : List Char} {rest toks more : List Token} {last : Token}
    (hp : pending.length ≤ stop) (h : word stop space pending ++ rest = toks ++ last :: more)
    (hlast : last.stop ≠ stop) : ∃ toks', toks = word stop space pending ++ toks' ∧ rest = toks' ++ last :: more := by
  rcases List.append_eq_append_iff.1 h with ⟨toks', htoks, hrest⟩ | ⟨ws, hw, hrest⟩
  · exact ⟨toks', htoks, hrest⟩
  · cases ws with
    | nil => exact ⟨[], by simpa using hw.symm, by simpa using hrest.symm⟩
    | cons w ws =>
      cases hrest
      exact absurd (word_stop hp (by rw [hw]; simp)) hlast

theorem tokens_cut {s t pending : List Char} {offset : Nat} {space : Bool} {toks more : List Token} {last : Token}
    (hp : pending.length ≤ offset) (h : tokens offset space pending (s ++ t) = toks ++ last :: more)
    (hlast : last.stop = offset + s.length) : tokens offset space pending s = toks ++ [last] := by
  induction s generalizing offset space pending toks with
  | nil =>
    rw [List.length_nil, Nat.add_zero] at hlast
    rw [List.nil_append] at h
    have hnil : ([] : List Char).length ≤ offset + 1 := Nat.zero_le _
    -- of the tokens only the word can end here
    have hword : ∀ rest, (∀ t ∈ rest, offset < t.stop) → word offset space pending ++ rest = toks ++ last :: more →
        word offset space pending = toks ++ [last] := by
      intro rest hrest h
      rw [word] at h ⊢
      split at h
      · have := hrest last (by rw [List.nil_append] at h; simp [h])
        omega
      · next hne =>
        cases toks with
        | nil =>
          cases h
          rw [if_neg hne, List.nil_append]
        | cons w toks =>
          simp only [List.cons_append, List.nil_append, List.cons.injEq] at h
          have := hrest last (by rw [h.2]; simp)
          omega
    cases t with
    | nil => exact hword [] (by simp) (by rwa [List.append_nil])
    | cons c t =>
      rw [tokens] at h
      split at h
      · have : last ∈ tokens (offset + 1) space (pending ++ [c]) t := by simp [h]
        have := le_stop (by simpa using hp) this
        omega
      · split at h
        · exact hword _ (fun _ ht => le_stop hnil ht) h
        · refine hword _ (fun t ht => ?_) h
          rcases List.mem_cons.1 ht with rfl | ht
          · simp [Token.stop]
          · exact le_stop hnil ht
  | cons c s ih =>
    rw [List.length_cons] at hlast
    rw [List.cons_append, tokens] at h
    rw [tokens]
    split at h
    · next hc =>
      rw [if_pos hc]
      exact ih (by simpa using hp) h (by omega)
    · next hc =>
      rw [if_neg hc]
      split at h
      · next hb =>
        obtain ⟨toks', rfl, hrest⟩ := word_append hp h (by omega)
        rw [if_pos hb, ih (Nat.zero_le _) hrest (by omega), List.append_assoc]
      · next hb =>
        obtain ⟨toks', rfl, hrest⟩ := word_append hp h (by omega)
        rw [if_neg hb]
        cases toks' with
        | nil =>
          cases hrest
          have hs : s = [] := List.length_eq_zero_iff.1 (by simp only [Token.stop] at hlast; omega)
          simp [hs, tokens, word]
        | cons p toks' =>
          simp only [List.cons_append, List.cons.injEq] at hrest
          obtain ⟨rfl, hrest⟩ := hrest
          rw [ih (Nat.zero_le _) hrest (by omega)]
          simp

theorem tokens_identChars {w text pending : List Char} {offset : Nat} {space : Bool} (hw : ∀ c ∈ w, identChar c) :
    tokens offset space pending (w ++ text) = tokens (offset + w.length) space (pending ++ w) text := by
  induction w generalizing offset pending with
  | nil => simp
  | cons c w ih =>
    rw [List.cons_append, tokens, if_pos (hw c List.mem_cons_self), ih fun d hd => hw d (List.mem_cons_of_mem _ hd)]
    simp [Nat.add_comm, Nat.add_left_comm]

theorem tokens_blank {blanks pending : List Char} {offset : Nat} {space : Bool}
    (hb : ∀ c ∈ blanks, c = ' ' ∨ c = '\t' ∨ c = '\r') :
    tokens offset space pending blanks = word offset space pending := by
  induction blanks generalizing offset pending space with
  | nil => rfl
  | cons c blanks ih =>
    have hc := hb c List.mem_cons_self
    have hid : ¬ identChar c := by rcases hc with rfl | rfl | rfl <;> decide
    rw [tokens, if_neg hid, if_pos hc, ih fun d hd => hb d (List.mem_cons_of_mem _ hd)]
    simp [word]

/-- The first token starts with the word. -/
theorem tokens_head {text pending : List Char} {offset : Nat} {space : Bool} (hne : pending ≠ []) :
    ∃ t more, tokens offset space pending text = t :: more ∧ pending.length ≤ t.spelling.length := by
  induction text generalizing offset pending with
  | nil => exact ⟨_, _, by rw [tokens, word, if_neg hne], Nat.le_refl _⟩
  | cons c text ih =>
    rw [tokens]
    split
    · obtain ⟨t, more, ht, hlen⟩ := @ih (pending ++ [c]) (offset + 1) (by simp)
      exact ⟨t, more, ht, by simp only [List.length_append] at hlen; omega⟩
    · rw [word, if_neg hne]
      split <;> exact ⟨_, _, rfl, Nat.le_refl _⟩

/-- The line that a token is in. -/
theorem mem_line {s : List Char} {t : Token} (h : t ∈ (lexer.line s).1) :
    At (s.takeWhile (· ≠ '\n')) 0 t ∧ '\\' ∉ s.takeWhile (· ≠ '\n') := by
  simp only [lexer] at h
  split at h
  · cases h
  · next hback => exact ⟨@at_of_mem _ [] [] _ _ (by simp) h, hback⟩

theorem found_of_mem {s : List Char} {t : Token} (h : t ∈ (lexer.line s).1) :
    ∃ u v, s = u ++ (t.spelling ++ v) ∧ t.offset = u.length ∧ t.length = t.spelling.length := by
  obtain ⟨hat, -⟩ := mem_line h
  obtain ⟨u, v, hline, hoffset⟩ := hat.found
  refine ⟨u, v ++ s.dropWhile (· ≠ '\n'), ?_, hoffset, hat.length⟩
  conv_lhs => rw [← List.takeWhile_append_dropWhile (p := (· ≠ '\n')) (l := s), hline]
  simp

theorem identChar_ne {c : Char} (h : identChar c) : c ≠ '\n' ∧ c ≠ '\\' := by
  constructor <;> (rintro rfl; revert h; decide)

theorem blank_ne {c : Char} (h : c = ' ' ∨ c = '\t' ∨ c = '\r') : c ≠ '\n' ∧ c ≠ '\\' := by
  rcases h with rfl | rfl | rfl <;> decide

theorem spelled_self {w : List Char} (hw : ∀ c ∈ w, identChar c) : Spelled lexer w w := by
  induction w with
  | nil => exact .nil
  | cons c w ih => exact .char (hw c List.mem_cons_self) (ih fun d hd => hw d (List.mem_cons_of_mem _ hd))

theorem line_newline {s : List Char} (hs : ∀ c ∈ s, c ≠ '\n' ∧ c ≠ '\\') (rest : List Char) :
    lexer.line (s ++ '\n' :: rest) = (tokens 0 false [] s, rest) := by
  have hline : (s ++ '\n' :: rest).takeWhile (· ≠ '\n') = s := by
    rw [List.takeWhile_append_of_pos (by simpa using fun c hc => (hs c hc).1)]
    simp
  have hback : '\\' ∉ s := fun h => (hs _ h).2 rfl
  simp only [lexer, hline, if_neg hback]
  simp

/-- Text up to the end of a token is in the first line. -/
theorem prefix_line {s t : List Char} {u : Token} (h : u ∈ (lexer.line (s ++ t)).1) (hstop : u.stop = s.length) :
    ∃ r, (s ++ t).takeWhile (· ≠ '\n') = s ++ r ∧ ∀ c ∈ s, c ≠ '\n' ∧ c ≠ '\\' := by
  obtain ⟨hat, hback⟩ := mem_line h
  obtain ⟨v, w, hline, hoffset⟩ := hat.found
  have hlen : s.length ≤ ((s ++ t).takeWhile (· ≠ '\n')).length := by
    rw [hline, ← hstop, Token.stop, hoffset, hat.length]
    simp only [List.length_append]
    omega
  obtain ⟨r, hr⟩ := List.prefix_of_prefix_length_le (List.prefix_append s t) (List.takeWhile_prefix _) hlen
  refine ⟨r, hr.symm, fun c hc => ⟨?_, ?_⟩⟩
  · have : c ∈ (s ++ t).takeWhile (· ≠ '\n') := by rw [← hr]; simp [hc]
    simpa using List.mem_takeWhile_imp this
  · rintro rfl
    rw [← hr] at hback
    simp [hc] at hback

theorem line_cut {s t : List Char} {toks more : List Token} {last : Token}
    (h : (lexer.line (s ++ t)).1 = toks ++ last :: more) (hlast : last.stop = s.length) (rest : List Char) :
    lexer.line (s ++ '\n' :: rest) = (toks ++ [last], rest) := by
  obtain ⟨r, hr, hs⟩ := prefix_line (u := last) (by rw [h]; simp) hlast
  rw [line_newline hs]
  simp only [lexer, hr] at h
  split at h
  · simp at h
  · rw [tokens_cut (Nat.zero_le _) h (by rw [hlast, Nat.zero_add])]

/-- A word and what is blank behind it. -/
theorem line_word {w blanks : List Char} (hne : w ≠ []) (hdigit : (w.headD ' ').isDigit = false)
    (hw : ∀ c ∈ w, identChar c) (hb : ∀ c ∈ blanks, c = ' ' ∨ c = '\t' ∨ c = '\r') (rest : List Char) :
    lexer.line (w ++ (blanks ++ '\n' :: rest)) = ([⟨w, 0, w.length, false, true⟩], rest) := by
  rw [← List.append_assoc, line_newline, tokens_identChars hw, tokens_blank hb, word, List.nil_append, if_neg hne,
    hdigit]
  · simp
  · intro c hc
    rcases List.mem_append.1 hc with hc | hc
    · exact identChar_ne (hw c hc)
    · exact blank_ne (hb c hc)

theorem line_alone {s : List Char} {t : Token} (h : t ∈ (lexer.line s).1) (hid : t.isIdentifier)
    {blanks lineEnd : List Char} (hb : Blank blanks) (he : LineEnd lineEnd) (rest : List Char) :
    lexer.line (t.spelling ++ (blanks ++ (lineEnd ++ rest))) =
      ([⟨t.spelling, 0, t.spelling.length, false, true⟩], rest) := by
  obtain ⟨hat, -⟩ := mem_line h
  obtain ⟨hdigit, hchars⟩ := hat.identifier hid
  rcases he with rfl | rfl
  · exact line_word hat.nonempty hdigit hchars (fun c hc => (hb c hc).imp_right .inl) rest
  · have hblanks : ∀ c ∈ blanks ++ ['\r'], c = ' ' ∨ c = '\t' ∨ c = '\r' := by
      intro c hc
      rcases List.mem_append.1 hc with hc | hc
      · exact (hb c hc).imp_right .inl
      · exact .inr (.inr (List.mem_singleton.1 hc))
    have hline := line_word hat.nonempty hdigit hchars hblanks rest
    rwa [List.append_assoc] at hline

theorem line_maximal {r : List Char} {t : Token} {more : List Token} (hid : t.isIdentifier)
    (h : (lexer.line (t.spelling ++ r)).1 = t :: more) : ¬ Continues lexer r := by
  intro hcont
  have hmem : t ∈ (lexer.line (t.spelling ++ r)).1 := by simp [h]
  obtain ⟨hat, hback⟩ := mem_line hmem
  have hchars := (hat.identifier hid).2
  have hline : (t.spelling ++ r).takeWhile (· ≠ '\n') = t.spelling ++ r.takeWhile (· ≠ '\n') :=
    List.takeWhile_append_of_pos (by simpa using fun c hc => (identChar_ne (hchars c hc)).1)
  rw [hline] at hback
  cases hcont with
  | @char c text hc =>
    have hc : identChar c := hc
    have hnl : c ≠ '\n' := (identChar_ne hc).1
    simp only [lexer, hline, if_neg hback] at h
    rw [tokens_identChars hchars, List.takeWhile_cons, if_pos (by simpa using hnl), tokens, if_pos hc] at h
    -- the first token has the character, too
    obtain ⟨u, more', hu, hlen⟩ := @tokens_head (text.takeWhile (· ≠ '\n')) ([] ++ t.spelling ++ [c])
      (0 + t.spelling.length + 1) false (by simp)
    rw [hu] at h
    cases h
    simp only [List.nil_append, List.length_append, List.length_singleton] at hlen
    omega
  | splice => simp at hback
  | escape hesc => exact hesc

theorem lawful : lexer.Lawful where
  cut h hlast _ := line_cut h hlast
  backslash := by
    intro s t toks last more h hlast
    have hmem : last ∈ (lexer.line (s ++ '\\' :: t)).1 := by rw [h]; simp
    obtain ⟨r, hr, hs⟩ := @prefix_line (s ++ ['\\']) t last (by simpa using hmem) (by simpa using hlast)
    exact absurd rfl (hs '\\' (by simp)).2
  ordered := by
    intro s
    simp only [lexer]
    split
    · exact List.Pairwise.nil
    · exact pairwise_tokens (Nat.zero_le _)
  inside := by
    intro s t h
    obtain ⟨u, v, rfl, hoffset, hlength⟩ := found_of_mem h
    simp only [Token.stop, hoffset, hlength, List.length_append]
    omega
  paren := by
    intro s t h hs
    obtain ⟨u, v, rfl, -⟩ := found_of_mem h
    simp [hs]
  spelled := by
    intro s t h hid
    have hchars := ((mem_line h).1.identifier hid).2
    obtain ⟨u, v, rfl, hoffset, hlength⟩ := found_of_mem h
    rw [hoffset, hlength, List.drop_left, List.take_left]
    exact spelled_self hchars
  identifier := by
    intro s t h hid
    obtain ⟨hat, -⟩ := mem_line h
    exact ⟨hat.nonempty, (hat.identifier hid).2⟩
  alone h hid _ _ rest hb he := ⟨false, rest, line_alone h hid hb he rest, fun _ => rfl⟩
  maximal := line_maximal
  identChar_paren := by decide

end Plain

end BuildPal.Lib
