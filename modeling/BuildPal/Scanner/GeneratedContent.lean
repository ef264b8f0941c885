import Mathlib.Data.List.TakeWhile
import BuildPal.Lib.Directives
import BuildPal.Scanner.HeaderTracker
/-!
# Replaying macros

`macroValueFromDirective` cuts the value of a macro out of the text it is
defined in, and `generateContent` puts the value behind the macro's name again.
The line is the definition when the cut goes from the end of the name to the end
of the last replacement token. It does not when there is no such token and the
macro has parameters, or when the name is spelled with splices.
-/
open BuildPal.Lib

namespace BuildPal.Scanner

/-! ## Values -/

/-- What Clang keeps of a definition. Places are in the buffer that the definition stands in. -/
structure MacroInfo where
  definitionLoc : Nat
  functionLike : Bool
  replacementTokens : List Token

def macroValueFromDirective (buffer macroName : List Char) (info : MacroInfo) : List Char :=
  let start := info.definitionLoc + macroName.length
  match info.replacementTokens.getLast? with
  | none => if !info.functionLike then [] else (buffer.drop start).takeWhile (· ≠ ')')
  | some last => (buffer.drop start).take (last.stop - start)

/-- `CacheEntry::generateContent`. -/
def generateContent (macroState : List Macro) : List Char :=
  macroState.flatMap fun m =>
    match m.2 with
    | none => "#undef ".toList ++ (m.1.toList ++ ['\n'])
    | some value => "#define ".toList ++ (m.1.toList ++ (value.toList ++ ['\n']))

/-- A `#define` that Clang has read, with its name at the given place of a buffer. -/
structure DefinedMacro (L : Lexer) where
  buffer : List Char
  loc : Nat
  directive : DefineDirective
  read : readDefine (L.line (buffer.drop loc)).1 = some directive
  located : directive.name.offset = 0

namespace DefinedMacro
variable {L : Lexer} (m : DefinedMacro L)

def name : List Char := m.directive.name.spelling

def info : MacroInfo where
  definitionLoc := m.loc
  functionLike := m.directive.params.isSome
  replacementTokens := m.directive.body.map fun t => { t with offset := m.loc + t.offset }

/-- What `macroDefined` notes. -/
def value : List Char := macroValueFromDirective m.buffer m.name m.info

def recorded : Macro := (String.ofList m.name, some (String.ofList m.value))

/-- The line that is generated for the macro defines it. -/
def Replays : Prop :=
  ∃ d, readDefine (L.line ((generateContent [m.recorded]).drop 8)).1 = some d ∧ d.name.spelling = m.name ∧
    d.definition = m.directive.definition

/-- The text from the name on. -/
def source : List Char := m.buffer.drop m.loc

/-- Only an object-like macro has no replacement tokens. If there are any, the name is spelled without splices and
escapes, and the last token does not end with a backslash. -/
def Replayable : Prop :=
  (m.directive.body = [] → m.directive.params = none) ∧
  ∀ last, m.directive.body.getLast? = some last →
    m.directive.name.length = m.name.length ∧ (m.source.take last.stop).getLast? ≠ some '\\'

theorem value_of_none (h : m.directive.body = []) (hp : m.directive.params = none) : m.value = [] := by
  simp [value, macroValueFromDirective, info, h, hp]

theorem value_of_params (h : m.directive.body = []) (hp : m.directive.params ≠ none) :
    m.value = (m.source.drop m.name.length).takeWhile (· ≠ ')') := by
  obtain ⟨ps, hps⟩ := Option.ne_none_iff_exists'.1 hp
  simp [value, macroValueFromDirective, info, h, hps, source, List.drop_drop]

theorem value_of_last {last : Token} (h : m.directive.body.getLast? = some last) :
    m.value = (m.source.drop m.name.length).take (last.stop - m.name.length) := by
  simp only [value, macroValueFromDirective, info, List.getLast?_map, h, Option.map_some, source, List.drop_drop,
    Token.stop]
  congr 1
  omega

theorem generateContent_recorded : (generateContent [m.recorded]).drop 8 = m.name ++ (m.value ++ ['\n']) := by
  simp only [generateContent, recorded, List.flatMap_cons, List.flatMap_nil, List.append_nil, String.toList_ofList]
  rfl

theorem tokens_eq :
    m.directive.name.isIdentifier ∧ ∃ header, (L.line m.source).1 = m.directive.name :: (header ++ m.directive.body) ∧
      (m.directive.params = none → header = []) ∧
      (m.directive.params ≠ none → ∃ t ∈ header, t.spelling = [')']) :=
  readDefine_eq m.read

theorem name_mem : m.directive.name ∈ (L.line m.source).1 := by
  obtain ⟨-, header, htokens, -⟩ := m.tokens_eq
  simp [htokens]

end DefinedMacro

/-- Directives with other last tokens are other definitions. -/
theorem definition_ne {tokens : List Token} {last other : Token} {d d' : DefineDirective}
    (hlast : d.body.getLast? = some last)
    (h' : readDefine (tokens ++ [other]) = some d') (hne : other.spelling ≠ last.spelling) :
    d'.definition ≠ d.definition := by
  intro hdef
  have hbody : d'.body.map _ = d.body.map _ := congrArg MacroDefinition.body hdef
  have hlast' := congrArg List.getLast? hbody
  rw [List.getLast?_map, List.getLast?_map, hlast] at hlast'
  obtain ⟨-, header, htokens, -⟩ := readDefine_eq h'
  cases hb : d'.body.getLast? with
  | none => simp [hb] at hlast'
  | some t =>
    obtain ⟨init, hinit⟩ := List.getLast?_eq_some_iff.1 hb
    rw [hinit, ← List.append_assoc, ← List.cons_append] at htokens
    obtain rfl : other = t := by simpa using (List.append_inj' htokens rfl).2
    simp only [hb, Option.map_some, Option.some.injEq, Prod.mk.injEq] at hlast'
    exact hne hlast'.1

/-! ## Definitions that are replayed -/

section
variable {L : Lexer} (hL : L.Lawful) (m : DefinedMacro L)
include hL

theorem name_spelled : Spelled L (m.source.take m.directive.name.length) m.name := by
  have h := hL.spelled m.name_mem m.tokens_eq.1
  rwa [m.located, List.drop_zero] at h

theorem name_length_le : m.name.length ≤ m.directive.name.length :=
  Nat.le_trans (name_spelled hL m).length_le (List.length_take_le _ _)

theorem length_take_name : (m.source.take m.directive.name.length).length = m.directive.name.length := by
  have h := hL.inside m.name_mem
  rw [Token.stop, m.located, Nat.zero_add] at h
  exact List.length_take_of_le h

/-- The last replacement token comes last, and after the name. -/
theorem last_token {last : Token} (h : m.directive.body.getLast? = some last) :
    ∃ tokens, (L.line m.source).1 = tokens ++ [last] ∧ m.directive.name.length ≤ last.stop := by
  obtain ⟨-, header, htokens, -⟩ := m.tokens_eq
  obtain ⟨init, hinit⟩ := List.getLast?_eq_some_iff.1 h
  refine ⟨m.directive.name :: (header ++ init), by simp [htokens, hinit], ?_⟩
  have hord := hL.ordered m.source
  rw [htokens, List.pairwise_cons] at hord
  have := hord.1 last (by simp [hinit])
  rwa [Token.stop, m.located, Nat.zero_add] at this

/-- The name as it is spelled, and the value, are the text up to the end of the last token. -/
theorem name_append_value {last : Token} (h : m.directive.body.getLast? = some last)
    (hplain : m.directive.name.length = m.name.length) : m.name ++ m.value = m.source.take last.stop := by
  obtain ⟨-, -, hle⟩ := last_token hL m h
  have hname : m.source.take m.name.length = m.name := by
    rw [← hplain]
    exact (name_spelled hL m).eq_of_length (by rw [length_take_name hL m, hplain])
  rw [hplain] at hle
  obtain ⟨k, hk⟩ := Nat.exists_eq_add_of_le hle
  rw [m.value_of_last h, hk, Nat.add_sub_cancel_left, List.take_add, hname]

/-- The generated line, whatever comes after it. -/
theorem replayed (hm : m.Replayable) (rest : List Char) :
    ∃ tokens d, L.line (m.name ++ (m.value ++ '\n' :: rest)) = (tokens, rest) ∧ readDefine tokens = some d ∧
      d.name.spelling = m.name ∧ d.definition = m.directive.definition := by
  cases hlast : m.directive.body.getLast? with
  | none =>
    have hbody := List.getLast?_eq_none_iff.1 hlast
    have hp := hm.1 hbody
    obtain ⟨space, rest', halone, hrest⟩ := hL.alone m.name_mem m.tokens_eq.1 [] ['\n'] rest (by simp [Blank])
      (.inl rfl)
    refine ⟨[⟨m.name, 0, m.name.length, space, true⟩], ⟨⟨m.name, 0, m.name.length, space, true⟩, none, []⟩, ?_,
      by simp [readDefine], rfl, ?_⟩
    · obtain rfl := hrest rfl
      rw [m.value_of_none hbody hp]
      exact halone
    · simp [DefineDirective.definition, hbody, hp]
  | some last =>
    obtain ⟨hplain, hback⟩ := hm.2 last hlast
    obtain ⟨tokens, htokens, -⟩ := last_token hL m hlast
    have hmem : last ∈ (L.line m.source).1 := by simp [htokens]
    refine ⟨tokens ++ [last], m.directive, ?_, ?_, rfl, rfl⟩
    · rw [← List.append_assoc, name_append_value hL m hlast hplain]
      refine @Lexer.Lawful.cut L hL _ (m.source.drop last.stop) _ _ [] ?_ ?_ ?_ rest
      · rw [List.take_append_drop, htokens]
      · exact (List.length_take_of_le (hL.inside hmem)).symm
      · exact hback
    · rw [← htokens]
      exact m.read

/-! ## Definitions that are not -/

/-- Without its closing parenthesis the line is no definition of a macro with parameters. -/
theorem not_replays_of_params (hbody : m.directive.body = []) (hp : m.directive.params ≠ none) : ¬ m.Replays := by
  rintro ⟨d, hread, -, hdef⟩
  rw [m.generateContent_recorded, m.value_of_params hbody hp] at hread
  obtain ⟨-, header, htokens, -, hparen⟩ := readDefine_eq hread
  have hdp : d.params = m.directive.params := congrArg MacroDefinition.params hdef
  obtain ⟨t, ht, hspelling⟩ := hparen (hdp ▸ hp)
  have hin := hL.paren (by rw [htokens]; simp [ht]) hspelling
  simp only [List.mem_append, List.mem_singleton] at hin
  rcases hin with hin | hin | hin
  · have := (hL.identifier m.name_mem m.tokens_eq.1).2 _ hin
    rw [hL.identChar_paren] at this
    cases this
  · have := List.mem_takeWhile_imp hin
    simp at this
  · exact absurd hin (by decide)

/-- The value starts within a name that is spelled with splices. -/
theorem not_replays_of_spliced {last : Token} (hlast : m.directive.body.getLast? = some last)
    (hne : m.directive.name.length ≠ m.name.length) : ¬ m.Replays := by
  rintro ⟨d, hread, hname, hdef⟩
  rw [m.generateContent_recorded] at hread
  obtain ⟨hid, header, htokens, -⟩ := readDefine_eq hread
  have hlt : m.name.length < (m.source.take m.directive.name.length).length := by
    rw [length_take_name hL m]
    exact Nat.lt_of_le_of_ne (name_length_le hL m) (Ne.symm hne)
  -- the value starts with what is left of the name
  obtain ⟨r, hr⟩ : ∃ r, m.value ++ ['\n'] = (m.source.take m.directive.name.length).drop m.name.length ++ r := by
    obtain ⟨-, -, hle⟩ := last_token hL m hlast
    obtain ⟨k, hk⟩ := Nat.exists_eq_add_of_le hle
    have hle' := name_length_le hL m
    refine ⟨(m.source.drop m.directive.name.length).take k ++ ['\n'], ?_⟩
    rw [m.value_of_last hlast, hk, List.drop_take,
      show m.directive.name.length + k - m.name.length = (m.directive.name.length - m.name.length) + k by omega,
      List.take_add, List.drop_drop, List.append_assoc]
    rw [show m.name.length + (m.directive.name.length - m.name.length) = m.directive.name.length by omega]
  rcases (name_spelled hL m).drop hlt with hcont | ⟨blanks, lineEnd, rest, hblank, hend, hrest⟩
  · have hcont' : Continues L (m.value ++ ['\n']) := hr ▸ hcont.append r
    rw [← hname] at htokens
    exact hL.maximal hid htokens hcont'
  · obtain ⟨space, rest', halone, -⟩ := hL.alone m.name_mem m.tokens_eq.1 blanks lineEnd (rest ++ r) hblank hend
    have hline : m.name ++ (m.value ++ ['\n']) = m.directive.name.spelling ++ (blanks ++ (lineEnd ++ (rest ++ r))) := by
      rw [hr, hrest, List.append_assoc, List.append_assoc]
      rfl
    rw [hline, halone] at hread
    cases hread
    have hbody : m.directive.body.map _ = [] := (congrArg MacroDefinition.body hdef).symm
    rw [List.map_eq_nil_iff.1 hbody] at hlast
    cases hlast

/-- The backslash and the new line behind it are a splice. -/
theorem not_replays_of_backslash {last : Token} (hlast : m.directive.body.getLast? = some last)
    (hplain : m.directive.name.length = m.name.length) (hback : (m.source.take last.stop).getLast? = some '\\') :
    ¬ m.Replays := by
  rintro ⟨d, hread, -, hdef⟩
  rw [m.generateContent_recorded, ← List.append_assoc, name_append_value hL m hlast hplain] at hread
  obtain ⟨tokens, htokens, -⟩ := last_token hL m hlast
  have hmem : last ∈ (L.line m.source).1 := by simp [htokens]
  obtain ⟨u, hu⟩ := List.getLast?_eq_some_iff.1 hback
  have hlen : last.stop = u.length + 1 := by
    have := congrArg List.length hu
    rw [List.length_take_of_le (hL.inside hmem)] at this
    simpa using this
  have hsource : m.source = u ++ '\\' :: m.source.drop last.stop := by
    conv_lhs => rw [← List.take_append_drop last.stop m.source, hu]
    simp
  have hline : m.source.take last.stop ++ ['\n'] = u ++ ['\\', '\n'] := by
    rw [hu]
    simp
  have hown : readDefine (tokens ++ [last]) = some m.directive := htokens ▸ m.read
  rw [hline] at hread
  rcases @Lexer.Lawful.backslash L hL _ (m.source.drop last.stop) _ _ [] (by rw [← hsource, htokens]) hlen with
    hspliced | ⟨other, hspliced, hother⟩
  · -- the token is gone
    have hbody : m.directive.body ≠ [] := by
      rintro h
      simp [h] at hlast
    have hdrop := readDefine_dropLast hown hbody
    rw [List.dropLast_concat, ← hspliced, hread] at hdrop
    cases hdrop
    have hlen' := congrArg (fun d => d.body.length) hdef
    simp only [DefineDirective.definition, List.length_map, List.length_dropLast] at hlen'
    have := List.length_pos_iff.2 hbody
    omega
  · -- it is another one
    rw [hspliced] at hread
    exact definition_ne hlast hread hother hdef

theorem replays_iff : m.Replays ↔ m.Replayable := by
  constructor
  · intro h
    refine ⟨fun hbody => ?_, fun last hlast => ?_⟩
    · by_contra hp
      exact not_replays_of_params hL m hbody hp h
    · have hplain : m.directive.name.length = m.name.length := by
        by_contra hne
        exact not_replays_of_spliced hL m hlast hne h
      exact ⟨hplain, fun hback => not_replays_of_backslash hL m hlast hplain hback h⟩
  · intro h
    obtain ⟨tokens, d, hline, hread, hname, hdef⟩ := replayed hL m h []
    refine ⟨d, ?_, hname, hdef⟩
    rw [m.generateContent_recorded, hline]
    exact hread

end

/-! ## Cache entries -/

/-- A macro of an entry's `macroState()`: what stands in the `#undef` of the other ones is an identifier. -/
inductive CachedMacro (L : Lexer) where
  | defined (m : DefinedMacro L)
  | undefined (name : List Char) (h : ∃ s t, t ∈ (L.line s).1 ∧ t.isIdentifier ∧ t.spelling = name)

namespace CachedMacro
variable {L : Lexer}

def recorded : CachedMacro L → Macro
  | .defined m => m.recorded
  | .undefined name _ => (String.ofList name, none)

def Replayable : CachedMacro L → Prop
  | .defined m => m.Replayable
  | .undefined _ _ => True

/-- What the macro was when the entry was made. -/
def apply (σ : MacroTable) : CachedMacro L → MacroTable
  | .defined m => σ.set m.name (some m.directive.definition)
  | .undefined name _ => σ.set name none

end CachedMacro

theorem readLine_recorded {L : Lexer} (hL : L.Lawful) {m : CachedMacro L} (hm : m.Replayable) (σ : MacroTable)
    (rest : List Char) : L.readLine σ (generateContent [m.recorded] ++ rest) = (m.apply σ, rest) := by
  cases m with
  | defined m =>
    obtain ⟨tokens, d, hline, hread, hname, hdef⟩ := replayed hL m hm rest
    have htext : generateContent [m.recorded] ++ rest = "#define ".toList ++ (m.name ++ (m.value ++ '\n' :: rest)) := by
      simp [generateContent, DefinedMacro.recorded]
    have hdrop : ("#define ".toList ++ (m.name ++ (m.value ++ '\n' :: rest))).drop 8 =
        m.name ++ (m.value ++ '\n' :: rest) := rfl
    rw [CachedMacro.recorded, htext, Lexer.readLine, if_pos (by simp), hdrop, hline]
    simp only [hread, Option.elim_some, hname, hdef]
    rfl
  | undefined name h =>
    obtain ⟨s, t, ht, hid, rfl⟩ := h
    obtain ⟨space, rest', halone, hrest⟩ := hL.alone ht hid [] ['\n'] rest (by simp [Blank]) (.inl rfl)
    cases hrest rfl
    have htext : generateContent [CachedMacro.recorded (L := L) (.undefined t.spelling ⟨s, t, ht, hid, rfl⟩)] ++ rest =
        "#undef ".toList ++ (t.spelling ++ ([] ++ '\n' :: rest)) := by
      simp [generateContent, CachedMacro.recorded]
    have hdrop : ("#undef ".toList ++ (t.spelling ++ ([] ++ '\n' :: rest))).drop 7 =
        t.spelling ++ ([] ++ '\n' :: rest) := rfl
    have hdefine : ¬ "#define ".toList.isPrefixOf ("#undef ".toList ++ (t.spelling ++ ([] ++ '\n' :: rest))) := by
      simp
    rw [htext, Lexer.readLine, if_neg hdefine, if_pos (by simp), hdrop]
    exact congrArg (fun r => ((r.1.head?.filter (·.isIdentifier)).elim σ fun t => σ.set t.spelling none, r.2)) halone

theorem generateContent_cons (m : Macro) (ms : List Macro) :
    generateContent (m :: ms) = generateContent [m] ++ generateContent ms := by
  simp [generateContent]

theorem preprocess_generateContent {L : Lexer} (hL : L.Lawful) {ms : List (CachedMacro L)}
    (hms : ∀ m ∈ ms, m.Replayable) {lines : Nat} (hlines : ms.length ≤ lines) (σ : MacroTable) :
    L.preprocess lines σ (generateContent (ms.map (·.recorded))) = ms.foldl CachedMacro.apply σ := by
  induction ms generalizing lines σ with
  | nil =>
    cases lines <;> rfl
  | cons m ms ih =>
    cases lines with
    | zero => cases hlines
    | succ lines =>
      have hread := readLine_recorded hL (hms m List.mem_cons_self) σ (generateContent (ms.map (·.recorded)))
      rw [List.map_cons, generateContent_cons]
      have hne : generateContent [m.recorded] ++ generateContent (ms.map (·.recorded)) ≠ [] := by
        cases m <;> simp [generateContent, CachedMacro.recorded, DefinedMacro.recorded]
      obtain ⟨c, text, htext⟩ := List.exists_cons_of_ne_nil hne
      rw [htext, Lexer.preprocess, ← htext, hread]
      exact ih (fun m hm => hms m (List.mem_cons_of_mem _ hm)) (Nat.le_of_succ_le_succ hlines) _

/-- A definition is replayed as it was if, and only if, it is replayable, and an entry of such definitions brings
any macros to what they were when the entry was made. -/
theorem cached_macros_replayed (L : Lexer) (hL : L.Lawful) :
    (∀ m : DefinedMacro L, m.Replays ↔ m.Replayable) ∧
    ∀ (ms : List (CachedMacro L)), (∀ m ∈ ms, m.Replayable) → ∀ lines ≥ ms.length, ∀ σ,
      L.preprocess lines σ (generateContent (ms.map (·.recorded))) = ms.foldl CachedMacro.apply σ :=
  ⟨replays_iff hL, fun _ hms _ hlines σ => preprocess_generateContent hL hms hlines σ⟩

/-- `#define SQ(x) x * x` -/
def square : DefinedMacro Plain.lexer where
  buffer := "#define SQ(x) x * x\nint y;\n".toList
  loc := 8
  directive := ⟨⟨"SQ".toList, 0, 2, false, true⟩, some (["x".toList], false),
    [⟨"x".toList, 6, 1, true, true⟩, ⟨"*".toList, 8, 1, true, false⟩, ⟨"x".toList, 10, 1, true, true⟩]⟩
  read := by decide +kernel
  located := rfl

/-- `#define F(x)` -/
def noTokens : DefinedMacro Plain.lexer where
  buffer := "#define F(x)\n".toList
  loc := 8
  directive := ⟨⟨"F".toList, 0, 1, false, true⟩, some (["x".toList], false), []⟩
  read := by decide +kernel
  located := rfl

theorem cached_macros_replayed_square :
    square.Replays ∧
    Plain.lexer.preprocess 1 (fun _ => none) "#define SQ(x) x * x\n".toList = MacroTable.set (fun _ => none) "SQ".toList
      (some ⟨some (["x".toList], false), [("x".toList, true), ("*".toList, true), ("x".toList, true)]⟩) := by
  have hsquare : square.Replayable := by
    refine ⟨(by rintro ⟨⟩), ?_⟩
    rintro last ⟨⟩
    decide
  obtain ⟨hiff, hentry⟩ := cached_macros_replayed Plain.lexer Plain.lawful
  have h := hentry [.defined square] (by simpa [CachedMacro.Replayable] using hsquare) 1 (Nat.le_refl 1) fun _ => none
  have htext : generateContent [CachedMacro.recorded (.defined square)] = "#define SQ(x) x * x\n".toList := by
    decide +kernel
  rw [List.map_singleton, htext] at h
  exact ⟨(hiff square).2 hsquare, h⟩

/-- The line is `#define F(x`. -/
theorem parenthesis_lost :
    generateContent [noTokens.recorded] = "#define F(x\n".toList ∧ ¬ noTokens.Replays ∧
    Plain.lexer.preprocess 1 (fun _ => none) (generateContent [noTokens.recorded]) "F".toList = none := by
  refine ⟨by decide +kernel, ?_, by decide +kernel⟩
  rintro ⟨d, hread, -⟩
  have : readDefine (Plain.lexer.line ((generateContent [noTokens.recorded]).drop 8)).1 = none := by decide +kernel
  rw [this] at hread
  cases hread

end BuildPal.Scanner
