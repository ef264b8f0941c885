import BuildPal.Lib.BigEndian
import BuildPal.Lib.Patterns
import BuildPal.Manager.CreatePch
/-!
# Identifying the compiler

`prepare_test_source` and `get_compiler_info` of `compilers/msvc.py`. The client
compiles a source that prints the compiler's own macros; what it prints, and the
compiler's banner, say which compiler it is and which files it consists of.
-/
open BuildPal.Message
open BuildPal.Runner (splitPath)
open BuildPal.Lib (toBE)
open BuildPal.Lib.Patterns

namespace BuildPal.Conversation

/-- `str.encode`. -/
def encode (text : String) : Bytes := text.toList.flatMap String.utf8EncodeChar

theorem decode_encode (text : String) : decode (encode text) = some text := by
  have hbytes : (⟨(encode text).toArray⟩ : ByteArray) = text.toByteArray := by
    rw [← String.ofList_toList (s := text), String.toByteArray_ofList, List.utf8Encode, encode, String.toList_ofList]
    exact ByteArray.ext List.data_toByteArray.symm
  rw [decode, hbytes, String.fromUTF8?, dif_pos text.isValidUTF8]
  rfl

namespace MSVCCompiler

/-! ## The test source -/

def placeholderString : String := "__PLACEHOLDER_G87AD68BGV7AD67BV8ADR8B6"

/-- The macros that do not depend on the options. -/
def testMacros : List String :=
  ["_MSC_VER", "_MSC_FULL_VER", "_CPPLIB_VER", "_HAS_TR1", "_WIN32", "_WIN64", "_M_IX86", "_M_IA64", "_M_MPPC",
    "_M_MRX000", "_M_PPC", "_M_X64", "_M_ARM", "_INTEGRAL_MAX_BITS", "__cplusplus"]

inductive TestLine where
  /-- Nothing is printed for it. -/
  | text (line : String)
  | ifndef (m : String)
  | messageNotDefined (m : String)
  | otherwise
  | messageValue (m : String)
  | endif

def TestLine.render : TestLine → String
  | .text line => line
  | .ifndef m => "#ifndef " ++ m ++ "\n"
  | .messageNotDefined m => "#pragma message(\"" ++ placeholderString ++ "/" ++ m ++ "/__NOT_DEFINED__/\")\n"
  | .otherwise => "#else\n"
  | .messageValue m => "#pragma message(\"" ++ placeholderString ++ "/" ++ m ++ "/\" STR(" ++ m ++ ") \"/\")\n"
  | .endif => "#endif\n"

/-- The lines that `TestSource` writes. -/
def testLines (macros : List String) : List TestLine :=
  [.text "#include <yvals.h>\n", .text "#define STR(x) STR_I((x))\n", .text "#define STR_I(x) STR_II x\n",
    .text "#define STR_II(x) #x\n"] ++
  macros.flatMap fun m => [.ifndef m, .messageNotDefined m, .otherwise, .messageValue m, .endif]

/-! ## `get_compiler_info` -/

def notNewLine (c : UInt8) : Bool := c ≠ 10

def slash : Bytes := [47]

/-- `PLACEHOLDER/(.*)/(.*)/`. -/
def macroPattern : List (Piece UInt8) :=
  [.text (encode placeholderString ++ slash), .group notNewLine, .text slash, .group notNewLine, .text slash]

def bannerStart : Bytes := encode "C/C++ Optimizing Compiler Version "

/-- `C/C\+\+ Optimizing Compiler Version (?P<ver>.*) for (?P<plat>.*)\r\n`. -/
def bannerPattern : List (Piece UInt8) :=
  [.text bannerStart, .group notNewLine, .text (encode " for "), .group notNewLine, .text [13, 10]]

/-- `bytes.split`, with the end of a line. -/
def splitLines : Bytes → List Bytes
  | 13 :: 10 :: rest => [] :: splitLines rest
  | c :: rest => (splitLines rest).modifyHead (c :: ·)
  | [] => [[]]

/-- The macros that the lines name; a name or a value that is no text raises. -/
def readMacros : List Bytes → Option (List String)
  | [] => some []
  | line :: output =>
    match matchAt macroPattern line with
    | some [name, value] =>
      if value = encode "__NOT_DEFINED__" then readMacros output
      else
        match decode name, decode value, readMacros output with
        | some name, some value, some macros => some ((name ++ "=" ++ value) :: macros)
        | _, _, _ => none
    | _ => readMacros output

def compilerFiles : List (Bytes × List Bytes) :=
  [(encode "14.00", ["c1.dll", "c1ast.dll", "c1xx.dll", "c1xxast.dll", "c2.dll", "cl.exe", "mspdb80.dll",
      "1033/atlprovui.dll", "1033/bscmakeui.dll", "1033/clui.dll", "1033/cvtresui.dll", "1033/linkui.dll",
      "1033/mspft80ui.dll", "1033/nmakeui.dll", "1033/pgort80ui.dll", "1033/pgoui.dll",
      "1033/vcomp80ui.dll"].map encode),
    (encode "15.00", ["c1.dll", "c1ast.dll", "c1xx.dll", "c1xxast.dll", "c2.dll", "cl.exe", "mspdb80.dll",
      "1033/atlprovui.dll", "1033/bscmakeui.dll", "1033/clui.dll", "1033/cvtresui.dll", "1033/linkui.dll",
      "1033/mspft80ui.dll", "1033/nmakeui.dll", "1033/pgort90ui.dll", "1033/pgoui.dll",
      "1033/vcomp90ui.dll"].map encode),
    (encode "16.00", ["c1.dll", "c1xx.dll", "c2.dll", "cl.exe", "mspdb100.dll", "1033/atlprovui.dll",
      "1033/bscmakeui.dll", "1033/clui.dll", "1033/cvtresui.dll", "1033/linkui.dll", "1033/nmakeui.dll",
      "1033/pgort100ui.dll", "1033/pgoui.dll", "1033/vcomp100ui.dll"].map encode),
    (encode "17.00", ["c1.dll", "c1ast.dll", "c1xx.dll", "c1xxast.dll", "c2.dll", "cl.exe", "mspdb110.dll",
      "1033/atlprovui.dll", "1033/bscmakeui.dll", "1033/clui.dll", "1033/cvtresui.dll", "1033/linkui.dll",
      "1033/mspft110ui.dll", "1033/nmakeui.dll", "1033/pgort110ui.dll", "1033/pgoui.dll",
      "1033/vcomp110ui.dll"].map encode),
    (encode "18.00", ["c1.dll", "c1ast.dll", "c1xx.dll", "c1xxast.dll", "c2.dll", "cl.exe", "mspdb120.dll",
      "1033/bscmakeui.dll", "1033/clui.dll", "1033/cvtresui.dll", "1033/linkui.dll", "1033/mspft120ui.dll",
      "1033/nmakeui.dll", "1033/vcomp120ui.dll"].map encode)]

/-- The manager's disk, and `zlib.adler32`. -/
structure Host where
  readFile : String → Option Bytes
  adler32 : Bytes → Nat

/-- Whatever it raises, the compiler is not identified. -/
def getCompilerInfo (host : Host) (executable : String) (stdout stderr : Bytes) : Option (CompilerInfo × List Bytes) :=
  match readMacros (splitLines stdout), search bannerPattern stderr, host.readFile executable with
  | some macros, some [ver, plat], some content =>
    (compilerFiles.lookup (ver.take 5)).map fun files =>
      ({ executable := (splitPath executable).2
         compilerId := [ver, plat, toBE 4 (host.adler32 content)]
         macros := macros }, files)
  | _, _, _ => none

/-- There are files to look for, whichever compiler it is. -/
theorem getCompilerInfo_files {host : Host} {executable : String} {stdout stderr : Bytes} {info : CompilerInfo}
    {files : List Bytes} (h : getCompilerInfo host executable stdout stderr = some (info, files)) : files ≠ [] := by
  have hall : ∀ e ∈ compilerFiles, e.2 ≠ [] := by
    simp only [compilerFiles, List.mem_cons, List.not_mem_nil, or_false, forall_eq_or_imp, forall_eq, List.map_cons,
      ne_eq, reduceCtorEq, not_false_eq_true, and_self]
  rw [getCompilerInfo] at h
  split at h
  · next ver _ _ _ _ _ =>
    obtain ⟨fs, hlookup, heq⟩ := Option.map_eq_some_iff.1 h
    cases heq
    obtain ⟨l₁, l₂, hsplit, -⟩ := List.lookup_eq_some_iff.1 hlookup
    exact hall (ver.take 5, files) (by simp [hsplit])
  · cases h

/-! ## What the compiler prints -/

/-- The compiler's own macros, each with the text that it stands for. -/
abbrev Values := String → Option Bytes

def message (m : String) (value : Bytes) : Bytes :=
  encode placeholderString ++ slash ++ encode m ++ slash ++ value ++ slash

/-- The messages that are printed for the lines; `active` says of each `#if` around them whether it was taken. -/
def compile (values : Values) : List Bool → List TestLine → List Bytes
  | _, [] => []
  | active, .text _ :: lines => compile values active lines
  | active, .ifndef m :: lines => compile values ((values m).isNone :: active) lines
  | active, .otherwise :: lines => compile values (active.modifyHead (! ·)) lines
  | active, .endif :: lines => compile values active.tail lines
  | active, .messageNotDefined m :: lines =>
    (if active.all id then [message m (encode "__NOT_DEFINED__")] else []) ++ compile values active lines
  | active, .messageValue m :: lines =>
    (if active.all id then [message m ((values m).getD (encode m))] else []) ++ compile values active lines

/-- The name of the source is printed first. -/
def testOutput (fileName : Bytes) (values : Values) : Bytes :=
  (fileName :: compile values [] (testLines testMacros)).flatMap (· ++ [13, 10])

def lineOf (values : Values) (m : String) : Bytes := message m ((values m).getD (encode "__NOT_DEFINED__"))

/-- One line for each macro. -/
theorem compile_testLines (values : Values) (macros : List String) :
    compile values [] (testLines macros) = macros.map (lineOf values) := by
  simp only [testLines, List.cons_append, List.nil_append, compile]
  induction macros with
  | nil => rfl
  | cons m macros ih =>
    simp only [List.flatMap_cons, List.cons_append, List.nil_append, compile, List.modifyHead_cons, List.tail_cons,
      List.map_cons, ih]
    cases hm : values m <;> simp [hm, lineOf]

/-! ## Reading it back -/

/-- A value that is a piece of one line, and can be told from a macro that is not defined. -/
structure Readable (value : Bytes) : Prop where
  text : decode value ≠ none
  line : 10 ∉ value
  noSlash : 47 ∉ value
  defined : value ≠ encode "__NOT_DEFINED__"

theorem splitLines_append {line : Bytes} (h : 10 ∉ line) (rest : Bytes) :
    splitLines (line ++ 13 :: 10 :: rest) = line :: splitLines rest := by
  induction line with
  | nil => rfl
  | cons c line ih =>
    have hih := ih (fun h' => h (List.mem_cons_of_mem _ h'))
    rw [List.cons_append, splitLines, hih, List.modifyHead_cons]
    rintro tail rfl hline
    cases line with
    | nil => cases hline
    | cons d line =>
      cases hline
      exact h (by simp)

theorem splitLines_lines {lines : List Bytes} (h : ∀ l ∈ lines, 10 ∉ l) :
    splitLines (lines.flatMap (· ++ [13, 10])) = lines ++ [[]] := by
  induction lines with
  | nil => rfl
  | cons line lines ih =>
    rw [List.flatMap_cons, List.append_assoc, List.cons_append, List.cons_append, List.nil_append,
      splitLines_append (h line (by simp)), ih fun l hl => h l (by simp [hl]), List.cons_append]

/-- A text with two slashes is taken apart in one way. -/
theorem two_slashes {m v a b r : Bytes} (hm : 47 ∉ m) (hv : 47 ∉ v)
    (h : a ++ (slash ++ (b ++ (slash ++ r))) = m ++ (slash ++ (v ++ slash))) : a = m ∧ b = v := by
  have hcount := congrArg (List.count 47) h
  simp only [slash, List.count_append, List.count_singleton_self, List.count_eq_zero_of_not_mem hm,
    List.count_eq_zero_of_not_mem hv] at hcount
  have ha : (47 : UInt8) ∉ a := List.count_eq_zero.1 (by omega)
  have hb : (47 : UInt8) ∉ b := List.count_eq_zero.1 (by omega)
  obtain ⟨heq, hrest⟩ := eq_of_append_cons ha hm h
  exact ⟨heq, (eq_of_append_cons hb hv hrest).1⟩

theorem all_notNewLine {s : Bytes} (h : 10 ∉ s) : ∀ c ∈ s, notNewLine c := by
  intro c hc
  simp only [notNewLine, decide_eq_true_eq]
  rintro rfl
  exact h hc

/-- Two groups, and the text around them. -/
theorem follows_two_groups {p q : UInt8 → Bool} {t u w s : Bytes} {gs : List Bytes}
    (h : Follows [.text t, .group p, .text u, .group q, .text w] gs s) :
    ∃ a b r, gs = [a, b] ∧ (∀ c ∈ a, p c) ∧ (∀ c ∈ b, q c) ∧ s = t ++ (a ++ (u ++ (b ++ (w ++ r)))) := by
  cases h with
  | text _ h =>
  cases h with
  | group ha h =>
  cases h with
  | text _ h =>
  cases h with
  | group hb h =>
  cases h with
  | text _ h =>
  cases h with
  | nil => exact ⟨_, _, _, rfl, ha, hb, rfl⟩

/-- The groups are the macro's name and its value. -/
theorem matchAt_message {m : String} {v : Bytes} (hm : 47 ∉ encode m ∧ 10 ∉ encode m) (hv : 47 ∉ v ∧ 10 ∉ v) :
    matchAt macroPattern (message m v) = some [encode m, v] := by
  have heq : message m v = (encode placeholderString ++ slash) ++ (encode m ++ (slash ++ (v ++ (slash ++ [])))) := by
    simp [message]
  rw [heq]
  apply matchAt_unique
  · exact .text _ (.group (all_notNewLine hm.2) (.text _ (.group (all_notNewLine hv.2) (.text _ (.nil _)))))
  · intro gs h
    obtain ⟨a, b, r, hgs, -, -, htext⟩ := follows_two_groups h
    obtain ⟨rfl, rfl⟩ := two_slashes hm.1 hv.1 (List.append_cancel_left htext).symm
    exact hgs

theorem matchAt_other {line : Bytes} (h : ¬ encode placeholderString <+: line) : matchAt macroPattern line = none := by
  rw [macroPattern, matchAt, if_neg]
  exact fun h' => h ((List.prefix_append _ _).trans h')

/-- What there is to read for a macro. -/
def readBack (values : Values) (m : String) : Option String := ((values m).bind decode).map (m ++ "=" ++ ·)

theorem plain_notDefined : 47 ∉ encode "__NOT_DEFINED__" ∧ 10 ∉ encode "__NOT_DEFINED__" := by decide

theorem plain_testMacros : ∀ m ∈ testMacros, 47 ∉ encode m ∧ 10 ∉ encode m := by decide

theorem readMacros_lines {values : Values} {macros : List String} (hm : ∀ m ∈ macros, 47 ∉ encode m ∧ 10 ∉ encode m)
    (hvalues : ∀ m ∈ macros, ∀ v, values m = some v → Readable v) :
    readMacros (macros.map (lineOf values) ++ [[]]) = some (macros.filterMap (readBack values)) := by
  induction macros with
  | nil =>
    rw [List.map_nil, List.nil_append, readMacros, matchAt_other (by decide)]
    rfl
  | cons m macros ih =>
    have hih := ih (fun m' h => hm m' (by simp [h])) (fun m' h => hvalues m' (by simp [h]))
    rw [List.map_cons, List.cons_append, readMacros, lineOf]
    cases hv : values m with
    | none =>
      rw [Option.getD_none, matchAt_message (hm m (by simp)) plain_notDefined]
      simp [readBack, hv, hih]
    | some v =>
      have hr := hvalues m (by simp) v hv
      obtain ⟨text, htext⟩ := Option.ne_none_iff_exists'.1 hr.text
      rw [Option.getD_some, matchAt_message (hm m (by simp)) ⟨hr.noSlash, hr.line⟩]
      simp [readBack, hv, hih, hr.defined, htext, decode_encode]

theorem lineOf_line {values : Values} {m : String} (hm : 10 ∉ encode m) (hvalues : ∀ v, values m = some v → 10 ∉ v) :
    10 ∉ lineOf values m := by
  have hplaceholder : 10 ∉ encode placeholderString ++ slash := by decide
  have hslash : 10 ∉ slash := by decide
  have hvalue : 10 ∉ (values m).getD (encode "__NOT_DEFINED__") := by
    cases hv : values m with
    | none => exact plain_notDefined.2
    | some v => exact hvalues v hv
  intro h
  simp only [lineOf, message, List.mem_append, or_assoc] at h hplaceholder
  tauto

/-! ### The banner -/

def banner (before ver plat after : Bytes) : Bytes :=
  before ++ (bannerStart ++ (ver ++ (encode " for " ++ (plat ++ ([13, 10] ++ after)))))

/-- The banner starts where it seems to, and its last " for " is the one before the platform. -/
structure Banner (before ver plat : Bytes) : Prop where
  first : ∀ a b, before = a ++ b → b ≠ [] → ¬ bannerStart <+: b ++ bannerStart
  verLine : 10 ∉ ver
  platLine : 10 ∉ plat
  last : ¬ encode " for " <:+: encode "for " ++ plat

/-- Whatever the groups are, they share the line. -/
theorem banner_line {ver plat a b after r : Bytes} (hver : 10 ∉ ver) (hplat : 10 ∉ plat) (ha : 10 ∉ a) (hb : 10 ∉ b)
    (h : ver ++ (encode " for " ++ (plat ++ ([13, 10] ++ after))) = a ++ (encode " for " ++ (b ++ ([13, 10] ++ r)))) :
    ver ++ (encode " for " ++ plat) = a ++ (encode " for " ++ b) := by
  have hfor : 10 ∉ encode " for " := by decide
  have hline : ∀ {u w : Bytes}, 10 ∉ u → 10 ∉ w → 10 ∉ u ++ (encode " for " ++ w) ++ [13] := by
    intro u w hu hw
    simp [hu, hw, hfor]
  have h' : (ver ++ (encode " for " ++ plat) ++ [13]) ++ 10 :: after =
      (a ++ (encode " for " ++ b) ++ [13]) ++ 10 :: r := by
    simpa using h
  exact List.append_cancel_right (eq_of_append_cons (hline hver hplat) (hline ha hb) h').1

theorem search_banner {before ver plat : Bytes} (h : Banner before ver plat) (after : Bytes) :
    search bannerPattern (banner before ver plat after) = some [ver, plat] := by
  apply search_append
  · apply matchAt_eq_some.2 ⟨?_, ?_⟩
    · exact .text _ (.group (all_notNewLine h.verLine) (.text _ (.group (all_notNewLine h.platLine)
        (.text _ (.nil _)))))
    · intro gs hgs
      obtain ⟨a, b, r, rfl, ha, hb, htext⟩ := follows_two_groups hgs
      have ha' : 10 ∉ a := fun hc => by simpa [notNewLine] using ha 10 hc
      have hb' : 10 ∉ b := fun hc => by simpa [notNewLine] using hb 10 hc
      have hline := banner_line h.verLine h.platLine ha' hb' (List.append_cancel_left htext)
      have hle : a.length ≤ ver.length := by
        by_contra hlt
        -- a longer version would have the last " for " in it
        obtain ⟨w, hw⟩ : ver <+: a := by
          have hver : ver <+: ver ++ (encode " for " ++ plat) := List.prefix_append _ _
          refine List.prefix_of_prefix_length_le hver ?_ (by omega)
          rw [hline]
          exact List.prefix_append _ _
        subst hw
        rw [List.append_assoc] at hline
        have hrest := List.append_cancel_left hline
        cases w with
        | nil => simp at hlt
        | cons c w =>
          apply h.last
          refine ⟨w, b, ?_⟩
          have htail := congrArg List.tail hrest
          simpa [encode, String.utf8EncodeChar] using htail.symm
      rcases Nat.lt_or_eq_of_le hle with hlt | heq
      · exact .inl hlt
      · obtain ⟨rfl, hrest⟩ := List.append_inj hline heq.symm
        rw [List.append_cancel_left hrest]
        exact Lib.Patterns.NoLonger.refl _
  · intro a b hab hb
    rw [bannerPattern, matchAt, if_neg]
    intro hpre
    apply h.first a b hab hb
    have hle : bannerStart.length ≤ (b ++ bannerStart).length := by simp
    refine List.prefix_of_prefix_length_le hpre ?_ hle
    rw [← List.append_assoc]
    exact List.prefix_append _ _

end MSVCCompiler

open MSVCCompiler in
/-- The manager learns the compiler that the client has. The compiler is given the arguments of the test command,
however the files are called. Of what a compiler of a known version prints, every macro of the test source that it
defines is read with its value, in order, and its version, its platform and the checksum of its executable make up its
id. A compiler of another version is not identified. -/
theorem compiler_identified (source : TestSource) (host : Host) (executable : String) {fileName : Bytes}
    (hname : 10 ∉ fileName ∧ ¬ encode placeholderString <+: fileName) {values : Values}
    (hvalues : ∀ m ∈ testMacros, ∀ v, values m = some v → Readable v) {before ver plat : Bytes}
    (hbanner : Banner before ver plat) (after : Bytes) :
    Lib.CommandLine.split (executeGetOutputText source.command) = source.command.map String.toList ∧
      getCompilerInfo host executable (testOutput fileName values) (banner before ver plat after) =
        (host.readFile executable).bind fun content => (compilerFiles.lookup (ver.take 5)).map fun files =>
          ({ executable := (splitPath executable).2
             compilerId := [ver, plat, toBE 4 (host.adler32 content)]
             macros := testMacros.filterMap (readBack values) }, files) := by
  have hlines : ∀ l ∈ fileName :: testMacros.map (lineOf values), 10 ∉ l := by
    intro l hl
    rcases List.mem_cons.1 hl with rfl | hl
    · exact hname.1
    · obtain ⟨m, hm, rfl⟩ := List.mem_map.1 hl
      exact lineOf_line (plain_testMacros m hm).2 fun v hv => (hvalues m hm v hv).line
  have hmacros : readMacros (splitLines (testOutput fileName values)) =
      some (testMacros.filterMap (readBack values)) := by
    rw [testOutput, compile_testLines, splitLines_lines hlines, List.cons_append, readMacros, matchAt_other hname.2]
    exact readMacros_lines plain_testMacros hvalues
  refine ⟨executeGetOutput_unchanged source.command, ?_⟩
  rw [getCompilerInfo, hmacros, search_banner hbanner after]
  cases host.readFile executable <;> rfl

open MSVCCompiler in
theorem compiler_identified_16 :
    Lib.CommandLine.split (executeGetOutputText (TestSource.command ⟨"my t.cpp", "my t.obj"⟩)) =
        ["/Fomy t.obj", "-c", "my t.cpp"].map String.toList ∧
      getCompilerInfo ⟨fun _ => some [], fun _ => 1⟩ "C:/VC/bin/cl.exe"
          (testOutput (encode "a.cpp") fun m => if m = "_MSC_VER" then some (encode "1600") else none)
          (banner (encode "Microsoft (R) 32-bit ") (encode "16.00.40219.01") (encode "80x86") (encode "Copyright")) =
        (compilerFiles.lookup (encode "16.00")).map fun files =>
          ({ executable := "cl.exe", compilerId := [encode "16.00.40219.01", encode "80x86", toBE 4 1],
             macros := ["_MSC_VER=1600"] }, files) := by
  have hmacros : testMacros.filterMap (readBack fun m => if m = "_MSC_VER" then some (encode "1600") else none) =
      ["_MSC_VER=1600"] := by
    simp [testMacros, readBack, decode_encode]
  have hpath : (splitPath "C:/VC/bin/cl.exe").2 = "cl.exe" := by decide
  rw [← hmacros, ← hpath]
  refine compiler_identified ⟨"my t.cpp", "my t.obj"⟩ ⟨fun _ => some [], fun _ => 1⟩ "C:/VC/bin/cl.exe" (by decide)
    ?_ ?_ (encode "Copyright")
  · intro m _ v hv
    split at hv
    · cases hv
      exact ⟨by rw [decode_encode]; simp, by decide, by decide, by decide⟩
    · cases hv
  · refine ⟨?_, by decide, by decide, by decide⟩
    rintro a (_ | ⟨c, b⟩) hab hb ⟨r, hr⟩
    · exact hb rfl
    · have hc : c = 67 := by
        have hhead := congrArg List.head? hr
        simpa [bannerStart, encode, String.utf8EncodeChar] using hhead.symm
      have hmem : c ∈ encode "Microsoft (R) 32-bit " := by simp [hab]
      rw [hc] at hmem
      revert hmem
      decide

end BuildPal.Conversation
