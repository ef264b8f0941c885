import BuildPal.Server.RemoteCommand
import Mathlib.Data.List.TakeWhile
/-!
# The macros of a scan

`collect_headers` of `source_scanner.py`, with the macros that `create_task` gives
it, next to what the compiler makes of the same options. Both are runs of
assignments to names, where the last one decides.
-/

namespace BuildPal.Conversation

/-! ## Assignments -/

section Assignments
variable {κ α : Type} [DecidableEq κ]

def assign (env : κ → α) (a : κ × α) : κ → α := fun name => if name = a.1 then a.2 else env name

/-- What was last assigned to a name. -/
def lastTo (name : κ) : List (κ × α) → Option α
  | [] => none
  | a :: as => (lastTo name as).or (if name = a.1 then some a.2 else none)

theorem foldl_assign (as : List (κ × α)) (name : κ) :
    ∀ env, as.foldl assign env name = (lastTo name as).getD (env name) := by
  induction as with
  | nil => exact fun _ => rfl
  | cons a as ih =>
    intro env
    rw [List.foldl_cons, ih, lastTo, assign]
    cases lastTo name as <;> split <;> rfl

theorem lastTo_append (name : κ) (as bs : List (κ × α)) :
    lastTo name (as ++ bs) = (lastTo name bs).or (lastTo name as) := by
  induction as with
  | nil => simp [lastTo]
  | cons a as ih => rw [List.cons_append, lastTo, ih, lastTo, Option.or_assoc]

theorem lastTo_eq_none {name : κ} {as : List (κ × α)} : lastTo name as = none ↔ ∀ a ∈ as, a.1 ≠ name := by
  induction as with
  | nil => simp [lastTo]
  | cons a as ih =>
    rw [lastTo, Option.or_eq_none_iff, ih, List.forall_mem_cons, and_comm]
    exact and_congr_left' (by simp [eq_comm])

theorem lastTo_map {β : Type} (f : α → β) (name : κ) (as : List (κ × α)) :
    lastTo name (as.map fun a => (a.1, f a.2)) = (lastTo name as).map f := by
  induction as with
  | nil => rfl
  | cons a as ih =>
    rw [List.map_cons, lastTo, ih, lastTo]
    cases lastTo name as <;> split <;> rfl

/-- Leaving out other assignments does not change what was last assigned. -/
theorem lastTo_filter {name : κ} {p : κ × α → Bool} {as : List (κ × α)} {x : α} (h : lastTo name as = some x)
    (hp : p (name, x)) : lastTo name (as.filter p) = some x := by
  induction as with
  | nil => cases h
  | cons a as ih =>
    rw [lastTo] at h
    cases hlast : lastTo name as with
    | some y =>
      rw [hlast, Option.some_or] at h
      rw [List.filter_cons]
      split
      · rw [lastTo, ih (hlast.trans h), Option.some_or]
      · exact ih (hlast.trans h)
    | none =>
      rw [hlast, Option.none_or] at h
      split at h
      · next hname =>
        cases h
        subst hname
        rw [List.filter_cons_of_pos hp, lastTo, if_pos rfl, lastTo_eq_none.mpr fun b hb => ?_]
        · rfl
        · exact lastTo_eq_none.mp hlast b (List.mem_of_mem_filter hb)
      · cases h

end Assignments

/-! ## What the scan is told -/

def implicitMacrosOf : String → List String
  | "EH" => ["_CPPUNWIND"]
  | "MD" => ["_MT", "_DLL"]
  | "MT" => ["_MT"]
  | "MDd" => ["_MT", "_DLL", "_DEBUG"]
  | "MTd" => ["_MT", "_DEBUG"]
  | "GR" => ["_CPPRTTI"]
  | "GX" => ["_CPPUNWIND"]
  | "RTC" => ["__MSVC_RUNTIME_CHECKS"]
  | "clr" => ["__cplusplus_cli=200406"]
  | "Zl" => ["_VC_NODEFAULTLIB"]
  | "Zc:wchar_t" => ["_NATIVE_WCHAR_T_DEFINED"]
  | "openmp" => ["_OPENMP"]
  | "Wp64" => ["_Wp64"]
  | "LDd" => ["_DEBUG"]
  | _ => []

structure PreprocessTask where
  source : String
  macros : List String
  includeDirs : List String
  sysincludeDirs : List String
  forcedIncludes : List String
  pchHeader : Option String
  deriving DecidableEq, Repr

namespace CompileOptions
variable (o : CompileOptions)

def addExtensions : Bool :=
  o.optionNames.foldl (fun add name => if name = "Za" then false else if name = "Ze" then true else add) true

def implicitMacros : List String :=
  o.optionNames.flatMap implicitMacrosOf ++ if o.addExtensions then ["_MSC_EXTENSIONS=1"] else []

def defines : List String := o.values "D"

/-- `compilerMacros` are those of the `CompilerInfo`. -/
def preprocessTask (cwd sysinclude : String) (compilerMacros : List String) (t : Task) : PreprocessTask where
  source := t.source
  macros := o.implicitMacros ++ o.defines ++ compilerMacros
  includeDirs := o.includeDirs.map (joinPath cwd)
  sysincludeDirs := sysincludeDirs sysinclude
  forcedIncludes := o.forcedIncludes
  pchHeader := t.pchHeader

end CompileOptions

/-- The `PreprocessingContext`. It leaves out empty directories. -/
structure PreprocessingContext where
  userSearchPath : List String
  systemSearchPath : List String
  defines : List (String × String)
  forcedIncludes : List String
  deriving DecidableEq, Repr

/-- What the loop of `collect_headers` makes of a macro. -/
def splitDefine (define : String) : Except Raised (String × String) :=
  match define.toList.splitOn '=' with
  | [name] => .ok (String.ofList name, "1")
  | [name, value] => .ok (String.ofList name, String.ofList value)
  | _ => .error .assertionError

/-- What `collect_headers` hands to `scan_headers`. -/
def collectHeaders (task : PreprocessTask) : Except Raised PreprocessingContext := do
  let defines ← task.macros.mapM splitDefine
  return {
    userSearchPath := task.includeDirs.filter (· ≠ "")
    systemSearchPath := task.sysincludeDirs.filter (· ≠ "")
    defines
    forcedIncludes := task.forcedIncludes }

/-! ## What the compiler does -/

/-- The macros that are defined, each with what it stands for. -/
abbrev Environment := String → Option String

/-- `/Dname` means `name=1`, and `/Dname=value` is split at the first `=`. -/
def definition (text : String) : String × String :=
  let name := text.toList.takeWhile (· ≠ '=')
  let rest := text.toList.dropWhile (· ≠ '=')
  (String.ofList name, if rest = [] then "1" else String.ofList rest.tail)

def PreprocessingContext.environment (c : PreprocessingContext) : Environment :=
  (c.defines.map fun d => (d.1, some d.2)).foldl assign fun _ => none

namespace CompileOptions
variable (o : CompileOptions)

/-- The `/D` and `/U` options in their order, each with what it makes of its name. -/
def mentions : List (String × Option String) :=
  o.args.flatMap fun a =>
    if a.name = "D" then a.values.map fun text => ((definition text).1, some (definition text).2)
    else if a.name = "U" then a.values.map (·, none)
    else []

def compilerEnvironment (predefined : Environment) : Environment := o.mentions.foldl assign predefined

/-- The scan of a task sees the names mentioned on the command line as the compiler does, whatever that has
predefined. -/
def SeesMacros (cwd sysinclude : String) (compilerMacros : List String) (t : Task) : Prop :=
  ∃ context, collectHeaders (o.preprocessTask cwd sysinclude compilerMacros t) = .ok context ∧
    ∀ name ∈ o.mentions.map Prod.fst, ∀ predefined, context.environment name = o.compilerEnvironment predefined name

/-- What it takes: no value with an `=` of its own, nothing left of a name that is undefined last, and no macro of the
compiler that is defined as something else. -/
structure Separable (compilerMacros : List String) : Prop where
  single : ∀ define ∈ o.defines ++ compilerMacros, define.toList.count '=' ≤ 1
  undefined : ∀ name, lastTo name o.mentions = some none →
    ∀ define ∈ o.implicitMacros ++ o.defines ++ compilerMacros, (definition define).1 ≠ name
  redefined : ∀ name value, lastTo name o.mentions = some (some value) →
    ∀ value', lastTo name (compilerMacros.map definition) = some value' → value' = value

end CompileOptions

/-! ## Splitting -/

theorem definition_of_not_mem {text : String} (h : '=' ∉ text.toList) : definition text = (text, "1") := by
  have hall : ∀ c ∈ text.toList, decide (c ≠ '=') = true := fun c hc => decide_eq_true fun e => h (e ▸ hc)
  have htake : text.toList.takeWhile (· ≠ '=') = text.toList := List.takeWhile_eq_self_iff.mpr hall
  have hdrop : text.toList.dropWhile (· ≠ '=') = [] := List.dropWhile_eq_nil_iff.mpr hall
  simp only [definition, htake, hdrop, String.ofList_toList, if_true]

theorem definition_of_append {text : String} {name value : List Char} (htext : text.toList = name ++ '=' :: value)
    (h : '=' ∉ name) : definition text = (String.ofList name, String.ofList value) := by
  have hall : ∀ c ∈ name, decide (c ≠ '=') = true := fun c hc => decide_eq_true fun e => h (e ▸ hc)
  have htake : text.toList.takeWhile (· ≠ '=') = name := by
    rw [htext, List.takeWhile_append_of_pos hall, List.takeWhile_cons_of_neg (by simp), List.append_nil]
  have hdrop : text.toList.dropWhile (· ≠ '=') = '=' :: value := by
    rw [htext, List.dropWhile_append_of_pos hall, List.dropWhile_cons_of_neg (by simp)]
  simp only [definition, htake, hdrop, List.tail_cons, reduceCtorEq, if_false]

/-- The split is that at the first `=`, unless there is another. -/
theorem splitDefine_eq (define : String) :
    splitDefine define = if define.toList.count '=' ≤ 1 then .ok (definition define) else .error .assertionError := by
  by_cases hmem : '=' ∈ define.toList
  · obtain ⟨name, rest, htext, hname⟩ := List.eq_append_cons_of_mem hmem
    have hcount : define.toList.count '=' = rest.count '=' + 1 := by
      rw [htext, List.count_append, List.count_eq_zero_of_not_mem hname, List.count_cons_self, Nat.zero_add]
    rw [splitDefine, definition_of_append htext hname, hcount, htext, List.splitOn_append_cons_self_of_not_mem hname]
    by_cases hrest : '=' ∈ rest
    · obtain ⟨value, more, rfl, hvalue⟩ := List.eq_append_cons_of_mem hrest
      obtain ⟨last, others, hsplit⟩ := List.exists_cons_of_ne_nil (List.splitOn_ne_nil '=' more)
      have hpos : 0 < (value ++ '=' :: more).count '=' := List.count_pos_iff.mpr hrest
      rw [List.splitOn_append_cons_self_of_not_mem hvalue, hsplit, if_neg (by omega)]
    · rw [List.splitOn_eq_singleton hrest, List.count_eq_zero_of_not_mem hrest]
      rfl
  · rw [splitDefine, definition_of_not_mem hmem, List.splitOn_eq_singleton hmem, List.count_eq_zero_of_not_mem hmem,
      if_pos (by decide)]
    simp only [String.ofList_toList]

theorem mapM_splitDefine (macros : List String) : ∀ {defines}, macros.mapM splitDefine = .ok defines ↔
    (∀ define ∈ macros, define.toList.count '=' ≤ 1) ∧ defines = macros.map definition := by
  induction macros with
  | nil =>
    intro defines
    show Except.ok [] = Except.ok defines ↔ _
    simp [eq_comm]
  | cons define macros ih =>
    intro defines
    rw [List.mapM_cons, splitDefine_eq, List.forall_mem_cons, and_assoc]
    split
    · next hcount =>
      simp only [hcount, true_and]
      cases hmap : macros.mapM splitDefine with
      | error e =>
        refine ⟨nofun, fun h => ?_⟩
        cases (ih.mpr ⟨h.1, rfl⟩).symm.trans hmap
      | ok rest =>
        obtain ⟨hrest, rfl⟩ := ih.mp hmap
        show Except.ok _ = Except.ok defines ↔ _
        rw [Except.ok.injEq, and_iff_right hrest, List.map_cons]
        exact eq_comm
    · next hcount =>
      simp only [hcount, false_and]
      exact ⟨nofun, False.elim⟩

theorem implicitMacrosOf_single (name : String) : ∀ define ∈ implicitMacrosOf name, define.toList.count '=' ≤ 1 := by
  unfold implicitMacrosOf
  split <;> decide

namespace CompileOptions
variable (o : CompileOptions)

/-- The macros that an option implies are written as `collect_headers` expects them. -/
theorem implicitMacros_single : ∀ define ∈ o.implicitMacros, define.toList.count '=' ≤ 1 := by
  intro define h
  rcases List.mem_append.mp h with h | h
  · obtain ⟨name, -, hname⟩ := List.mem_flatMap.mp h
    exact implicitMacrosOf_single name define hname
  · split at h
    · rw [List.mem_singleton.mp h]
      decide
    · cases h

theorem collectHeaders_ok {cwd sysinclude : String} {compilerMacros : List String} {t : Task}
    {context : PreprocessingContext}
    (h : collectHeaders (o.preprocessTask cwd sysinclude compilerMacros t) = .ok context) :
    (∀ define ∈ o.defines ++ compilerMacros, define.toList.count '=' ≤ 1) ∧
      context.defines = (o.implicitMacros ++ o.defines ++ compilerMacros).map definition := by
  rw [collectHeaders] at h
  cases hmap : (o.preprocessTask cwd sysinclude compilerMacros t).macros.mapM splitDefine with
  | error e =>
    rw [hmap] at h
    cases h
  | ok defines =>
    rw [hmap] at h
    cases h
    obtain ⟨hsingle, rfl⟩ := (mapM_splitDefine _).mp hmap
    refine ⟨fun define hdefine => hsingle define ?_, rfl⟩
    show define ∈ o.implicitMacros ++ o.defines ++ compilerMacros
    rw [List.append_assoc]
    exact List.mem_append_right _ hdefine

theorem collectHeaders_of_single {compilerMacros : List String} (cwd sysinclude : String) (t : Task)
    (h : ∀ define ∈ o.defines ++ compilerMacros, define.toList.count '=' ≤ 1) :
    ∃ context, collectHeaders (o.preprocessTask cwd sysinclude compilerMacros t) = .ok context := by
  have hmap : (o.preprocessTask cwd sysinclude compilerMacros t).macros.mapM splitDefine =
      .ok ((o.implicitMacros ++ o.defines ++ compilerMacros).map definition) := by
    refine (mapM_splitDefine _).mpr ⟨?_, rfl⟩
    show ∀ define ∈ o.implicitMacros ++ o.defines ++ compilerMacros, _
    rw [List.append_assoc, List.forall_mem_append]
    exact ⟨o.implicitMacros_single, h⟩
  exact ⟨_, by rw [collectHeaders, hmap]; rfl⟩

/-! ## Names -/

/-- A name of the scan stands for what was last defined. -/
theorem environment_eq (context : PreprocessingContext) (name : String) :
    context.environment name = lastTo name context.defines := by
  rw [PreprocessingContext.environment, foldl_assign, lastTo_map]
  cases lastTo name context.defines <;> rfl

theorem compilerEnvironment_eq {name : String} {last : Option String} (h : lastTo name o.mentions = some last)
    (predefined : Environment) : o.compilerEnvironment predefined name = last := by
  rw [compilerEnvironment, foldl_assign, h]
  rfl

theorem mem_mentions {name : String} : name ∈ o.mentions.map Prod.fst ↔ ∃ last, lastTo name o.mentions = some last := by
  rw [← Option.isSome_iff_exists, ← Option.ne_none_iff_isSome, Ne, lastTo_eq_none]
  simp

/-- Of what is mentioned, the scan gets what is defined. -/
theorem defines_eq : (o.defines.map definition).map (fun d => (d.1, some d.2)) = o.mentions.filter (·.2.isSome) := by
  rw [defines, values, mentions]
  induction o.args with
  | nil => rfl
  | cons a args ih =>
    rw [List.flatMap_cons, List.filter_append, ← ih, List.filter_cons]
    by_cases hD : a.name = "D"
    · have hall : ∀ m ∈ a.values.map (fun text => ((definition text).1, some (definition text).2)), m.2.isSome := by
        simp
      simp [hD, List.filter_eq_self.mpr hall, Function.comp_def]
    · by_cases hU : a.name = "U"
      · simp [hU]
      · simp [hD, hU]

/-- What the compiler has a name stand for is what the scan has it stand for. -/
theorem lastTo_macros {compilerMacros : List String} {name : String} {last : Option String}
    (h : lastTo name o.mentions = some last) :
    lastTo name ((o.implicitMacros ++ o.defines ++ compilerMacros).map definition) = last ↔
      match last with
      | none => ∀ define ∈ o.implicitMacros ++ o.defines ++ compilerMacros, (definition define).1 ≠ name
      | some value => ∀ value', lastTo name (compilerMacros.map definition) = some value' → value' = value := by
  cases last with
  | none =>
    rw [lastTo_eq_none]
    simp only [List.forall_mem_map]
  | some value =>
    have hdefines : lastTo name (o.defines.map definition) = some value := by
      have hfilter := lastTo_filter (p := (·.2.isSome)) h rfl
      rw [← o.defines_eq, lastTo_map] at hfilter
      simpa using hfilter
    rw [List.map_append, List.map_append, lastTo_append, lastTo_append, hdefines, Option.some_or]
    cases lastTo name (compilerMacros.map definition) <;> simp [eq_comm]

/-- The scan sees the compiler's macros exactly when the options are separable. -/
theorem seesMacros_iff (cwd sysinclude : String) (compilerMacros : List String) (t : Task) :
    o.SeesMacros cwd sysinclude compilerMacros t ↔ o.Separable compilerMacros := by
  constructor
  · rintro ⟨context, hcontext, hsees⟩
    obtain ⟨hsingle, hdefines⟩ := o.collectHeaders_ok hcontext
    have hlast : ∀ {name last}, lastTo name o.mentions = some last →
        lastTo name ((o.implicitMacros ++ o.defines ++ compilerMacros).map definition) = last := by
      intro name last h
      have := hsees name (o.mem_mentions.mpr ⟨last, h⟩) fun _ => none
      rwa [o.compilerEnvironment_eq h, environment_eq, hdefines] at this
    exact ⟨hsingle, fun name h => (o.lastTo_macros h).mp (hlast h),
      fun name value h => (o.lastTo_macros h).mp (hlast h)⟩
  · rintro ⟨hsingle, hundefined, hredefined⟩
    obtain ⟨context, hcontext⟩ := o.collectHeaders_of_single cwd sysinclude t hsingle
    refine ⟨context, hcontext, fun name hname predefined => ?_⟩
    obtain ⟨last, h⟩ := o.mem_mentions.mp hname
    rw [o.compilerEnvironment_eq h, environment_eq, (o.collectHeaders_ok hcontext).2]
    refine (o.lastTo_macros h).mpr ?_
    cases last with
    | none => exact hundefined name h
    | some value => exact hredefined name value h

end CompileOptions

/-- `/DFOO /UFOO` leaves `FOO` defined for the scan, and `/DFOO=a=b` makes it fail. -/
theorem undefined_seen : ∃ undefined split t,
    undefined = CompileOptions.mk [⟨"D", ["FOO"], ["/DFOO"]⟩, ⟨"U", ["FOO"], ["/UFOO"]⟩] ∧
    split = CompileOptions.mk [⟨"D", ["FOO=a=b"], ["/DFOO=a=b"]⟩] ∧
    ¬ undefined.SeesMacros "" "" [] t ∧ ¬ split.SeesMacros "" "" [] t := by
  refine ⟨_, _, ⟨"a.cpp", "", "a.obj", [], none, none⟩, rfl, rfl, ?_, ?_⟩
  · rintro ⟨context, hcontext, hsees⟩
    have hfoo := hsees "FOO" (by decide) fun _ => none
    rw [CompileOptions.environment_eq, (CompileOptions.collectHeaders_ok _ hcontext).2] at hfoo
    exact absurd hfoo (by decide +kernel)
  · rintro ⟨context, hcontext, -⟩
    have hsingle := (CompileOptions.collectHeaders_ok _ hcontext).1 "FOO=a=b" (by decide)
    exact absurd hsingle (by decide +kernel)

end BuildPal.Conversation
