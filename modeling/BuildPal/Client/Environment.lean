import BuildPal.Lib.Updates
import BuildPal.Lib.Utf16
import Mathlib.Data.List.Basic
/-!
# The environment of a compilation

`Environment` of `client.cpp`: the variables of the process that is to be
created. It is read from an environment block, changed by `add` and `remove`,
looked up by `distributedCompile` and written to a block again. A block is read
off the memory from a pointer on; what is not defined there, or throws, is
`none`.
-/

namespace BuildPal.Client.Environments

open Lib Lib.Utf16

abbrev Bytes := List UInt8

/-- A `std::map`, which is ordered by the names, byte by byte. `insertIfNew` is its `insert`. -/
abbrev EnvMap := Std.ExtTreeMap Bytes Bytes

/-! ## The two scanners -/

section Scan
variable {α : Type} [DecidableEq α] (nul eq : α)

/-- The loop of `iter`, which is counted from `start`, with what there is from it on. -/
def findEnd : List α → Nat → Option Nat → Option (Nat × Option Nat)
  | [], _, _ => none
  | c :: memory, iter, equalPos =>
    if c = nul then some (iter, equalPos)
    else findEnd memory (iter + 1) (if c = eq ∧ equalPos = none then some iter else equalPos)

/-- What is done with a string. Without a '=' the length of the key would be the difference to a null pointer. -/
def insertString (toBytes : List α → Option Bytes) (start : List α) (iter : Nat) (equalPos : Option Nat)
    (envMap : EnvMap) : Option EnvMap :=
  match equalPos with
  | none => none
  | some equalPos =>
    if equalPos = 0 then some envMap
    else do
      let key ← toBytes (start.take equalPos)
      let value ← toBytes ((start.take iter).drop (equalPos + 1))
      return envMap.insertIfNew key value

/-- The loop of `start`. -/
def scan (toBytes : List α → Option Bytes) (start : List α) (envMap : EnvMap) : Option EnvMap :=
  match start with
  | [] => none
  | c :: memory =>
    if c = nul then some envMap
    else do
      let (iter, equalPos) ← findEnd nul eq (c :: memory) 0 none
      let envMap ← insertString toBytes (c :: memory) iter equalPos envMap
      scan toBytes ((c :: memory).drop (iter + 1)) envMap
termination_by start.length
decreasing_by
  simp only [List.drop_succ_cons, List.length_drop, List.length_cons]
  omega

/-- `name=value`. Those of cmd.exe itself have no name. -/
structure Variable where
  name : List α
  value : List α
  name_plain : nul ∉ name ∧ eq ∉ name
  value_plain : nul ∉ value

variable {nul eq}

def Variable.string (v : Variable nul eq) : List α := v.name ++ eq :: v.value

/-- The variables one after the other, each with its NUL, and another one. -/
def block (vs : List (Variable nul eq)) : List α := vs.flatMap (fun v => v.string ++ [nul]) ++ [nul]

/-- The names and values of a block as bytes, if they have any. -/
def contents (toBytes : List α → Option Bytes) : List (Variable nul eq) → Option (List (Bytes × Bytes))
  | [] => some []
  | v :: vs =>
    if v.name = [] then contents toBytes vs
    else do
      let key ← toBytes v.name
      let value ← toBytes v.value
      return (key, value) :: (← contents toBytes vs)

end Scan

def equal : UInt8 := 0x3D

def wideEqual : CodeUnit := 0x3D

/-- A character by itself, and no surrogate. -/
def Single (u : CodeUnit) : Prop := ¬ IsHigh u ∧ ¬ IsLow u

instance (u : CodeUnit) : Decidable (Single u) := inferInstanceAs (Decidable (_ ∧ _))

/-- `convert.to_bytes`. The characters of `codecvt_utf8` are single units; at a surrogate it throws `range_error`. -/
def toBytes (input : List CodeUnit) : Option Bytes :=
  if ∀ u ∈ input, Single u then some (utf8 (input.map fun u => .ofNat u.toNat)) else none

/-! ## The class -/

/-- The process the client runs in: what `GetEnvironmentStringsA` has, and `llvm::sys::Process::GetEnv`. -/
structure Process where
  strings : List (Variable 0 equal)
  getEnv : Bytes → Option Bytes

/-- `vpEnv`, read as `unicode` says. -/
inductive VpEnv where
  | null
  | narrow (memory : Bytes)
  | wide (memory : List CodeUnit)

structure Environment where
  envMap : EnvMap

abbrev Call := Update Bytes Bytes

namespace Environment

def new (process : Process) : VpEnv → Option Environment
  | .null => do return { envMap := ← scan 0 equal some (block process.strings) ∅ }
  | .narrow memory => do return { envMap := ← scan 0 equal some memory ∅ }
  | .wide memory => do return { envMap := ← scan 0 wideEqual toBytes memory ∅ }

variable (env : Environment)

def get (process : Process) (str : Bytes) : Option Bytes :=
  match env.envMap[str]? with
  | some value => some value
  | none => process.getEnv str

def remove (key : Bytes) : Environment := { envMap := env.envMap.erase key }

def add (key val : Bytes) : Environment := { envMap := env.envMap.insertIfNew key val }

def createEnvBlock : VpEnv :=
  if env.envMap.isEmpty then .null
  else
    let result := env.envMap.foldl (fun result key value => result ++ key ++ [equal] ++ value ++ [0]) []
    -- `c_str` has a NUL at its end
    .narrow (result ++ [0])

def call (env : Environment) : Call → Environment
  | .add key val => env.add key val
  | .remove key => env.remove key

def run (calls : List Call) : Environment := calls.foldl call env

end Environment

/-! ## The dictionary of `compile` -/

/-- `PyUnicode_AsASCIIString`, and of its `PyBytes_AsString` what is before the first NUL. -/
def asciiString (s : List Char) : Option Bytes :=
  if s.all (·.toNat < 0x80) then some ((s.map fun c => UInt8.ofNat c.toNat).takeWhile (· != 0)) else none

/-- The loop over the dictionary. -/
def addDict (env : Environment) : List (List Char × List Char) → Option Environment
  | [] => some env
  | (key, value) :: environment => do
    let keyAscii ← asciiString key
    let valueAscii ← asciiString value
    addDict (env.add keyAscii valueAscii) environment

/-- What `Client_distributedCompile` makes of its dictionary, `none` where it returns NULL. -/
def dictEnvironment (process : Process) (environment : List (List Char × List Char)) : Option Environment := do
  addDict (← Environment.new process .null) environment

/-! ## What it is to be -/

inductive Block where
  /-- No block is given: the one of the process counts. -/
  | inherited
  | narrow (vs : List (Variable 0 equal))
  | wide (vs : List (Variable 0 wideEqual))

namespace Block

def vpEnv : Block → VpEnv
  | inherited => .null
  | narrow vs => .narrow (block vs)
  | wide vs => .wide (block vs)

/-- Wide names and values are UTF-16, and their bytes are UTF-8. -/
def contents (process : Process) : Block → Option (List (Bytes × Bytes))
  | inherited => Environments.contents some process.strings
  | narrow vs => Environments.contents some vs
  | wide vs => Environments.contents (fun units => (decode units).map utf8) vs

/-- There is no surrogate in a variable that is not ignored. -/
def Ucs2 : Block → Prop
  | wide vs => ∀ v ∈ vs, v.name ≠ [] → ∀ u ∈ v.string, Single u
  | _ => True

end Block

/-- The map of a block that has been changed by the calls. -/
def asked (contents : List (Bytes × Bytes)) (calls : List Call) : Bytes → Option Bytes :=
  calls.foldl Update.overwrite fun k => contents.lookup k

/-- The environment has what was asked for, and its block is read as the same map. -/
def AsAsked (process : Process) (block : Block) (calls : List Call) : Prop :=
  ∃ env contents, Environment.new process block.vpEnv = some env ∧ block.contents process = some contents ∧
    (∀ k, (env.run calls).get process k = asked contents calls k) ∧
    Environment.new process (env.run calls).createEnvBlock = some (env.run calls)

/-- What a block can say. -/
structure Proper (key value : Bytes) : Prop where
  nonempty : key ≠ []
  key_plain : 0 ∉ key ∧ equal ∉ key
  value_plain : 0 ∉ value

/-- What each name was given since it was removed, by the block or by `add`. -/
def given (contents : List (Bytes × Bytes)) (calls : List Call) : Bytes → List Bytes :=
  Update.given (fun k => contents.lookup k) calls

/-- No name was given two values that differ where it counts, and the process does not stand in for what is not set. -/
structure Undisputed (process : Process) (contents : List (Bytes × Bytes)) (calls : List Call) : Prop where
  /-- The first value is also the last one. -/
  same : ∀ k, (given contents calls k).head? = (given contents calls k).getLast?
  /-- A name that is not set is not set in the process. -/
  unset : ∀ k, given contents calls k = [] → process.getEnv k = none
  proper : ∀ k value, (given contents calls k).head? = some value → Proper k value
  /-- Where no name is set, none is set in the process. -/
  empty : (∀ k, given contents calls k = []) → ∀ v ∈ process.strings, v.name = []

/-! ## What is read from a block -/

section Scan
variable {α : Type} [DecidableEq α] {nul eq : α}

theorem findEnd_plain {s : List α} (hs : nul ∉ s) (memory : List α) : ∀ iter equalPos, eq ∉ s ∨ equalPos ≠ none →
    findEnd nul eq (s ++ memory) iter equalPos = findEnd nul eq memory (iter + s.length) equalPos := by
  induction s with
  | nil =>
    intro iter equalPos _
    rfl
  | cons c s ih =>
    intro iter equalPos h
    obtain ⟨hc, hs⟩ := not_or.1 (mt List.mem_cons.2 hs)
    have hpos : ¬ (c = eq ∧ equalPos = none) := by
      rintro ⟨rfl, rfl⟩
      simp at h
    have hnext : eq ∉ s ∨ equalPos ≠ none := h.imp_left fun hmem heq => hmem (List.mem_cons_of_mem _ heq)
    rw [List.cons_append, findEnd, if_neg (Ne.symm hc), if_neg hpos, ih hs _ _ hnext, List.length_cons]
    congr 1
    omega

/-- The end of a string and its first '='. -/
theorem findEnd_string (hne : nul ≠ eq) (v : Variable nul eq) (memory : List α) :
    findEnd nul eq (v.string ++ nul :: memory) 0 none = some (v.string.length, some v.name.length) := by
  have hstring : v.string ++ nul :: memory = v.name ++ eq :: (v.value ++ nul :: memory) := by simp [Variable.string]
  have hlen : v.string.length = v.name.length + 1 + v.value.length := by
    simp only [Variable.string, List.length_append, List.length_cons]
    omega
  rw [hstring, findEnd_plain v.name_plain.1 _ _ _ (.inl v.name_plain.2), findEnd, if_neg (Ne.symm hne),
    if_pos ⟨rfl, rfl⟩, findEnd_plain v.value_plain _ _ _ (.inr (by simp)), findEnd, if_pos rfl, hlen]
  simp

theorem findEnd_some (memory : List α) : ∀ {iter equalPos last pos},
    findEnd nul eq memory iter equalPos = some (last, pos) → ∃ s rest, memory = s ++ nul :: rest ∧ nul ∉ s := by
  induction memory with
  | nil =>
    intro iter equalPos last pos h
    cases h
  | cons c memory ih =>
    intro iter equalPos last pos h
    by_cases hc : c = nul
    · exact ⟨[], memory, by rw [hc]; rfl, by simp⟩
    · rw [findEnd, if_neg hc] at h
      obtain ⟨s, rest, rfl, hs⟩ := ih h
      exact ⟨c :: s, rest, rfl, by simp [hs, Ne.symm hc]⟩

variable {toBytes : List α → Option Bytes}

omit [DecidableEq α] in
theorem insertString_string (v : Variable nul eq) (memory : List α) (envMap : EnvMap) :
    insertString toBytes (v.string ++ memory) v.string.length (some v.name.length) envMap =
      if v.name = [] then some envMap
      else do
        let key ← toBytes v.name
        let value ← toBytes v.value
        return envMap.insertIfNew key value := by
  have hkey : (v.string ++ memory).take v.name.length = v.name := by simp [Variable.string]
  have hvalue : ((v.string ++ memory).take v.string.length).drop (v.name.length + 1) = v.value := by
    rw [List.take_left' rfl, Variable.string, ← List.drop_drop, List.drop_left]
    rfl
  rw [insertString, hkey, hvalue]
  simp [List.length_eq_zero_iff]

/-- One turn of the loop of `start`. -/
theorem scan_string (hne : nul ≠ eq) (v : Variable nul eq) (memory : List α) (envMap : EnvMap) :
    scan nul eq toBytes (v.string ++ nul :: memory) envMap =
      (insertString toBytes (v.string ++ nul :: memory) v.string.length (some v.name.length) envMap).bind
        (scan nul eq toBytes memory) := by
  obtain ⟨c, s, hstring, hc⟩ : ∃ c s, v.string = c :: s ∧ c ≠ nul := by
    cases hname : v.name with
    | nil => exact ⟨eq, v.value, by rw [Variable.string, hname]; rfl, hne.symm⟩
    | cons c name =>
      refine ⟨c, name ++ eq :: v.value, by rw [Variable.string, hname]; rfl, ?_⟩
      rintro rfl
      exact v.name_plain.1 (by simp [hname])
  have hend := findEnd_string hne v memory
  have hrest : (v.string ++ nul :: memory).drop (v.string.length + 1) = memory := by
    rw [← List.drop_drop, List.drop_left]
    rfl
  rw [hstring, List.cons_append] at hend hrest ⊢
  rw [scan, if_neg hc, hend]
  simp only [Option.bind_eq_bind, Option.bind_some, hrest]

theorem scan_end (memory : List α) (envMap : EnvMap) :
    scan nul eq toBytes (nul :: memory) envMap = some envMap := by
  rw [scan, if_pos rfl]

def insertAll (envMap : EnvMap) (l : List (Bytes × Bytes)) : EnvMap := l.foldl (fun m v => m.insertIfNew v.1 v.2) envMap

omit [DecidableEq α] in
theorem block_cons (v : Variable nul eq) (vs : List (Variable nul eq)) :
    block (v :: vs) = v.string ++ nul :: block vs := by
  simp [block]

/-- A block is read as the variables in it. -/
theorem scan_block (hne : nul ≠ eq) (vs : List (Variable nul eq)) (memory : List α) : ∀ envMap,
    scan nul eq toBytes (block vs ++ memory) envMap = (contents toBytes vs).map (insertAll envMap) := by
  induction vs with
  | nil =>
    intro envMap
    exact scan_end memory envMap
  | cons v vs ih =>
    intro envMap
    rw [block_cons, List.append_assoc, List.cons_append, scan_string hne, insertString_string, contents]
    split
    · exact ih envMap
    · cases toBytes v.name with
      | none => rfl
      | some key =>
        cases toBytes v.value with
        | none => rfl
        | some value =>
          simp only [Option.bind_eq_bind, Option.bind_some, Option.pure_def, ih]
          cases contents toBytes vs <;> rfl

/-- A string with a '=' is a variable. -/
theorem exists_variable {memory : List α} {iter pos : Nat} (h : findEnd nul eq memory 0 none = some (iter, some pos)) :
    ∃ (v : Variable nul eq) (rest : List α), memory = v.string ++ nul :: rest := by
  obtain ⟨s, rest, rfl, hs⟩ := findEnd_some memory h
  by_cases heq : eq ∈ s
  · obtain ⟨name, value, rfl, hname⟩ := List.eq_append_cons_of_mem heq
    simp only [List.mem_append, List.mem_cons, not_or] at hs
    exact ⟨⟨name, value, ⟨hs.1, hname⟩, hs.2.2⟩, rest, rfl⟩
  · rw [findEnd_plain hs _ _ _ (.inl heq), findEnd, if_pos rfl] at h
    cases h

/-- Only blocks are read. -/
theorem block_of_scan (hne : nul ≠ eq) (start : List α) (envMap : EnvMap) : ∀ {envMap'},
    scan nul eq toBytes start envMap = some envMap' →
      ∃ (vs : List (Variable nul eq)) (rest : List α), start = block vs ++ rest := by
  induction start, envMap using scan.induct nul with
  | case1 envMap =>
    intro envMap' h
    rw [scan] at h
    cases h
  | case2 envMap memory => exact fun _ => ⟨[], memory, rfl⟩
  | case3 envMap c memory hc ih =>
    intro envMap' h
    rw [scan, if_neg hc] at h
    obtain ⟨⟨iter, pos⟩, hend, hturn⟩ := Option.bind_eq_some_iff.1 h
    obtain ⟨next, hinsert, hloop⟩ := Option.bind_eq_some_iff.1 hturn
    cases pos with
    | none => cases hinsert
    | some pos =>
      obtain ⟨v, rest, hstring⟩ := exists_variable hend
      obtain ⟨vs, tail, htail⟩ := ih iter next hloop
      have hiter : iter = v.string.length := by
        rw [hstring, findEnd_string hne] at hend
        cases hend
        rfl
      rw [hstring, hiter, ← List.drop_drop, List.drop_left, List.drop_one, List.tail_cons] at htail
      exact ⟨v :: vs, tail, by simp [hstring, htail, block_cons]⟩

end Scan

/-! ## Names and values -/

/-- `insert` leaves the value of a name that is in the map. -/
theorem getElem?_insertIfNew (envMap : EnvMap) (key value k : Bytes) :
    (envMap.insertIfNew key value)[k]? = if key = k then envMap[k]?.or (some value) else envMap[k]? := by
  rw [Std.ExtTreeMap.getElem?_insertIfNew]
  simp only [Std.LawfulEqOrd.compare_eq_iff_eq]
  by_cases hk : key = k
  · subst hk
    by_cases hmem : key ∈ envMap <;> simp [hmem]
  · simp [hk]

theorem getElem?_insertAll (l : List (Bytes × Bytes)) (k : Bytes) : ∀ envMap : EnvMap,
    (insertAll envMap l)[k]? = envMap[k]?.or (l.lookup k) := by
  induction l with
  | nil =>
    intro envMap
    simp [insertAll]
  | cons v l ih =>
    intro envMap
    have hnext := ih (envMap.insertIfNew v.1 v.2)
    simp only [insertAll, List.foldl_cons] at hnext ⊢
    rw [hnext, getElem?_insertIfNew, List.lookup_cons]
    by_cases hk : v.1 = k
    · subst hk
      rw [if_pos rfl, Option.or_assoc, Option.some_or]
      simp
    · have hbeq : (k == v.1) = false := by simpa using Ne.symm hk
      rw [if_neg hk, hbeq]

theorem lookup_toList (envMap : EnvMap) (k : Bytes) : envMap.toList.lookup k = envMap[k]? := by
  apply Option.ext
  intro value
  rw [List.lookup_eq_some_iff, ← Std.ExtTreeMap.mem_toList_iff_getElem?_eq_some]
  constructor
  · rintro ⟨before, after, hsplit, -⟩
    simp [hsplit]
  · intro hmem
    obtain ⟨before, after, hsplit⟩ := List.append_of_mem hmem
    have hdistinct := envMap.distinct_keys_toList
    rw [hsplit] at hdistinct
    refine ⟨before, after, hsplit, fun v hv => ?_⟩
    have hne := (List.pairwise_append.1 hdistinct).2.2 v hv (k, value) List.mem_cons_self
    rw [Std.LawfulEqOrd.compare_eq_iff_eq] at hne
    simpa using Ne.symm hne

/-- A map is what its names and values make of an empty one. -/
theorem insertAll_toList (envMap : EnvMap) : insertAll ∅ envMap.toList = envMap := by
  apply Std.ExtTreeMap.ext_getElem?
  intro k
  rw [getElem?_insertAll, lookup_toList]
  simp

theorem eq_nil_of_lookup {l : List (Bytes × Bytes)} (h : ∀ k, l.lookup k = none) : l = [] := by
  rw [List.eq_nil_iff_forall_not_mem]
  intro v hv
  simpa using List.lookup_eq_none_iff.1 (h v.1) v hv

theorem insertAll_eq_empty {l : List (Bytes × Bytes)} : insertAll ∅ l = ∅ ↔ l = [] := by
  constructor
  · intro h
    apply eq_nil_of_lookup
    intro k
    have hk := getElem?_insertAll l k ∅
    rw [h] at hk
    simpa using hk.symm
  · rintro rfl
    rfl

namespace Environment

theorem call_eq (env : Environment) (c : Call) :
    (fun k => (env.call c).envMap[k]?) = Update.keep (fun k => env.envMap[k]?) c := by
  funext k
  cases c with
  | add key val => exact getElem?_insertIfNew env.envMap key val k
  | remove key =>
    simp only [call, remove, Update.keep, Std.ExtTreeMap.getElem?_erase, Std.LawfulEqOrd.compare_eq_iff_eq]

theorem run_eq (calls : List Call) : ∀ env : Environment,
    (fun k => (env.run calls).envMap[k]?) = calls.foldl Update.keep fun k => env.envMap[k]? := by
  induction calls with
  | nil => exact fun _ => rfl
  | cons c calls ih =>
    intro env
    rw [List.foldl_cons, ← call_eq]
    exact ih (env.call c)

/-- Where a name has been removed, the process is asked. -/
theorem get_remove (env : Environment) (process : Process) (k : Bytes) :
    (env.remove k).get process k = process.getEnv k := by
  rw [get, remove, Std.ExtTreeMap.getElem?_erase_self]

/-- Values that are added do not replace one that is there. -/
theorem run_adds {k value : Bytes} (l : List (Bytes × Bytes)) : ∀ {env : Environment}, env.envMap[k]? = some value →
    (env.run (l.map fun v => .add v.1 v.2)).envMap[k]? = some value := by
  induction l with
  | nil => exact id
  | cons v l ih =>
    intro env h
    apply ih
    show (env.envMap.insertIfNew v.1 v.2)[k]? = _
    rw [getElem?_insertIfNew, h]
    split <;> rfl

/-- What a name has after the calls is the first that it was given. -/
theorem getElem?_run (l : List (Bytes × Bytes)) (calls : List Call) (k : Bytes) :
    (run { envMap := insertAll ∅ l } calls).envMap[k]? = (given l calls k).head? := by
  have hstart : (fun k => (insertAll ∅ l)[k]?) = fun k => l.lookup k := by
    funext k
    rw [getElem?_insertAll]
    simp
  rw [given, ← Update.foldl_keep, ← hstart]
  exact congrFun (run_eq calls { envMap := insertAll ∅ l }) k

theorem asked_eq (l : List (Bytes × Bytes)) (calls : List Call) (k : Bytes) :
    asked l calls k = (given l calls k).getLast? :=
  Update.foldl_overwrite _ calls k

/-- A name has what was asked for. -/
theorem get_eq_asked (process : Process) (l : List (Bytes × Bytes)) (calls : List Call) (k : Bytes) :
    (run { envMap := insertAll ∅ l } calls).get process k = asked l calls k ↔
      (given l calls k).head? = (given l calls k).getLast? ∧ (given l calls k = [] → process.getEnv k = none) := by
  rw [get, getElem?_run, asked_eq]
  cases given l calls k with
  | nil => simp
  | cons value values => simp

theorem run_eq_empty (l : List (Bytes × Bytes)) (calls : List Call) :
    (run { envMap := insertAll ∅ l } calls).envMap = ∅ ↔ ∀ k, given l calls k = [] := by
  constructor
  · intro h k
    have hk := getElem?_run l calls k
    rw [h] at hk
    simpa using hk.symm
  · intro h
    apply Std.ExtTreeMap.ext_getElem?
    intro k
    rw [getElem?_run, h k]
    simp

end Environment

/-! ## Blocks of the three kinds -/

def pairs (vs : List (Variable 0 equal)) : List (Bytes × Bytes) :=
  (vs.filter (·.name ≠ [])).map fun v => (v.name, v.value)

theorem contents_some (vs : List (Variable 0 equal)) : contents some vs = some (pairs vs) := by
  induction vs with
  | nil => rfl
  | cons v vs ih =>
    rw [contents, ih, pairs, pairs, List.filter_cons]
    by_cases hname : v.name = [] <;> simp [hname]

theorem pairs_eq_nil {vs : List (Variable 0 equal)} : pairs vs = [] ↔ ∀ v ∈ vs, v.name = [] := by
  simp [pairs, List.filter_eq_nil_iff]

theorem decode_plain {units : List CodeUnit} (h : ∀ u ∈ units, Single u) :
    decode units = some (units.map fun u => .ofNat u.toNat) := by
  induction units with
  | nil => rfl
  | cons u units ih =>
    obtain ⟨hu, hunits⟩ := List.forall_mem_cons.1 h
    rw [decode_single hu.1 hu.2, ih hunits]
    rfl

/-- The converter makes UTF-8 of what it converts. -/
theorem toBytes_eq_some {units : List CodeUnit} {bytes : Bytes} : toBytes units = some bytes ↔
    (∀ u ∈ units, Single u) ∧ (decode units).map utf8 = some bytes := by
  rw [toBytes]
  split
  · next h =>
    rw [decode_plain h, Option.map_some]
    exact (and_iff_right h).symm
  · next h => simp [h]

theorem contents_cons {α : Type} {nul eq : α} {toBytes : List α → Option Bytes} {v : Variable nul eq}
    (hname : v.name ≠ []) (vs : List (Variable nul eq)) {l : List (Bytes × Bytes)} :
    contents toBytes (v :: vs) = some l ↔ ∃ key, toBytes v.name = some key ∧ ∃ value, toBytes v.value = some value ∧
      ∃ l', contents toBytes vs = some l' ∧ (key, value) :: l' = l := by
  rw [contents, if_neg hname]
  simp [Option.bind_eq_some_iff]

theorem ucs2_cons (v : Variable 0 wideEqual) (vs : List (Variable 0 wideEqual)) : (Block.wide (v :: vs)).Ucs2 ↔
    (v.name ≠ [] → (∀ u ∈ v.name, Single u) ∧ ∀ u ∈ v.value, Single u) ∧ (Block.wide vs).Ucs2 := by
  have hequal : Single wideEqual := by decide
  simp only [Block.Ucs2, List.forall_mem_cons, Variable.string, List.forall_mem_append, hequal, true_and]

/-- The wide scanner has the contents of a block exactly if it is made of single units. -/
theorem contents_toBytes (vs : List (Variable 0 wideEqual)) : ∀ {l}, contents toBytes vs = some l ↔
    (Block.wide vs).Ucs2 ∧ contents (fun units => (decode units).map utf8) vs = some l := by
  induction vs with
  | nil => simp [contents, Block.Ucs2]
  | cons v vs ih =>
    intro l
    rw [ucs2_cons]
    by_cases hname : v.name = []
    · rw [contents, contents, if_pos hname, if_pos hname, ih]
      simp [hname]
    · rw [contents_cons hname, contents_cons hname]
      simp only [toBytes_eq_some, ih]
      constructor
      · rintro ⟨key, ⟨hn, hkey⟩, value, ⟨hv, hvalue⟩, l', ⟨hvs, hl'⟩, rfl⟩
        exact ⟨⟨fun _ => ⟨hn, hv⟩, hvs⟩, key, hkey, value, hvalue, l', hl', rfl⟩
      · rintro ⟨⟨hsingle, hvs⟩, key, hkey, value, hvalue, l', hl', rfl⟩
        obtain ⟨hn, hv⟩ := hsingle hname
        exact ⟨key, ⟨hn, hkey⟩, value, ⟨hv, hvalue⟩, l', ⟨hvs, hl'⟩, rfl⟩

theorem zero_ne_equal : (0 : UInt8) ≠ equal := by decide

theorem scan_whole {α : Type} [DecidableEq α] {nul eq : α} {toBytes : List α → Option Bytes} (hne : nul ≠ eq)
    (vs : List (Variable nul eq)) : scan nul eq toBytes (block vs) ∅ = (contents toBytes vs).map (insertAll ∅) := by
  simpa using scan_block hne vs [] ∅

/-- What the constructor makes of a block. -/
theorem new_eq_some {process : Process} {b : Block} {env : Environment} :
    Environment.new process b.vpEnv = some env ↔
      b.Ucs2 ∧ ∃ l, b.contents process = some l ∧ env = { envMap := insertAll ∅ l } := by
  cases b with
  | inherited =>
    rw [Block.vpEnv, Environment.new, scan_whole zero_ne_equal]
    simp [Block.contents, Block.Ucs2, contents_some, eq_comm]
  | narrow vs =>
    rw [Block.vpEnv, Environment.new, scan_whole zero_ne_equal]
    simp [Block.contents, Block.Ucs2, contents_some, eq_comm]
  | wide vs =>
    rw [Block.vpEnv, Environment.new, scan_whole (by decide), Option.bind_eq_bind, Option.bind_eq_some_iff]
    simp only [Option.map_eq_some_iff]
    constructor
    · rintro ⟨envMap, ⟨l, hl, rfl⟩, hnew⟩
      cases hnew
      obtain ⟨hvs, hcontents⟩ := (contents_toBytes vs).1 hl
      exact ⟨hvs, l, hcontents, rfl⟩
    · rintro ⟨hvs, l, hcontents, rfl⟩
      exact ⟨insertAll ∅ l, ⟨l, (contents_toBytes vs).2 ⟨hvs, hcontents⟩, rfl⟩, rfl⟩

/-! ## A block that has been written is read again -/

theorem new_null (process : Process) :
    Environment.new process .null = some { envMap := insertAll ∅ (pairs process.strings) } := by
  rw [Environment.new, scan_whole zero_ne_equal, contents_some]
  rfl

theorem foldl_write (l : List (Bytes × Bytes)) : ∀ result,
    l.foldl (fun result v => result ++ v.1 ++ [equal] ++ v.2 ++ [0]) result =
      result ++ l.flatMap fun v => v.1 ++ equal :: v.2 ++ [0] := by
  induction l with
  | nil => simp
  | cons v l ih =>
    intro result
    rw [List.foldl_cons, ih]
    simp

theorem createEnvBlock_eq {env : Environment} (h : env.envMap ≠ ∅) :
    env.createEnvBlock = .narrow (env.envMap.toList.flatMap (fun v => v.1 ++ equal :: v.2 ++ [0]) ++ [0]) := by
  rw [Environment.createEnvBlock, if_neg (by simpa using h), Std.ExtTreeMap.foldl_eq_foldl_toList, foldl_write]
  rfl

/-- Proper names and values are those of a block. -/
theorem exists_variables (l : List (Bytes × Bytes)) (h : ∀ v ∈ l, Proper v.1 v.2) :
    ∃ vs : List (Variable 0 equal), pairs vs = l ∧
      block vs = l.flatMap (fun v => v.1 ++ equal :: v.2 ++ [0]) ++ [0] := by
  induction l with
  | nil => exact ⟨[], rfl, rfl⟩
  | cons v l ih =>
    obtain ⟨hv, hl⟩ := List.forall_mem_cons.1 h
    obtain ⟨vs, rfl, hblock⟩ := ih hl
    refine ⟨⟨v.1, v.2, hv.key_plain, hv.value_plain⟩ :: vs, ?_, ?_⟩
    · simp [pairs, hv.nonempty]
    · rw [List.flatMap_cons, List.append_assoc, ← hblock, block_cons]
      simp [Variable.string]

theorem proper_of_lookup {vs : List (Variable 0 equal)} {k value : Bytes} (h : (pairs vs).lookup k = some value) :
    Proper k value := by
  obtain ⟨before, after, hsplit, -⟩ := List.lookup_eq_some_iff.1 h
  have hmem : (k, value) ∈ pairs vs := by simp [hsplit]
  obtain ⟨v, hv, hpair⟩ := List.mem_map.1 hmem
  cases hpair
  exact ⟨by simpa using (List.mem_filter.1 hv).2, v.name_plain, v.value_plain⟩

theorem new_createEnvBlock (process : Process) (env : Environment) :
    Environment.new process env.createEnvBlock = some env ↔
      (∀ k value, env.envMap[k]? = some value → Proper k value) ∧
        (env.envMap = ∅ → ∀ v ∈ process.strings, v.name = []) := by
  obtain ⟨envMap⟩ := env
  by_cases hempty : envMap = ∅
  · subst hempty
    have hnull : Environment.createEnvBlock { envMap := ∅ } = .null := by simp [Environment.createEnvBlock]
    rw [hnull, new_null]
    simp [insertAll_eq_empty, pairs_eq_nil]
  · rw [createEnvBlock_eq hempty]
    dsimp only
    constructor
    · intro h
      obtain ⟨read, hscan, hread⟩ := Option.bind_eq_some_iff.1 h
      cases hread
      obtain ⟨vs, rest, hblock⟩ := block_of_scan zero_ne_equal _ _ hscan
      rw [hblock, scan_block zero_ne_equal, contents_some] at hscan
      cases hscan
      refine ⟨fun k value hk => ?_, fun h => absurd h hempty⟩
      rw [getElem?_insertAll] at hk
      exact proper_of_lookup (by simpa using hk)
    · rintro ⟨hproper, -⟩
      obtain ⟨vs, hpairs, hblock⟩ := exists_variables envMap.toList fun v hv =>
        hproper v.1 v.2 (Std.ExtTreeMap.mem_toList_iff_getElem?_eq_some.1 hv)
      rw [← hblock, Environment.new, scan_whole zero_ne_equal, contents_some, hpairs, Option.map_some,
        insertAll_toList]
      rfl

/-! ## The environment that Python gives -/

theorem addDict_eq_run (environment : List (List Char × List Char)) : ∀ {env env' : Environment},
    addDict env environment = some env' → ∃ l : List (Bytes × Bytes), env' = env.run (l.map fun v => .add v.1 v.2) := by
  induction environment with
  | nil =>
    intro env env' h
    cases h
    exact ⟨[], rfl⟩
  | cons v environment ih =>
    intro env env' h
    simp only [addDict, Option.bind_eq_bind, Option.bind_eq_some_iff] at h
    obtain ⟨key, -, value, -, hrest⟩ := h
    obtain ⟨l, rfl⟩ := ih hrest
    exact ⟨(key, value) :: l, rfl⟩

/-- A variable of the process is not the one of the dictionary that is given for the environment. -/
theorem dictEnvironment_keeps {process : Process} {environment : List (List Char × List Char)} {env : Environment}
    {k value : Bytes} (hprocess : (pairs process.strings).lookup k = some value)
    (h : dictEnvironment process environment = some env) : env.get process k = some value := by
  rw [dictEnvironment, new_null] at h
  obtain ⟨l, rfl⟩ := addDict_eq_run environment h
  have hstart : (Environment.mk (insertAll ∅ (pairs process.strings))).envMap[k]? = some value := by
    simpa [getElem?_insertAll] using hprocess
  rw [Environment.get, Environment.run_adds l hstart]

/-! ## Main theorem -/

theorem undisputed_iff (process : Process) (l : List (Bytes × Bytes)) (calls : List Call) :
    Undisputed process l calls ↔
      let env := Environment.run { envMap := insertAll ∅ l } calls
      (∀ k, env.get process k = asked l calls k) ∧ Environment.new process env.createEnvBlock = some env := by
  simp only [Environment.get_eq_asked, new_createEnvBlock, Environment.getElem?_run, Environment.run_eq_empty]
  constructor
  · intro h
    exact ⟨fun k => ⟨h.same k, h.unset k⟩, h.proper, h.empty⟩
  · rintro ⟨hget, hproper, hempty⟩
    exact ⟨fun k => (hget k).1, fun k => (hget k).2, hproper, hempty⟩

theorem Undisputed.as_asked {process : Process} {b : Block} {calls : List Call} {l : List (Bytes × Bytes)}
    (hb : b.Ucs2) (hl : b.contents process = some l) (h : Undisputed process l calls) : AsAsked process b calls := by
  obtain ⟨hget, hread⟩ := (undisputed_iff process l calls).1 h
  exact ⟨_, l, new_eq_some.2 ⟨hb, l, hl, rfl⟩, hl, hget, hread⟩

/-- **The environment is what was asked for** if and only if a wide block has no surrogates and nothing is disputed:
`add` keeps the value that a name has, `get` turns to the process for a name that has none, and an empty map is not
written as a block at all. -/
theorem as_asked_iff (process : Process) (b : Block) (calls : List Call) : AsAsked process b calls ↔
    b.Ucs2 ∧ ∃ l, b.contents process = some l ∧ Undisputed process l calls := by
  constructor
  · rintro ⟨env, l, hnew, hl, hget, hread⟩
    obtain ⟨hb, l', hl', rfl⟩ := new_eq_some.1 hnew
    obtain rfl : l' = l := Option.some.inj (hl'.symm.trans hl)
    exact ⟨hb, l', hl, (undisputed_iff process l' calls).2 ⟨hget, hread⟩⟩
  · rintro ⟨hb, l, hl, h⟩
    exact h.as_asked hb hl

def INCLUDE : Bytes := [0x49, 0x4E, 0x43, 0x4C, 0x55, 0x44, 0x45]

/-- A process with `INCLUDE=a`. -/
def including : Process :=
  let v : Variable 0 equal := ⟨INCLUDE, [0x61], by decide, by decide⟩
  { strings := [v], getEnv := fun k => (pairs [v]).lookup k }

/-- There the caller's `INCLUDE=b` does not count. -/
theorem added_value_dropped : ¬ AsAsked including .inherited [.add INCLUDE [0x62]] := by
  rintro ⟨env, l, hnew, hl, hget, -⟩
  obtain ⟨-, l', hl', rfl⟩ := new_eq_some.1 hnew
  obtain rfl : l' = l := Option.some.inj (hl'.symm.trans hl)
  obtain rfl : [(INCLUDE, [0x61])] = l' := Option.some.inj (Eq.trans (by decide) hl')
  have hvalue := ((Environment.get_eq_asked _ _ _ _).1 (hget INCLUDE)).1
  revert hvalue
  decide

end BuildPal.Client.Environments
