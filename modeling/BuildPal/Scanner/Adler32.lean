import Mathlib.Algebra.Ring.Nat
import Mathlib.Algebra.BigOperators.Group.List.Basic
import Mathlib.Data.List.Infix
import Mathlib.Tactic.Common
import Mathlib.Tactic.Linarith
import Mathlib.Tactic.Ring
/-!
# The checksum of a content entry

`bsc_adler32` of `contentEntry_.cpp`. It puts the reduction off for `NMAX` bytes
at a time. The loops are written over an arithmetic of the accumulators: that of
the target compiler, where they have 32 bits and a `char` is signed, and one in
which they have no limit and the bytes are what Adler-32 takes them for.
-/

namespace BuildPal.Scanner.Adler32

abbrev Bytes := List UInt8

def base : Nat := 65521

def nmax : Nat := 5552

/-- How the accumulators are added to, and what a `char` counts for. -/
structure Arithmetic where
  add : Nat → Nat → Nat
  char : UInt8 → Nat

/-- A plain `char`, converted to `unsigned int`. -/
def signedChar (c : UInt8) : Nat := if c.toNat < 128 then c.toNat else 2 ^ 32 - 256 + c.toNat

def target : Arithmetic := { add a b := (a + b) % 2 ^ 32, char := signedChar }

/-- As the target, but with an `unsigned char`. -/
def unsignedTarget : Arithmetic := { target with char := UInt8.toNat }

def unbounded : Arithmetic := { add := (· + ·), char := UInt8.toNat }

/-- The accumulators, with what they have been after each byte, the last one first. -/
structure Sums where
  sum1 : Nat := 1
  sum2 : Nat := 0
  history : List (Nat × Nat) := []
  deriving DecidableEq, Repr

/-! ## The loops -/

section Loops
variable (m : Arithmetic)

/-- `DO1`. -/
def do1 (s : Sums) (c : UInt8) : Sums :=
  let sum1 := m.add s.sum1 (m.char c)
  let sum2 := m.add s.sum2 sum1
  { sum1, sum2, history := (sum1, sum2) :: s.history }

/-- `DO16`. -/
def do16 (data : Bytes) (s : Sums) : Sums := (data.take 16).foldl (do1 m) s

/-- The `for` loop, with so many turns left. -/
def do16s : Nat → Bytes → Sums → Sums
  | 0, _, s => s
  | turns + 1, data, s => do16s turns (data.drop 16) (do16 m data s)

/-- `MOD( sum1 ); MOD( sum2 )`. -/
def mod (s : Sums) : Sums := { s with sum1 := s.sum1 % base, sum2 := s.sum2 % base }

/-- The loop over full blocks: what is left of the data, and the accumulators. -/
def blocks (data : Bytes) (s : Sums) : Bytes × Sums :=
  if nmax ≤ data.length then blocks (data.drop nmax) (mod (do16s m (nmax / 16) data s)) else (data, s)
termination_by data.length
decreasing_by simp [nmax] at *; omega

/-- The loop over groups of sixteen. -/
def groups (data : Bytes) (s : Sums) : Bytes × Sums :=
  if 16 ≤ data.length then groups (data.drop 16) (do16 m data s) else (data, s)
termination_by data.length
decreasing_by simp at *; omega

/-- The loop over what is left. -/
def tail : Bytes → Sums → Sums
  | [], s => s
  | c :: data, s => tail data (do1 m s c)

def sums (data : Bytes) : Sums :=
  let (data, s) := blocks m data {}
  let (data, s) := groups m data s
  mod (tail m data s)

end Loops

def bscAdler32 (data : Bytes) : Nat :=
  let s := sums target data
  s.sum1 ||| ((s.sum2 <<< 16) % 2 ^ 32)

/-! ## What it is to be -/

def adlerA (data : Bytes) : Nat := (1 + (data.map UInt8.toNat).sum) % base

/-- The sum of what `a` is after each byte. -/
def adlerB (data : Bytes) : Nat := ((data.inits.tail).map adlerA).sum % base

/-- The checksum is Adler-32, and after every byte the accumulators are what they would be without a limit. -/
structure IsAdler (data : Bytes) : Prop where
  value : bscAdler32 data = (adlerB data <<< 16) ||| adlerA data
  exact : (sums target data).history = (sums unbounded data).history

/-! ## The loops as one program -/

/-- What the loops come to: bytes, and reductions. -/
inductive Instr where
  | byte (c : UInt8)
  | mod
  deriving DecidableEq

section Program
variable (m : Arithmetic)

def exec (s : Sums) : Instr → Sums
  | .byte c => do1 m s c
  | .mod => mod s

/-- The instructions for the data that is left. -/
def program (data : Bytes) : List Instr :=
  if nmax ≤ data.length then (data.take nmax).map .byte ++ .mod :: program (data.drop nmax)
  else data.map .byte ++ [.mod]
termination_by data.length
decreasing_by simp [nmax] at *; omega

theorem program_block {data : Bytes} (h : nmax ≤ data.length) :
    program data = (data.take nmax).map .byte ++ .mod :: program (data.drop nmax) := by
  rw [program, if_pos h]

theorem foldl_byte (data : Bytes) (s : Sums) : (data.map .byte).foldl (exec m) s = data.foldl (do1 m) s := by
  rw [List.foldl_map]
  rfl

theorem do16s_eq (turns : Nat) : ∀ (data : Bytes) (s : Sums),
    do16s m turns data s = (data.take (16 * turns)).foldl (do1 m) s := by
  induction turns with
  | zero =>
    intro data s
    simp [do16s]
  | succ turns ih =>
    intro data s
    rw [do16s, ih, do16, ← List.foldl_append]
    congr 1
    rw [Nat.mul_succ, Nat.add_comm, List.take_add]

theorem tail_eq (data : Bytes) : ∀ s, tail m data s = data.foldl (do1 m) s := by
  induction data with
  | nil => exact fun _ => rfl
  | cons c data ih => exact fun s => ih _

/-- The groups and what is left after them. -/
theorem groups_eq (data : Bytes) (s : Sums) :
    tail m (groups m data s).1 (groups m data s).2 = data.foldl (do1 m) s := by
  induction data, s using groups.induct m with
  | case1 data s h ih =>
    rw [groups, if_pos h, ih, do16, ← List.foldl_append, List.take_append_drop]
  | case2 data s h => rw [groups, if_neg h, tail_eq]

theorem blocks_eq (data : Bytes) (s : Sums) :
    mod (tail m (groups m (blocks m data s).1 (blocks m data s).2).1
      (groups m (blocks m data s).1 (blocks m data s).2).2) =
      (program data).foldl (exec m) s := by
  induction data, s using blocks.induct m with
  | case1 data s h ih =>
    have hblock : do16s m (nmax / 16) data s = (data.take nmax).foldl (do1 m) s := do16s_eq m (nmax / 16) data s
    rw [blocks, if_pos h, ih, program_block h, List.foldl_append, List.foldl_cons, foldl_byte, hblock]
    rfl
  | case2 data s h =>
    rw [blocks, if_neg h, groups_eq, program, if_neg h, List.foldl_append, foldl_byte]
    rfl

theorem sums_eq (data : Bytes) : sums m data = (program data).foldl (exec m) {} := blocks_eq m data {}

end Program

def bytesOf (instrs : List Instr) : Bytes :=
  instrs.filterMap fun
    | .byte c => some c
    | .mod => none

@[simp] theorem bytesOf_map (data : Bytes) : bytesOf (data.map .byte) = data := by
  simp [bytesOf, List.filterMap_map]

@[simp] theorem bytesOf_append (is js : List Instr) : bytesOf (is ++ js) = bytesOf is ++ bytesOf js :=
  List.filterMap_append

@[simp] theorem bytesOf_byte (c : UInt8) (is : List Instr) : bytesOf (.byte c :: is) = c :: bytesOf is := rfl

@[simp] theorem bytesOf_mod (is : List Instr) : bytesOf (.mod :: is) = bytesOf is := rfl

/-- The loops read every byte once, in order. -/
theorem bytesOf_program (data : Bytes) : bytesOf (program data) = data := by
  induction data using program.induct with
  | case1 data h ih => rw [program_block h, bytesOf_append, bytesOf_mod, bytesOf_map, ih, List.take_append_drop]
  | case2 data h =>
    rw [program, if_neg h, bytesOf_append, bytesOf_map]
    exact List.append_nil data

/-- The last thing the loops do is a reduction. -/
theorem program_ends (data : Bytes) : ∃ is, program data = is ++ [.mod] := by
  induction data using program.induct with
  | case1 data h ih =>
    obtain ⟨is, his⟩ := ih
    exact ⟨(data.take nmax).map .byte ++ .mod :: is, by rw [program_block h, his, List.append_assoc, List.cons_append]⟩
  | case2 data h => exact ⟨_, by rw [program, if_neg h]⟩

/-! ## Without a limit the loops compute Adler-32 -/

theorem adlerA_snoc (data : Bytes) (c : UInt8) : adlerA (data ++ [c]) = (adlerA data + c.toNat) % base := by
  simp [adlerA, Nat.add_assoc]

theorem adlerB_snoc (data : Bytes) (c : UInt8) :
    adlerB (data ++ [c]) = (adlerB data + adlerA (data ++ [c])) % base := by
  have hinits : (data ++ [c]).inits.tail = data.inits.tail ++ [data ++ [c]] := by
    rw [List.inits_append]
    cases data <;> simp
  rw [adlerB, hinits, List.map_append, List.sum_append, adlerB, Nat.mod_add_mod]
  simp

/-- Up to the reductions still to come, the accumulators are those of the bytes read. -/
structure Reads (read : Bytes) (s : Sums) : Prop where
  sum1 : s.sum1 % base = adlerA read
  sum2 : s.sum2 % base = adlerB read

theorem reads_do1 {read : Bytes} {s : Sums} (h : Reads read s) (c : UInt8) :
    Reads (read ++ [c]) (do1 unbounded s c) := by
  have h1 : (s.sum1 + c.toNat) % base = adlerA (read ++ [c]) := by
    rw [adlerA_snoc, ← h.sum1, Nat.mod_add_mod]
  refine ⟨h1, ?_⟩
  calc (s.sum2 + (s.sum1 + c.toNat)) % base
      = (s.sum2 % base + (s.sum1 + c.toNat) % base) % base := Nat.add_mod ..
    _ = adlerB (read ++ [c]) := by rw [h.sum2, h1, adlerB_snoc]

theorem reads_mod {read : Bytes} {s : Sums} (h : Reads read s) : Reads read (mod s) :=
  ⟨(Nat.mod_mod ..).trans h.sum1, (Nat.mod_mod ..).trans h.sum2⟩

theorem reads_exec (is : List Instr) : ∀ {read : Bytes} {s : Sums}, Reads read s →
    Reads (read ++ bytesOf is) (is.foldl (exec unbounded) s) := by
  induction is with
  | nil => exact fun h => by simpa [bytesOf] using h
  | cons i is ih =>
    intro read s h
    cases i with
    | byte c =>
      rw [bytesOf_byte, List.append_cons]
      exact ih (reads_do1 h c)
    | mod => exact ih (reads_mod h)

theorem sums_unbounded (data : Bytes) :
    (sums unbounded data).sum1 = adlerA data ∧ (sums unbounded data).sum2 = adlerB data := by
  have hreads : Reads data (sums unbounded data) := by
    have := @reads_exec (program data) [] {} ⟨rfl, rfl⟩
    rwa [List.nil_append, bytesOf_program, ← sums_eq] at this
  obtain ⟨is, his⟩ := program_ends data
  have hmod : sums unbounded data = mod (is.foldl (exec unbounded) {}) := by
    rw [sums_eq, his, List.foldl_append]
    rfl
  rw [← hreads.sum1, ← hreads.sum2, hmod]
  exact ⟨(Nat.mod_mod ..).symm, (Nat.mod_mod ..).symm⟩

/-! ## Between two reductions the accumulators stay below 2^32 -/

/-- What the accumulators can be so many bytes after a reduction. -/
structure Bound (n : Nat) (s : Sums) : Prop where
  sum1 : s.sum1 ≤ 65520 + 255 * n
  sum2 : 2 * s.sum2 ≤ 131040 * (n + 1) + 255 * (n * (n + 1))

theorem bound_mod (s : Sums) : Bound 0 (mod s) := by
  have h1 : s.sum1 % base < base := Nat.mod_lt _ (by decide)
  have h2 : s.sum2 % base < base := Nat.mod_lt _ (by decide)
  simp only [base] at h1 h2
  constructor <;> simp only [mod, base] <;> omega

theorem bound_do1 {n : Nat} {s : Sums} (h : Bound n s) (c : UInt8) : Bound (n + 1) (do1 unbounded s c) := by
  have hc : c.toNat < 256 := c.toNat_lt
  obtain ⟨h1, h2⟩ := h
  refine ⟨?_, ?_⟩
  · show s.sum1 + c.toNat ≤ _
    omega
  · show 2 * (s.sum2 + (s.sum1 + c.toNat)) ≤ _
    nlinarith

/-- The bound that `NMAX` is chosen for. -/
theorem Bound.lt {n : Nat} {s : Sums} (h : Bound n s) (hn : n ≤ nmax) : s.sum1 < 2 ^ 32 ∧ s.sum2 < 2 ^ 32 := by
  obtain ⟨h1, h2⟩ := h
  have hsq : n * (n + 1) ≤ 5552 * 5553 := Nat.mul_le_mul hn (Nat.succ_le_succ hn)
  simp only [nmax] at hn
  omega

section Target
variable {m : Arithmetic} (hadd : m.add = target.add)

include hadd in
theorem do1_eq {c : UInt8} (hc : m.char c = c.toNat) {n : Nat} {s : Sums} (hs : Bound n s) (hn : n < nmax) :
    do1 m s c = do1 unbounded s c := by
  obtain ⟨h1, h2⟩ := (bound_do1 hs c).lt hn
  have e1 : (s.sum1 + c.toNat) % 2 ^ 32 = s.sum1 + c.toNat := Nat.mod_eq_of_lt h1
  have e2 : (s.sum2 + (s.sum1 + c.toNat)) % 2 ^ 32 = s.sum2 + (s.sum1 + c.toNat) := Nat.mod_eq_of_lt h2
  simp only [do1, hadd, hc, target, unbounded, e1, e2]

include hadd in
theorem run_bytes (cs : Bytes) : ∀ {n : Nat} {s : Sums}, (∀ c ∈ cs, m.char c = c.toNat) → Bound n s →
    n + cs.length ≤ nmax → cs.foldl (do1 m) s = cs.foldl (do1 unbounded) s := by
  induction cs with
  | nil => exact fun _ _ _ => rfl
  | cons c cs ih =>
    intro n s hcs hs hn
    rw [List.length_cons] at hn
    rw [List.foldl_cons, List.foldl_cons, do1_eq hadd (hcs c List.mem_cons_self) hs (by omega)]
    exact ih (fun c' h => hcs c' (List.mem_cons_of_mem c h)) (bound_do1 hs c) (by omega)

include hadd in
/-- Where each byte counts for what Adler-32 takes it for, the limit of the accumulators shows nowhere. -/
theorem run_program (data : Bytes) (hdata : ∀ c ∈ data, m.char c = c.toNat) : ∀ {s : Sums}, Bound 0 s →
    (program data).foldl (exec m) s = (program data).foldl (exec unbounded) s := by
  induction data using program.induct with
  | case1 data h ih =>
    intro s hs
    have hblock : (data.take nmax).foldl (do1 m) s = (data.take nmax).foldl (do1 unbounded) s :=
      run_bytes hadd _ (fun c hc => hdata c (List.mem_of_mem_take hc)) hs (by simp)
    rw [program_block h]
    simp only [List.foldl_append, List.foldl_cons, foldl_byte, hblock]
    exact ih (fun c hc => hdata c (List.mem_of_mem_drop hc)) (bound_mod _)
  | case2 data h =>
    intro s hs
    rw [program, if_neg h, List.foldl_append, List.foldl_append, foldl_byte, foldl_byte,
      run_bytes hadd data hdata hs (by omega)]
    rfl

include hadd in
theorem sums_exact {data : Bytes} (hdata : ∀ c ∈ data, m.char c = c.toNat) : sums m data = sums unbounded data := by
  rw [sums_eq, sums_eq]
  exact run_program hadd data hdata ⟨by decide, by decide⟩

end Target

/-- With an `unsigned char` the bound holds for every content, and the sums are those of Adler-32. -/
theorem unsigned_exact (data : Bytes) : sums unsignedTarget data = sums unbounded data :=
  sums_exact (m := unsignedTarget) rfl fun _ _ => rfl

/-! ## The first byte that counts for something else -/

theorem history_exec (m : Arithmetic) (is : List Instr) : ∀ s, ∃ later : List (Nat × Nat),
    later.length = (bytesOf is).length ∧ (is.foldl (exec m) s).history = later ++ s.history := by
  induction is with
  | nil => exact fun s => ⟨[], rfl, rfl⟩
  | cons i is ih =>
    intro s
    obtain ⟨later, hlen, heq⟩ := ih (exec m s i)
    rw [List.foldl_cons, heq]
    cases i with
    | byte c => exact ⟨later ++ [((do1 m s c).sum1, (do1 m s c).sum2)], by simp [hlen], by simp [exec, do1]⟩
    | mod => exact ⟨later, hlen, rfl⟩

theorem signedChar_off {c : UInt8} (hc : 128 ≤ c.toNat) (n : Nat) : (n + signedChar c) % 2 ^ 32 ≠ n + c.toNat := by
  have hlt : c.toNat < 256 := c.toNat_lt
  rw [signedChar, if_neg (by omega)]
  omega

theorem low_of_exact (is : List Instr) : ∀ s : Sums,
    (is.foldl (exec target) s).history = (is.foldl (exec unbounded) s).history → ∀ c ∈ bytesOf is, c.toNat < 128 := by
  induction is with
  | nil => simp [bytesOf]
  | cons i is ih =>
    intro s h
    rw [List.foldl_cons, List.foldl_cons] at h
    cases i with
    | mod => exact ih (mod s) h
    | byte c =>
      obtain ⟨later, hlen, heq⟩ := history_exec target is (do1 target s c)
      obtain ⟨later', hlen', heq'⟩ := history_exec unbounded is (do1 unbounded s c)
      have hnow : (do1 target s c).history = (do1 unbounded s c).history := by
        refine (List.append_inj (heq.symm.trans (h.trans heq')) ?_).2
        rw [hlen, hlen']
      simp only [do1, List.cons.injEq, Prod.mk.injEq, and_true] at hnow
      have hlow : c.toNat < 128 := by
        by_contra hc
        exact signedChar_off (Nat.le_of_not_lt hc) s.sum1 hnow.1
      have hstep : do1 target s c = do1 unbounded s c := by
        simp only [do1]
        rw [hnow.2, hnow.1]
      rw [exec, exec, hstep] at h
      intro c' hc'
      rw [bytesOf_byte, List.mem_cons] at hc'
      rcases hc' with rfl | hc'
      · exact hlow
      · exact ih (do1 unbounded s c) h c' hc'

/-! ## The checksum -/

/-- The shift loses nothing of an accumulator that has been reduced, and the halves do not meet. -/
theorem bscAdler32_exact {data : Bytes} (h : sums target data = sums unbounded data) :
    bscAdler32 data = (adlerB data <<< 16) ||| adlerA data := by
  obtain ⟨h1, h2⟩ := sums_unbounded data
  have hB : adlerB data < base := Nat.mod_lt _ (by decide)
  have hshift : (adlerB data <<< 16) % 2 ^ 32 = adlerB data <<< 16 := by
    rw [Nat.shiftLeft_eq]
    exact Nat.mod_eq_of_lt (by simp only [base] at hB; omega)
  rw [bscAdler32, h, h1, h2, hshift, Nat.or_comm]

/-- The checksum is Adler-32, with no accumulator wrapped, exactly where no byte is a negative `char`. -/
theorem adler_iff (data : Bytes) : IsAdler data ↔ ∀ c ∈ data, c.toNat < 128 := by
  constructor
  · rintro ⟨-, hexact⟩ c hc
    rw [sums_eq, sums_eq] at hexact
    exact low_of_exact (program data) {} hexact c (by rwa [bytesOf_program])
  · intro hlow
    have hsums : sums target data = sums unbounded data := sums_exact rfl fun c hc => if_pos (hlow c hc)
    exact ⟨bscAdler32_exact hsums, congrArg Sums.history hsums⟩

/-- One byte of 0x80: 0x00620062 in place of 0x00810081. -/
theorem high_byte_misread : ∃ data, bscAdler32 data ≠ (adlerB data <<< 16) ||| adlerA data :=
  ⟨[0x80], by decide +kernel⟩

end BuildPal.Scanner.Adler32
