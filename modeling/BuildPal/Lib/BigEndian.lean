import Mathlib.Algebra.Ring.Nat
import Mathlib.Data.List.Basic
import Mathlib.Tactic.Common
import Mathlib.Tactic.Positivity
import Mathlib.Tactic.Ring
/-!
# Fixed-width numbers

`packBE k n` is the `k`-byte big-endian form of `n`, and fails when `n` does
not fit; `unpackBE k` reads it back, and fails on any other number of bytes.
`toLE` and `ofLE` are the same in the other byte order, without the checks.
-/

namespace BuildPal.Lib

/-- The low `k` bytes of `n`, most significant first. -/
def toBE : Nat → Nat → List UInt8
  | 0, _ => []
  | k + 1, n => UInt8.ofNat (n / 256 ^ k) :: toBE k n

/-- The number a big-endian byte string stands for. -/
def ofBE : List UInt8 → Nat
  | [] => 0
  | b :: bs => b.toNat * 256 ^ bs.length + ofBE bs

/-- Pack an unsigned number into `k` bytes; `none` when it is too large. -/
def packBE (k n : Nat) : Option (List UInt8) :=
  if n < 256 ^ k then some (toBE k n) else none

/-- Unpack exactly `k` bytes; `none` on any other length. -/
def unpackBE (k : Nat) (bs : List UInt8) : Option Nat :=
  if bs.length = k then some (ofBE bs) else none

@[simp] theorem length_toBE (k n : Nat) : (toBE k n).length = k := by
  induction k with
  | zero => rfl
  | succ k ih => simp [toBE, ih]

theorem toBE_mod (k n : Nat) : ofBE (toBE k n) = n % 256 ^ k := by
  induction k with
  | zero => simp [toBE, ofBE, Nat.mod_one]
  | succ k ih =>
    have hstep : n % 256 ^ (k + 1) = n % 256 ^ k + 256 ^ k * (n / 256 ^ k % 256) := by
      rw [Nat.pow_succ, Nat.mod_mul]
    simp only [toBE, ofBE, length_toBE, UInt8.toNat_ofNat', ih]
    rw [hstep, Nat.add_comm, Nat.mul_comm]

theorem ofBE_toBE {k n : Nat} (h : n < 256 ^ k) : ofBE (toBE k n) = n := by
  rw [toBE_mod, Nat.mod_eq_of_lt h]

theorem ofBE_lt (bs : List UInt8) : ofBE bs < 256 ^ bs.length := by
  induction bs with
  | nil => simp [ofBE]
  | cons b bs ih =>
    have hb : b.toNat + 1 ≤ 256 := b.toNat_lt
    have hstep : (b.toNat + 1) * 256 ^ bs.length ≤ 256 * 256 ^ bs.length := Nat.mul_le_mul_right _ hb
    simp only [ofBE, List.length_cons, Nat.pow_succ]
    rw [Nat.add_mul] at hstep
    omega

theorem toBE_add_mul (k a n : Nat) : toBE k (a * 256 ^ k + n) = toBE k n := by
  induction k generalizing a n with
  | zero => rfl
  | succ k ih =>
    have hassoc : a * 256 ^ (k + 1) + n = a * 256 * 256 ^ k + n := by rw [Nat.pow_succ]; ring
    have hpos : 0 < 256 ^ k := by positivity
    have hdiv : (a * 256 * 256 ^ k + n) / 256 ^ k = a * 256 + n / 256 ^ k := by
      rw [Nat.add_comm, Nat.add_mul_div_right _ _ hpos, Nat.add_comm]
    rw [hassoc]
    simp only [toBE, ih, hdiv]
    congr 1
    apply UInt8.toNat_inj.1
    simp only [UInt8.toNat_ofNat']
    omega

/-- What was read is what packs to the bytes. -/
theorem toBE_ofBE (bs : List UInt8) : toBE bs.length (ofBE bs) = bs := by
  induction bs with
  | nil => rfl
  | cons b bs ih =>
    have hpos : 0 < 256 ^ bs.length := by positivity
    have hdiv : (b.toNat * 256 ^ bs.length + ofBE bs) / 256 ^ bs.length = b.toNat := by
      rw [Nat.add_comm, Nat.add_mul_div_right _ _ hpos, Nat.div_eq_of_lt (ofBE_lt bs), Nat.zero_add]
    simp only [List.length_cons, toBE, ofBE, hdiv, toBE_add_mul, ih]
    simp

/-- A field of `k` bytes: what it reads as fits the field and packs to it. -/
theorem ofBE_field {k : Nat} {bs : List UInt8} (h : bs.length = k) : ofBE bs < 256 ^ k ∧ toBE k (ofBE bs) = bs := by
  subst h
  exact ⟨ofBE_lt bs, toBE_ofBE bs⟩

theorem packBE_eq_some {k n : Nat} {bs : List UInt8} :
    packBE k n = some bs ↔ n < 256 ^ k ∧ bs = toBE k n := by
  unfold packBE
  split
  · next h => simp [h, eq_comm]
  · next h => simp [h]

/-- What was packed is what is read back. -/
theorem unpackBE_packBE {k n : Nat} {bs : List UInt8} (h : packBE k n = some bs) :
    unpackBE k bs = some n := by
  obtain ⟨hn, rfl⟩ := packBE_eq_some.1 h
  simp [unpackBE, ofBE_toBE hn]

theorem length_packBE {k n : Nat} {bs : List UInt8} (h : packBE k n = some bs) : bs.length = k := by
  obtain ⟨-, rfl⟩ := packBE_eq_some.1 h
  exact length_toBE k n

/-! ## The other byte order -/

/-- The low `k` bytes of `n`, least significant first. -/
def toLE : Nat → Nat → List UInt8
  | 0, _ => []
  | k + 1, n => UInt8.ofNat n :: toLE k (n / 256)

/-- The number a little-endian byte string stands for. -/
def ofLE : List UInt8 → Nat
  | [] => 0
  | b :: bs => b.toNat + 256 * ofLE bs

@[simp] theorem length_toLE (k n : Nat) : (toLE k n).length = k := by
  induction k generalizing n with
  | zero => rfl
  | succ k ih => simp [toLE, ih]

theorem ofLE_toLE_mod (k n : Nat) : ofLE (toLE k n) = n % 256 ^ k := by
  induction k generalizing n with
  | zero => simp [toLE, ofLE, Nat.mod_one]
  | succ k ih =>
    rw [Nat.pow_succ, Nat.mul_comm, Nat.mod_mul]
    simp [toLE, ofLE, ih]

theorem ofLE_toLE {k n : Nat} (h : n < 256 ^ k) : ofLE (toLE k n) = n := by
  rw [ofLE_toLE_mod, Nat.mod_eq_of_lt h]

end BuildPal.Lib
