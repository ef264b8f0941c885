import Mathlib.Tactic.Common
/-!
# UTF-16 and UTF-8

Texts are lists of characters, which are Unicode scalar values. `decode` fails on
what is not well-formed, and `encode` is its inverse.
-/

namespace BuildPal.Lib.Utf16

/-- A code unit. -/
abbrev CodeUnit := BitVec 16

abbrev Text := List Char

/-- The code units of a character. -/
def units (c : Char) : List CodeUnit :=
  if c.toNat < 0x10000 then [.ofNat 16 c.toNat]
  else [.ofNat 16 (0xD800 + (c.toNat - 0x10000) / 0x400), .ofNat 16 (0xDC00 + (c.toNat - 0x10000) % 0x400)]

def encode (text : Text) : List CodeUnit := text.flatMap units

def IsHigh (u : CodeUnit) : Prop := 0xD800 ≤ u.toNat ∧ u.toNat < 0xDC00

def IsLow (u : CodeUnit) : Prop := 0xDC00 ≤ u.toNat ∧ u.toNat < 0xE000

instance (u : CodeUnit) : Decidable (IsHigh u) := inferInstanceAs (Decidable (_ ∧ _))

instance (u : CodeUnit) : Decidable (IsLow u) := inferInstanceAs (Decidable (_ ∧ _))

/-- The character of a surrogate pair. -/
def pair (u v : CodeUnit) : Char := .ofNat (0x10000 + (u.toNat - 0xD800) * 0x400 + (v.toNat - 0xDC00))

def decode : List CodeUnit → Option Text
  | [] => some []
  | u :: us =>
    if IsHigh u then
      match us with
      | [] => none
      | v :: us => if IsLow v then (decode us).map (pair u v :: ·) else none
    else if IsLow u then none
    else (decode us).map (.ofNat u.toNat :: ·)

/-! ## Characters -/

theorem toNat_ofNat {n : Nat} (h : n.isValidChar) : (Char.ofNat n).toNat = n := by
  rw [Char.ofNat, dif_pos h]
  rfl

theorem valid_toNat (c : Char) : c.toNat < 0xD800 ∨ (0xDFFF < c.toNat ∧ c.toNat < 0x110000) := c.valid

theorem units_small {c : Char} (h : c.toNat < 0x10000) : units c = [.ofNat 16 c.toNat] := if_pos h

theorem units_pair {c : Char} (h : 0x10000 ≤ c.toNat) : units c =
    [.ofNat 16 (0xD800 + (c.toNat - 0x10000) / 0x400), .ofNat 16 (0xDC00 + (c.toNat - 0x10000) % 0x400)] :=
  if_neg (Nat.not_lt.mpr h)

theorem decode_single {u : CodeUnit} (hhigh : ¬ IsHigh u) (hlow : ¬ IsLow u) (us : List CodeUnit) :
    decode (u :: us) = (decode us).map (.ofNat u.toNat :: ·) := by
  cases us <;> simp [decode, hhigh, hlow]

theorem decode_pair {u v : CodeUnit} (hhigh : IsHigh u) (hlow : IsLow v) (us : List CodeUnit) :
    decode (u :: v :: us) = (decode us).map (pair u v :: ·) := by
  rw [decode, if_pos hhigh, if_pos hlow]

theorem toNat_unit {n : Nat} (h : n < 0x10000) : (BitVec.ofNat 16 n).toNat = n := by
  rw [BitVec.toNat_ofNat]
  exact Nat.mod_eq_of_lt h

theorem decode_units (c : Char) (us : List CodeUnit) : decode (units c ++ us) = (decode us).map (c :: ·) := by
  have hv := valid_toNat c
  by_cases h : c.toNat < 0x10000
  · have hu := toNat_unit h
    have hhigh : ¬ IsHigh (.ofNat 16 c.toNat) := by rw [IsHigh, hu]; omega
    have hlow : ¬ IsLow (.ofNat 16 c.toNat) := by rw [IsLow, hu]; omega
    rw [units_small h, List.singleton_append, decode_single hhigh hlow, hu, Char.ofNat_toNat]
  · rw [units_pair (Nat.le_of_not_lt h)]
    generalize hx : 0xD800 + (c.toNat - 0x10000) / 0x400 = x
    generalize hy : 0xDC00 + (c.toNat - 0x10000) % 0x400 = y
    have hx' : (BitVec.ofNat 16 x).toNat = x := toNat_unit (by omega)
    have hy' : (BitVec.ofNat 16 y).toNat = y := toNat_unit (by omega)
    have hhigh : IsHigh (.ofNat 16 x) := by rw [IsHigh, hx']; omega
    have hlow : IsLow (.ofNat 16 y) := by rw [IsLow, hy']; omega
    have hval : 0x10000 + (x - 0xD800) * 0x400 + (y - 0xDC00) = c.toNat := by omega
    have hpair : pair (.ofNat 16 x) (.ofNat 16 y) = c := by rw [pair, hx', hy', hval, Char.ofNat_toNat]
    rw [List.cons_append, List.singleton_append, decode_pair hhigh hlow, hpair]

theorem units_ofNat {u : CodeUnit} (hhigh : ¬ IsHigh u) (hlow : ¬ IsLow u) : units (.ofNat u.toNat) = [u] := by
  have hu := u.isLt
  have hval : (Char.ofNat u.toNat).toNat = u.toNat := by
    apply toNat_ofNat
    simp only [IsHigh, IsLow] at hhigh hlow
    unfold Nat.isValidChar
    omega
  rw [units_small (by omega), hval, BitVec.ofNat_toNat, BitVec.setWidth_eq]

theorem units_of_pair {u v : CodeUnit} (hhigh : IsHigh u) (hlow : IsLow v) : units (pair u v) = [u, v] := by
  obtain ⟨hu, hu'⟩ := hhigh
  obtain ⟨hv, hv'⟩ := hlow
  have hval : (pair u v).toNat = 0x10000 + (u.toNat - 0xD800) * 0x400 + (v.toNat - 0xDC00) := by
    apply toNat_ofNat
    unfold Nat.isValidChar
    omega
  have h1 : 0xD800 + ((pair u v).toNat - 0x10000) / 0x400 = u.toNat := by omega
  have h2 : 0xDC00 + ((pair u v).toNat - 0x10000) % 0x400 = v.toNat := by omega
  rw [units_pair (by omega), h1, h2]
  simp

/-! ## Texts -/

theorem decode_encode (text : Text) : decode (encode text) = some text := by
  induction text with
  | nil => rfl
  | cons c text ih =>
    show decode (units c ++ encode text) = _
    rw [decode_units, ih]
    rfl

/-- What decodes is the encoding of what it decodes to. -/
theorem encode_decode (us : List CodeUnit) : ∀ {text}, decode us = some text → us = encode text := by
  induction us using decode.induct with
  | case1 =>
    intro text h
    obtain rfl : [] = text := by simpa [decode] using h
    rfl
  | case2 u hhigh =>
    intro text h
    simp [decode, hhigh] at h
  | case3 u hhigh v us hlow ih =>
    intro text h
    rw [decode_pair hhigh hlow, Option.map_eq_some_iff] at h
    obtain ⟨text', h', rfl⟩ := h
    show _ = units (pair u v) ++ encode text'
    rw [units_of_pair hhigh hlow, ← ih h']
    rfl
  | case4 u hhigh v us hlow =>
    intro text h
    simp [decode, hhigh, hlow] at h
  | case5 u us hhigh hlow =>
    intro text h
    cases us <;> simp [decode, hhigh, hlow] at h
  | case6 u us hhigh hlow ih =>
    intro text h
    rw [decode_single hhigh hlow, Option.map_eq_some_iff] at h
    obtain ⟨text', h', rfl⟩ := h
    show _ = units (.ofNat u.toNat) ++ encode text'
    rw [units_ofNat hhigh hlow, ← ih h']
    rfl

theorem encode_injective {text text' : Text} (h : encode text = encode text') : text = text' :=
  Option.some.inj (by rw [← decode_encode text, h, decode_encode])

/-! ## UTF-8 -/

def utf8 (text : Text) : List UInt8 := text.flatMap String.utf8EncodeChar

theorem utf8_injective {text text' : Text} (h : utf8 text = utf8 text') : text = text' := by
  apply String.ofList_injective
  apply String.toByteArray_inj.mp
  rw [String.toByteArray_ofList, String.toByteArray_ofList]
  exact congrArg List.toByteArray h

/-- The bytes 0xFE and 0xFF, those of a byte order mark, are not in UTF-8. -/
theorem utf8_lt (text : Text) : ∀ b ∈ utf8 text, b.toNat < 0xFE := by
  intro b hb
  obtain ⟨c, -, hc⟩ := List.mem_flatMap.mp hb
  simp only [String.utf8EncodeChar] at hc
  split_ifs at hc <;> simp only [List.mem_cons, List.not_mem_nil, or_false] at hc
  · subst hc
    rw [UInt8.toNat_ofNat']
    omega
  · rcases hc with rfl | rfl <;> rw [UInt8.toNat_ofNat'] <;> omega
  · rcases hc with rfl | rfl | rfl <;> rw [UInt8.toNat_ofNat'] <;> omega
  · rcases hc with rfl | rfl | rfl | rfl <;> rw [UInt8.toNat_ofNat'] <;> omega

end BuildPal.Lib.Utf16
