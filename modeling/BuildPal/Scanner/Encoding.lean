import BuildPal.Lib.Utf16
import Mathlib.Data.List.Basic
/-!
# The encoding of a source

`convertEncodingIfNeeded` of `contentEntry_.cpp`. A `char` is signed, a `wchar_t`
has 16 bits, and both are widened to 32 before they are shifted and joined. The
bytes of a `wchar_t` are as in the file.
-/

namespace BuildPal.Scanner.Encoding

open Lib.Utf16

abbrev Bytes := List UInt8

/-- A `char`, promoted to `int`. -/
def int (c : UInt8) : BitVec 32 := c.toBitVec.signExtend 32

/-- `static_cast<wchar_t>( ( high << 8 ) | low )`. -/
def wchar (high low : UInt8) : CodeUnit := (int high <<< 8 ||| int low).setWidth 16

/-- As many whole `wchar_t` as there are, each as its two bytes. -/
def strides : Bytes → List (UInt8 × UInt8)
  | b :: b' :: data => (b, b') :: strides data
  | _ => []

/-- `converter.to_bytes`, which throws `range_error` on what is not UTF-16. -/
def toBytes (input : List CodeUnit) : Option Bytes := (decode input).map utf8

/-- `none` where the converter throws. The range of an empty input is the empty one. -/
def convertEncodingIfNeeded (data : Bytes) : Option Bytes :=
  let bigEndian := [0xFE, 0xFF].isPrefixOf data
  let littleEndian := [0xFF, 0xFE].isPrefixOf data
  if !bigEndian && !littleEndian then some data
  else
    let input := strides (data.drop 2)
    let input :=
      if littleEndian then input.map fun bytePtr => wchar bytePtr.2 bytePtr.1
      else input.map fun bytePtr => wchar bytePtr.1 bytePtr.2
    (toBytes input).map (· ++ [0])

/-! ## What it is to do -/

inductive Endian where
  | little
  | big
  deriving DecidableEq, Repr

def high (u : CodeUnit) : UInt8 := .ofBitVec (u.extractLsb' 8 8)

def low (u : CodeUnit) : UInt8 := .ofBitVec (u.extractLsb' 0 8)

namespace Endian

def mark : Endian → Bytes
  | little => [0xFF, 0xFE]
  | big => [0xFE, 0xFF]

def bytes : Endian → CodeUnit → Bytes
  | little, u => [low u, high u]
  | big, u => [high u, low u]

/-- A file of UTF-16. -/
def file (e : Endian) (text : Text) : Bytes := e.mark ++ (encode text).flatMap e.bytes

end Endian

/-- What is read for this file is right, and the same for the text in the other byte order. -/
structure Converted (data : Bytes) : Prop where
  utf16 : ∀ e text, data = Endian.file e text →
    ∀ e' : Endian, convertEncodingIfNeeded (e'.file text) = some (utf8 text ++ [0])
  other : (∀ e text, data ≠ Endian.file e text) → convertEncodingIfNeeded data = some data

/-- The sign of the low byte does not show in the unit. -/
def Harmless (u : CodeUnit) : Prop := (low u).toNat < 0x80 ∨ high u = 0xFF

/-- No byte order mark, or UTF-16 of harmless units. -/
def Readable (data : Bytes) : Prop :=
  (∀ e : Endian, ¬ e.mark <+: data) ∨ ∃ e text, data = Endian.file e text ∧ ∀ u ∈ encode text, Harmless u

/-! ## One unit -/

def join (high low : UInt8) : CodeUnit := high.toBitVec ++ low.toBitVec

theorem getLsbD_join (h l : UInt8) (i : Nat) :
    (join h l).getLsbD i = if i < 8 then l.toBitVec.getLsbD i else h.toBitVec.getLsbD (i - 8) :=
  BitVec.getLsbD_append

theorem join_high_low (u : CodeUnit) : join (high u) (low u) = u := BitVec.extractLsb'_append_extractLsb'

theorem high_join (h l : UInt8) : high (join h l) = h :=
  congrArg UInt8.ofBitVec BitVec.extractLsb'_append_eq_left

/-- A negative low byte covers the high one. -/
theorem wchar_eq (h l : UInt8) : wchar h l = join (if l.toBitVec.msb then 0xFF else h) l := by
  apply BitVec.eq_of_getLsbD_eq
  intro i hi
  have hi32 : i < 32 := Nat.lt_trans hi (by decide)
  rw [getLsbD_join, wchar, int, int]
  simp only [BitVec.getLsbD_setWidth, BitVec.getLsbD_or, BitVec.getLsbD_shiftLeft, BitVec.getLsbD_signExtend, hi, hi32]
  by_cases h8 : i < 8
  · simp [h8]
  · have h255 : ∀ j, (hj : j < 8) → (255#8)[j] = true := by decide
    have hj : i - 8 < 8 := by omega
    cases l.toBitVec.msb <;> simp [h8, hj, h255, show i - 8 < 32 by omega]

/-- A unit is read as it is exactly when it is harmless. -/
theorem wchar_unit (u : CodeUnit) : wchar (high u) (low u) = u ↔ Harmless u := by
  have hmsb : (low u).toBitVec.msb = decide (0x80 ≤ (low u).toNat) := BitVec.msb_eq_decide _
  rw [wchar_eq, hmsb]
  by_cases hl : 0x80 ≤ (low u).toNat
  · rw [if_pos (by simpa using hl)]
    constructor
    · intro h
      exact .inr (by rw [← h, high_join])
    · rintro (h | h)
      · omega
      · rw [← h, join_high_low]
  · rw [if_neg (by simpa using hl), join_high_low]
    simp only [Harmless, true_iff]
    omega

/-! ## Files -/

theorem strides_bytes (us : List CodeUnit) (e : Endian) :
    strides (us.flatMap e.bytes) = us.map fun u => match e with
      | .little => (low u, high u)
      | .big => (high u, low u) := by
  induction us with
  | nil => cases e <;> rfl
  | cons u us ih => cases e <;> simp [Endian.bytes, strides] at ih ⊢ <;> exact ih

theorem flatMap_bytes_injective {us vs : List CodeUnit} {e : Endian} (h : us.flatMap e.bytes = vs.flatMap e.bytes) :
    us = vs := by
  have hs := congrArg strides h
  rw [strides_bytes, strides_bytes] at hs
  refine List.map_injective_iff.mpr ?_ hs
  intro u v huv
  rw [← join_high_low u, ← join_high_low v]
  cases e <;> simp only [Prod.mk.injEq] at huv <;> rw [huv.1, huv.2]

/-- A file is UTF-16 of one text at most. -/
theorem file_injective {e e' : Endian} {text text' : Text} (h : e.file text = e'.file text') :
    e = e' ∧ text = text' := by
  have he : e = e' := by
    cases e <;> cases e' <;> first | rfl | exact absurd (List.cons.inj h).1 (by decide)
  subst he
  exact ⟨rfl, encode_injective (flatMap_bytes_injective (List.append_cancel_left h))⟩

theorem convert_unmarked {data : Bytes} (h : ∀ e : Endian, ¬ e.mark <+: data) :
    convertEncodingIfNeeded data = some data := by
  have hbig : [0xFE, 0xFF].isPrefixOf data = false := by
    rw [Bool.eq_false_iff, Ne, List.isPrefixOf_iff_prefix]
    exact h .big
  have hlittle : [0xFF, 0xFE].isPrefixOf data = false := by
    rw [Bool.eq_false_iff, Ne, List.isPrefixOf_iff_prefix]
    exact h .little
  rw [convertEncodingIfNeeded, hbig, hlittle]
  rfl

theorem convert_marked {data : Bytes} {e : Endian} (h : e.mark <+: data) : ∃ input,
    convertEncodingIfNeeded data = (toBytes input).map (· ++ [0]) := by
  obtain ⟨rest, rfl⟩ := h
  cases e <;> exact ⟨_, rfl⟩

/-- Both byte orders of a text are read alike. -/
theorem convert_file (e : Endian) (text : Text) : convertEncodingIfNeeded (e.file text) =
    (toBytes ((encode text).map fun u => wchar (high u) (low u))).map (· ++ [0]) := by
  cases e with
  | little =>
    show (toBytes ((strides ((encode text).flatMap Endian.little.bytes)).map _)).map _ = _
    rw [strides_bytes, List.map_map]
    rfl
  | big =>
    show (toBytes ((strides ((encode text).flatMap Endian.big.bytes)).map _)).map _ = _
    rw [strides_bytes, List.map_map]
    rfl

/-- What was converted does not start with a byte order mark. -/
theorem converted_ne {input : List CodeUnit} {data : Bytes} {e : Endian} (h : e.mark <+: data) :
    (toBytes input).map (· ++ [0]) ≠ some data := by
  intro heq
  obtain ⟨bytes, hbytes, rfl⟩ := Option.map_eq_some_iff.mp heq
  obtain ⟨text, -, rfl⟩ := Option.map_eq_some_iff.mp hbytes
  have hlow : ∀ b ∈ utf8 text ++ [0], b.toNat < 0xFE := by
    intro b hb
    rcases List.mem_append.mp hb with hb | hb
    · exact utf8_lt text b hb
    · rw [List.mem_singleton.mp hb]
      decide
  have hmem : (0xFF : UInt8) ∈ utf8 text ++ [0] := h.subset (by cases e <;> decide)
  exact absurd (hlow _ hmem) (by decide)

/-- The text is converted exactly when every one of its units is harmless. -/
theorem convert_text (e : Endian) (text : Text) :
    convertEncodingIfNeeded (e.file text) = some (utf8 text ++ [0]) ↔ ∀ u ∈ encode text, Harmless u := by
  rw [convert_file]
  constructor
  · intro h u hu
    obtain ⟨bytes, hbytes, happend⟩ := Option.map_eq_some_iff.mp h
    obtain ⟨text', hdecode, rfl⟩ := Option.map_eq_some_iff.mp hbytes
    have htext : text' = text := utf8_injective (List.append_cancel_right happend)
    have hmap : (encode text).map (fun u => wchar (high u) (low u)) = (encode text).map id := by
      rw [encode_decode _ hdecode, htext, List.map_id]
    exact (wchar_unit u).mp (List.map_inj_left.mp hmap u hu)
  · intro h
    have hmap : (encode text).map (fun u => wchar (high u) (low u)) = (encode text).map id :=
      List.map_inj_left.mpr fun u hu => (wchar_unit u).mpr (h u hu)
    rw [hmap, List.map_id, toBytes, decode_encode]
    rfl

/-- Sources are converted as they are to be exactly where the sign of a `char` does not show. -/
theorem converted_iff (data : Bytes) : Converted data ↔ Readable data := by
  constructor
  · intro h
    by_cases hmark : ∃ e : Endian, e.mark <+: data
    · right
      obtain ⟨e, he⟩ := hmark
      by_cases hfile : ∃ e text, data = Endian.file e text
      · obtain ⟨e, text, hdata⟩ := hfile
        exact ⟨e, text, hdata, (convert_text e text).mp (h.utf16 e text hdata e)⟩
      · have hsame := h.other fun e text hdata => hfile ⟨e, text, hdata⟩
        obtain ⟨input, hinput⟩ := convert_marked he
        exact absurd (hinput.symm.trans hsame) (converted_ne he)
    · exact .inl fun e he => hmark ⟨e, he⟩
  · rintro (hnone | ⟨e, text, rfl, hharmless⟩)
    · refine ⟨?_, fun _ => convert_unmarked hnone⟩
      rintro e text rfl
      exact absurd (List.prefix_append _ _) (hnone e)
    · refine ⟨?_, fun h => absurd rfl (h e text)⟩
      intro e₁ text₁ hfile e'
      obtain ⟨-, rfl⟩ := file_injective hfile
      exact (convert_text e' text).mpr hharmless

/-- The letter é in little endian, which is read as U+FFE9. -/
theorem accent_lost : ¬ Converted [0xFF, 0xFE, 0xE9, 0x00] := by
  intro h
  have hright := h.utf16 .little ['é'] (by decide +kernel) .little
  exact absurd hright (by decide +kernel)

end BuildPal.Scanner.Encoding
