import BuildPal.Client.WireFormat
/-!
# The client's frame parser

`MsgReceiver::getMessage` on whatever the peer sends, for a `std::size_t` of 32
and of 64 bits. The client is built for both. Here the offset is a `size_t`, and
the parts are what they are in the source: pointers into the buffer.
-/
open BuildPal.Lib BuildPal.Message

namespace BuildPal.Client.FrameParser

inductive SizeT where
  | bits32
  | bits64
  deriving DecidableEq, Repr

def SizeT.modulus : SizeT → Nat
  | .bits32 => 2 ^ 32
  | .bits64 => 2 ^ 64

/-- A `StringRef` into the buffer. -/
structure Part where
  start : Nat
  len : Nat
  deriving DecidableEq, Repr

/-- What has been read of a message: the first six bytes, and the body. -/
structure Frame where
  lengthBuffer : Bytes
  buf : Bytes
  deriving DecidableEq, Repr

namespace Frame
variable (f : Frame)

def lengthPrefix : Nat := fromByteArray 4 f.lengthBuffer

def partCount : Nat := fromByteArray 2 (f.lengthBuffer.drop 4)

/-- The memory from the buffer on, with what lies behind it. -/
def memory (beyond : Nat → UInt8) (i : Nat) : UInt8 := f.buf[i]?.getD (beyond (i - f.buf.length))

def content (part : Part) : Bytes := (f.buf.drop part.start).take part.len

end Frame

/-- The two reads of `getMessage`. -/
def readFrame (stream : Bytes) : Except Error Frame :=
  match read stream 6 with
  | .error e => .error e
  | .ok (lengthBuffer, stream) =>
    let totalSize := UInt32.ofNat (fromByteArray 4 lengthBuffer) - 2
    match read stream totalSize.toNat with
    | .error e => .error e
    | .ok (buf, _) => .ok { lengthBuffer, buf }

/-- `from_byte_array<4>( ustart + offset )`. -/
def fieldAt (memory : Nat → UInt8) (offset : Nat) : Nat :=
  fromByteArray 4 [memory offset, memory (offset + 1), memory (offset + 2), memory (offset + 3)]

/-- The loop of `getMessage`, for so many tests of its condition. -/
def parseLoop (size : SizeT) (memory : Nat → UInt8) (totalSize : Nat) : Nat → Nat → List Part → Option (Nat × List Part)
  | 0, _, _ => none
  | fuel + 1, offset, parts =>
    if offset < totalSize then
      let partLen := fieldAt memory offset
      let offset := (offset + 4) % size.modulus
      parseLoop size memory totalSize fuel ((offset + partLen) % size.modulus) (parts ++ [⟨offset, partLen⟩])
    else some (offset, parts)

/-- `MsgReceiver::getMessage`: the frame and its parts. `none` if the loop is not done yet. -/
def getMessage (size : SizeT) (beyond : Nat → UInt8) (stream : Bytes) (fuel : Nat) :
    Option (Except Error (Frame × List Part)) :=
  match readFrame stream with
  | .error e => some (.error e)
  | .ok frame =>
    (parseLoop size (frame.memory beyond) frame.buf.length fuel 0 []).map fun (offset, parts) =>
      if offset ≠ frame.buf.length ∨ parts.length ≠ frame.partCount then .error .protocolError
      else .ok (frame, parts)

/-- From `offset` to the end each part follows its length field, and the next field the part. -/
def Tiles (offset : Nat) : List Part → Nat → Prop
  | [], finish => offset = finish
  | part :: parts, finish => part.start = offset + 4 ∧ Tiles (part.start + part.len) parts finish

/-- What is to be true of the parts that are found without an error. -/
structure Sound (frame : Frame) (parts : List Part) : Prop where
  within : ∀ part ∈ parts, part.start + part.len ≤ frame.buf.length
  tiles : Tiles 0 parts frame.buf.length
  count : parts.length = frame.partCount
  encodes : msgToBytes (parts.map frame.content) = some (frame.lengthBuffer ++ frame.buf)

/-- The parser comes to an end, what it accepts is sound, and it does not accept a length prefix below 2. -/
structure ParsesSafely (size : SizeT) (beyond : Nat → UInt8) (stream : Bytes) : Prop where
  terminates : ∃ fuel result, getMessage size beyond stream fuel = some result
  sound : ∀ fuel frame parts, getMessage size beyond stream fuel = some (.ok (frame, parts)) → Sound frame parts
  short : ∀ fuel frame parts, getMessage size beyond stream fuel = some (.ok (frame, parts)) → 2 ≤ frame.lengthPrefix

/-! ## Where the length fields lead -/

section Walk
variable (size : SizeT) (memory : Nat → UInt8)

/-- The offset behind `k` parts. -/
def offsetAt : Nat → Nat
  | 0 => 0
  | k + 1 => (offsetAt k + 4 + fieldAt memory (offsetAt k)) % size.modulus

/-- The offset behind `n` parts is the first one that is not inside. -/
def Leaves (total n : Nat) : Prop := (∀ k < n, offsetAt size memory k < total) ∧ total ≤ offsetAt size memory n

/-- None of `n` parts carries the offset past what a `size_t` can hold. -/
def NoWrap (n : Nat) : Prop :=
  ∀ k < n, offsetAt size memory k + 4 + fieldAt memory (offsetAt size memory k) < size.modulus

end Walk

/-- The length fields lead out of the body, and where they lead to its end, behind as many parts as declared, no offset
has wrapped and the prefix is not below 2. -/
structure Harmless (size : SizeT) (beyond : Nat → UInt8) (frame : Frame) : Prop where
  leaves : ∃ n, frame.buf.length ≤ offsetAt size (frame.memory beyond) n
  exact : Leaves size (frame.memory beyond) frame.buf.length frame.partCount →
    offsetAt size (frame.memory beyond) frame.partCount = frame.buf.length →
    NoWrap size (frame.memory beyond) frame.partCount ∧ 2 ≤ frame.lengthPrefix

/-! ## The loop -/

section Loop
variable {size : SizeT} {memory : Nat → UInt8} {total : Nat}

/-- The part that the loop takes down in its turn `k`. -/
def partAt (size : SizeT) (memory : Nat → UInt8) (k : Nat) : Part :=
  ⟨(offsetAt size memory k + 4) % size.modulus, fieldAt memory (offsetAt size memory k)⟩

/-- The parts from the `k`-th on, `m` of them. -/
def partsFrom (size : SizeT) (memory : Nat → UInt8) (k m : Nat) : List Part :=
  (List.range' k m).map (partAt size memory)

theorem partsFrom_succ (k m : Nat) :
    partsFrom size memory k (m + 1) = partAt size memory k :: partsFrom size memory (k + 1) m := by
  simp [partsFrom, List.range'_succ]

@[simp] theorem length_partsFrom (k m : Nat) : (partsFrom size memory k m).length = m := by
  simp [partsFrom]

theorem partsFrom_concat (k : Nat) :
    partsFrom size memory 0 k ++ [partAt size memory k] = partsFrom size memory 0 (k + 1) := by
  simp [partsFrom, List.range'_concat]

theorem parseLoop_turn (fuel k : Nat) (parts : List Part) (hlt : offsetAt size memory k < total) :
    parseLoop size memory total (fuel + 1) (offsetAt size memory k) parts =
      parseLoop size memory total fuel (offsetAt size memory (k + 1)) (parts ++ [partAt size memory k]) := by
  rw [parseLoop, if_pos hlt]
  simp only [Nat.mod_add_mod]
  rfl

/-- From its turn `k` on the loop ends where the offsets leave the body. -/
theorem parseLoop_leaves {n : Nat} (hn : Leaves size memory total n) (m : Nat) : ∀ k, k + m = n →
    parseLoop size memory total (m + 1) (offsetAt size memory k) (partsFrom size memory 0 k) =
      some (offsetAt size memory n, partsFrom size memory 0 n) := by
  induction m with
  | zero =>
    rintro k rfl
    exact if_neg (Nat.not_lt.2 hn.2)
  | succ m ih =>
    intro k hk
    rw [parseLoop_turn _ _ _ (hn.1 k (by omega)), partsFrom_concat]
    exact ih (k + 1) (by omega)

theorem parseLoop_some (fuel : Nat) : ∀ k r, (∀ j < k, offsetAt size memory j < total) →
    parseLoop size memory total fuel (offsetAt size memory k) (partsFrom size memory 0 k) = some r →
    ∃ n, Leaves size memory total n ∧ r = (offsetAt size memory n, partsFrom size memory 0 n) := by
  induction fuel with
  | zero =>
    intro k r _ hr
    cases hr
  | succ fuel ih =>
    intro k r hbefore hr
    by_cases hlt : offsetAt size memory k < total
    · rw [parseLoop_turn _ _ _ hlt, partsFrom_concat] at hr
      refine ih (k + 1) r (fun j hj => ?_) hr
      rcases Nat.lt_succ_iff_lt_or_eq.1 hj with hj | rfl
      · exact hbefore j hj
      · exact hlt
    · rw [parseLoop, if_neg hlt] at hr
      exact ⟨k, ⟨hbefore, by omega⟩, (Option.some.inj hr).symm⟩

theorem exists_leaves {n : Nat} (h : total ≤ offsetAt size memory n) : ∃ n, Leaves size memory total n := by
  classical
  have hex : ∃ n, total ≤ offsetAt size memory n := ⟨n, h⟩
  exact ⟨Nat.find hex, fun k hk => Nat.lt_of_not_le (Nat.find_min hex hk), Nat.find_spec hex⟩

/-! ## Parts that tile -/

theorem Tiles.bounds {parts : List Part} : ∀ {offset finish : Nat}, Tiles offset parts finish →
    offset ≤ finish ∧ ∀ part ∈ parts, part.start + part.len ≤ finish := by
  induction parts with
  | nil =>
    rintro offset finish rfl
    exact ⟨Nat.le_refl _, by simp⟩
  | cons part parts ih =>
    rintro offset finish ⟨hstart, htail⟩
    obtain ⟨hle, hrest⟩ := ih htail
    exact ⟨by omega, by simpa [hle] using hrest⟩

theorem tiles_of_noWrap {n : Nat} (h : NoWrap size memory n) (m : Nat) : ∀ k, k + m = n →
    Tiles (offsetAt size memory k) (partsFrom size memory k m) (offsetAt size memory n) := by
  induction m with
  | zero =>
    rintro k rfl
    rfl
  | succ m ih =>
    intro k hk
    have hlt := h k (by omega)
    have hstart : (offsetAt size memory k + 4) % size.modulus = offsetAt size memory k + 4 :=
      Nat.mod_eq_of_lt (by omega)
    have hnext : offsetAt size memory (k + 1) = offsetAt size memory k + 4 + fieldAt memory (offsetAt size memory k) :=
      Nat.mod_eq_of_lt hlt
    have htail := ih (k + 1) (by omega)
    rw [hnext] at htail
    rw [partsFrom_succ, Tiles, partAt, hstart]
    exact ⟨rfl, htail⟩

/-- Parts that tile a body of which the end can be addressed do not wrap. -/
theorem noWrap_of_tiles (htotal : total < size.modulus) (m : Nat) : ∀ k,
    Tiles (offsetAt size memory k) (partsFrom size memory k m) total → ∀ j, k ≤ j → j < k + m →
      offsetAt size memory j + 4 + fieldAt memory (offsetAt size memory j) < size.modulus := by
  induction m with
  | zero => omega
  | succ m ih =>
    intro k htiles j hkj hj
    rw [partsFrom_succ, Tiles] at htiles
    obtain ⟨hstart, htail⟩ := htiles
    have hle := htail.bounds.1
    have hsum : (partAt size memory k).start + (partAt size memory k).len =
        offsetAt size memory k + 4 + fieldAt memory (offsetAt size memory k) := by rw [hstart]; rfl
    have hnext : offsetAt size memory (k + 1) = (partAt size memory k).start + (partAt size memory k).len := by
      rw [hsum]
      exact Nat.mod_eq_of_lt (by omega)
    rcases Nat.eq_or_lt_of_le hkj with rfl | hlt
    · omega
    · rw [← hnext] at htail
      exact ih (k + 1) htail j hlt (by omega)

end Loop

/-! ## The frame -/

section Frame
variable {size : SizeT} {beyond : Nat → UInt8} {stream : Bytes} {frame : Frame}

theorem read_ok {bs a b : Bytes} {n : Nat} (h : read bs n = .ok (a, b)) :
    n ≤ bs.length ∧ a = bs.take n ∧ b = bs.drop n := by
  rw [read] at h
  split at h
  · next hn =>
    cases h
    exact ⟨hn, rfl, rfl⟩
  · cases h

theorem readFrame_ok (h : readFrame stream = .ok frame) :
    frame.lengthBuffer.length = 6 ∧ frame.buf.length = (UInt32.ofNat frame.lengthPrefix - 2).toNat := by
  rw [readFrame] at h
  cases hfirst : read stream 6 with
  | error e =>
    rw [hfirst] at h
    cases h
  | ok first =>
    obtain ⟨lengthBuffer, rest⟩ := first
    obtain ⟨hlen, rfl, rfl⟩ := read_ok hfirst
    rw [hfirst] at h
    simp only at h
    split at h
    · cases h
    · next buf _ hbody =>
      obtain ⟨hbodyLen, rfl, -⟩ := read_ok hbody
      cases h
      exact ⟨by simpa using hlen, by simpa [Frame.lengthPrefix] using hbodyLen⟩

theorem lengthBuffer_eq (h : frame.lengthBuffer.length = 6) :
    frame.lengthBuffer = toBE 4 frame.lengthPrefix ++ toBE 2 frame.partCount ∧
      frame.lengthPrefix < 2 ^ 32 ∧ frame.partCount < 65536 := by
  have hfour : (frame.lengthBuffer.take 4).length = 4 := by simp [h]
  have htwo : (frame.lengthBuffer.drop 4).length = 2 := by simp [h]
  obtain ⟨hpre, hpreEq⟩ := ofBE_field hfour
  obtain ⟨hcount, hcountEq⟩ := ofBE_field htwo
  have hread : frame.lengthPrefix = ofBE (frame.lengthBuffer.take 4) := fromByteArray_eq (by omega) (by omega)
  have hreadCount : frame.partCount = ofBE (frame.lengthBuffer.drop 4) := by
    have hall : (frame.lengthBuffer.drop 4).take 2 = frame.lengthBuffer.drop 4 := List.take_of_length_le (by omega)
    rw [Frame.partCount, fromByteArray_eq (by omega) (by omega), hall]
  rw [hread, hreadCount, hpreEq, hcountEq, List.take_append_drop]
  exact ⟨rfl, hpre, hcount⟩

/-- The body can be addressed, and is two bytes shorter than the prefix says unless that is below 2. -/
theorem length_buf (h : readFrame stream = .ok frame) :
    frame.buf.length < 2 ^ 32 ∧ (2 ≤ frame.lengthPrefix → frame.buf.length + 2 = frame.lengthPrefix) := by
  obtain ⟨hsix, hbuf⟩ := readFrame_ok h
  obtain ⟨-, hlt, -⟩ := lengthBuffer_eq hsix
  rw [hbuf]
  refine ⟨UInt32.toNat_lt _, fun htwo => ?_⟩
  rw [UInt32.toNat_sub, UInt32.toNat_ofNat', Nat.mod_eq_of_lt hlt]
  show (2 ^ 32 - 2 + frame.lengthPrefix) % 2 ^ 32 + 2 = _
  omega

theorem lt_modulus (h : readFrame stream = .ok frame) : frame.buf.length < size.modulus := by
  have hlt := (length_buf h).1
  cases size
  · exact hlt
  · rw [SizeT.modulus]
    omega

/-- A length field that is inside the body is read from there. -/
theorem fieldAt_inside {offset : Nat} (h : offset + 4 ≤ frame.buf.length) :
    fieldAt (frame.memory beyond) offset = ofBE ((frame.buf.drop offset).take 4) := by
  have hmem : ∀ i, (hi : i < frame.buf.length) → frame.memory beyond i = frame.buf[i] := by
    intro i hi
    simp [Frame.memory, List.getElem?_eq_getElem hi]
  have htake : (frame.buf.drop offset).take 4 = [frame.memory beyond offset, frame.memory beyond (offset + 1),
      frame.memory beyond (offset + 2), frame.memory beyond (offset + 3)] := by
    rw [hmem offset (by omega), hmem (offset + 1) (by omega), hmem (offset + 2) (by omega),
      hmem (offset + 3) (by omega),
      List.drop_eq_getElem_cons (i := offset) (by omega), List.drop_eq_getElem_cons (i := offset + 1) (by omega),
      List.drop_eq_getElem_cons (i := offset + 2) (by omega), List.drop_eq_getElem_cons (i := offset + 3) (by omega)]
    rfl
  rw [fieldAt, ← htake, fromByteArray_eq (by omega) (by simp; omega), List.take_take]
  simp

/-- The body from an offset on is the encoding of the parts that tile it. -/
theorem drop_eq_partsBytes (m : Nat) : ∀ k,
    Tiles (offsetAt size (frame.memory beyond) k) (partsFrom size (frame.memory beyond) k m) frame.buf.length →
      frame.buf.length < size.modulus →
      frame.buf.drop (offsetAt size (frame.memory beyond) k) =
        partsBytes ((partsFrom size (frame.memory beyond) k m).map frame.content) := by
  induction m with
  | zero =>
    intro k htiles _
    have hend : offsetAt size (frame.memory beyond) k = frame.buf.length := htiles
    rw [hend, List.drop_length]
    rfl
  | succ m ih =>
    intro k htiles hmod
    rw [partsFrom_succ, Tiles] at htiles
    obtain ⟨hstart, htail⟩ := htiles
    have hlen : (partAt size (frame.memory beyond) k).len =
        fieldAt (frame.memory beyond) (offsetAt size (frame.memory beyond) k) := rfl
    rw [hstart, hlen] at htail
    generalize ho : offsetAt size (frame.memory beyond) k = o at hstart hlen htail
    have hle := htail.bounds.1
    have hnext : offsetAt size (frame.memory beyond) (k + 1) = o + 4 + fieldAt (frame.memory beyond) o := by
      rw [offsetAt, ho]
      exact Nat.mod_eq_of_lt (by omega)
    have hrest := ih (k + 1) (by rwa [hnext]) hmod
    rw [hnext] at hrest
    have hfield : ((frame.buf.drop o).take 4).length = 4 := by simp; omega
    obtain ⟨-, hbe⟩ := ofBE_field hfield
    have hread : fieldAt (frame.memory beyond) o = ofBE ((frame.buf.drop o).take 4) := fieldAt_inside (by omega)
    rw [← hread] at hbe
    have hcontent : frame.content (partAt size (frame.memory beyond) k) =
        (frame.buf.drop (o + 4)).take (fieldAt (frame.memory beyond) o) := by rw [Frame.content, hstart, hlen]
    have hcontentLen : (frame.content (partAt size (frame.memory beyond) k)).length =
        fieldAt (frame.memory beyond) o := by
      rw [hcontent]
      simp
      omega
    rw [partsFrom_succ, List.map_cons, partsBytes_cons, hcontentLen, hbe, hcontent, List.append_assoc, ← hrest,
      ← take_drop_split, ← take_drop_split]

/-! ## What is accepted -/

/-- The frame ends behind the declared number of parts. -/
def Accepted (size : SizeT) (beyond : Nat → UInt8) (frame : Frame) : Prop :=
  Leaves size (frame.memory beyond) frame.buf.length frame.partCount ∧
    offsetAt size (frame.memory beyond) frame.partCount = frame.buf.length

theorem getMessage_frame (h : readFrame stream = .ok frame) (fuel : Nat) : getMessage size beyond stream fuel =
    (parseLoop size (frame.memory beyond) frame.buf.length fuel 0 []).map fun r =>
      if r.1 ≠ frame.buf.length ∨ r.2.length ≠ frame.partCount then .error .protocolError else .ok (frame, r.2) := by
  rw [getMessage, h]

theorem getMessage_leaves (h : readFrame stream = .ok frame) {n : Nat}
    (hn : Leaves size (frame.memory beyond) frame.buf.length n) : getMessage size beyond stream (n + 1) =
      some (if offsetAt size (frame.memory beyond) n ≠ frame.buf.length ∨ n ≠ frame.partCount then .error .protocolError
        else .ok (frame, partsFrom size (frame.memory beyond) 0 n)) := by
  have hloop : parseLoop size (frame.memory beyond) frame.buf.length (n + 1) 0 [] =
      some (offsetAt size (frame.memory beyond) n, partsFrom size (frame.memory beyond) 0 n) :=
    parseLoop_leaves hn n 0 (by omega)
  rw [getMessage_frame h, hloop]
  simp

theorem getMessage_some (h : readFrame stream = .ok frame) {fuel : Nat} {r : Except Error (Frame × List Part)}
    (hr : getMessage size beyond stream fuel = some r) :
    ∃ n, Leaves size (frame.memory beyond) frame.buf.length n ∧
      r = if offsetAt size (frame.memory beyond) n ≠ frame.buf.length ∨ n ≠ frame.partCount then .error .protocolError
        else .ok (frame, partsFrom size (frame.memory beyond) 0 n) := by
  rw [getMessage_frame h, Option.map_eq_some_iff] at hr
  obtain ⟨r', hloop, rfl⟩ := hr
  obtain ⟨n, hn, rfl⟩ := parseLoop_some fuel 0 r' (by omega) hloop
  exact ⟨n, hn, by simp⟩

theorem getMessage_ok (h : readFrame stream = .ok frame) {fuel : Nat} {f : Frame} {parts : List Part}
    (hr : getMessage size beyond stream fuel = some (.ok (f, parts))) :
    Accepted size beyond frame ∧ f = frame ∧ parts = partsFrom size (frame.memory beyond) 0 frame.partCount := by
  obtain ⟨n, hn, heq⟩ := getMessage_some h hr
  split at heq
  · cases heq
  · next hgood =>
    obtain ⟨hend, rfl⟩ : offsetAt size (frame.memory beyond) n = frame.buf.length ∧ n = frame.partCount := by
      simpa using hgood
    cases heq
    exact ⟨⟨hn, hend⟩, rfl, rfl⟩

theorem getMessage_accepted (h : readFrame stream = .ok frame) (ha : Accepted size beyond frame) :
    getMessage size beyond stream (frame.partCount + 1) =
      some (.ok (frame, partsFrom size (frame.memory beyond) 0 frame.partCount)) := by
  rw [getMessage_leaves h ha.1, if_neg (by simp [ha.2])]

theorem sound_of_noWrap (h : readFrame stream = .ok frame) (ha : Accepted size beyond frame)
    (hwrap : NoWrap size (frame.memory beyond) frame.partCount) (htwo : 2 ≤ frame.lengthPrefix) :
    Sound frame (partsFrom size (frame.memory beyond) 0 frame.partCount) := by
  obtain ⟨hlt, hpre⟩ := length_buf h
  obtain ⟨hbuf, hfits, hcount⟩ := lengthBuffer_eq (readFrame_ok h).1
  have htiles : Tiles 0 (partsFrom size (frame.memory beyond) 0 frame.partCount) frame.buf.length := by
    have := tiles_of_noWrap hwrap frame.partCount 0 (by omega)
    rwa [ha.2] at this
  have hbody : frame.buf = partsBytes ((partsFrom size (frame.memory beyond) 0 frame.partCount).map frame.content) :=
    drop_eq_partsBytes frame.partCount 0 htiles (lt_modulus h)
  have hlen : ((partsFrom size (frame.memory beyond) 0 frame.partCount).map frame.content).length =
      frame.partCount := by
    simp
  refine ⟨htiles.bounds.2, htiles, length_partsFrom .., ?_⟩
  generalize (partsFrom size (frame.memory beyond) 0 frame.partCount).map frame.content = msg at hbody hlen
  have htotal : totalLen msg = frame.lengthPrefix := by
    rw [← hpre htwo, ← length_body, List.length_append, length_toBE, ← hbody]
    omega
  rw [msgToBytes_eq_some, htotal, hlen, ← hbody, hbuf, List.append_assoc]
  exact ⟨⟨by omega, hfits⟩, rfl⟩

end Frame

/-! ## Main theorem -/

/-- **The parser is safe** on a stream if and only if the frame in it, where there is one, is harmless. -/
theorem parses_safely_iff (size : SizeT) (beyond : Nat → UInt8) (stream : Bytes) :
    ParsesSafely size beyond stream ↔ ∀ frame, readFrame stream = .ok frame → Harmless size beyond frame := by
  constructor
  · intro hsafe frame h
    constructor
    · obtain ⟨fuel, r, hr⟩ := hsafe.terminates
      obtain ⟨n, hn, -⟩ := getMessage_some h hr
      exact ⟨n, hn.2⟩
    · intro hleaves hend
      have haccept := getMessage_accepted h ⟨hleaves, hend⟩
      have htiles := (hsafe.sound _ _ _ haccept).tiles
      refine ⟨fun k hk => ?_, hsafe.short _ _ _ haccept⟩
      exact noWrap_of_tiles (lt_modulus h) frame.partCount 0 htiles k (Nat.zero_le k) (by omega)
  · intro hharmless
    cases h : readFrame stream with
    | error e =>
      have herror : ∀ fuel, getMessage size beyond stream fuel = some (.error e) := fun fuel => by rw [getMessage, h]
      refine ⟨⟨0, _, herror 0⟩, ?_, ?_⟩ <;>
      · intro fuel frame parts hr
        rw [herror fuel] at hr
        cases hr
    | ok frame =>
      obtain ⟨⟨n, hn⟩, hexact⟩ := hharmless frame h
      obtain ⟨m, hm⟩ := exists_leaves hn
      refine ⟨⟨m + 1, _, getMessage_leaves h hm⟩, ?_, ?_⟩
      · intro fuel f parts hr
        obtain ⟨ha, rfl, rfl⟩ := getMessage_ok h hr
        obtain ⟨hwrap, htwo⟩ := hexact ha.1 ha.2
        exact sound_of_noWrap h ha hwrap htwo
      · intro fuel f parts hr
        obtain ⟨ha, rfl, -⟩ := getMessage_ok h hr
        exact (hexact ha.1 ha.2).2

/-- With a `std::size_t` of 32 bits a length field leads back to where it is, again and again. -/
theorem endless_frame : ¬ ParsesSafely .bits32 (fun _ => 0) [0, 0, 0, 6, 0, 1, 0xFF, 0xFF, 0xFF, 0xFC] := by
  intro hsafe
  obtain ⟨fuel, r, hr⟩ := hsafe.terminates
  have hframe : readFrame [0, 0, 0, 6, 0, 1, 0xFF, 0xFF, 0xFF, 0xFC] =
      .ok ⟨[0, 0, 0, 6, 0, 1], [0xFF, 0xFF, 0xFF, 0xFC]⟩ := rfl
  obtain ⟨n, hn, -⟩ := getMessage_some hframe hr
  have hstays : ∀ n, offsetAt .bits32 (Frame.memory ⟨[0, 0, 0, 6, 0, 1], [0xFF, 0xFF, 0xFF, 0xFC]⟩ fun _ => 0) n =
      0 := by
    intro n
    induction n with
    | zero => rfl
    | succ n ih =>
      rw [offsetAt, ih]
      simp [fieldAt, fromByteArray, Frame.memory, SizeT.modulus]
  have hleft := hn.2
  rw [hstays] at hleft
  exact absurd hleft (by decide)

/-! ## Where a `std::size_t` has 64 bits -/

section Wide
variable {memory : Nat → UInt8} {total : Nat}

theorem fieldAt_lt (offset : Nat) : fieldAt memory offset < 2 ^ 32 := by
  have hlt := ofBE_lt [memory offset, memory (offset + 1), memory (offset + 2), memory (offset + 3)]
  rw [fieldAt, fromByteArray_eq (by omega) (by simp)]
  simpa using hlt

theorem wide_step {k : Nat} (h : offsetAt .bits64 memory k < 2 ^ 32) :
    offsetAt .bits64 memory k + 4 + fieldAt memory (offsetAt .bits64 memory k) < SizeT.modulus .bits64 := by
  have hfield : fieldAt memory (offsetAt .bits64 memory k) < 2 ^ 32 := fieldAt_lt _
  rw [SizeT.modulus]
  omega

/-- Nothing wraps, so the offsets grow until they leave the body. -/
theorem wide_leaves (htotal : total < 2 ^ 32) (n : Nat) :
    n ≤ offsetAt .bits64 memory n ∨ ∃ k, total ≤ offsetAt .bits64 memory k := by
  induction n with
  | zero => exact .inl (Nat.zero_le _)
  | succ n ih =>
    by_cases hleft : ∃ k, total ≤ offsetAt .bits64 memory k
    · exact .inr hleft
    · have hin : offsetAt .bits64 memory n < total := Nat.lt_of_not_le fun hle => hleft ⟨n, hle⟩
      have hnext : offsetAt .bits64 memory (n + 1) =
          offsetAt .bits64 memory n + 4 + fieldAt memory (offsetAt .bits64 memory n) :=
        Nat.mod_eq_of_lt (wide_step (by omega))
      have := ih.resolve_right hleft
      exact .inl (by omega)

/-- There the only frames that are not harmless are those with a prefix below 2 that are accepted. -/
theorem wide_harmless {beyond : Nat → UInt8} {stream : Bytes} {frame : Frame} (h : readFrame stream = .ok frame) :
    Harmless .bits64 beyond frame ↔ (Accepted .bits64 beyond frame → 2 ≤ frame.lengthPrefix) := by
  have htotal := (length_buf h).1
  constructor
  · rintro hharmless ⟨hleaves, hend⟩
    exact (hharmless.exact hleaves hend).2
  · intro htwo
    refine ⟨?_, fun hleaves hend => ⟨fun k hk => wide_step ?_, htwo ⟨hleaves, hend⟩⟩⟩
    · rcases wide_leaves htotal frame.buf.length with hle | hleft
      · exact ⟨_, hle⟩
      · exact hleft
    · have := hleaves.1 k hk
      omega

/-- And there are such frames: one part that fills what a prefix of 1 makes of the body. -/
theorem short_prefix_accepted (beyond : Nat → UInt8) {bs : Bytes} (hbs : bs.length = 2 ^ 32 - 5) :
    ¬ ParsesSafely .bits64 beyond ([0, 0, 0, 1, 0, 1] ++ (toBE 4 bs.length ++ bs)) := by
  intro hsafe
  have hbody : (toBE 4 bs.length ++ bs).length = 2 ^ 32 - 1 := by
    rw [List.length_append, length_toBE]
    omega
  have hframe : readFrame ([0, 0, 0, 1, 0, 1] ++ (toBE 4 bs.length ++ bs)) =
      .ok ⟨[0, 0, 0, 1, 0, 1], toBE 4 bs.length ++ bs⟩ := by
    have hfirst : read ([0, 0, 0, 1, 0, 1] ++ (toBE 4 bs.length ++ bs)) 6 =
        .ok ([0, 0, 0, 1, 0, 1], toBE 4 bs.length ++ bs) := read_append [0, 0, 0, 1, 0, 1] _
    have htotal : (UInt32.ofNat (fromByteArray 4 [0, 0, 0, 1, 0, 1]) - 2).toNat = 2 ^ 32 - 1 := by
      simp [fromByteArray]
    have hrest : read (toBE 4 bs.length ++ bs) (2 ^ 32 - 1) = .ok (toBE 4 bs.length ++ bs, []) := by
      rw [read, if_pos (by omega), List.take_of_length_le (by omega), List.drop_eq_nil_of_le (by omega)]
    simp only [readFrame, hfirst, htotal, hrest]
  generalize hf : (⟨[0, 0, 0, 1, 0, 1], toBE 4 bs.length ++ bs⟩ : Frame) = frame at hframe
  have hbuf : frame.buf = toBE 4 bs.length ++ bs := by rw [← hf]
  have hcount : frame.partCount = 1 := by
    rw [← hf]
    simp [Frame.partCount, fromByteArray]
  have hpre : frame.lengthPrefix = 1 := by
    rw [← hf]
    simp [Frame.lengthPrefix, fromByteArray]
  have hlen : frame.buf.length = 2 ^ 32 - 1 := by rw [hbuf, hbody]
  have hfield : fieldAt (frame.memory beyond) 0 = 2 ^ 32 - 5 := by
    have htake : (frame.buf.drop 0).take 4 = toBE 4 bs.length := by
      rw [hbuf, List.drop_zero, List.take_left' (length_toBE ..)]
    rw [fieldAt_inside (by omega), htake, ofBE_toBE (by omega), hbs]
  have hend : offsetAt .bits64 (frame.memory beyond) 1 = 2 ^ 32 - 1 := by
    rw [offsetAt, offsetAt, hfield, SizeT.modulus]
    norm_num
  have haccepted : Accepted .bits64 beyond frame := by
    rw [Accepted, hcount, hlen, hend]
    refine ⟨⟨fun k hk => ?_, hend.ge⟩, rfl⟩
    obtain rfl : k = 0 := by omega
    rw [offsetAt]
    omega
  have htwo := hsafe.short _ _ _ (getMessage_accepted hframe haccepted)
  omega

end Wide

end BuildPal.Client.FrameParser
