import BuildPal.Common.Message
/-!
# The client's side of the wire

`Extensions/Client/client.cpp` has a codec of its own for the messages of
`buildpal/common/message.py`: `MsgSender` gathers the parts of a message and
writes them in one go, `MsgReceiver` reads a message back. Sizes are the
source's `uint32_t` and `uint16_t`; offsets are `size_t` of 64 bits, which the
sizes here never exceed.
-/
open BuildPal.Lib BuildPal.Message

namespace BuildPal.Client

/-! ## Byte arrays -/

/-- `to_byte_array` for a `T` of `size` bytes. -/
def toByteArray (size val : Nat) : Bytes :=
  (List.range size).map fun x =>
    let index := size - x - 1
    UInt8.ofNat ((val >>> (index * 8)) &&& 0xFF)

/-- `from_byte_array<len>` of the memory from `value` on. -/
def fromByteArray (len : Nat) (value : Bytes) : Nat :=
  ((value.drop 1).take (len - 1)).foldl (fun result b => ((result <<< 8) + b.toNat) % 256 ^ len) (value.headD 0).toNat

/-! ## Sending -/

/-- What an entry of `buffers_` points at. The two arrays of the sender are
filled in after their entries are made. -/
inductive ConstBuffer
  | totalLengthBuffer
  | partCountBuffer
  | lengths (index : Nat)
  | ptr (bytes : Bytes)
deriving DecidableEq

structure MsgSender where
  totalLength : UInt32
  partCount : UInt16
  totalLengthBuffer : Bytes
  partCountBuffer : Bytes
  lengths : List Bytes
  buffers : List ConstBuffer

namespace MsgSender

/-- `initMessage`. -/
def initMessage (s : MsgSender) : MsgSender :=
  { s with
    buffers := [.totalLengthBuffer, .partCountBuffer]
    lengths := []
    partCount := 0
    totalLength := 2 }

/-- The constructor; the two arrays start with whatever was in memory. -/
def new (totalLengthBuffer partCountBuffer : Bytes) : MsgSender :=
  initMessage { totalLength := 0, partCount := 0, totalLengthBuffer, partCountBuffer, lengths := [], buffers := [] }

/-- `addPart( ptr, size )`, where `size` is the number of bytes of `part` as a `uint32_t`. -/
def addPart (s : MsgSender) (part : Bytes) : MsgSender :=
  let size := UInt32.ofNat part.length
  let ar := toByteArray 4 size.toNat
  let buffers := s.buffers ++ [.lengths s.lengths.length]
  { s with
    lengths := s.lengths ++ [ar]
    buffers := if size ≠ 0 then buffers ++ [.ptr (part.take size.toNat)] else buffers
    totalLength := s.totalLength + UInt32.ofNat ar.length + size
    partCount := s.partCount + 1 }

/-- The bytes an entry of `buffers_` refers to at the time of the write. -/
def deref (s : MsgSender) : ConstBuffer → Bytes
  | .totalLengthBuffer => s.totalLengthBuffer
  | .partCountBuffer => s.partCountBuffer
  | .lengths index => s.lengths.getD index []
  | .ptr bytes => bytes

/-- `send` on a stream that takes every byte: the bytes written and the sender afterwards. -/
def send (s : MsgSender) : Bytes × MsgSender :=
  let s := { s with
    totalLengthBuffer := toByteArray 4 s.totalLength.toNat
    partCountBuffer := toByteArray 2 s.partCount.toNat }
  (s.buffers.flatMap s.deref, s.initMessage)

/-- One message: an `addPart` for each part, then `send`. -/
def sendMessage (s : MsgSender) (msg : Msg) : Bytes × MsgSender :=
  (msg.foldl addPart s).send

/-- The bytes one sender writes for several messages. -/
def sendMessages : MsgSender → List Msg → Bytes
  | _, [] => []
  | s, msg :: msgs =>
    let (bytes, s) := s.sendMessage msg
    bytes ++ sendMessages s msgs

end MsgSender

/-! ## Receiving -/

inductive Error
  | eof
  | protocolError
deriving DecidableEq

/-- `boost::asio::read` of `n` bytes from what the peer sends before it closes. -/
def read (stream : Bytes) (n : Nat) : Except Error (Bytes × Bytes) :=
  if n ≤ stream.length then .ok (stream.take n, stream.drop n) else .error .eof

/-- The loop of `getMessage`. `memory` starts with the buffer of `totalSize`
bytes and goes on with what lies behind it; each turn moves `offset` by four at
least, so `fuel` does not run out. -/
def readParts (memory : Bytes) (totalSize : Nat) : Nat → Nat → Msg → Nat × Msg
  | 0, offset, parts => (offset, parts)
  | fuel + 1, offset, parts =>
    if offset < totalSize then
      let partLen := fromByteArray 4 (memory.drop offset)
      let offset := offset + 4
      readParts memory totalSize fuel (offset + partLen) (parts ++ [(memory.drop offset).take partLen])
    else (offset, parts)

/-- `MsgReceiver::getMessage`: the parts, and what is left of the stream.
`beyond` is what lies in memory behind the buffer. -/
def getMessage (beyond stream : Bytes) : Except Error (Msg × Bytes) := do
  let (lengthBuffer, stream) ← read stream 6
  let totalSize := UInt32.ofNat (fromByteArray 4 lengthBuffer) - 2
  let partCount := fromByteArray 2 (lengthBuffer.drop 4)
  let (buf, stream) ← read stream totalSize.toNat
  let (offset, parts) := readParts (buf ++ beyond) totalSize.toNat totalSize.toNat 0 []
  if offset ≠ totalSize.toNat ∨ parts.length ≠ partCount then .error .protocolError
  else .ok (parts, stream)

/-- `n` calls of `getMessage`: each call's parts and the bytes it consumed, and
the rest of the stream. What lies behind the buffer may differ from call to call. -/
def getMessages (beyond : Nat → Bytes) : Nat → Bytes → Except Error (List (Msg × Nat) × Bytes)
  | 0, stream => .ok ([], stream)
  | n + 1, stream => do
    let (parts, rest) ← getMessage (beyond n) stream
    let (received, left) ← getMessages beyond n rest
    return ((parts, stream.length - rest.length) :: received, left)

/-! ## Byte arrays are big-endian numbers -/

theorem toByteArray_eq (size val : Nat) : toByteArray size val = toBE size val := by
  induction size with
  | zero => rfl
  | succ k ih =>
    have htail : (List.range k).map (fun x => UInt8.ofNat ((val >>> ((k + 1 - (x + 1) - 1) * 8)) &&& 0xFF)) =
        toByteArray k val := by
      apply List.map_congr_left
      intro x _
      simp [Nat.add_sub_add_right]
    have hhead : UInt8.ofNat ((val >>> (k * 8)) &&& 0xFF) = UInt8.ofNat (val / 256 ^ k) := by
      apply UInt8.toNat_inj.1
      have hpow : 2 ^ (k * 8) = 256 ^ k := by rw [Nat.mul_comm, Nat.pow_mul]
      rw [Nat.shiftRight_eq_div_pow, hpow, Nat.and_two_pow_sub_one_eq_mod _ 8]
      simp
    rw [toBE, ← ih, ← htail, ← hhead]
    simp [toByteArray, List.range_succ_eq_map, Function.comp_def]

/-- The loop of `from_byte_array` as long as the number fits. -/
theorem foldl_bytes (len : Nat) (bs : Bytes) : ∀ r : Nat, r * 256 ^ bs.length + ofBE bs < 256 ^ len →
    bs.foldl (fun result b => ((result <<< 8) + b.toNat) % 256 ^ len) r = r * 256 ^ bs.length + ofBE bs := by
  induction bs with
  | nil => intro r _; simp [ofBE]
  | cons b bs ih =>
    intro r h
    have hstep : r * 256 ^ (bs.length + 1) + (b.toNat * 256 ^ bs.length + ofBE bs) =
        (r * 256 + b.toNat) * 256 ^ bs.length + ofBE bs := by ring
    simp only [List.length_cons, ofBE] at h ⊢
    rw [hstep] at h ⊢
    have hpos : 0 < 256 ^ bs.length := by positivity
    have hle : r * 256 + b.toNat ≤ (r * 256 + b.toNat) * 256 ^ bs.length := Nat.le_mul_of_pos_right _ hpos
    have hshift : (r <<< 8 + b.toNat) % 256 ^ len = r * 256 + b.toNat := by
      rw [Nat.shiftLeft_eq, Nat.mod_eq_of_lt (by omega)]
    rw [List.foldl_cons, hshift]
    exact ih _ h

theorem fromByteArray_eq {len : Nat} {value : Bytes} (hpos : 0 < len) (h : len ≤ value.length) :
    fromByteArray len value = ofBE (value.take len) := by
  match len, value, h with
  | k + 1, b :: bs, h =>
    have htake : (bs.take k).length = k := by simpa using h
    have hlt := ofBE_lt (b :: bs.take k)
    simp only [ofBE, List.length_cons, htake] at hlt
    have := foldl_bytes (k + 1) (bs.take k) b.toNat (by rw [htake]; exact hlt)
    rw [htake] at this
    simp [fromByteArray, ofBE, this, htake]

/-! ## Encodings -/

/-- Each part after its length. -/
def partsBytes (msg : Msg) : Bytes := msg.flatMap fun part => toBE 4 part.length ++ part

@[simp] theorem partsBytes_nil : partsBytes [] = [] := rfl

@[simp] theorem partsBytes_cons (part : Bytes) (parts : Msg) :
    partsBytes (part :: parts) = toBE 4 part.length ++ part ++ partsBytes parts := by
  simp [partsBytes]

theorem partsBytes_append (a b : Msg) : partsBytes (a ++ b) = partsBytes a ++ partsBytes b := by
  simp [partsBytes]

theorem partsToBytes_eq_some {msg : Msg} {bs : Bytes} :
    partsToBytes msg = some bs ↔ (∀ part ∈ msg, part.length < 256 ^ 4) ∧ bs = partsBytes msg := by
  induction msg generalizing bs with
  | nil => simp [partsToBytes, eq_comm]
  | cons part parts ih =>
    simp only [partsToBytes, Option.bind_eq_bind, Option.bind_eq_some_iff, Option.pure_def, Option.some.injEq,
      packBE_eq_some, ih, partsBytes_cons, List.forall_mem_cons]
    constructor
    · rintro ⟨_, ⟨hpart, rfl⟩, _, ⟨hparts, rfl⟩, rfl⟩
      exact ⟨⟨hpart, hparts⟩, rfl⟩
    · rintro ⟨⟨hpart, hparts⟩, rfl⟩
      exact ⟨_, ⟨hpart, rfl⟩, _, ⟨hparts, rfl⟩, rfl⟩

theorem length_partsBytes (msg : Msg) : (partsBytes msg).length = (msg.map List.length).sum + 4 * msg.length := by
  induction msg with
  | nil => rfl
  | cons part parts ih =>
    simp only [partsBytes_cons, List.length_append, length_toBE, ih, List.map_cons, List.sum_cons, List.length_cons]
    omega

theorem length_le_totalLen {msg : Msg} {part : Bytes} (h : part ∈ msg) : part.length < totalLen msg := by
  have : part.length ≤ (msg.map List.length).sum := List.le_sum_of_mem (List.mem_map_of_mem h)
  rw [totalLen]
  omega

theorem msgToBytes_eq_some {msg : Msg} {bs : Bytes} : msgToBytes msg = some bs ↔
    (msg.length ≤ 65535 ∧ totalLen msg < 2 ^ 32) ∧
      bs = toBE 4 (totalLen msg) ++ (toBE 2 msg.length ++ partsBytes msg) := by
  simp only [msgToBytes, Option.bind_eq_bind, Option.bind_eq_some_iff, Option.pure_def, Option.some.injEq,
    packBE_eq_some, partsToBytes_eq_some]
  constructor
  · rintro ⟨_, ⟨htotal, rfl⟩, _, ⟨hcount, rfl⟩, _, ⟨-, rfl⟩, rfl⟩
    exact ⟨⟨by omega, htotal⟩, by simp⟩
  · rintro ⟨⟨hcount, htotal⟩, rfl⟩
    refine ⟨_, ⟨htotal, rfl⟩, _, ⟨by omega, rfl⟩, _, ⟨?_, rfl⟩, by simp⟩
    intro part hpart
    have := length_le_totalLen hpart
    omega

/-! ## What the sender writes -/

namespace MsgSender

/-- Between `initMessage` and `send` the sender holds the parts `msg` so far. -/
structure Gathered (s : MsgSender) (msg : Msg) : Prop where
  totalLength : s.totalLength = UInt32.ofNat (totalLen msg)
  partCount : s.partCount = UInt16.ofNat msg.length
  lengths : s.lengths = msg.map fun part => toBE 4 part.length
  /-- The entries behind the first two refer to the lengths and the parts,
  whatever is put behind the lengths or into the arrays later. -/
  buffers : ∃ bs, s.buffers = .totalLengthBuffer :: .partCountBuffer :: bs ∧
    ∀ t : MsgSender, s.lengths <+: t.lengths → bs.flatMap t.deref = partsBytes msg

theorem gathered_init (s : MsgSender) : s.initMessage.Gathered [] :=
  ⟨rfl, rfl, rfl, [], rfl, fun _ _ => rfl⟩

theorem Gathered.addPart {s : MsgSender} {msg : Msg} {part : Bytes} (h : s.Gathered msg)
    (hpart : part.length < 256 ^ 4) : (s.addPart part).Gathered (msg ++ [part]) := by
  have hsize : (UInt32.ofNat part.length).toNat = part.length := by
    rw [UInt32.toNat_ofNat', Nat.mod_eq_of_lt (by omega)]
  have hzero : UInt32.ofNat part.length = 0 ↔ part = [] := by
    rw [← UInt32.toNat_inj, hsize]
    simp
  refine ⟨?_, ?_, ?_, ?_⟩
  · have htotal : totalLen (msg ++ [part]) = totalLen msg + 4 + part.length := by
      simp [totalLen]; omega
    simp [MsgSender.addPart, h.totalLength, htotal, toByteArray_eq, UInt32.ofNat_add]
  · simp [MsgSender.addPart, h.partCount, UInt16.ofNat_add]
  · simp only [MsgSender.addPart, toByteArray_eq, hsize, h.lengths, List.map_append, List.map_cons, List.map_nil]
  · obtain ⟨bs, hbs, hderef⟩ := h.buffers
    have hlen : ∀ t : MsgSender, (s.addPart part).lengths <+: t.lengths →
        t.deref (.lengths s.lengths.length) = toBE 4 part.length := by
      rintro t ⟨more, ht⟩
      simp only [deref, ← ht, MsgSender.addPart, toByteArray_eq, hsize]
      simp
    have hpre : ∀ t : MsgSender, (s.addPart part).lengths <+: t.lengths → s.lengths <+: t.lengths :=
      fun t ht => (List.prefix_append ..).trans ht
    -- an empty part gets no buffer of its own
    by_cases hp : part = []
    · refine ⟨bs ++ [.lengths s.lengths.length], by simp [MsgSender.addPart, hbs, hp], fun t ht => ?_⟩
      simp [hderef t (hpre t ht), hlen t ht, partsBytes_append, hp]
    · have hne : UInt32.ofNat part.length ≠ 0 := fun h0 => hp (hzero.1 h0)
      refine ⟨bs ++ [.lengths s.lengths.length, .ptr part], ?_, fun t ht => ?_⟩
      · simp only [MsgSender.addPart, ne_eq, hne, not_false_eq_true, if_true, hsize, hbs, List.take_length]
        simp
      · have hptr : t.deref (.ptr part) = part := rfl
        simp [hderef t (hpre t ht), hlen t ht, hptr, partsBytes_append]

theorem Gathered.addParts {s : MsgSender} {msg : Msg} (parts : Msg) (h : s.Gathered msg)
    (hparts : ∀ part ∈ parts, part.length < 256 ^ 4) : (parts.foldl MsgSender.addPart s).Gathered (msg ++ parts) := by
  induction parts generalizing s msg with
  | nil => simpa using h
  | cons part parts ih =>
    have := ih (h.addPart (hparts part (by simp))) (fun p hp => hparts p (by simp [hp]))
    simpa using this

theorem Gathered.send {s : MsgSender} {msg : Msg} (h : s.Gathered msg) (hcount : msg.length ≤ 65535)
    (htotal : totalLen msg < 2 ^ 32) :
    s.send.1 = toBE 4 (totalLen msg) ++ (toBE 2 msg.length ++ partsBytes msg) := by
  obtain ⟨bs, hbs, hderef⟩ := h.buffers
  have ht : (UInt32.ofNat (totalLen msg)).toNat = totalLen msg := by
    rw [UInt32.toNat_ofNat', Nat.mod_eq_of_lt htotal]
  have hc : (UInt16.ofNat msg.length).toNat = msg.length := by
    rw [UInt16.toNat_ofNat', Nat.mod_eq_of_lt (by omega)]
  -- the buffers are looked up when the two sizes have been filled in
  let t : MsgSender := { s with
    totalLengthBuffer := toByteArray 4 s.totalLength.toNat
    partCountBuffer := toByteArray 2 s.partCount.toNat }
  have hparts : bs.flatMap t.deref = partsBytes msg := hderef t (List.prefix_refl _)
  show s.buffers.flatMap t.deref = _
  rw [hbs, List.flatMap_cons, List.flatMap_cons, hparts]
  simp only [t, deref, h.totalLength, h.partCount, ht, hc, toByteArray_eq]

/-- A sender just initialised writes the message as `msg_to_bytes` encodes it
and is initialised again. -/
theorem sendMessage_spec {s : MsgSender} {msg : Msg} (h : s.Gathered []) (hcount : msg.length ≤ 65535)
    (htotal : totalLen msg < 2 ^ 32) :
    msgToBytes msg = some (s.sendMessage msg).1 ∧ (s.sendMessage msg).2.Gathered [] := by
  have hparts : ∀ part ∈ msg, part.length < 256 ^ 4 := fun part hpart => by
    have := length_le_totalLen hpart
    omega
  have hall : (msg.foldl MsgSender.addPart s).Gathered msg := by simpa using h.addParts msg hparts
  exact ⟨msgToBytes_eq_some.2 ⟨⟨hcount, htotal⟩, hall.send hcount htotal⟩, gathered_init _⟩

theorem sendMessages_spec (msgs : List Msg) : ∀ s : MsgSender, s.Gathered [] →
    (∀ msg ∈ msgs, msg.length ≤ 65535 ∧ totalLen msg < 2 ^ 32) →
    ∃ frames, msgs.mapM msgToBytes = some frames ∧ s.sendMessages msgs = frames.flatten := by
  induction msgs with
  | nil => intro s _ _; exact ⟨[], rfl, rfl⟩
  | cons msg msgs ih =>
    intro s hs hmsgs
    obtain ⟨hcount, htotal⟩ := hmsgs msg (by simp)
    obtain ⟨hbytes, hnext⟩ := sendMessage_spec hs hcount htotal
    obtain ⟨frames, hframes, hrest⟩ := ih _ hnext fun m hm => hmsgs m (by simp [hm])
    exact ⟨(s.sendMessage msg).1 :: frames, by simp [hbytes, hframes], by simp [sendMessages, hrest]⟩

end MsgSender

/-! ## What the receiver accepts -/

theorem take_drop_split (bs : Bytes) (n k : Nat) :
    bs.drop n = (bs.drop n).take k ++ bs.drop (n + k) := by
  rw [← List.drop_drop, List.take_append_drop]

/-- On an encoding of parts the loop finds these parts and ends at the end. -/
theorem readParts_partsBytes (beyond : Bytes) (msg : Msg) (hmsg : ∀ part ∈ msg, part.length < 256 ^ 4) :
    ∀ (pre : Bytes) (acc : Msg) (fuel : Nat), (partsBytes msg).length ≤ fuel →
      readParts (pre ++ partsBytes msg ++ beyond) (pre ++ partsBytes msg).length fuel pre.length acc =
        ((pre ++ partsBytes msg).length, acc ++ msg) := by
  induction msg with
  | nil =>
    intro pre acc fuel _
    cases fuel <;> simp [readParts]
  | cons part parts ih =>
    intro pre acc fuel hfuel
    have hlen : (toBE 4 part.length).length = 4 := length_toBE ..
    have hmem : pre ++ partsBytes (part :: parts) = pre ++ toBE 4 part.length ++ part ++ partsBytes parts := by simp
    have hread : fromByteArray 4 ((pre ++ partsBytes (part :: parts) ++ beyond).drop pre.length) = part.length := by
      rw [List.append_assoc, List.drop_left, fromByteArray_eq (by omega) (by simp)]
      rw [partsBytes_cons, List.append_assoc, List.append_assoc, List.take_append_of_le_length (by omega)]
      rw [List.take_of_length_le (by omega), ofBE_toBE (hmsg part (by simp))]
    have hpart : ((pre ++ partsBytes (part :: parts) ++ beyond).drop (pre.length + 4)).take part.length = part := by
      rw [hmem, ← List.drop_drop]
      simp only [List.append_assoc, List.drop_left]
      rw [List.drop_left' hlen, List.take_left]
    obtain ⟨k, rfl⟩ : ∃ k, fuel = k + 1 := ⟨fuel - 1, by
      simp only [partsBytes_cons, List.length_append, hlen] at hfuel; omega⟩
    have hlt : pre.length < (pre ++ partsBytes (part :: parts)).length := by
      simp only [partsBytes_cons, List.length_append, hlen]; omega
    have htail := ih (fun p hp => hmsg p (by simp [hp])) (pre ++ toBE 4 part.length ++ part) (acc ++ [part]) k
      (by simp only [partsBytes_cons, List.length_append, hlen] at hfuel; omega)
    have hoff : (pre ++ toBE 4 part.length ++ part).length = pre.length + 4 + part.length := by
      simp; omega
    rw [hoff, ← hmem] at htail
    simp only [readParts, hlt, if_true, hread, hpart]
    rw [htail]
    simp

/-- The loop never moves back. -/
theorem le_readParts (memory : Bytes) (totalSize : Nat) :
    ∀ (fuel offset : Nat) (acc : Msg), offset ≤ (readParts memory totalSize fuel offset acc).1 := by
  intro fuel
  induction fuel with
  | zero => intro offset acc; exact Nat.le_refl _
  | succ fuel ih =>
    intro offset acc
    rw [readParts]
    split
    · exact Nat.le_trans (by omega) (ih ..)
    · exact Nat.le_refl _

/-- If the loop ends at the end of the buffer, what it went over is an encoding
of the parts it found: nothing behind the buffer was read. -/
theorem readParts_exact (buf beyond : Bytes) : ∀ (fuel offset : Nat) (acc : Msg), offset ≤ buf.length →
    (readParts (buf ++ beyond) buf.length fuel offset acc).1 = buf.length →
    ∃ msg, (∀ part ∈ msg, part.length < 256 ^ 4) ∧ buf.drop offset = partsBytes msg ∧
      (readParts (buf ++ beyond) buf.length fuel offset acc).2 = acc ++ msg := by
  intro fuel
  induction fuel with
  | zero =>
    intro offset acc _ hend
    have : offset = buf.length := hend
    exact ⟨[], by simp, by simp [this], by simp [readParts]⟩
  | succ fuel ih =>
    intro offset acc hle hend
    by_cases hlt : offset < buf.length
    · simp only [readParts, hlt, if_true] at hend ⊢
      generalize hn : fromByteArray 4 ((buf ++ beyond).drop offset) = partLen at hend ⊢
      have hfits : offset + 4 + partLen ≤ buf.length := by
        rw [← hend]
        exact le_readParts ..
      have hfield : ((buf.drop offset).take 4).length = 4 := by simp; omega
      obtain ⟨hbound, hbe⟩ := ofBE_field hfield
      have hread : ofBE ((buf.drop offset).take 4) = partLen := by
        rw [← hn, fromByteArray_eq (by omega) (by simp; omega), List.drop_append_of_le_length hle,
          List.take_append_of_le_length (by simp; omega)]
      have hpart : ((buf ++ beyond).drop (offset + 4)).take partLen = (buf.drop (offset + 4)).take partLen := by
        rw [List.drop_append_of_le_length (by omega), List.take_append_of_le_length (by simp; omega)]
      have hpartLen : ((buf.drop (offset + 4)).take partLen).length = partLen := by simp; omega
      obtain ⟨msg, hmsg, hrest, hfound⟩ := ih (offset + 4 + partLen) (acc ++ [(buf.drop (offset + 4)).take partLen])
        hfits (by rw [← hpart]; exact hend)
      rw [hread] at hbound hbe
      refine ⟨(buf.drop (offset + 4)).take partLen :: msg, ?_, ?_, ?_⟩
      · simp only [List.forall_mem_cons, hpartLen]
        exact ⟨hbound, hmsg⟩
      · rw [partsBytes_cons, hpartLen, hbe, List.append_assoc, ← hrest, ← take_drop_split,
          ← take_drop_split]
      · rw [hpart, hfound]
        simp
    · have : offset = buf.length := by omega
      simp only [readParts, hlt, if_false]
      exact ⟨[], by simp, by simp [this], by simp⟩

theorem length_body (msg : Msg) : (toBE 2 msg.length ++ partsBytes msg).length = totalLen msg := by
  rw [List.length_append, length_toBE, length_partsBytes, totalLen]
  omega

/-- The body of a frame: the part count and the parts. -/
theorem msgToBytes_eq_frame {msg : Msg} {body : Bytes} (h : body.length < 2 ^ 32) :
    msgToBytes msg = some (toBE 4 body.length ++ body) ↔
      msg.length ≤ 65535 ∧ body = toBE 2 msg.length ++ partsBytes msg := by
  rw [msgToBytes_eq_some]
  constructor
  · rintro ⟨⟨hcount, -⟩, heq⟩
    exact ⟨hcount, (List.append_inj heq (by simp)).2⟩
  · rintro ⟨hcount, rfl⟩
    rw [length_body] at h ⊢
    exact ⟨⟨hcount, h⟩, rfl⟩

theorem read_append (a b : Bytes) : read (a ++ b) a.length = .ok (a, b) := by
  simp [read]

/-- One call of `getMessage` on a frame of at least two bytes. -/
theorem getMessage_frame (beyond future : Bytes) {body : Bytes} (h2 : 2 ≤ body.length) (h : body.length < 2 ^ 32) :
    getMessage beyond (toBE 4 body.length ++ body ++ future) =
      let r := readParts (body.drop 2 ++ beyond) (body.drop 2).length (body.drop 2).length 0 []
      if r.1 ≠ (body.drop 2).length ∨ r.2.length ≠ ofBE (body.take 2) then .error .protocolError
      else .ok (r.2, future) := by
  have hhead : (toBE 4 body.length ++ body.take 2).length = 6 := by simp [h2]
  have hstream : toBE 4 body.length ++ body ++ future =
      (toBE 4 body.length ++ body.take 2) ++ (body.drop 2 ++ future) := by
    rw [← List.append_assoc, List.append_assoc _ (body.take 2), List.take_append_drop]
  have hfirst : read ((toBE 4 body.length ++ body.take 2) ++ (body.drop 2 ++ future)) 6 =
      .ok (toBE 4 body.length ++ body.take 2, body.drop 2 ++ future) := by
    rw [← hhead]
    exact read_append ..
  have htotal : fromByteArray 4 (toBE 4 body.length ++ body.take 2) = body.length := by
    rw [fromByteArray_eq (by omega) (by omega), List.take_left' (length_toBE ..), ofBE_toBE (by omega)]
  have hcount : fromByteArray 2 ((toBE 4 body.length ++ body.take 2).drop 4) = ofBE (body.take 2) := by
    rw [List.drop_left' (length_toBE ..), fromByteArray_eq (by omega) (by simp [h2]), List.take_take]
    rfl
  have hsize : (UInt32.ofNat body.length - 2).toNat = (body.drop 2).length := by
    have hnat : (UInt32.ofNat body.length).toNat = body.length := by
      rw [UInt32.toNat_ofNat', Nat.mod_eq_of_lt h]
    have htwo : (2 : UInt32) ≤ UInt32.ofNat body.length := by
      rw [UInt32.le_iff_toNat_le, hnat]
      exact h2
    rw [UInt32.toNat_sub_of_le _ _ htwo, hnat, List.length_drop]
    rfl
  rw [hstream]
  simp only [getMessage, hfirst, htotal, hcount, hsize, read_append, bind, Except.bind]

/-- `getMessage` accepts a frame exactly when its body encodes the parts, and
then leaves what follows the frame. -/
theorem getMessage_eq_ok {beyond future body : Bytes} (h2 : 2 ≤ body.length) (h : body.length < 2 ^ 32) {msg : Msg}
    {rest : Bytes} : getMessage beyond (toBE 4 body.length ++ body ++ future) = .ok (msg, rest) ↔
      rest = future ∧ msgToBytes msg = some (toBE 4 body.length ++ body) := by
  have hfield : (body.take 2).length = 2 := by simp [h2]
  obtain ⟨hlt, hcount⟩ := ofBE_field hfield
  rw [getMessage_frame beyond future h2 h, msgToBytes_eq_frame h]
  constructor
  · intro hok
    simp only at hok
    split at hok
    · cases hok
    · next hcond =>
      rw [not_or, not_not, not_not] at hcond
      obtain ⟨hend, hfound⟩ := hcond
      obtain ⟨msg', -, hbytes, hparts⟩ := readParts_exact (body.drop 2) beyond _ 0 [] (by omega) hend
      simp only [Except.ok.injEq, Prod.mk.injEq] at hok
      obtain ⟨rfl, rfl⟩ := hok
      rw [List.nil_append] at hparts
      rw [hparts] at hfound ⊢
      refine ⟨rfl, by omega, ?_⟩
      rw [hfound, hcount, ← hbytes, List.drop_zero, List.take_append_drop]
  · rintro ⟨rfl, hlen, hbody⟩
    have htake : body.take 2 = toBE 2 msg.length := by
      rw [hbody]
      exact List.take_left' (length_toBE ..)
    have hdrop : body.drop 2 = partsBytes msg := by
      rw [hbody]
      exact List.drop_left' (length_toBE ..)
    have hmsg : ∀ part ∈ msg, part.length < 256 ^ 4 := fun part hpart => by
      have hle := length_le_totalLen hpart
      rw [← length_body, ← hbody] at hle
      omega
    have hrun := readParts_partsBytes beyond msg hmsg [] [] (partsBytes msg).length (Nat.le_refl _)
    simp only [List.nil_append, List.length_nil] at hrun
    have hof : ofBE (toBE 2 msg.length) = msg.length := ofBE_toBE (by omega)
    simp [htake, hdrop, hrun, hof]

/-! ## Both codecs write and read the same frames -/

theorem getMessages_spec (beyond : Nat → Bytes) (future : Bytes) (msgs : List Msg) : ∀ frames : List Bytes,
    msgs.mapM msgToBytes = some frames →
    getMessages beyond msgs.length (frames.flatten ++ future) = .ok (msgs.zip (frames.map List.length), future) := by
  induction msgs with
  | nil =>
    intro frames h
    cases h
    rfl
  | cons msg msgs ih =>
    intro frames h
    simp only [List.mapM_cons, Option.bind_eq_bind, Option.bind_eq_some_iff, Option.pure_def, Option.some.injEq] at h
    obtain ⟨frame, hframe, frames', hframes, rfl⟩ := h
    have hbytes := (msgToBytes_eq_some.1 hframe).2
    have hlen := length_body msg
    generalize toBE 2 msg.length ++ partsBytes msg = body at hbytes hlen
    rw [← hlen] at hbytes
    subst hbytes
    have hbody : body.length < 2 ^ 32 := hlen ▸ (msgToBytes_eq_some.1 hframe).1.2
    have hone : getMessage (beyond msgs.length) (toBE 4 body.length ++ body ++ (frames'.flatten ++ future)) =
        .ok (msg, frames'.flatten ++ future) :=
      (getMessage_eq_ok (by rw [hlen, totalLen]; omega) hbody).2 ⟨rfl, hframe⟩
    simp only [List.flatten_cons, List.length_cons, getMessages, List.append_assoc] at hone ⊢
    rw [hone]
    have hused : (toBE 4 body.length ++ (body ++ (frames'.flatten ++ future))).length -
        (frames'.flatten ++ future).length = (toBE 4 body.length ++ body).length := by
      simp only [List.length_append]
      omega
    simp only [bind, Except.bind, ih frames' hframes, hused, pure, Except.pure, List.map_cons, List.zip_cons_cons]

/-- One sender that is used for all of `msgs` writes what `msg_to_bytes` makes of
them, and as many calls of `getMessage` read them back, each consuming its frame. -/
theorem wire_formats_agree (msgs : List Msg) (hmsgs : ∀ msg ∈ msgs, msg.length ≤ 65535 ∧ totalLen msg < 2 ^ 32)
    (totalLengthBuffer partCountBuffer future : Bytes) (beyond : Nat → Bytes) :
    ∃ frames, msgs.mapM msgToBytes = some frames ∧
      (MsgSender.new totalLengthBuffer partCountBuffer).sendMessages msgs = frames.flatten ∧
      getMessages beyond msgs.length (frames.flatten ++ future) =
        .ok (msgs.zip (frames.map List.length), future) := by
  obtain ⟨frames, hframes, hsent⟩ := MsgSender.sendMessages_spec msgs _ (MsgSender.gathered_init _) hmsgs
  exact ⟨frames, hframes, hsent, getMessages_spec beyond future msgs frames hframes⟩

/-- Three messages, with an empty part, read from a stream that goes on. -/
theorem wire_formats_agree_three :
    ∃ frames, [[], [[65], []], [[1, 2]]].mapM msgToBytes = some frames ∧
      (MsgSender.new [9, 9, 9, 9] [9, 9]).sendMessages [[], [[65], []], [[1, 2]]] = frames.flatten ∧
      getMessages (fun _ => [7]) 3 (frames.flatten ++ [5]) =
        .ok ([[], [[65], []], [[1, 2]]].zip (frames.map List.length), [5]) :=
  wire_formats_agree [[], [[65], []], [[1, 2]]] (by decide) [9, 9, 9, 9] [9, 9] [5] fun _ => [7]

/-! ## Malformed bodies

The loop of `msg_from_bytes` stops after the declared number of parts and cuts
a part short that runs past the end; `getMessage` rejects both. -/

/-- Bytes follow the last declared part. -/
def Surplus (body : Bytes) : Prop :=
  ∃ msg extra, msg.length ≤ 65535 ∧ (∀ part ∈ msg, part.length < 256 ^ 4) ∧ extra ≠ [] ∧
    body = toBE 2 msg.length ++ partsBytes msg ++ extra

/-- The body ends inside the last declared part, whose length is `len`. -/
def CutShort (body : Bytes) : Prop :=
  ∃ msg len part, msg.length < 65535 ∧ (∀ part ∈ msg, part.length < 256 ^ 4) ∧ len < 256 ^ 4 ∧ part.length < len ∧
    body = toBE 2 (msg.length + 1) ++ partsBytes msg ++ toBE 4 len ++ part

theorem slice_eq (xs : Bytes) (i n : Nat) : slice xs i (i + n) = (xs.drop i).take n := by
  simp [slice, List.drop_take]

/-- What the loop of `msg_from_bytes` has gone over when it returns. -/
theorem partsFromBytes_cases (memview : Bytes) : ∀ (k offset : Nat) (msg : Msg),
    partsFromBytes memview k offset = some msg →
    (msg.length = k ∧ (∀ part ∈ msg, part.length < 256 ^ 4) ∧
        ∃ extra, memview.drop offset = partsBytes msg ++ extra) ∨
      ∃ init len last, init.length + 1 = k ∧ msg = init ++ [last] ∧ (∀ part ∈ init, part.length < 256 ^ 4) ∧
        len < 256 ^ 4 ∧ last.length < len ∧ memview.drop offset = partsBytes init ++ toBE 4 len ++ last := by
  intro k
  induction k with
  | zero =>
    intro offset msg h
    cases h
    exact .inl ⟨rfl, by simp, _, rfl⟩
  | succ k ih =>
    intro offset msg h
    simp only [partsFromBytes, Option.bind_eq_bind, Option.bind_eq_some_iff, Option.pure_def, Option.some.injEq,
      slice_eq, unpackBE, Option.ite_none_right_eq_some] at h
    obtain ⟨_, ⟨hfour, rfl⟩, parts, hparts, rfl⟩ := h
    generalize hlen : ofBE ((memview.drop offset).take 4) = len at hparts ⊢
    obtain ⟨hbound, hfield⟩ := ofBE_field hfour
    rw [hlen] at hbound hfield
    have hsplit : memview.drop offset =
        toBE 4 len ++ (memview.drop (offset + 4)).take len ++ memview.drop (offset + 4 + len) := by
      rw [List.append_assoc, ← take_drop_split, hfield, ← take_drop_split]
    by_cases hfits : ((memview.drop (offset + 4)).take len).length = len
    · -- the part is whole: the rest is as the induction says
      rcases ih _ _ hparts with ⟨hk, hall, extra, hextra⟩ | ⟨init, m, last, hk, rfl, hall, hm, hlast, htail⟩
      · refine .inl ⟨by simp [hk], by simp only [List.forall_mem_cons, hfits]; exact ⟨hbound, hall⟩, extra, ?_⟩
        rw [hsplit, hextra, partsBytes_cons, hfits, List.append_assoc]
        simp
      · refine .inr ⟨_ :: init, m, last, by simp [hk], rfl, ?_, hm, hlast, ?_⟩
        · simp only [List.forall_mem_cons, hfits]
          exact ⟨hbound, hall⟩
        · rw [hsplit, htail, partsBytes_cons, hfits]
          simp
    · -- the part is cut short: nothing is left for another length field
      have hshort : ((memview.drop (offset + 4)).take len).length < len := by
        simp only [List.length_take] at hfits ⊢
        omega
      have hend : memview.drop (offset + 4 + len) = [] := by
        apply List.drop_eq_nil_of_le
        simp only [List.length_take, List.length_drop] at hshort
        omega
      cases k with
      | zero =>
        cases hparts
        refine .inr ⟨[], len, (memview.drop (offset + 4)).take len, rfl, rfl, by simp, hbound, hshort, ?_⟩
        rw [hsplit, hend]
        simp
      | succ k =>
        simp [partsFromBytes, slice_eq, unpackBE, hend] at hparts

/-- `msg_from_bytes` accepts an encoding, a body with surplus bytes and a body
cut short inside its last part, and no other. -/
theorem msgFromBytes_cases {body : Bytes} {msg : Msg} (h : msgFromBytes body = some msg) :
    (msg.length ≤ 65535 ∧ body = toBE 2 msg.length ++ partsBytes msg) ∨ Surplus body ∨ CutShort body := by
  simp only [msgFromBytes, Option.bind_eq_bind, Option.bind_eq_some_iff, unpackBE, Option.ite_none_right_eq_some,
    Option.some.injEq] at h
  obtain ⟨_, ⟨htwo, rfl⟩, hparts⟩ := h
  have hslice : slice body 0 2 = body.take 2 := by simp [slice]
  rw [hslice] at htwo hparts
  obtain ⟨hlt, hcount⟩ := ofBE_field htwo
  rcases partsFromBytes_cases body _ _ _ hparts with ⟨hk, hall, extra, hextra⟩ | ⟨init, len, last, hk, -, hall, hlen,
    hlast, htail⟩
  · have hbody : body = toBE 2 msg.length ++ partsBytes msg ++ extra := by
      rw [hk, hcount, List.append_assoc, ← hextra, List.take_append_drop]
    by_cases hnil : extra = []
    · exact .inl ⟨by omega, by simpa [hnil] using hbody⟩
    · exact .inr (.inl ⟨msg, extra, by omega, hall, hnil, hbody⟩)
  · refine .inr (.inr ⟨init, len, last, by omega, hall, hlen, hlast, ?_⟩)
    rw [hk, hcount, List.append_assoc, List.append_assoc, ← List.append_assoc (partsBytes init), ← htail,
      List.take_append_drop]

/-- The loop looks at what lies from its offset on. -/
theorem partsFromBytes_drop (k : Nat) : ∀ (memview : Bytes) (offset : Nat),
    partsFromBytes memview k offset = partsFromBytes (memview.drop offset) k 0 := by
  induction k with
  | zero => intro memview offset; rfl
  | succ k ih =>
    intro memview offset
    simp only [partsFromBytes, slice_eq, List.drop_drop, Nat.add_zero]
    congr 1
    funext len
    rw [ih memview, ih (memview.drop offset), List.drop_drop, Nat.zero_add, Nat.add_assoc]

/-- One turn of the loop. -/
theorem partsFromBytes_succ (memview : Bytes) (k : Nat) :
    partsFromBytes memview (k + 1) 0 = (unpackBE 4 (memview.take 4)).bind fun len =>
      (partsFromBytes (memview.drop (4 + len)) k 0).map ((memview.drop 4).take len :: ·) := by
  simp only [partsFromBytes, slice_eq, List.drop_zero, Option.bind_eq_bind]
  congr 1
  funext len
  rw [partsFromBytes_drop, Nat.zero_add]
  cases partsFromBytes (memview.drop (4 + len)) k 0 <;> rfl

/-- The loop on a part after its length. -/
theorem partsFromBytes_field {len : Nat} (hlen : len < 256 ^ 4) (bs : Bytes) (k : Nat) :
    partsFromBytes (toBE 4 len ++ bs) (k + 1) 0 = (partsFromBytes (bs.drop len) k 0).map (bs.take len :: ·) := by
  have hfield : (toBE 4 len ++ bs).take 4 = toBE 4 len := List.take_left' (length_toBE ..)
  have hpart : (toBE 4 len ++ bs).drop 4 = bs := List.drop_left' (length_toBE ..)
  rw [partsFromBytes_succ, hfield, unpackBE, length_toBE, if_pos rfl, ofBE_toBE hlen, Option.bind_some, hpart,
    ← List.drop_drop, hpart]

/-- The loop goes over whole parts one by one. -/
theorem partsFromBytes_append (k : Nat) (tail : Bytes) (init : Msg) (hinit : ∀ part ∈ init, part.length < 256 ^ 4) :
    partsFromBytes (partsBytes init ++ tail) (init.length + k) 0 = (partsFromBytes tail k 0).map (init ++ ·) := by
  induction init with
  | nil => simp
  | cons part parts ih =>
    have hsplit : partsBytes (part :: parts) ++ tail = toBE 4 part.length ++ (part ++ (partsBytes parts ++ tail)) := by
      simp
    have hsucc : (part :: parts).length + k = (parts.length + k) + 1 := by
      simp; omega
    rw [hsucc, hsplit, partsFromBytes_field (hinit part (by simp)), List.drop_left, List.take_left,
      ih fun p hp => hinit p (by simp [hp])]
    cases partsFromBytes tail k 0 <;> rfl

/-- `msg_from_bytes` on the parts `init` and `k` more that `tail` has to hold. -/
theorem msgFromBytes_append (k : Nat) (tail : Bytes) (init : Msg) (hcount : init.length + k < 256 ^ 2)
    (hinit : ∀ part ∈ init, part.length < 256 ^ 4) :
    msgFromBytes (toBE 2 (init.length + k) ++ partsBytes init ++ tail) =
      (partsFromBytes tail k 0).map (init ++ ·) := by
  have hslice : slice (toBE 2 (init.length + k) ++ partsBytes init ++ tail) 0 2 = toBE 2 (init.length + k) := by
    simp [slice]
  simp only [msgFromBytes, hslice, unpackBE, length_toBE, if_true, ofBE_toBE hcount, Option.bind_eq_bind,
    Option.bind_some]
  rw [partsFromBytes_drop, List.append_assoc, List.drop_left' (length_toBE ..), partsFromBytes_append k tail init hinit]

theorem msgFromBytes_of_surplus {body : Bytes} (h : Surplus body) : (msgFromBytes body).isSome := by
  obtain ⟨msg, extra, hcount, hall, -, rfl⟩ := h
  have := msgFromBytes_append 0 extra msg (by omega) hall
  rw [Nat.add_zero] at this
  rw [this]
  rfl

theorem msgFromBytes_of_cutShort {body : Bytes} (h : CutShort body) : (msgFromBytes body).isSome := by
  obtain ⟨msg, len, part, hcount, hall, hlen, -, rfl⟩ := h
  rw [List.append_assoc, msgFromBytes_append 1 (toBE 4 len ++ part) msg (by omega) hall, partsFromBytes_field hlen]
  rfl

/-! ## The two decoders on any body -/

/-- The parts `getMessage` returns for a frame with this body. -/
def clientParts (beyond body : Bytes) : Option Msg :=
  match getMessage beyond (toBE 4 body.length ++ body) with
  | .ok (parts, _) => some parts
  | .error _ => none

/-- Both decoders reject the body or both return the same parts, and they
accept it just when it is what `msg_to_bytes` sends for these parts. -/
def DecodersAgree (beyond body : Bytes) : Prop :=
  msgFromBytes body = clientParts beyond body ∧
    ∀ msg, msgFromBytes body = some msg ↔ msgToBytes msg = some (toBE 4 body.length ++ body)

theorem clientParts_eq_some {beyond body : Bytes} (h2 : 2 ≤ body.length) (h : body.length < 2 ^ 32) {msg : Msg} :
    clientParts beyond body = some msg ↔ msgToBytes msg = some (toBE 4 body.length ++ body) := by
  have hok : ∀ rest, getMessage beyond (toBE 4 body.length ++ body) = .ok (msg, rest) ↔
      rest = [] ∧ msgToBytes msg = some (toBE 4 body.length ++ body) := by
    intro rest
    rw [← getMessage_eq_ok h2 h, List.append_nil]
  unfold clientParts
  constructor
  · intro hparts
    split at hparts
    · next parts rest heq =>
      cases hparts
      exact ((hok rest).1 heq).2
    · cases hparts
  · intro hmsg
    rw [(hok []).2 ⟨rfl, hmsg⟩]

/-- A body with surplus bytes or cut short is no encoding. -/
theorem no_encoding {body : Bytes} (h : body.length < 2 ^ 32) (hbad : Surplus body ∨ CutShort body) (msg : Msg) :
    msgToBytes msg ≠ some (toBE 4 body.length ++ body) := by
  intro hmsg
  obtain ⟨hcount, hbody⟩ := (msgToBytes_eq_frame h).1 hmsg
  have hdecoded : msgFromBytes body = some msg := by
    obtain ⟨body', heq, -, hlt, hdec⟩ := msgToBytes_frame hmsg
    rwa [(List.append_inj heq (by simp)).2]
  have hmem : ∀ part ∈ msg, part.length < 256 ^ 4 := fun part hpart => by
    have hle := length_le_totalLen hpart
    have := (msgToBytes_eq_some.1 hmsg).1.2
    omega
  rcases hbad with ⟨init, extra, hc, hall, hne, hlay⟩ | ⟨init, len, part, hc, hall, hlen, hshort, hlay⟩
  · have hrun := msgFromBytes_append 0 extra init (by omega) hall
    rw [Nat.add_zero, ← hlay, hdecoded] at hrun
    simp only [partsFromBytes, Option.map_some, List.append_nil, Option.some.injEq] at hrun
    subst hrun
    rw [hbody] at hlay
    have hlens := congrArg List.length hlay
    simp only [List.length_append] at hlens
    exact hne (List.length_eq_zero_iff.1 (by omega))
  · have hone : partsFromBytes (toBE 4 len ++ part) 1 0 = some [part] := by
      rw [partsFromBytes_field hlen, List.take_of_length_le hshort.le]
      rfl
    have hrun := msgFromBytes_append 1 (toBE 4 len ++ part) init (by omega) hall
    rw [← List.append_assoc, ← hlay, hdecoded, hone] at hrun
    simp only [Option.map_some, Option.some.injEq] at hrun
    subst hrun
    rw [hbody] at hlay
    have hinj : toBE 4 part.length ++ part = toBE 4 len ++ part := by
      simpa [partsBytes_append] using hlay
    have hpart4 := hmem part (by simp)
    have := toBE_inj hpart4 hlen (List.append_inj_left hinj (by simp))
    omega

/-- The decoders agree on a body, and accept just the encodings, when no byte
follows its last declared part and that part is not cut short; on the other
bodies `msg_from_bytes` accepts what `getMessage` rejects. -/
theorem decoders_agree_iff (beyond body : Bytes) (h2 : 2 ≤ body.length) (h : body.length < 2 ^ 32) :
    DecodersAgree beyond body ↔ ¬ Surplus body ∧ ¬ CutShort body := by
  constructor
  · rintro ⟨-, hexact⟩
    constructor
    · intro hs
      obtain ⟨msg, hmsg⟩ := Option.isSome_iff_exists.1 (msgFromBytes_of_surplus hs)
      exact no_encoding h (.inl hs) msg ((hexact msg).1 hmsg)
    · intro hc
      obtain ⟨msg, hmsg⟩ := Option.isSome_iff_exists.1 (msgFromBytes_of_cutShort hc)
      exact no_encoding h (.inr hc) msg ((hexact msg).1 hmsg)
  · rintro ⟨hs, hc⟩
    have hexact : ∀ msg, msgFromBytes body = some msg ↔ msgToBytes msg = some (toBE 4 body.length ++ body) := by
      intro msg
      constructor
      · intro hmsg
        rcases msgFromBytes_cases hmsg with henc | hbad | hbad
        · exact (msgToBytes_eq_frame h).2 henc
        · exact absurd hbad hs
        · exact absurd hbad hc
      · intro hmsg
        obtain ⟨body', heq, -, -, hdec⟩ := msgToBytes_frame hmsg
        rwa [(List.append_inj heq (by simp)).2]
    refine ⟨?_, hexact⟩
    apply Option.ext
    intro msg
    rw [hexact msg, clientParts_eq_some h2 h]

/-- One part of two bytes. -/
theorem decoders_agree_whole : DecodersAgree [] [0, 1, 0, 0, 0, 2, 65, 66] ↔
    ¬ Surplus [0, 1, 0, 0, 0, 2, 65, 66] ∧ ¬ CutShort [0, 1, 0, 0, 0, 2, 65, 66] :=
  decoders_agree_iff [] [0, 1, 0, 0, 0, 2, 65, 66] (by decide) (by decide)

/-- Five bytes are announced and two follow: one decoder returns them, the other fails. -/
theorem cut_short_accepted : ¬ DecodersAgree [] [0, 1, 0, 0, 0, 5, 65, 66] := by
  rintro ⟨hsame, -⟩
  exact absurd hsame (by decide)

end BuildPal.Client
