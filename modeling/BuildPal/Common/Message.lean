import BuildPal.Lib.BigEndian
/-!
# Messages on a byte stream

`buildpal/common/message.py`: a message is a list of byte strings. On the wire
it is a four-byte length, a two-byte part count and, for each part, a four-byte
length and the part. `MessageProtocol.dataReceived` takes a stream apart again,
in whatever chunks the transport hands over.
-/
open BuildPal.Lib

namespace BuildPal.Message

abbrev Bytes := List UInt8
abbrev Msg := List Bytes

/-- Python's `xs[i:j]`. -/
def slice (xs : Bytes) (i j : Nat) : Bytes := (xs.take j).drop i

/-! ## Encoding and decoding -/

/-- The part list as `msg_to_bytes` yields it after the part count. -/
def partsToBytes : Msg → Option Bytes
  | [] => some []
  | part :: parts => do
    let len ← packBE 4 part.length
    let rest ← partsToBytes parts
    return len ++ part ++ rest

/-- `total_len`: the parts, four bytes for each part's length, two for the part count. -/
def totalLen (msg : Msg) : Nat := (msg.map List.length).sum + 4 * msg.length + 2

/-- `msg_to_bytes`; `none` is `struct.error` from one of the `pack` calls. -/
def msgToBytes (msg : Msg) : Option Bytes := do
  let len ← packBE 4 (totalLen msg)
  let count ← packBE 2 msg.length
  let parts ← partsToBytes msg
  return len ++ count ++ parts

/-- The loop of `msg_from_bytes`: `k` parts still to read from `offset` on. -/
def partsFromBytes (memview : Bytes) : Nat → Nat → Option Msg
  | 0, _ => some []
  | k + 1, offset => do
    let partLen ← unpackBE 4 (slice memview offset (offset + 4))
    let offset := offset + 4
    let parts ← partsFromBytes memview k (offset + partLen)
    return slice memview offset (offset + partLen) :: parts

/-- `msg_from_bytes`; `none` is `struct.error` from one of the `unpack` calls.
A part that runs past the end is cut short, as slicing a memoryview does. -/
def msgFromBytes (memview : Bytes) : Option Msg := do
  let length ← unpackBE 2 (slice memview 0 2)
  partsFromBytes memview length 2

/-! ## The receiver -/

/-- `io.BytesIO`: the buffer is never truncated, only written over. -/
structure BytesIO where
  buf : Bytes
  pos : Nat

namespace BytesIO

def seek (f : BytesIO) (pos : Nat) : BytesIO := { f with pos }

/-- Writing past the end fills the gap with zeros. -/
def write (f : BytesIO) (data : Bytes) : BytesIO where
  buf := f.buf.take f.pos ++ List.replicate (f.pos - f.buf.length) 0 ++ data ++ f.buf.drop (f.pos + data.length)
  pos := f.pos + data.length

end BytesIO

structure MessageProtocol where
  lenBuff : Bytes
  lenOffset : Nat
  msgLen : Option Nat
  msgData : BytesIO

/-- `MessageProtocol.__init__`. -/
def MessageProtocol.new : MessageProtocol where
  lenBuff := [0, 0, 0, 0]
  lenOffset := 0
  msgLen := none
  msgData := ⟨[], 0⟩

/-- One pass of the loop in `data_received`: the state after it, the data not
yet looked at, the message passed to `process_msg` if any, and whether the pass
ended in an exception. -/
structure Pass where
  protocol : MessageProtocol
  data : Bytes
  call : Option Msg := none
  raised : Bool := false

section Receiver
-- `returns msg`: `process_msg` returns normally on `msg`.
variable (returns : Msg → Bool)

/-- The branch of `data_received` that collects the length prefix. -/
def readLength (p : MessageProtocol) (data : Bytes) : Pass :=
  let remaining := p.lenBuff.length - p.lenOffset
  let toAdd := min remaining data.length
  let lenBuff := p.lenBuff.take p.lenOffset ++ data.take toAdd ++ p.lenBuff.drop (p.lenOffset + toAdd)
  if toAdd = remaining then
    match unpackBE 4 lenBuff with
    | none => { protocol := { p with lenBuff, lenOffset := p.lenOffset + toAdd }, data := data.drop toAdd, raised := true }
    | some n =>
      { protocol := { lenBuff, lenOffset := 0, msgLen := some n, msgData := p.msgData.seek 0 }
        data := data.drop toAdd }
  else
    { protocol := { p with lenBuff, lenOffset := p.lenOffset + toAdd }, data := data.drop toAdd }

/-- The branch of `data_received` that collects the body of `msgLen` bytes. -/
def readBody (p : MessageProtocol) (msgLen : Nat) (data : Bytes) : Pass :=
  let remaining := msgLen - p.msgData.pos
  let toAdd := min remaining data.length
  let msgData := p.msgData.write (data.take toAdd)
  if toAdd = remaining then
    match msgFromBytes (msgData.buf.take msgLen) with
    | none => { protocol := { p with msgData }, data := data.drop toAdd, raised := true }
    | some msg =>
      if returns msg then
        { protocol := { p with msgData, msgLen := none }, data := data.drop toAdd, call := some msg }
      else
        { protocol := { p with msgData }, data := data.drop toAdd, call := some msg, raised := true }
  else
    { protocol := { p with msgData }, data := data.drop toAdd }

/-- `if not self.msg_len`: no length yet, or a length of zero. -/
def pass (p : MessageProtocol) (data : Bytes) : Pass :=
  match p.msgLen with
  | none | some 0 => readLength p data
  | some n@(_ + 1) => readBody returns p n data

/-- The protocol after some chunks, the calls to `process_msg` so far, and
whether the last chunk ended in an exception. -/
structure Received where
  protocol : MessageProtocol
  calls : List Msg
  raised : Bool

/-- `while data_offset != len(data)`. A pass consumes a byte, except one that
meets a body already complete, and no two of those follow each other. -/
def receiveLoop : Nat → MessageProtocol → Bytes → Received
  | _, p, [] => ⟨p, [], false⟩
  | 0, p, _ => ⟨p, [], false⟩
  | fuel + 1, p, data =>
    let r := pass returns p data
    if r.raised then ⟨r.protocol, r.call.toList, true⟩
    else
      let t := receiveLoop fuel r.protocol r.data
      ⟨t.protocol, r.call.toList ++ t.calls, t.raised⟩

/-- `MessageProtocol.data_received`. -/
def dataReceived (p : MessageProtocol) (data : Bytes) : Received :=
  receiveLoop returns (data.length + 1) p data

/-- A sequence of `data_received` calls, the event loop going on after an exception. -/
def receiveChunks : MessageProtocol → List Bytes → Received
  | p, [] => ⟨p, [], false⟩
  | p, chunk :: chunks =>
    let r := dataReceived returns p chunk
    let t := receiveChunks r.protocol chunks
    ⟨t.protocol, r.calls ++ t.calls, r.raised || t.raised⟩

end Receiver

/-! ## Decoding an encoded message -/

theorem slice_middle (a b c : Bytes) : slice (a ++ b ++ c) a.length (a.length + b.length) = b := by
  have h : (a ++ b ++ c).take (a.length + b.length) = a ++ b := by
    rw [← List.length_append, List.take_left]
  rw [slice, h, List.drop_left]

theorem partsFromBytes_partsToBytes (msg : Msg) : ∀ (pre bs : Bytes), partsToBytes msg = some bs →
    partsFromBytes (pre ++ bs) msg.length pre.length = some msg := by
  induction msg with
  | nil => intro pre bs _; rfl
  | cons part parts ih =>
    intro pre bs h
    simp only [partsToBytes, Option.bind_eq_bind, Option.bind_eq_some_iff, Option.pure_def, Option.some.injEq] at h
    obtain ⟨len, hlen, rest, hrest, rfl⟩ := h
    have hl := length_packBE hlen
    have hlenSlice : slice (pre ++ (len ++ part ++ rest)) pre.length (pre.length + 4) = len := by
      rw [← hl, ← List.append_assoc, ← List.append_assoc, List.append_assoc (pre ++ len)]
      exact slice_middle pre len (part ++ rest)
    have hpartSlice : slice (pre ++ (len ++ part ++ rest)) (pre.length + 4) (pre.length + 4 + part.length) = part := by
      have := slice_middle (pre ++ len) part rest
      rw [List.length_append, hl] at this
      rw [← List.append_assoc, ← List.append_assoc]
      exact this
    have htail := ih (pre ++ len ++ part) rest hrest
    rw [List.length_append, List.length_append, hl] at htail
    simp only [List.length_cons, partsFromBytes, hlenSlice, unpackBE_packBE hlen, Option.bind_eq_bind,
      Option.bind_some, hpartSlice]
    rw [← List.append_assoc, ← List.append_assoc, htail]
    rfl

theorem length_partsToBytes (msg : Msg) : ∀ bs, partsToBytes msg = some bs →
    bs.length = (msg.map List.length).sum + 4 * msg.length := by
  induction msg with
  | nil => intro bs h; cases h; rfl
  | cons part parts ih =>
    intro bs h
    simp only [partsToBytes, Option.bind_eq_bind, Option.bind_eq_some_iff, Option.pure_def, Option.some.injEq] at h
    obtain ⟨len, hlen, rest, hrest, rfl⟩ := h
    simp only [List.length_append, length_packBE hlen, ih rest hrest, List.map_cons, List.sum_cons, List.length_cons]
    omega

/-- An accepted message is framed: its length prefix, then a body of that many
bytes that decodes to the message. -/
theorem msgToBytes_frame {msg : Msg} {bs : Bytes} (h : msgToBytes msg = some bs) :
    ∃ body, bs = toBE 4 body.length ++ body ∧ 0 < body.length ∧ body.length < 256 ^ 4 ∧
      msgFromBytes body = some msg := by
  simp only [msgToBytes, Option.bind_eq_bind, Option.bind_eq_some_iff, Option.pure_def, Option.some.injEq] at h
  obtain ⟨len, hlen, count, hcount, parts, hparts, rfl⟩ := h
  obtain ⟨hbound, rfl⟩ := packBE_eq_some.1 hlen
  have hc := length_packBE hcount
  have hbody : (count ++ parts).length = totalLen msg := by
    rw [List.length_append, hc, length_partsToBytes msg parts hparts, totalLen]
    omega
  refine ⟨count ++ parts, ?_, ?_, ?_, ?_⟩
  · rw [hbody, List.append_assoc]
  · rw [hbody]; unfold totalLen; omega
  · rw [hbody]; exact hbound
  · have hcountSlice : slice (count ++ parts) 0 2 = count := by
      rw [← hc]; exact (by simpa using slice_middle [] count parts)
    have := partsFromBytes_partsToBytes msg count parts hparts
    rw [hc] at this
    simp [msgFromBytes, hcountSlice, unpackBE_packBE hcount, this]

/-! ## The receiver's state

Between two chunks the protocol holds the beginning `frag` of a frame: part of
a length prefix, or the prefix and part of the body. -/

/-- Fewer than four bytes of a length prefix have arrived. -/
structure InLength (p : MessageProtocol) (frag : Bytes) : Prop where
  lenBuff : p.lenBuff.length = 4
  offset : p.lenOffset = frag.length
  short : frag.length < 4
  held : p.lenBuff.take frag.length = frag
  noLen : p.msgLen = none

/-- The prefix and the first bytes `body` of an `n`-byte body have arrived. -/
structure InBody (p : MessageProtocol) (n : Nat) (body : Bytes) : Prop where
  lenBuff : p.lenBuff.length = 4
  offset : p.lenOffset = 0
  len : p.msgLen = some n
  short : body.length < n
  pos : p.msgData.pos = body.length
  held : p.msgData.buf.take body.length = body

/-- The protocol holds exactly the bytes `frag` of an unfinished frame. -/
def HoldsFrag (p : MessageProtocol) (frag : Bytes) : Prop :=
  InLength p frag ∨ ∃ n body, frag = toBE 4 n ++ body ∧ n < 256 ^ 4 ∧ InBody p n body

theorem holdsFrag_new : HoldsFrag .new [] :=
  .inl ⟨rfl, rfl, by simp, rfl, rfl⟩

/-- Holding nothing is the initial framing state. -/
theorem framing_of_empty {p : MessageProtocol} (h : HoldsFrag p []) : p.msgLen = none ∧ p.lenOffset = 0 := by
  rcases h with h | ⟨n, body, h, -, -⟩
  · exact ⟨h.noLen, h.offset⟩
  · have := congrArg List.length h
    simp only [List.length_nil, List.length_append, length_toBE] at this
    omega

theorem write_held {f : BytesIO} {body : Bytes} (hpos : f.pos = body.length) (hbuf : f.buf.take body.length = body)
    (data : Bytes) : (f.write data).pos = (body ++ data).length ∧
      (f.write data).buf.take (body ++ data).length = body ++ data := by
  have hle : body.length ≤ f.buf.length := by
    have := congrArg List.length hbuf
    rw [List.length_take] at this
    omega
  have hgap : body.length - f.buf.length = 0 := by omega
  refine ⟨by simp [ BytesIO.write, hpos], ?_⟩
  simp only [ BytesIO.write, hpos, hgap, List.replicate_zero, List.append_nil, hbuf]
  exact List.take_left

section Pass
variable (returns : Msg → Bool)

theorem pass_length_short {p : MessageProtocol} {frag data : Bytes} (h : InLength p frag)
    (hs : frag.length + data.length < 4) :
    ∃ p', pass returns p data = { protocol := p', data := [] } ∧ InLength p' (frag ++ data) := by
  have hadd : min (4 - frag.length) data.length = data.length := by omega
  have hne : data.length ≠ 4 - frag.length := by omega
  refine ⟨{ p with lenBuff := frag ++ data ++ p.lenBuff.drop (frag.length + data.length),
                   lenOffset := frag.length + data.length }, ?_, ?_⟩
  · simp only [pass, h.noLen, readLength, h.lenBuff, h.offset, hadd, hne, if_false, List.take_length, List.drop_length,
      h.held]
  · refine ⟨?_, by simp, by simpa using hs, ?_, h.noLen⟩
    · simp only [List.length_append, List.length_drop, h.lenBuff]; omega
    · exact List.take_left

theorem pass_length_done {p : MessageProtocol} {frag d₁ : Bytes} {n : Nat} (d₂ : Bytes) (h : InLength p frag)
    (hd : frag ++ d₁ = toBE 4 n) (hn : n < 256 ^ 4) (hpos : 0 < n) :
    ∃ p', pass returns p (d₁ ++ d₂) = { protocol := p', data := d₂ } ∧ InBody p' n [] := by
  have hlen : frag.length + d₁.length = 4 := by
    rw [← List.length_append, hd, length_toBE]
  have hadd : min d₁.length (d₁ ++ d₂).length = d₁.length := by simp
  have heq : 4 - frag.length = d₁.length := by omega
  have hbuff : frag ++ d₁ ++ p.lenBuff.drop (frag.length + d₁.length) = toBE 4 n := by
    rw [List.drop_of_length_le (by have := h.lenBuff; omega), List.append_nil, hd]
  have hread : unpackBE 4 (toBE 4 n) = some n := by simp [unpackBE, ofBE_toBE hn]
  refine ⟨{ lenBuff := toBE 4 n, lenOffset := 0, msgLen := some n, msgData := p.msgData.seek 0 }, ?_, ?_⟩
  · simp only [pass, h.noLen, readLength, h.lenBuff, h.offset, heq, hadd, if_true, List.take_left, List.drop_left,
      h.held, hbuff, hread]
  · exact ⟨by simp, rfl, rfl, hpos, rfl, rfl⟩

theorem pass_body_short {p : MessageProtocol} {n : Nat} {body data : Bytes} (h : InBody p n body)
    (hs : body.length + data.length < n) :
    ∃ p', pass returns p data = { protocol := p', data := [] } ∧ InBody p' n (body ++ data) := by
  obtain ⟨k, rfl⟩ : ∃ k, n = k + 1 := ⟨n - 1, by omega⟩
  have hadd : min (k + 1 - body.length) data.length = data.length := by omega
  have hne : data.length ≠ k + 1 - body.length := by omega
  obtain ⟨hpos, hbuf⟩ := write_held h.pos h.held data
  refine ⟨{ p with msgData := p.msgData.write data }, ?_, ?_⟩
  · simp only [pass, h.len, readBody, h.pos, hadd, hne, if_false, List.take_length, List.drop_length]
  · exact ⟨h.lenBuff, h.offset, h.len, by simpa using hs, hpos, hbuf⟩

theorem pass_body_done {p : MessageProtocol} {n : Nat} {body d₁ d₂ : Bytes} {msg : Msg} (h : InBody p n body)
    (hn : (body ++ d₁).length = n) (hm : msgFromBytes (body ++ d₁) = some msg) (hr : returns msg = true) :
    ∃ p', pass returns p (d₁ ++ d₂) = { protocol := p', data := d₂, call := some msg } ∧ InLength p' [] := by
  obtain ⟨k, rfl⟩ : ∃ k, n = k + 1 := ⟨n - 1, by have := h.short; omega⟩
  have hlen : body.length + d₁.length = k + 1 := by rw [← List.length_append, hn]
  have hadd : min d₁.length (d₁ ++ d₂).length = d₁.length := by simp
  have heq : k + 1 - body.length = d₁.length := by omega
  obtain ⟨-, hbuf⟩ := write_held h.pos h.held d₁
  rw [hn] at hbuf
  refine ⟨{ p with msgData := p.msgData.write d₁, msgLen := none }, ?_, ?_⟩
  · simp only [pass, h.len, readBody, h.pos, heq, hadd, if_true, List.take_left, List.drop_left, hbuf, hm, hr]
  · exact ⟨h.lenBuff, h.offset, by simp, by simp, rfl⟩

end Pass

/-! ## Whole chunks -/

/-- The concatenation of the encodings of `msgs`. -/
def Encodes (msgs : List Msg) (stream : Bytes) : Prop :=
  ∃ frames, msgs.mapM msgToBytes = some frames ∧ frames.flatten = stream

theorem encodes_nil {stream : Bytes} : Encodes [] stream ↔ stream = [] := by
  simp [Encodes, eq_comm]

theorem encodes_cons {msg : Msg} {msgs : List Msg} {stream : Bytes} :
    Encodes (msg :: msgs) stream ↔
      ∃ frame rest, msgToBytes msg = some frame ∧ Encodes msgs rest ∧ stream = frame ++ rest := by
  constructor
  · rintro ⟨frames, h, rfl⟩
    simp only [List.mapM_cons, Option.bind_eq_bind, Option.bind_eq_some_iff, Option.pure_def, Option.some.injEq] at h
    obtain ⟨frame, hf, frames', hfs, rfl⟩ := h
    exact ⟨frame, frames'.flatten, hf, ⟨frames', hfs, rfl⟩, rfl⟩
  · rintro ⟨frame, rest, hf, ⟨frames, hfs, rfl⟩, rfl⟩
    exact ⟨frame :: frames, by simp [hf, hfs], rfl⟩

/-- The messages of `msgs` whose encodings lie wholly within the first `n` bytes. -/
def wholeIn : List Msg → Nat → List Msg
  | [], _ => []
  | msg :: msgs, n =>
    match msgToBytes msg with
    | none => []
    | some frame => if frame.length ≤ n then msg :: wholeIn msgs (n - frame.length) else []

/-- `frag` is the part of the stream of `msgs` already seen, and it ends inside
the first frame (or nothing is left to come). -/
def Unfinished (msgs : List Msg) (frag : Bytes) : Prop :=
  match msgs with
  | [] => frag = []
  | msg :: _ => ∃ frame, msgToBytes msg = some frame ∧ frag.length < frame.length

/-- Two splits of one byte string agree where the first parts are equally long. -/
theorem append_split {a b c d : Bytes} (h : a ++ b = c ++ d) (hl : c.length ≤ a.length) :
    ∃ e, a = c ++ e ∧ d = e ++ b := by
  rcases List.append_eq_append_iff.1 h with ⟨e, hc, hb⟩ | ⟨e, ha, hd⟩
  · have : e = [] := by
      have := congrArg List.length hc
      rw [List.length_append] at this
      exact List.length_eq_zero_iff.1 (by omega)
    subst this
    exact ⟨[], by simpa using hc.symm, by simpa using hb.symm⟩
  · exact ⟨e, ha, hd⟩

theorem toBE_inj {m n : Nat} (hm : m < 256 ^ 4) (hn : n < 256 ^ 4) (h : toBE 4 m = toBE 4 n) : m = n := by
  rw [← ofBE_toBE hm, h, ofBE_toBE hn]

theorem unfinished_nil {msgs : List Msg} {stream : Bytes} (h : Encodes msgs stream) : Unfinished msgs [] := by
  match msgs, h with
  | [], _ => rfl
  | msg :: msgs, h =>
    obtain ⟨frame, -, hframe, -, -⟩ := encodes_cons.1 h
    obtain ⟨body, rfl, hpos, -, -⟩ := msgToBytes_frame hframe
    exact ⟨_, hframe, by simp only [List.length_append, List.length_nil]; omega⟩

section Loop
variable {returns : Msg → Bool} (hret : ∀ msg, returns msg = true)

/-- What a pass over `data` does to the stream of `msgs`, of which the protocol
holds `frag` and `future` is still to come: it uses up some bytes and delivers
at most the first message. -/
structure PassSpec (returns : Msg → Bool) (p : MessageProtocol) (data future : Bytes) (msgs : List Msg) where
  p' : MessageProtocol
  left : Bytes
  call : Option Msg
  frag' : Bytes
  msgs' : List Msg
  run : pass returns p data = { protocol := p', data := left, call }
  shorter : left.length < data.length
  holds : HoldsFrag p' frag'
  encodes : Encodes msgs' (frag' ++ left ++ future)
  unfinished : Unfinished msgs' frag'
  delivered : msgs = call.toList ++ msgs'

theorem pass_in_length {p : MessageProtocol} {frag data future : Bytes} {msg : Msg} {rest : List Msg} {frame : Bytes}
    (hp : InLength p frag) (henc : Encodes (msg :: rest) (frag ++ data ++ future))
    (hframe : msgToBytes msg = some frame) (hdata : data ≠ []) :
    Nonempty (PassSpec returns p data future (msg :: rest)) := by
  obtain ⟨frame', stream, hframe', -, heq⟩ := encodes_cons.1 henc
  obtain rfl : frame' = frame := Option.some.inj (hframe'.symm.trans hframe)
  obtain ⟨body, rfl, hpos, hbound, -⟩ := msgToBytes_frame hframe
  have hshort := hp.short
  have hdpos := List.length_pos_iff.2 hdata
  by_cases hs : frag.length + data.length < 4
  · -- the chunk ends inside the length prefix
    obtain ⟨p', hpass, hp'⟩ := pass_length_short returns hp hs
    refine ⟨p', [], none, frag ++ data, msg :: rest, hpass, hdpos, .inl hp', by simpa using henc, ⟨_, hframe, ?_⟩, rfl⟩
    simp only [List.length_append, length_toBE]
    omega
  · obtain ⟨d₂, hd₂, -⟩ := append_split (a := frag ++ data) (b := future) (c := toBE 4 body.length)
      (d := body ++ stream) (by rw [heq, List.append_assoc]) (by rw [List.length_append, length_toBE]; omega)
    obtain ⟨d₁, hd₁, rfl⟩ := append_split (a := toBE 4 body.length) hd₂.symm (by rw [length_toBE]; omega)
    obtain ⟨p', hpass, hp'⟩ := pass_length_done returns d₂ hp hd₁.symm hbound hpos
    have hlen := congrArg List.length hd₁
    rw [length_toBE, List.length_append] at hlen
    refine ⟨p', d₂, none, toBE 4 body.length, msg :: rest, hpass, ?_,
      .inr ⟨body.length, [], by simp, hbound, hp'⟩, by rw [← hd₂]; exact henc, ⟨_, hframe, ?_⟩, rfl⟩
    · rw [List.length_append]; omega
    · rw [List.length_append, length_toBE]; omega

include hret in
theorem pass_in_body {p : MessageProtocol} {n : Nat} {got data future : Bytes} {msg : Msg} {rest : List Msg}
    {frame : Bytes} (hn : n < 256 ^ 4) (hp : InBody p n got)
    (henc : Encodes (msg :: rest) (toBE 4 n ++ got ++ data ++ future)) (hframe : msgToBytes msg = some frame)
    (hdata : data ≠ []) : Nonempty (PassSpec returns p data future (msg :: rest)) := by
  obtain ⟨frame', stream, hframe', hrest, heq⟩ := encodes_cons.1 henc
  obtain rfl : frame' = frame := Option.some.inj (hframe'.symm.trans hframe)
  obtain ⟨body, rfl, hpos, hbound, hbody⟩ := msgToBytes_frame hframe
  obtain rfl : n = body.length := by
    have h4 : toBE 4 n = toBE 4 body.length := by
      have := congrArg (List.take 4) heq
      simpa [List.take_append, List.take_of_length_le] using this
    exact toBE_inj hn hbound h4
  have htail : got ++ data ++ future = body ++ stream := by
    simp only [List.append_assoc] at heq ⊢
    exact List.append_cancel_left heq
  have hshort := hp.short
  have hdpos := List.length_pos_iff.2 hdata
  by_cases hs : got.length + data.length < body.length
  · -- the chunk ends inside the body
    obtain ⟨p', hpass, hp'⟩ := pass_body_short returns hp hs
    refine ⟨p', [], none, toBE 4 body.length ++ got ++ data, msg :: rest, hpass, hdpos,
      .inr ⟨_, got ++ data, by simp, hbound, hp'⟩, by simpa using henc, ⟨_, hframe, ?_⟩, rfl⟩
    simp only [List.length_append, length_toBE]
    omega
  · obtain ⟨d₂, hd₂, hstream⟩ := append_split (a := got ++ data) htail (by rw [List.length_append]; omega)
    obtain ⟨d₁, hd₁, rfl⟩ := append_split (a := body) hd₂.symm (by omega)
    have hmsg : msgFromBytes (got ++ d₁) = some msg := by rw [← hd₁]; exact hbody
    obtain ⟨p', hpass, hp'⟩ : ∃ p', pass returns p (d₁ ++ d₂) = { protocol := p', data := d₂, call := some msg } ∧
        InLength p' [] := pass_body_done returns hp (by rw [hd₁]) hmsg (hret msg)
    have hlen := congrArg List.length hd₁
    rw [List.length_append] at hlen
    refine ⟨p', d₂, some msg, [], rest, hpass, ?_, .inl hp', by simpa [← hstream] using hrest,
      unfinished_nil hrest, rfl⟩
    rw [List.length_append]
    omega

include hret in
/-- The loop of `data_received` on one chunk delivers the messages that end in
it and holds the beginning of the next one. -/
theorem receiveLoop_spec : ∀ (fuel : Nat) (p : MessageProtocol) (frag data future : Bytes) (msgs : List Msg),
    HoldsFrag p frag → Encodes msgs (frag ++ data ++ future) → Unfinished msgs frag → data.length ≤ fuel →
    ∃ p' done msgs' frag', receiveLoop returns fuel p data = ⟨p', done, false⟩ ∧ msgs = done ++ msgs' ∧
      HoldsFrag p' frag' ∧ Encodes msgs' (frag' ++ future) ∧ Unfinished msgs' frag' := by
  intro fuel
  induction fuel with
  | zero =>
    intro p frag data future msgs hp henc hu hf
    obtain rfl : data = [] := List.length_eq_zero_iff.1 (by omega)
    exact ⟨p, [], msgs, frag, rfl, rfl, hp, by simpa using henc, hu⟩
  | succ fuel ih =>
    intro p frag data future msgs hp henc hu hf
    by_cases hdata : data = []
    · subst hdata
      exact ⟨p, [], msgs, frag, rfl, rfl, hp, by simpa using henc, hu⟩
    match msgs, henc, hu with
    | [], henc, _ =>
      rw [encodes_nil] at henc
      simp [hdata] at henc
    | msg :: rest, henc, ⟨frame, hframe, _⟩ =>
      obtain ⟨spec⟩ : Nonempty (PassSpec returns p data future (msg :: rest)) := by
        rcases hp with hp | ⟨n, got, rfl, hn, hp⟩
        · exact pass_in_length hp henc hframe hdata
        · exact pass_in_body hret hn hp henc hframe hdata
      obtain ⟨p₁, left, call, frag₁, msgs₁, hrun, hlt, hh, henc₁, hu₁, hdel⟩ := spec
      obtain ⟨p', done, msgs', frag', hloop, hmsgs, hh', henc', hu'⟩ :=
        ih p₁ frag₁ left future msgs₁ hh henc₁ hu₁ (by omega)
      refine ⟨p', call.toList ++ done, msgs', frag', ?_, by rw [hdel, hmsgs, List.append_assoc], hh', henc', hu'⟩
      rw [receiveLoop.eq_3 _ _ _ _ hdata, hrun]
      simp [hloop]

include hret in
theorem receiveChunks_spec : ∀ (chunks : List Bytes) (p : MessageProtocol) (frag future : Bytes) (msgs : List Msg),
    HoldsFrag p frag → Encodes msgs (frag ++ chunks.flatten ++ future) → Unfinished msgs frag →
    ∃ p' done msgs' frag', receiveChunks returns p chunks = ⟨p', done, false⟩ ∧ msgs = done ++ msgs' ∧
      HoldsFrag p' frag' ∧ Encodes msgs' (frag' ++ future) ∧ Unfinished msgs' frag' := by
  intro chunks
  induction chunks with
  | nil =>
    intro p frag future msgs hp henc hu
    exact ⟨p, [], msgs, frag, rfl, rfl, hp, by simpa using henc, hu⟩
  | cons chunk chunks ih =>
    intro p frag future msgs hp henc hu
    obtain ⟨p₁, done₁, msgs₁, frag₁, hrun₁, rfl, hp₁, henc₁, hu₁⟩ :=
      receiveLoop_spec hret (chunk.length + 1) p frag chunk (chunks.flatten ++ future) msgs hp
        (by simpa [List.append_assoc] using henc) hu (by omega)
    obtain ⟨p', done, msgs', frag', hrun, rfl, hp', henc', hu'⟩ :=
      ih p₁ frag₁ future msgs₁ hp₁ (by simpa [List.append_assoc] using henc₁) hu₁
    refine ⟨p', done₁ ++ done, msgs', frag', ?_, by rw [List.append_assoc], hp', henc', hu'⟩
    simp [receiveChunks, dataReceived, hrun₁, hrun]

end Loop

theorem encodes_append {as bs : List Msg} {stream : Bytes} :
    Encodes (as ++ bs) stream ↔ ∃ s₁ s₂, Encodes as s₁ ∧ Encodes bs s₂ ∧ stream = s₁ ++ s₂ := by
  induction as generalizing stream with
  | nil => simp [encodes_nil]
  | cons msg as ih =>
    rw [List.cons_append, encodes_cons]
    constructor
    · rintro ⟨frame, rest, hframe, hrest, rfl⟩
      obtain ⟨s₁, s₂, h₁, h₂, rfl⟩ := ih.1 hrest
      exact ⟨frame ++ s₁, s₂, encodes_cons.2 ⟨frame, s₁, hframe, h₁, rfl⟩, h₂, by rw [List.append_assoc]⟩
    · rintro ⟨s₁, s₂, h₁, h₂, rfl⟩
      obtain ⟨frame, rest, hframe, hrest, rfl⟩ := encodes_cons.1 h₁
      exact ⟨frame, rest ++ s₂, hframe, ih.2 ⟨rest, s₂, hrest, h₂, rfl⟩, by rw [List.append_assoc]⟩

theorem encodes_unique {msgs : List Msg} {s₁ s₂ : Bytes} (h₁ : Encodes msgs s₁) (h₂ : Encodes msgs s₂) : s₁ = s₂ := by
  obtain ⟨f₁, hf₁, rfl⟩ := h₁
  obtain ⟨f₂, hf₂, rfl⟩ := h₂
  rw [Option.some.inj (hf₁.symm.trans hf₂)]

/-- Frames seen in full, then less than the next one. -/
theorem wholeIn_eq (done msgs' : List Msg) (s frag : Bytes) (hs : Encodes done s) (hu : Unfinished msgs' frag) :
    wholeIn (done ++ msgs') (s ++ frag).length = done := by
  induction done generalizing s with
  | nil =>
    obtain rfl := encodes_nil.1 hs
    match msgs', hu with
    | [], _ => rfl
    | msg :: msgs, ⟨frame, hframe, hlt⟩ =>
      have : ¬ frame.length ≤ frag.length := by omega
      simp [wholeIn, hframe, this]
  | cons msg done ih =>
    obtain ⟨frame, rest, hframe, hrest, rfl⟩ := encodes_cons.1 hs
    have hle : frame.length ≤ (frame ++ rest ++ frag).length := by simp
    have hsub : (frame ++ rest ++ frag).length - frame.length = (rest ++ frag).length := by simp
    simp only [List.cons_append, wholeIn, hframe, hle, if_true, hsub, ih rest hrest]

/-! ## Main theorem -/

/-- However the encodings of `msgs` are cut into chunks, `data_received` calls
`process_msg` once for each message that has wholly arrived, in order and with
its original parts, and is back in its initial framing state after the last
byte. -/
theorem data_received_exact (msgs : List Msg) (frames chunks : List Bytes) (future : Bytes) (returns : Msg → Bool)
    (hret : ∀ msg, returns msg = true) (hmsgs : msgs.mapM msgToBytes = some frames)
    (hcut : chunks.flatten ++ future = frames.flatten) :
    let r := receiveChunks returns .new chunks
    r.raised = false ∧ r.calls = wholeIn msgs chunks.flatten.length ∧
      (future = [] → r.calls = msgs ∧ r.protocol.msgLen = none ∧ r.protocol.lenOffset = 0) := by
  have henc : Encodes msgs (chunks.flatten ++ future) := ⟨frames, hmsgs, hcut.symm⟩
  obtain ⟨p, done, msgs', frag, hrun, rfl, hp, henc', hu⟩ :=
    receiveChunks_spec hret chunks .new [] future msgs holdsFrag_new (by simpa using henc) (unfinished_nil henc)
  obtain ⟨s₁, s₂, hs₁, hs₂, hs⟩ := encodes_append.1 henc
  have hseen : chunks.flatten = s₁ ++ frag := by
    rw [encodes_unique hs₂ henc', ← List.append_assoc] at hs
    exact List.append_cancel_right hs
  simp only [hrun]
  refine ⟨trivial, ?_, ?_⟩
  · rw [hseen, wholeIn_eq done msgs' s₁ frag hs₁ hu]
  · rintro rfl
    match msgs', henc', hu with
    | [], _, hfrag =>
      obtain rfl : frag = [] := hfrag
      exact ⟨by simp, framing_of_empty hp⟩
    | msg :: rest, henc', ⟨frame, hframe, hlt⟩ =>
      -- the stream has ended, so it cannot end inside a frame
      obtain ⟨frame', _, hframe', -, heq⟩ := encodes_cons.1 henc'
      obtain rfl : frame' = frame := Option.some.inj (hframe'.symm.trans hframe)
      have := congrArg List.length heq
      simp only [List.append_nil, List.length_append] at this
      omega

/-- Two messages, one of them without parts, in chunks that cut the prefixes. -/
theorem data_received_exact_two :
    (receiveChunks (fun _ => true) .new [[0], [0, 0, 2, 0], [0, 0, 0], [], [0, 7, 0, 1, 0, 0, 0, 1], [65]]).calls =
      [[], [[65]]] :=
  ((data_received_exact [[], [[65]]] [[0, 0, 0, 2, 0, 0], [0, 0, 0, 7, 0, 1, 0, 0, 0, 1, 65]]
    [[0], [0, 0, 2, 0], [0, 0, 0], [], [0, 7, 0, 1, 0, 0, 0, 1], [65]] [] (fun _ => true) (fun _ => rfl)
    (by decide) (by decide)).2.2 rfl).1

end BuildPal.Message
