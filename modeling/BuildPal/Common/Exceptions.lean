import BuildPal.Common.Message
/-!
# Exceptions in a handler

`process_msg` may raise, and the event loop goes on with the next chunk. The
length of the message is then still set, and the rest of the chunk is lost: the
next chunk, whatever is in it, has the message handled once more. We say exactly
when every message is handled once all the same.
-/
open BuildPal.Lib

namespace BuildPal.Message

/-! ## The receiver -/

/-- `handled` counts the messages that `process_msg` has returned from. -/
structure Served where
  protocol : MessageProtocol
  handled : Nat
  calls : List Msg
  raised : Bool

section Receiver
-- `returns n msg`: `process_msg` returns from `msg` when it has returned from `n` messages before.
variable (returns : Nat → Msg → Bool)

/-- `while data_offset != len(data)`, with a handler that may take each message differently. -/
def serveLoop : Nat → Nat → MessageProtocol → Bytes → Served
  | _, handled, p, [] => ⟨p, handled, [], false⟩
  | 0, handled, p, _ => ⟨p, handled, [], false⟩
  | fuel + 1, handled, p, data =>
    let r := pass (returns handled) p data
    if r.raised then ⟨r.protocol, handled, r.call.toList, true⟩
    else
      let t := serveLoop fuel (handled + r.call.toList.length) r.protocol r.data
      ⟨t.protocol, t.handled, r.call.toList ++ t.calls, t.raised⟩

def serveChunks : Nat → MessageProtocol → List Bytes → Served
  | handled, p, [] => ⟨p, handled, [], false⟩
  | handled, p, chunk :: chunks =>
    let r := serveLoop returns (chunk.length + 1) handled p chunk
    let t := serveChunks r.handled r.protocol chunks
    ⟨t.protocol, t.handled, r.calls ++ t.calls, r.raised || t.raised⟩

/-- The handler returns from all of them, one after the other. -/
def ReturnsFrom (handled : Nat) (msgs : List Msg) : Prop :=
  ∀ i msg, msgs[i]? = some msg → returns (handled + i) msg = true

end Receiver

/-- The chunks after the one that the byte with this number, counted from 1, is in. -/
def chunksAfter : Nat → List Bytes → List Bytes
  | _, [] => []
  | n, chunk :: chunks => if n ≤ chunk.length then chunks else chunksAfter (n - chunk.length) chunks

/-- With a handler that looks at the message only, this is `data_received` as before. -/
theorem serveLoop_eq (returns : Msg → Bool) (fuel handled : Nat) (p : MessageProtocol) (data : Bytes) :
    let r := receiveLoop returns fuel p data
    let s := serveLoop (fun _ => returns) fuel handled p data
    s.protocol = r.protocol ∧ s.calls = r.calls ∧ s.raised = r.raised := by
  induction fuel generalizing handled p data with
  | zero => cases data <;> exact ⟨rfl, rfl, rfl⟩
  | succ fuel ih =>
    by_cases hdata : data = []
    · subst hdata
      exact ⟨rfl, rfl, rfl⟩
    rw [receiveLoop.eq_3 _ _ _ _ hdata, serveLoop.eq_3 _ _ _ _ _ hdata]
    dsimp only
    split
    · exact ⟨rfl, rfl, rfl⟩
    · obtain ⟨hp, hc, hr⟩ := ih (handled + (pass returns p data).call.toList.length) (pass returns p data).protocol
        (pass returns p data).data
      exact ⟨hp, by rw [hc], hr⟩

theorem serveChunks_eq (returns : Msg → Bool) (handled : Nat) (p : MessageProtocol) (chunks : List Bytes) :
    (serveChunks (fun _ => returns) handled p chunks).calls = (receiveChunks returns p chunks).calls := by
  induction chunks generalizing handled p with
  | nil => rfl
  | cons chunk chunks ih =>
    obtain ⟨hp, hc, -⟩ := serveLoop_eq returns (chunk.length + 1) handled p chunk
    simp only [serveChunks, receiveChunks, dataReceived, hp, hc, ih]

/-! ## A message that is not taken -/

/-- All of the message is in the buffer, and its length is still set. -/
structure Stuck (p : MessageProtocol) (msg : Msg) : Prop where
  held : ∃ k, p.msgLen = some (k + 1) ∧ p.msgData.pos = k + 1 ∧ k + 1 ≤ p.msgData.buf.length ∧
    msgFromBytes (p.msgData.buf.take (k + 1)) = some msg

theorem length_write (f : BytesIO) (data : Bytes) : f.pos + data.length ≤ (f.write data).buf.length := by
  simp only [ BytesIO.write, List.length_append, List.length_take, List.length_replicate, List.length_drop]
  omega

theorem write_nil {f : BytesIO} (h : f.pos ≤ f.buf.length) : f.write [] = f := by
  have hgap : f.pos - f.buf.length = 0 := by omega
  simp [ BytesIO.write, hgap]

section Pass
variable {returns : Msg → Bool} {p : MessageProtocol} {frag data : Bytes}

/-- A pass takes the handler's word on the message it completes, and on nothing else. -/
theorem pass_returns {r : Pass} (hrun : pass (fun _ => true) p data = r) (h : ∀ msg ∈ r.call, returns msg = true) :
    pass returns p data = r := by
  subst hrun
  unfold pass at h ⊢
  split
  · rfl
  · rfl
  · next n hn =>
    simp only [hn] at h
    revert h
    unfold readBody
    dsimp only
    intro h
    split
    · next hadd =>
      rw [if_pos hadd] at h
      split
      · rfl
      · next msg hmsg =>
        simp only [hmsg] at h
        rw [h msg rfl]
    · rfl

theorem pass_raises {p' : MessageProtocol} {left : Bytes} {msg : Msg} (hp : HoldsFrag p frag)
    (hrun : pass (fun _ => true) p data = { protocol := p', data := left, call := some msg })
    (h : returns msg = false) :
    ∃ p'', pass returns p data = { protocol := p'', data := left, call := some msg, raised := true } ∧
      Stuck p'' msg := by
  rcases hp with hp | ⟨n, body, -, -, hp⟩
  · -- a length prefix is not handed to `process_msg`
    simp only [pass, hp.noLen, readLength] at hrun
    split at hrun
    · split at hrun <;> cases hrun
    · cases hrun
  obtain ⟨k, rfl⟩ : ∃ k, n = k + 1 := ⟨n - 1, by have := hp.short; omega⟩
  simp only [pass, hp.len, readBody] at hrun ⊢
  split at hrun
  · next hadd =>
    rw [if_pos hadd]
    split at hrun
    · cases hrun
    · next msg' hmsg =>
      obtain ⟨rfl, rfl, rfl⟩ : _ ∧ data.drop _ = left ∧ msg' = msg := by
        simpa using hrun
      have hlen : (data.take (min (k + 1 - p.msgData.pos) data.length)).length = k + 1 - p.msgData.pos := by
        rw [List.length_take]
        omega
      have hfit := length_write p.msgData (data.take (min (k + 1 - p.msgData.pos) data.length))
      have hpos : p.msgData.pos + (k + 1 - p.msgData.pos) = k + 1 := by
        have := hp.short
        have := hp.pos
        omega
      rw [hlen, hpos] at hfit
      refine ⟨{ p with msgData := p.msgData.write (data.take (min (k + 1 - p.msgData.pos) data.length)) }, ?_,
        ⟨k, hp.len, ?_, hfit, hmsg⟩⟩
      · rw [h]
        simp [hp.len]
      · show p.msgData.pos + _ = k + 1
        rw [hlen, hpos]
  · cases hrun

/-- Nothing of the data is looked at: the message is handled as it lies in the buffer. -/
theorem stuck_pass {msg : Msg} (hp : Stuck p msg) (h : returns msg = false) :
    pass returns p data = { protocol := p, data, call := some msg, raised := true } := by
  obtain ⟨k, hlen, hpos, hfit, hmsg⟩ := hp.held
  have hwrite : p.msgData.write [] = p.msgData := write_nil (by omega)
  simp only [pass, hlen, readBody, hpos, Nat.sub_self, Nat.zero_min, List.take_zero, List.drop_zero, hwrite, if_true,
    hmsg, h, Bool.false_eq_true, if_false]
  rw [← hlen]

end Pass

section Stuck
variable {returns : Nat → Msg → Bool} {p : MessageProtocol} {msg : Msg} {handled : Nat}

theorem stuck_loop (hp : Stuck p msg) (h : returns handled msg = false) {data : Bytes} (hdata : data ≠ [])
    (fuel : Nat) : serveLoop returns (fuel + 1) handled p data = ⟨p, handled, [msg], true⟩ := by
  rw [serveLoop.eq_3 _ _ _ _ _ hdata, stuck_pass hp h]
  rfl

/-- From then on every chunk with a byte in it gets the same message handled. -/
theorem stuck_chunks (hp : Stuck p msg) (h : returns handled msg = false) (chunks : List Bytes) :
    (serveChunks returns handled p chunks).calls =
      List.replicate (chunks.filter (· ≠ [])).length msg := by
  induction chunks with
  | nil => rfl
  | cons chunk chunks ih =>
    by_cases hdata : chunk = []
    · subst hdata
      simpa [serveChunks, serveLoop] using ih
    · simp only [serveChunks, stuck_loop hp h hdata, ih]
      simp [hdata, List.replicate_succ]

end Stuck

/-! ## Whole chunks -/

section Loop
variable {returns : Nat → Msg → Bool}

theorem returnsFrom_nil {handled : Nat} : ReturnsFrom returns handled [] := by
  intro i msg h
  cases h

theorem returnsFrom_append {handled : Nat} {as bs : List Msg} (ha : ReturnsFrom returns handled as)
    (hb : ReturnsFrom returns (handled + as.length) bs) : ReturnsFrom returns handled (as ++ bs) := by
  intro i msg h
  by_cases hi : i < as.length
  · rw [List.getElem?_append_left hi] at h
    exact ha i msg h
  · rw [List.getElem?_append_right (by omega)] at h
    have := hb (i - as.length) msg h
    rwa [show handled + as.length + (i - as.length) = handled + i by omega] at this

theorem returnsFrom_toList {handled : Nat} {call : Option Msg} (h : ∀ msg ∈ call, returns handled msg = true) :
    ReturnsFrom returns handled call.toList := by
  intro i msg hi
  cases call with
  | none => cases hi
  | some m =>
    cases i with
    | zero => exact h msg hi
    | succ i => cases hi

/-- What is left of `msgs`, of which the first bytes `seen` have gone by, when the chunk `data` has
been served: either all it completes has been handled and returned from, or the
handler has raised on the one after `good`. -/
inductive Outcome (returns : Nat → Msg → Bool) (handled : Nat) (seen future : Bytes) (msgs : List Msg) :
    Served → Prop
  | «through» (p : MessageProtocol) (done msgs' : List Msg) (stream frag : Bytes)
      (split : msgs = done ++ msgs') (good : ReturnsFrom returns handled done) (holds : HoldsFrag p frag)
      (gone : Encodes done stream) (seen_eq : seen = stream ++ frag) (left : Encodes msgs' (frag ++ future))
      (unfinished : Unfinished msgs' frag) :
      Outcome returns handled seen future msgs ⟨p, handled + done.length, done, false⟩
  | halted (p : MessageProtocol) (good rest : List Msg) (msg : Msg) (stream left : Bytes)
      (split : msgs = good ++ msg :: rest) (returned : ReturnsFrom returns handled good)
      (refused : returns (handled + good.length) msg = false) (stuck : Stuck p msg)
      (gone : Encodes (good ++ [msg]) stream) (seen_eq : seen = stream ++ left) :
      Outcome returns handled seen future msgs ⟨p, handled + good.length, good ++ [msg], true⟩

theorem encodes_singleton {msg : Msg} {frame : Bytes} (h : msgToBytes msg = some frame) : Encodes [msg] frame :=
  encodes_cons.2 ⟨frame, [], h, encodes_nil.2 rfl, by simp⟩

/-- A message that a pass delivers fills what the protocol holds up to a whole frame. -/
theorem delivered_frame {call : Option Msg} {msgs msgs' : List Msg} {seen left frag' : Bytes} {future : Bytes}
    (henc : Encodes msgs (seen ++ future)) (hdel : msgs = call.toList ++ msgs')
    (henc' : Encodes msgs' (frag' ++ left ++ future)) :
    ∃ stream, Encodes call.toList stream ∧ seen = stream ++ frag' ++ left := by
  rw [hdel] at henc
  obtain ⟨stream, tail, hstream, htail, heq⟩ := encodes_append.1 henc
  obtain rfl := encodes_unique htail henc'
  have hseen : seen ++ future = stream ++ frag' ++ left ++ future := by
    rw [heq]
    simp only [List.append_assoc]
  exact ⟨stream, hstream, List.append_cancel_right hseen⟩

theorem serveLoop_outcome : ∀ (fuel handled : Nat) (p : MessageProtocol) (frag data future : Bytes) (msgs : List Msg),
    HoldsFrag p frag → Encodes msgs (frag ++ data ++ future) → Unfinished msgs frag → data.length ≤ fuel →
    Outcome returns handled (frag ++ data) future msgs (serveLoop returns fuel handled p data) := by
  intro fuel
  induction fuel with
  | zero =>
    intro handled p frag data future msgs hp henc hu hf
    obtain rfl : data = [] := List.length_eq_zero_iff.1 (by omega)
    exact .through p [] msgs [] frag rfl returnsFrom_nil hp (encodes_nil.2 rfl) (by simp) (by simpa using henc) hu
  | succ fuel ih =>
    intro handled p frag data future msgs hp henc hu hf
    by_cases hdata : data = []
    · subst hdata
      exact .through p [] msgs [] frag rfl returnsFrom_nil hp (encodes_nil.2 rfl) (by simp) (by simpa using henc) hu
    match msgs, henc, hu with
    | [], henc, _ =>
      rw [encodes_nil] at henc
      simp [hdata] at henc
    | msg :: rest, henc, ⟨frame, hframe, _⟩ =>
      -- what the pass does with a handler that always returns
      obtain ⟨spec⟩ : Nonempty (PassSpec (fun _ => true) p data future (msg :: rest)) := by
        rcases hp with hp | ⟨n, got, rfl, hn, hp⟩
        · exact pass_in_length hp henc hframe hdata
        · exact pass_in_body (fun _ => rfl) hn hp henc hframe hdata
      obtain ⟨p₁, left, call, frag₁, msgs₁, hrun, hlt, hh, henc₁, hu₁, hdel⟩ := spec
      obtain ⟨stream, hstream, hseen⟩ := delivered_frame henc hdel henc₁
      rw [serveLoop.eq_3 _ _ _ _ _ hdata]
      by_cases hcall : ∀ m ∈ call, returns handled m = true
      · have hpass := pass_returns hrun hcall
        have hrest := ih (handled + call.toList.length) p₁ frag₁ left future msgs₁ hh henc₁ hu₁ (by omega)
        rw [hpass]
        simp only [Bool.false_eq_true, if_false]
        generalize serveLoop returns fuel (handled + call.toList.length) p₁ left = t at hrest
        rw [hdel]
        cases hrest with
        | «through» p' done msgs' stream' frag' hsplit hgood hholds hgone hseen' hleft hunf =>
          rw [Nat.add_assoc, ← List.length_append]
          exact .through p' (call.toList ++ done) msgs' (stream ++ stream') frag' (by rw [hsplit, List.append_assoc])
            (returnsFrom_append (returnsFrom_toList hcall) hgood) hholds (encodes_append.2 ⟨_, _, hstream, hgone, rfl⟩)
            (by rw [hseen, List.append_assoc, hseen', List.append_assoc]) hleft hunf
        | halted p' good rest' m stream' left' hsplit hgood hrefused hstuck hgone hseen' =>
          rw [Nat.add_assoc, ← List.length_append, ← List.append_assoc]
          exact .halted p' (call.toList ++ good) rest' m (stream ++ stream') left'
            (by rw [hsplit, List.append_assoc]) (returnsFrom_append (returnsFrom_toList hcall) hgood)
            (by rw [List.length_append, ← Nat.add_assoc]; exact hrefused) hstuck
            (by rw [List.append_assoc]; exact encodes_append.2 ⟨_, _, hstream, hgone, rfl⟩)
            (by rw [hseen, List.append_assoc, hseen', List.append_assoc])
      · obtain ⟨m, rfl, hm⟩ : ∃ m, call = some m ∧ returns handled m = false := by
          simpa using hcall
        obtain ⟨p'', hpass, hstuck⟩ := pass_raises hp hrun hm
        rw [hpass]
        exact .halted p'' [] msgs₁ m stream (frag₁ ++ left) hdel returnsFrom_nil hm hstuck hstream
          (by rw [hseen, List.append_assoc])

theorem chunksAfter_within {n : Nat} {chunk : Bytes} (h : n ≤ chunk.length) (chunks : List Bytes) :
    chunksAfter n (chunk :: chunks) = chunks := if_pos h

theorem chunksAfter_beyond {n : Nat} {chunk : Bytes} (h : chunk.length < n) (chunks : List Bytes) :
    chunksAfter n (chunk :: chunks) = chunksAfter (n - chunk.length) chunks := if_neg (by omega)

/-- The frame in progress is longer than what the protocol holds of it. -/
theorem unfinished_lt {msgs as : List Msg} {msg : Msg} {rest : List Msg} {frag stream : Bytes}
    (hu : Unfinished msgs frag) (hsplit : msgs = as ++ msg :: rest) (h : Encodes (as ++ [msg]) stream) :
    frag.length < stream.length := by
  cases as with
  | nil =>
    subst hsplit
    obtain ⟨frame, hframe, hlt⟩ := hu
    rw [encodes_unique h (encodes_singleton hframe)]
    exact hlt
  | cons a as =>
    subst hsplit
    obtain ⟨frame, hframe, hlt⟩ := hu
    obtain ⟨frame', stream', hframe', -, rfl⟩ := encodes_cons.1 h
    obtain rfl : frame' = frame := Option.some.inj (hframe'.symm.trans hframe)
    rw [List.length_append]
    omega

theorem serveChunks_outcome : ∀ (chunks : List Bytes) (handled : Nat) (p : MessageProtocol) (frag : Bytes)
    (msgs : List Msg), HoldsFrag p frag → Encodes msgs (frag ++ chunks.flatten) → Unfinished msgs frag →
    (ReturnsFrom returns handled msgs ∧ (serveChunks returns handled p chunks).calls = msgs) ∨
    ∃ good msg rest stream, msgs = good ++ msg :: rest ∧ ReturnsFrom returns handled good ∧
      returns (handled + good.length) msg = false ∧ Encodes (good ++ [msg]) stream ∧
      (serveChunks returns handled p chunks).calls = good ++ msg ::
        List.replicate ((chunksAfter (stream.length - frag.length) chunks).filter (· ≠ [])).length msg := by
  intro chunks
  induction chunks with
  | nil =>
    intro handled p frag msgs hp henc hu
    match msgs, henc, hu with
    | [], _, _ => exact .inl ⟨returnsFrom_nil, rfl⟩
    | msg :: rest, henc, ⟨frame, hframe, hlt⟩ =>
      -- the stream has ended, so it cannot end inside a frame
      obtain ⟨frame', _, hframe', -, heq⟩ := encodes_cons.1 henc
      obtain rfl : frame' = frame := Option.some.inj (hframe'.symm.trans hframe)
      have := congrArg List.length heq
      simp only [List.flatten_nil, List.append_nil, List.length_append] at this
      omega
  | cons chunk chunks ih =>
    intro handled p frag msgs hp henc hu
    have hloop := @serveLoop_outcome returns (chunk.length + 1) handled p frag chunk chunks.flatten msgs hp
      (by simpa [List.append_assoc] using henc) hu (by omega)
    rw [serveChunks]
    dsimp only
    generalize serveLoop returns (chunk.length + 1) handled p chunk = r at hloop
    cases hloop with
    | halted p' good rest msg stream left hsplit hgood hrefused hstuck hgone hseen =>
      have hin : stream.length - frag.length ≤ chunk.length := by
        have := congrArg List.length hseen
        rw [List.length_append, List.length_append] at this
        omega
      refine .inr ⟨good, msg, rest, stream, hsplit, hgood, hrefused, hgone, ?_⟩
      rw [chunksAfter_within hin, stuck_chunks hstuck hrefused, List.append_assoc]
      rfl
    | «through» p' done msgs' stream₁ frag' hsplit hgood hholds hgone hseen hleft hunf =>
      have hlen := congrArg List.length hseen
      rw [List.length_append, List.length_append] at hlen
      rcases ih (handled + done.length) p' frag' msgs' hholds hleft hunf with
        ⟨hall, hcalls⟩ | ⟨good, msg, rest, stream, hsplit', hgood', hrefused, hgone', hcalls⟩
      · exact .inl ⟨by rw [hsplit]; exact returnsFrom_append hgood hall, by rw [hcalls, hsplit]⟩
      · refine .inr ⟨done ++ good, msg, rest, stream₁ ++ stream, by rw [hsplit, hsplit', List.append_assoc],
          returnsFrom_append hgood hgood', by rw [List.length_append, ← Nat.add_assoc]; exact hrefused,
          by rw [List.append_assoc]; exact encodes_append.2 ⟨_, _, hgone, hgone', rfl⟩, ?_⟩
        have hlt := unfinished_lt hunf hsplit' hgone'
        have hbeyond : chunk.length < (stream₁ ++ stream).length - frag.length := by
          rw [List.length_append]
          omega
        have hsub : (stream₁ ++ stream).length - frag.length - chunk.length = stream.length - frag'.length := by
          rw [List.length_append]
          omega
        rw [hcalls, chunksAfter_beyond hbeyond, hsub, List.append_assoc]

/-- The first message that the handler raises on is one only. -/
theorem refused_unique {handled : Nat} {good good' rest rest' : List Msg} {msg msg' : Msg}
    (heq : good ++ msg :: rest = good' ++ msg' :: rest') (h : ReturnsFrom returns handled good)
    (h' : ReturnsFrom returns handled good') (hmsg : returns (handled + good.length) msg = false)
    (hmsg' : returns (handled + good'.length) msg' = false) : good = good' ∧ msg = msg' ∧ rest = rest' := by
  have hlen : good.length = good'.length := by
    rcases Nat.lt_trichotomy good.length good'.length with hlt | hlt | hlt
    · have hget : good'[good.length]? = some msg := by
        have := congrArg (·[good.length]?) heq
        simpa [List.getElem?_append_left hlt] using this.symm
      rw [h' _ _ hget] at hmsg
      cases hmsg
    · exact hlt
    · have hget : good[good'.length]? = some msg' := by
        have := congrArg (·[good'.length]?) heq
        simpa [List.getElem?_append_left hlt] using this
      rw [h _ _ hget] at hmsg'
      cases hmsg'
  obtain ⟨rfl, htail⟩ := List.append_inj heq hlen
  obtain ⟨rfl, rfl⟩ := List.cons.inj htail
  exact ⟨rfl, rfl, rfl⟩

/-- The first `n` frames are the encoding of the first `n` messages. -/
theorem encodes_take {msgs : List Msg} {frames : List Bytes} (h : msgs.mapM msgToBytes = some frames) (n : Nat) :
    Encodes (msgs.take n) (frames.take n).flatten := by
  induction msgs generalizing frames n with
  | nil =>
    cases h
    simp [encodes_nil]
  | cons msg msgs ih =>
    simp only [List.mapM_cons, Option.bind_eq_bind, Option.bind_eq_some_iff, Option.pure_def, Option.some.injEq] at h
    obtain ⟨frame, hframe, frames', hframes, rfl⟩ := h
    cases n with
    | zero => simp [encodes_nil]
    | succ n => exact encodes_cons.2 ⟨frame, _, hframe, ih hframes n, rfl⟩

end Loop

/-! ## Main theorem -/

/-- The messages of `msgs` are handled once each, in order, if and only if
those after the first one that the handler raises on happen to be as many copies
of it as there are later chunks with a byte in them: none, if it ends the stream. -/
theorem data_received_raising (msgs : List Msg) (frames chunks : List Bytes) (returns : Nat → Msg → Bool)
    (hmsgs : msgs.mapM msgToBytes = some frames) (hcut : chunks.flatten = frames.flatten) :
    (serveChunks returns 0 .new chunks).calls = msgs ↔
      ∀ good msg rest, msgs = good ++ msg :: rest → ReturnsFrom returns 0 good → returns good.length msg = false →
        rest = List.replicate
          ((chunksAfter (frames.take (good.length + 1)).flatten.length chunks).filter (· ≠ [])).length msg := by
  have henc : Encodes msgs ([] ++ chunks.flatten) := ⟨frames, hmsgs, hcut.symm⟩
  rcases @serveChunks_outcome returns chunks 0 .new [] msgs holdsFrag_new henc (unfinished_nil henc) with
    ⟨hall, hcalls⟩ | ⟨good, msg, rest, stream, rfl, hgood, hrefused, hgone, hcalls⟩
  · refine ⟨fun _ good msg rest hsplit _ hrefused => ?_, fun _ => hcalls⟩
    have := hall good.length msg (by simp [hsplit])
    rw [Nat.zero_add, hrefused] at this
    cases this
  · have hstream : (frames.take (good.length + 1)).flatten = stream := by
      have htake := encodes_take hmsgs (good.length + 1)
      rw [List.take_append, List.take_of_length_le (by omega), Nat.add_sub_cancel_left] at htake
      exact encodes_unique htake hgone
    rw [hcalls, List.length_nil, Nat.sub_zero]
    rw [Nat.zero_add] at hrefused
    constructor
    · intro h good' msg' rest' hsplit hgood' hrefused'
      obtain ⟨rfl, rfl, rfl⟩ := refused_unique hsplit hgood hgood' (by rwa [Nat.zero_add]) (by rwa [Nat.zero_add])
      rw [hstream]
      exact (List.cons.inj (List.append_cancel_left h)).2.symm
    · intro h
      rw [← hstream, ← h good msg rest rfl hgood hrefused]

/-- The handler raises on the second of two messages, which ends the stream. -/
theorem data_received_raising_last :
    (serveChunks (fun n _ => n ≠ 1) 0 .new [[0, 0, 0, 2, 0, 0, 0], [0, 0, 7, 0, 1, 0, 0, 0, 1, 65], []]).calls =
      [[], [[65]]] := by
  refine (data_received_raising [[], [[65]]] [[0, 0, 0, 2, 0, 0], [0, 0, 0, 7, 0, 1, 0, 0, 0, 1, 65]] _ _ (by decide)
    (by decide)).2 ?_
  intro good msg rest hsplit _ hrefused
  have hone : good.length = 1 := by simpa using hrefused
  obtain ⟨first, rfl⟩ := List.length_eq_one_iff.1 hone
  obtain ⟨-, -, rfl⟩ : _ ∧ _ ∧ rest = [] := by
    simpa [eq_comm] using hsplit
  rfl

/-- The first of two messages, each in a chunk of its own, is handled twice and
the second one never. -/
theorem data_received_raising_first :
    ¬ ∀ (msgs : List Msg) (frames chunks : List Bytes) (returns : Nat → Msg → Bool),
      msgs.mapM msgToBytes = some frames → chunks.flatten = frames.flatten →
        (serveChunks returns 0 .new chunks).calls = msgs := by
  intro h
  have hcalls := h [[], [[65]]] [[0, 0, 0, 2, 0, 0], [0, 0, 0, 7, 0, 1, 0, 0, 0, 1, 65]]
    [[0, 0, 0, 2, 0, 0], [0, 0, 0, 7, 0, 1, 0, 0, 0, 1, 65]] (fun n _ => n ≠ 0) (by decide) rfl
  have htwice : (serveChunks (fun n _ => n ≠ 0) 0 .new
      [[0, 0, 0, 2, 0, 0], [0, 0, 0, 7, 0, 1, 0, 0, 0, 1, 65]]).calls = [[], []] := by decide
  rw [htwice] at hcalls
  revert hcalls
  decide

end BuildPal.Message
