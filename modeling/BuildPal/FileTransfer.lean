import BuildPal.Common.Message
import Mathlib.Logic.Function.Basic
/-!
# Files on a connection

The files of `compile_session.py` and of the server's `runner.py`. The server sends
an object file compressed, the manager sends the zipped compiler and the compressed
PCH file. A file goes out in messages with a part of it each, and a message that
says that there is no more. Those of other sessions come in between, and the
transport cuts all of it wherever it likes. zlib is a parameter, and so is what
becomes of a zip that is unpacked.
-/
open BuildPal.Lib BuildPal.Message

namespace BuildPal.FileTransfer

/-! ## Reading a file -/

def blockSize : Nat := 256 * 1024

/-- `iter(lambda : file.read(256 * 1024), b'')`. -/
def readBlocks (data : Bytes) : List Bytes :=
  if data = [] then [] else data.take blockSize :: readBlocks (data.drop blockSize)
termination_by data.length
decreasing_by
  have hpos : 0 < data.length := List.length_pos_iff.2 ‹_›
  rw [List.length_drop, blockSize]
  omega

theorem flatten_readBlocks (data : Bytes) : (readBlocks data).flatten = data := by
  induction data using readBlocks.induct with
  | case1 =>
    rw [readBlocks, if_pos rfl]
    rfl
  | case2 data hdata ih => rw [readBlocks, if_neg hdata, List.flatten_cons, ih, List.take_append_drop]

/-! ## zlib -/

/-- The objects of zlib and what their methods do. -/
structure ZlibObjects where
  Compressor : Type
  Decompressor : Type
  compressobj : Compressor
  compress : Compressor → Bytes → Compressor × Bytes
  /-- `flush(zlib.Z_FULL_FLUSH)`. -/
  fullFlush : Compressor → Compressor × Bytes
  /-- `flush()`, and `flush(zlib.Z_FINISH)`. -/
  finish : Compressor → Bytes
  decompressobj : Decompressor
  /-- `none` is `zlib.error`. -/
  decompress : Decompressor → Bytes → Option (Decompressor × Bytes)
  flush : Decompressor → Bytes

/-- What is done with a compressor before it finishes. -/
inductive Call where
  | compress (data : Bytes)
  | fullFlush

/-- What was to be compressed. -/
def input : List Call → Bytes
  | [] => []
  | .compress data :: calls => data ++ input calls
  | .fullFlush :: calls => input calls

namespace ZlibObjects

variable (z : ZlibObjects)

/-- What the compressor returns for the calls, and as it finishes. -/
def output : z.Compressor → List Call → Bytes
  | c, [] => z.finish c
  | c, .compress data :: calls => (z.compress c data).2 ++ output (z.compress c data).1 calls
  | c, .fullFlush :: calls => (z.fullFlush c).2 ++ output (z.fullFlush c).1 calls

/-- What the decompressor returns for the pieces of a stream, and as it is flushed. -/
def decompressed : z.Decompressor → List Bytes → Option Bytes
  | d, [] => some (z.flush d)
  | d, piece :: pieces => do
    let (d, data) ← z.decompress d piece
    let rest ← decompressed d pieces
    return data ++ rest

end ZlibObjects

/-- Whatever pieces a compressed stream comes in, it decompresses to what was compressed. -/
structure Zlib extends ZlibObjects where
  inverse : ∀ calls pieces, pieces.flatten = toZlibObjects.output compressobj calls →
    toZlibObjects.decompressed decompressobj pieces = some (input calls)

/-! ## Sending a file -/

section Send
variable (z : Zlib)

/-- The loop of `compress_file`, and the block after it. -/
def compressBlocks : z.Compressor → List Bytes → List Bytes
  | c, [] => [z.finish c]
  | c, data :: blocks =>
    let (c, compressed) := z.compress c data
    if compressed = [] then
      let (c, flushed) := z.fullFlush c
      flushed :: compressBlocks c blocks
    else compressed :: compressBlocks c blocks

/-- `compress_file`. -/
def compressFile (content : Bytes) : List Bytes := compressBlocks z z.compressobj (readBlocks content)

/-- The messages for these parts of a file. -/
def partMsgs (blocks : List Bytes) : List Msg := blocks.map (fun data => [[1], data]) ++ [[[0], []]]

/-- `send_file`. -/
def sendFile (content : Bytes) : List Msg := partMsgs (readBlocks content)

/-- `send_compressed_file`, and `send_result` of the server's session for one file. -/
def sendCompressedFile (content : Bytes) : List Msg := partMsgs (compressFile z content)

/-- The calls of the loop in `__do_compress` of the manager's compressor. -/
def doCompressLoop (c : z.Compressor) (blocks : List Bytes) : Bytes := z.output c (blocks.map .compress)

/-- `__do_compress`. -/
def doCompress (content : Bytes) : Bytes := doCompressLoop z z.compressobj (readBlocks content)

theorem compressBlocks_output (blocks : List Bytes) : ∀ c : z.Compressor, ∃ calls,
    (compressBlocks z c blocks).flatten = z.output c calls ∧ input calls = blocks.flatten := by
  induction blocks with
  | nil => exact fun c => ⟨[], by simp [compressBlocks, ZlibObjects.output], rfl⟩
  | cons data blocks ih =>
    intro c
    rw [compressBlocks]
    simp only
    by_cases hnone : (z.compress c data).2 = []
    · obtain ⟨calls, hcalls, hinput⟩ := ih (z.fullFlush (z.compress c data).1).1
      refine ⟨.compress data :: .fullFlush :: calls, ?_, ?_⟩
      · rw [if_pos hnone, List.flatten_cons, hcalls, ZlibObjects.output, hnone, List.nil_append, ZlibObjects.output]
      · rw [input, input, hinput, List.flatten_cons]
    · obtain ⟨calls, hcalls, hinput⟩ := ih (z.compress c data).1
      refine ⟨.compress data :: calls, ?_, ?_⟩
      · rw [if_neg hnone, List.flatten_cons, hcalls, ZlibObjects.output]
      · rw [input, hinput, List.flatten_cons]

theorem input_compress (blocks : List Bytes) : input (blocks.map .compress) = blocks.flatten := by
  induction blocks with
  | nil => rfl
  | cons data blocks ih => rw [List.map_cons, input, ih, List.flatten_cons]

/-- A compressed file can be decompressed in any pieces. -/
theorem decompressed_compressFile (content : Bytes) {pieces : List Bytes}
    (hpieces : pieces.flatten = (compressFile z content).flatten) :
    z.decompressed z.decompressobj pieces = some content := by
  obtain ⟨calls, hcalls, hinput⟩ := compressBlocks_output z (readBlocks content) z.compressobj
  rw [z.inverse calls pieces (hpieces.trans hcalls), hinput, flatten_readBlocks]

theorem decompressed_doCompress (content : Bytes) {pieces : List Bytes}
    (hpieces : pieces.flatten = doCompress z content) : z.decompressed z.decompressobj pieces = some content := by
  rw [z.inverse _ pieces hpieces, input_compress, flatten_readBlocks]

end Send

/-! ## The manager receives object files -/

section Manager
variable (z : Zlib)

/-- What a `ServerSession` keeps of its files in `STATE_RECEIVE_OBJECT_FILE`. -/
structure ServerSession where
  /-- How many files the task has. -/
  resultFiles : Nat
  objDesc : Bytes := []
  /-- What was written to each of the first files, where decompressing did not raise. -/
  resultFutures : List (Option Bytes) := []
  deriving DecidableEq

/-- `_decompress_to_disk`. -/
def decompressToDisk (data : Bytes) : Option Bytes := z.decompressed z.decompressobj (readBlocks data)

/-- `got_data_from_server`. A message that is not of two parts raises, and so does the end of a file that the task does
not have. -/
def gotDataFromServer (s : ServerSession) : Msg → ServerSession
  | [more, data] =>
    let s := { s with objDesc := s.objDesc ++ data }
    if more = [0] ∧ s.resultFutures.length < s.resultFiles then
      let resultFutures := s.resultFutures ++ [decompressToDisk z s.objDesc]
      if resultFutures.length = s.resultFiles then { s with resultFutures }
      else { s with resultFutures, objDesc := [] }
    else s
  | _ => s

end Manager

/-! ## The server receives a compiler and a PCH file -/

/-- A `BytesIO`. -/
structure BytesIO where
  content : Bytes := []
  position : Nat := 0
  deriving DecidableEq

/-- `write`, at the position and over what is there. -/
def BytesIO.write (file : BytesIO) (data : Bytes) : BytesIO :=
  if data = [] then file
  else
    { content := file.content.take file.position ++ List.replicate (file.position - file.content.length) 0 ++ data ++
        file.content.drop (file.position + data.length)
      position := file.position + data.length }

/-- What opening and unpacking a zip comes to, and telling those who wait for the compiler. -/
inductive Unpacking where
  | done
  /-- It raises, and leaves the buffer at this position. -/
  | failed (position : Nat)
  /-- `set_compiler_ready` raises, or a session that it calls. -/
  | handlerFailed
  deriving DecidableEq

section Server
variable (z : Zlib) (unpack : Bytes → Unpacking)

/-- The state of a `CompileSession`, up to when it runs the compiler. -/
inductive Download where
  /-- `session.compiler_data`, until it is deleted. -/
  | downloadingCompiler (compilerData : Option BytesIO)
  | downloadingPch (pchDesc : Bytes) (pchDecompressor : z.Decompressor)
  | runningCompiler
  | cancelled

structure CompileSession where
  pchRequired : Bool
  state : Download z
  /-- The zip that was unpacked to the compiler's directory. -/
  compilerZip : Option Bytes := none
  /-- What `buffer_to_file` was given to write to the PCH file. -/
  pchBuffer : Option Bytes := none
  cancelPending : Bool := false

/-- The state after the compiler, or without one. -/
def Download.afterCompiler (pchRequired : Bool) : Download z :=
  if pchRequired then .downloadingPch [] z.decompressobj else .runningCompiler

/-- `b'CANCEL_SESSION'`. -/
def cancelSession : Bytes := "CANCEL_SESSION".toList.map fun c => UInt8.ofNat c.toNat

/-- `process_msg` of the state of a session. A message that is not of two parts, one that cannot be decompressed, and
one that comes when there is nothing to write it to raises. -/
def stateProcessMsg (s : CompileSession z) : Msg → CompileSession z
  | [more, data] =>
    match s.state with
    | .downloadingCompiler (some compilerData) =>
      let compilerData := compilerData.write data
      if more = [0] then
        match unpack compilerData.content with
        | .done => { s with compilerZip := some compilerData.content, state := .afterCompiler z s.pchRequired }
        | .failed position => { s with state := .downloadingCompiler (some { compilerData with position }) }
        | .handlerFailed => { s with compilerZip := some compilerData.content, state := .downloadingCompiler none }
      else { s with state := .downloadingCompiler (some compilerData) }
    | .downloadingPch pchDesc decompressor =>
      match z.decompress decompressor data with
      | none => s
      | some (decompressor, data) =>
        if more = [0] then
          -- the state changes in `pch_completed`, when the file has been written
          let pchDesc := pchDesc ++ data ++ z.flush decompressor
          { s with pchBuffer := some pchDesc, state := .downloadingPch pchDesc decompressor }
        else { s with state := .downloadingPch (pchDesc ++ data) decompressor }
    | .downloadingCompiler none | .runningCompiler | .cancelled => s
  | _ => s

/-- `process_msg` of a session. While it downloads it cannot be cancelled. -/
def processMsg (s : CompileSession z) (msg : Msg) : CompileSession z :=
  match s.state with
  | .cancelled => s
  | .runningCompiler =>
    if msg.head? = some cancelSession ∨ s.cancelPending then { s with state := .cancelled }
    else stateProcessMsg z unpack s msg
  | _ =>
    if msg.head? = some cancelSession then { s with cancelPending := true } else stateProcessMsg z unpack s msg

end Server

/-! ## Sessions behind a connection -/

section Connection
variable {σ : Type} (process : σ → Msg → σ)

/-- `process_msg` of a connection: the first part of a message names a session. -/
def dispatch (sessions : Bytes → Option σ) : Msg → Bytes → Option σ
  | [] => sessions
  | sessionId :: msg => Function.update sessions sessionId ((sessions sessionId).map (process · msg))

/-- The messages for a session. -/
def ofSession (sessionId : Bytes) (msgs : List Msg) : List Msg :=
  (msgs.filter fun msg => msg.head? = some sessionId).map List.tail

/-- A session sees its own messages, in order, and no others. -/
theorem foldl_dispatch (sessionId : Bytes) (msgs : List Msg) : ∀ sessions : Bytes → Option σ,
    msgs.foldl (dispatch process) sessions sessionId =
      (sessions sessionId).map ((ofSession sessionId msgs).foldl process) := by
  induction msgs with
  | nil =>
    intro sessions
    cases h : sessions sessionId <;> simp [ofSession, h]
  | cons msg msgs ih =>
    intro sessions
    rw [List.foldl_cons, ih]
    cases msg with
    | nil => simp [dispatch, ofSession]
    | cons id msg =>
      by_cases hid : id = sessionId
      · subst hid
        rw [dispatch, Function.update_self, Option.map_map]
        simp [ofSession, Function.comp_def]
      · rw [dispatch, Function.update_of_ne (Ne.symm hid)]
        simp [ofSession, hid]

theorem ofSession_append (sessionId : Bytes) (msgs msgs' : List Msg) :
    ofSession sessionId (msgs ++ msgs') = ofSession sessionId msgs ++ ofSession sessionId msgs' := by
  rw [ofSession, List.filter_append, List.map_append, ofSession, ofSession]

end Connection

/-! ## Object files -/

section ObjectFiles
variable {z : Zlib} {s : ServerSession}

theorem got_parts (blocks : List Bytes) : ∀ s : ServerSession,
    (blocks.map fun data => [[1], data]).foldl (gotDataFromServer z) s =
      { s with objDesc := s.objDesc ++ blocks.flatten } := by
  induction blocks with
  | nil =>
    intro s
    simp
  | cons data blocks ih =>
    intro s
    have hfirst : gotDataFromServer z s [[1], data] = { s with objDesc := s.objDesc ++ data } := by
      simp [gotDataFromServer]
    rw [List.map_cons, List.foldl_cons, hfirst, ih, List.flatten_cons, List.append_assoc]

/-- It has a new buffer, unless it has all files. -/
def ServerSession.Ready (s : ServerSession) : Prop := s.resultFutures.length < s.resultFiles → s.objDesc = []

theorem got_file (hready : s.Ready) (hmore : s.resultFutures.length < s.resultFiles) (content : Bytes) :
    ∃ s', (sendCompressedFile z content).foldl (gotDataFromServer z) s = s' ∧ s'.Ready ∧
      s'.resultFiles = s.resultFiles ∧ s'.resultFutures = s.resultFutures ++ [some content] := by
  refine ⟨_, rfl, ?_⟩
  have hdata : decompressToDisk z (compressFile z content).flatten = some content :=
    decompressed_compressFile z content (flatten_readBlocks _)
  rw [sendCompressedFile, partMsgs, List.foldl_append, got_parts, hready hmore, List.nil_append, List.foldl_cons,
    List.foldl_nil]
  simp only [gotDataFromServer, List.append_nil, hmore, and_self, if_true, hdata]
  split
  · next hall =>
    refine ⟨fun hlt => ?_, rfl, rfl⟩
    rw [hall] at hlt
    exact absurd hlt (Nat.lt_irrefl _)
  · exact ⟨fun _ => rfl, rfl, rfl⟩

theorem got_files (contents : List Bytes) : ∀ s : ServerSession, s.Ready →
    s.resultFutures.length + contents.length ≤ s.resultFiles →
    ((contents.flatMap (sendCompressedFile z)).foldl (gotDataFromServer z) s).resultFutures =
      s.resultFutures ++ contents.map some := by
  induction contents with
  | nil =>
    intro s _ _
    simp
  | cons content contents ih =>
    intro s hready hmore
    rw [List.length_cons] at hmore
    obtain ⟨s', hs', hready', hfiles, hfutures⟩ := got_file hready (by omega) content
    rw [List.flatMap_cons, List.foldl_append, hs', ih s' hready', hfutures, List.map_cons, List.append_assoc]
    · rfl
    · rw [hfutures, hfiles, List.length_append, List.length_singleton]
      omega

theorem got_grows (s : ServerSession) (msg : Msg) :
    s.resultFutures <+: (gotDataFromServer z s msg).resultFutures := by
  unfold gotDataFromServer
  split
  · simp only
    split
    · split <;> exact List.prefix_append _ _
    · exact List.prefix_refl _
  · exact List.prefix_refl _

theorem foldl_got_grows (msgs : List Msg) : ∀ s : ServerSession,
    s.resultFutures <+: (msgs.foldl (gotDataFromServer z) s).resultFutures := by
  induction msgs with
  | nil => exact fun s => List.prefix_refl _
  | cons msg msgs ih => exact fun s => (got_grows s msg).trans (ih _)

end ObjectFiles

/-! ## Compilers and PCH files -/

section Downloads
variable {z : Zlib} (unpack : Bytes → Unpacking) {s : CompileSession z}

/-- Written to its end. -/
def BytesIO.written (content : Bytes) : BytesIO := ⟨content, content.length⟩

theorem BytesIO.write_written (content data : Bytes) : (written content).write data = written (content ++ data) := by
  unfold BytesIO.write BytesIO.written
  split
  · next hdata => simp [hdata]
  · simp

/-- The parts of a file but the last set nothing going. -/
theorem parts_only (blocks : List Bytes) : ∀ s : CompileSession z,
    let s' := (blocks.map fun data => [[1], data]).foldl (stateProcessMsg z unpack) s
    s'.compilerZip = s.compilerZip ∧ s'.pchBuffer = s.pchBuffer ∧
      (s'.state = .runningCompiler → s.state = .runningCompiler) := by
  induction blocks with
  | nil => exact fun s => ⟨rfl, rfl, id⟩
  | cons data blocks ih =>
    intro s
    have hfirst : (stateProcessMsg z unpack s [[1], data]).compilerZip = s.compilerZip ∧
        (stateProcessMsg z unpack s [[1], data]).pchBuffer = s.pchBuffer ∧
        ((stateProcessMsg z unpack s [[1], data]).state = .runningCompiler → s.state = .runningCompiler) := by
      unfold stateProcessMsg
      simp only [show ([1] : Bytes) ≠ [0] by decide, if_false]
      split
      · exact ⟨rfl, rfl, nofun⟩
      · split
        · exact ⟨rfl, rfl, id⟩
        · exact ⟨rfl, rfl, nofun⟩
      · exact ⟨rfl, rfl, id⟩
      · exact ⟨rfl, rfl, id⟩
      · exact ⟨rfl, rfl, id⟩
    obtain ⟨hzip, hpch, hrunning⟩ := ih (stateProcessMsg z unpack s [[1], data])
    exact ⟨hzip.trans hfirst.1, hpch.trans hfirst.2.1, fun h => hfirst.2.2 (hrunning h)⟩

theorem compiler_parts (blocks : List Bytes) : ∀ {s : CompileSession z} {compilerData : Bytes},
    s.state = .downloadingCompiler (some (.written compilerData)) →
    (blocks.map fun data => [[1], data]).foldl (stateProcessMsg z unpack) s =
      { s with state := .downloadingCompiler (some (.written (compilerData ++ blocks.flatten))) } := by
  induction blocks with
  | nil =>
    intro s compilerData hstate
    simp [← hstate]
  | cons data blocks ih =>
    intro s compilerData hstate
    have hfirst : stateProcessMsg z unpack s [[1], data] =
        { s with state := .downloadingCompiler (some (.written (compilerData ++ data))) } := by
      simp [stateProcessMsg, hstate, BytesIO.write_written]
    rw [List.map_cons, List.foldl_cons, hfirst, ih rfl, List.flatten_cons, List.append_assoc]

theorem compiler_file (hstate : s.state = .downloadingCompiler (some {})) {compilerZip : Bytes}
    (hunpack : unpack compilerZip = .done) : (sendFile compilerZip).foldl (stateProcessMsg z unpack) s =
      { s with compilerZip := some compilerZip, state := .afterCompiler z s.pchRequired } := by
  have hparts := compiler_parts unpack (readBlocks compilerZip) hstate
  rw [List.nil_append, flatten_readBlocks] at hparts
  rw [sendFile, partMsgs, List.foldl_append, hparts]
  simp [stateProcessMsg, BytesIO.write, BytesIO.written, hunpack]

/-- The parts of a stream that can be decompressed. -/
theorem pch_parts (blocks : List Bytes) {last : Bytes} : ∀ {s : CompileSession z} {pchDesc content : Bytes}
    {d : z.Decompressor}, s.state = .downloadingPch pchDesc d → z.decompressed d (blocks ++ [last]) = some content →
    ∃ data d' data' d'', (blocks.map fun data => [[1], data]).foldl (stateProcessMsg z unpack) s =
      { s with state := .downloadingPch (pchDesc ++ data) d' } ∧
        z.decompress d' last = some (d'', data') ∧ content = data ++ (data' ++ z.flush d'') := by
  induction blocks with
  | nil =>
    intro s pchDesc content d hstate hcontent
    rw [List.nil_append, ZlibObjects.decompressed, Option.bind_eq_bind, Option.bind_eq_some_iff] at hcontent
    obtain ⟨⟨d'', data'⟩, hlast, hcontent⟩ := hcontent
    refine ⟨[], d, data', d'', ?_, hlast, ?_⟩
    · simp [← hstate]
    · exact (Option.some.inj hcontent).symm
  | cons block blocks ih =>
    intro s pchDesc content d hstate hcontent
    rw [List.cons_append, ZlibObjects.decompressed, Option.bind_eq_bind, Option.bind_eq_some_iff] at hcontent
    obtain ⟨⟨d₁, data₁⟩, hblock, hcontent⟩ := hcontent
    rw [Option.bind_eq_bind, Option.bind_eq_some_iff] at hcontent
    obtain ⟨rest, hrest, hcontent⟩ := hcontent
    have hfirst : stateProcessMsg z unpack s [[1], block] =
      { s with state := .downloadingPch (pchDesc ++ data₁) d₁ } := by
      simp [stateProcessMsg, hstate, hblock]
    obtain ⟨data, d', data', d'', hfold, hlast, hdata⟩ :=
      @ih { s with state := .downloadingPch (pchDesc ++ data₁) d₁ } _ _ _ rfl hrest
    refine ⟨data₁ ++ data, d', data', d'', ?_, hlast, ?_⟩
    · rw [List.map_cons, List.foldl_cons, hfirst, hfold, List.append_assoc]
    · rw [← Option.some.inj hcontent, hdata, List.append_assoc]

theorem pch_file (hstate : s.state = .downloadingPch [] z.decompressobj) (content : Bytes) :
    ∃ d, (sendFile (doCompress z content)).foldl (stateProcessMsg z unpack) s =
      { s with pchBuffer := some content, state := .downloadingPch content d } := by
  have hstream : z.decompressed z.decompressobj (readBlocks (doCompress z content) ++ [[]]) = some content := by
    apply decompressed_doCompress
    rw [List.flatten_append, flatten_readBlocks]
    simp
  obtain ⟨data, d', data', d'', hfold, hlast, hcontent⟩ := pch_parts unpack _ hstate hstream
  refine ⟨d'', ?_⟩
  rw [sendFile, partMsgs, List.foldl_append, hfold, hcontent]
  simp [stateProcessMsg, hlast]

/-- What a session of the manager sends, where it sends these. -/
def sendFiles (z : Zlib) (compilerZip pchFile : Option Bytes) : List Msg :=
  compilerZip.elim [] sendFile ++ pchFile.elim [] fun content => sendFile (doCompress z content)

/-- A session that needs these. -/
structure Needs (compilerZip pchFile : Option Bytes) (s : CompileSession z) : Prop where
  state : s.state = compilerZip.elim (.afterCompiler z pchFile.isSome) fun _ => .downloadingCompiler (some {})
  pchRequired : s.pchRequired = pchFile.isSome
  nothing : s.compilerZip = none ∧ s.pchBuffer = none

/-- A session takes nothing for its files but them, and runs the compiler by itself only if there is no PCH file. -/
structure Takes (compilerZip pchFile : Option Bytes) (s : CompileSession z) : Prop where
  compiler : s.compilerZip = none ∨ s.compilerZip = compilerZip
  pch : s.pchBuffer = none ∨ s.pchBuffer = pchFile
  running : s.state = .runningCompiler → s.compilerZip = compilerZip ∧ pchFile = none

/-- It has both, and runs the compiler if there is no PCH file to be written. -/
structure HasTaken (compilerZip pchFile : Option Bytes) (s : CompileSession z) : Prop where
  compiler : s.compilerZip = compilerZip
  pch : s.pchBuffer = pchFile
  running : pchFile = none → s.state = .runningCompiler

theorem HasTaken.takes {compilerZip pchFile : Option Bytes} (h : HasTaken compilerZip pchFile s)
    (hpch : pchFile ≠ none → s.state ≠ .runningCompiler) : Takes compilerZip pchFile s :=
  ⟨.inr h.compiler, .inr h.pch, fun hrunning => ⟨h.compiler, by_contra fun hne => hpch hne hrunning⟩⟩

/-- Part of the messages of a file are all of them, or none is the last. -/
theorem prefix_partMsgs {msgs : List Msg} {blocks : List Bytes} (h : msgs <+: partMsgs blocks) :
    msgs = partMsgs blocks ∨ ∃ blocks' : List Bytes, msgs = blocks'.map fun data => [[1], data] := by
  rcases List.prefix_concat_iff.1 h with hall | hparts
  · exact .inl hall
  · rw [List.prefix_iff_eq_take, ← List.map_take] at hparts
    exact .inr ⟨_, hparts⟩

/-- The PCH file, where the compiler is there. -/
theorem pch_prefix {compilerZip pchFile : Option Bytes} (hstate : s.state = .afterCompiler z pchFile.isSome)
    (hzip : s.compilerZip = compilerZip) (hpch : s.pchBuffer = none) {msgs : List Msg}
    (hmsgs : msgs <+: pchFile.elim [] fun content => sendFile (doCompress z content)) :
    Takes compilerZip pchFile (msgs.foldl (stateProcessMsg z unpack) s) ∧
      ((msgs = pchFile.elim [] fun content => sendFile (doCompress z content)) →
        HasTaken compilerZip pchFile (msgs.foldl (stateProcessMsg z unpack) s)) := by
  cases pchFile with
  | none =>
    obtain rfl : msgs = [] := List.prefix_nil.1 hmsgs
    have hall : HasTaken compilerZip none s := ⟨hzip, hpch, fun _ => hstate⟩
    exact ⟨hall.takes (absurd rfl), fun _ => hall⟩
  | some content =>
    by_cases hwhole : msgs = sendFile (doCompress z content)
    · obtain ⟨d, hfile⟩ := pch_file unpack hstate content
      rw [hwhole, hfile]
      have hall : HasTaken compilerZip (some content)
          ({ s with pchBuffer := some content, state := .downloadingPch content d } : CompileSession z) :=
        ⟨hzip, rfl, nofun⟩
      exact ⟨hall.takes fun _ => nofun, fun _ => hall⟩
    · obtain hall | ⟨blocks, rfl⟩ := prefix_partMsgs hmsgs
      · exact absurd hall hwhole
      · obtain ⟨hzip', hpch', hrunning⟩ := parts_only unpack blocks s
        refine ⟨⟨.inr (hzip'.trans hzip), .inl (hpch'.trans hpch), fun h => ?_⟩, fun hall => absurd hall hwhole⟩
        have hrun := hrunning h
        rw [hstate] at hrun
        cases hrun

/-- Whatever part of its files a session has got. -/
theorem downloads {compilerZip pchFile : Option Bytes} (h : Needs compilerZip pchFile s)
    (hunpack : ∀ zip ∈ compilerZip, unpack zip = .done) {msgs : List Msg}
    (hmsgs : msgs <+: sendFiles z compilerZip pchFile) :
    Takes compilerZip pchFile (msgs.foldl (stateProcessMsg z unpack) s) ∧
      (msgs = sendFiles z compilerZip pchFile →
        HasTaken compilerZip pchFile (msgs.foldl (stateProcessMsg z unpack) s)) := by
  obtain ⟨hzip, hpch⟩ := h.nothing
  cases compilerZip with
  | none => exact pch_prefix unpack h.state hzip hpch hmsgs
  | some zip =>
    have hcompiler := compiler_file unpack h.state (hunpack zip rfl)
    have hafter := congrArg (Download.afterCompiler z) h.pchRequired
    rcases List.prefix_or_prefix_of_prefix hmsgs (List.prefix_append (sendFile zip) _) with hfirst | ⟨rest, rfl⟩
    · by_cases hwhole : msgs = sendFile zip
      · have hpchMsgs := pch_prefix unpack
          (s := { s with compilerZip := some zip, state := .afterCompiler z s.pchRequired })
          hafter rfl hpch List.nil_prefix
        rw [hwhole, hcompiler]
        refine ⟨hpchMsgs.1, fun hall => hpchMsgs.2 ?_⟩
        exact (List.append_right_eq_self.1 hall.symm).symm
      · obtain hall | ⟨blocks, rfl⟩ := prefix_partMsgs hfirst
        · exact absurd hall hwhole
        · obtain ⟨hzip', hpch', hrunning⟩ := parts_only unpack blocks s
          refine ⟨⟨.inl (hzip'.trans hzip), .inl (hpch'.trans hpch), fun hrun => ?_⟩, fun hall => ?_⟩
          · have hrun' := hrunning hrun
            rw [h.state] at hrun'
            cases hrun'
          · -- the last message of the compiler is not among them
            rw [hall] at hfirst
            exact absurd (List.IsPrefix.eq_of_length hfirst
              (le_antisymm hfirst.length_le (List.prefix_append _ _).length_le)) (hall ▸ hwhole)
    · rw [List.foldl_append, hcompiler]
      have hrest : rest <+: pchFile.elim [] fun content => sendFile (doCompress z content) :=
        (List.prefix_append_right_inj _).1 hmsgs
      have hpchMsgs := pch_prefix unpack
        (s := { s with compilerZip := some zip, state := .afterCompiler z s.pchRequired })
        hafter rfl hpch hrest
      exact ⟨hpchMsgs.1, fun hall => hpchMsgs.2 (List.append_cancel_left hall)⟩

/-! ### Cancelling -/

/-- As if it had not been cancelled. -/
def CompileSession.resumed (s : CompileSession z) : CompileSession z :=
  { s with
    state := match s.state with
      | .cancelled => .runningCompiler
      | state => state
    cancelPending := false }

theorem stateProcessMsg_resumed (s : CompileSession z) (msg : Msg) :
    (stateProcessMsg z unpack s msg).resumed = stateProcessMsg z unpack s.resumed msg := by
  obtain ⟨pchRequired, state, zip, pch, pending⟩ := s
  have hafter : ∀ pchRequired : Bool, (match Download.afterCompiler z pchRequired with
      | .cancelled => .runningCompiler
      | state => state) = Download.afterCompiler z pchRequired := by
    intro pchRequired
    cases pchRequired <;> rfl
  unfold stateProcessMsg CompileSession.resumed
  split
  · cases state with
    | downloadingCompiler compilerData =>
      cases compilerData with
      | none => rfl
      | some compilerData =>
        simp only
        split
        · split
          · simp only [hafter]
          · rfl
          · rfl
        · rfl
    | downloadingPch pchDesc d =>
      simp only
      split
      · rfl
      · split <;> rfl
    | runningCompiler | cancelled => rfl
  · rfl

theorem processMsg_resumed (s : CompileSession z) (msg : Msg) :
    (processMsg z unpack s msg).resumed =
      if msg.head? = some cancelSession then s.resumed else stateProcessMsg z unpack s.resumed msg := by
  have hrunning : ∀ s : CompileSession z, s.state = .runningCompiler → stateProcessMsg z unpack s msg = s := by
    intro s hstate
    unfold stateProcessMsg
    split
    · simp only [hstate]
    · rfl
  unfold processMsg
  split
  · next hstate =>
    split
    · rfl
    · exact (hrunning s.resumed (by simp [CompileSession.resumed, hstate])).symm
  · next hstate =>
    have hresumed : s.resumed.state = .runningCompiler := by simp [CompileSession.resumed, hstate]
    have hcancelled : ({ s with state := .cancelled } : CompileSession z).resumed = s.resumed := by
      simp [CompileSession.resumed, hstate]
    rw [hrunning _ hresumed, hrunning s hstate, ite_self]
    split
    · exact hcancelled
    · rfl
  · split
    · rfl
    · exact stateProcessMsg_resumed unpack s msg

/-- The messages that do not cancel. -/
def uncancelled (msgs : List Msg) : List Msg := msgs.filter fun msg => msg.head? ≠ some cancelSession

theorem foldl_processMsg (msgs : List Msg) : ∀ s : CompileSession z,
    (msgs.foldl (processMsg z unpack) s).resumed = (uncancelled msgs).foldl (stateProcessMsg z unpack) s.resumed := by
  induction msgs with
  | nil => exact fun _ => rfl
  | cons msg msgs ih =>
    intro s
    rw [List.foldl_cons, ih, processMsg_resumed]
    by_cases hcancel : msg.head? = some cancelSession
    · have hskip : uncancelled (msg :: msgs) = uncancelled msgs := List.filter_cons_of_neg (by simpa using hcancel)
      rw [if_pos hcancel, hskip]
    · have hkeep : uncancelled (msg :: msgs) = msg :: uncancelled msgs :=
        List.filter_cons_of_pos (by simpa using hcancel)
      rw [if_neg hcancel, hkeep, List.foldl_cons]

end Downloads

/-! ## Main results -/

section Arrive
variable {z : Zlib} {returns : Msg → Bool} (hret : ∀ msg, returns msg = true)

include hret in
/-- The messages of a session that have arrived are the first that were sent. -/
theorem arrived_dispatch {σ : Type} (process : σ → Msg → σ) {p : MessageProtocol} {frag future : Bytes}
    {chunks : List Bytes} {msgs : List Msg} (hp : HoldsFrag p frag)
    (henc : Encodes msgs (frag ++ chunks.flatten ++ future)) (hunfinished : Unfinished msgs frag)
    (sessions : Bytes → Option σ) (sessionId : Bytes) :
    ∃ own, own <+: ofSession sessionId msgs ∧ (future = [] → own = ofSession sessionId msgs) ∧
      (receiveChunks returns p chunks).calls.foldl (dispatch process) sessions sessionId =
        (sessions sessionId).map (own.foldl process) := by
  obtain ⟨p', done, rest, frag', hrun, hmsgs, -, henc', hunfinished'⟩ :=
    receiveChunks_spec hret chunks p frag future msgs hp henc hunfinished
  refine ⟨ofSession sessionId done, ?_, ?_, ?_⟩
  · rw [hmsgs, ofSession_append]
    exact List.prefix_append _ _
  · intro hfuture
    rw [hfuture, List.append_nil] at henc'
    cases rest with
    | nil => rw [hmsgs, List.append_nil]
    | cons msg rest =>
      obtain ⟨frame, hframe, hlt⟩ := hunfinished'
      obtain ⟨frame', more, hframe', -, heq⟩ := encodes_cons.1 henc'
      obtain rfl : frame' = frame := Option.some.inj (hframe'.symm.trans hframe)
      rw [heq, List.length_append] at hlt
      omega
  · rw [hrun]
    exact foldl_dispatch process sessionId done sessions

include hret in
/-- **Object files arrive.** However the messages of the sessions are mixed on the connection and cut by the transport,
the files that a session of the manager has written are the first that the server's session has sent, each whole; and
when everything has arrived, they are all there. -/
theorem object_files_arrive {p : MessageProtocol} {frag future : Bytes} {chunks : List Bytes} {msgs : List Msg}
    (hp : HoldsFrag p frag) (henc : Encodes msgs (frag ++ chunks.flatten ++ future))
    (hunfinished : Unfinished msgs frag) {sessions : Bytes → Option ServerSession} {sessionId : Bytes}
    {contents : List Bytes} (hsession : sessions sessionId = some { resultFiles := contents.length })
    (hsent : ofSession sessionId msgs = contents.flatMap (sendCompressedFile z)) :
    ∃ s, (receiveChunks returns p chunks).calls.foldl (dispatch (gotDataFromServer z)) sessions sessionId = some s ∧
      s.resultFutures <+: contents.map some ∧ (future = [] → s.resultFutures = contents.map some) := by
  obtain ⟨own, ⟨rest, hrest⟩, hall, hdispatch⟩ :=
    arrived_dispatch hret (gotDataFromServer z) hp henc hunfinished sessions sessionId
  rw [hsession, Option.map_some] at hdispatch
  have hfiles := got_files (z := z) contents { resultFiles := contents.length } (fun _ => rfl) (by simp)
  rw [List.nil_append, ← hsent] at hfiles
  refine ⟨_, hdispatch, ?_, ?_⟩
  · rw [← hfiles, ← hrest, List.foldl_append]
    exact foldl_got_grows rest _
  · intro hfuture
    rw [hall hfuture]
    exact hfiles

include hret in
/-- **Compilers and PCH files arrive.** However the messages of the sessions are mixed on the connection and cut by the
transport, and whenever a session is cancelled meanwhile, what the server's session unpacks as its compiler and gives
away to be written as its PCH file is what the manager's session has sent. Without a PCH file it runs the compiler only
when it has what it needs. And when everything has arrived it has both, and without a PCH file it runs the compiler or
was cancelled while it did; if the compiler can be unpacked. -/
theorem downloads_arrive {p : MessageProtocol} {frag future : Bytes} {chunks : List Bytes} {msgs : List Msg}
    (hp : HoldsFrag p frag) (henc : Encodes msgs (frag ++ chunks.flatten ++ future))
    (hunfinished : Unfinished msgs frag) {unpack : Bytes → Unpacking} {sessions : Bytes → Option (CompileSession z)}
    {sessionId : Bytes} {s : CompileSession z} {compilerZip pchFile : Option Bytes}
    (hsession : sessions sessionId = some s) (hneeds : Needs compilerZip pchFile s)
    (hunpack : ∀ zip ∈ compilerZip, unpack zip = .done)
    (hsent : uncancelled (ofSession sessionId msgs) = sendFiles z compilerZip pchFile) :
    ∃ s', (receiveChunks returns p chunks).calls.foldl (dispatch (processMsg z unpack)) sessions sessionId = some s' ∧
      (s'.compilerZip = none ∨ s'.compilerZip = compilerZip) ∧ (s'.pchBuffer = none ∨ s'.pchBuffer = pchFile) ∧
      (s'.state = .runningCompiler → s'.compilerZip = compilerZip ∧ pchFile = none) ∧
      (future = [] → s'.compilerZip = compilerZip ∧ s'.pchBuffer = pchFile ∧
        (pchFile = none → s'.state = .runningCompiler ∨ s'.state = .cancelled)) := by
  obtain ⟨own, hown, hall, hdispatch⟩ :=
    arrived_dispatch hret (processMsg z unpack) hp henc hunfinished sessions sessionId
  rw [hsession, Option.map_some] at hdispatch
  have hneeds' : Needs compilerZip pchFile s.resumed := by
    refine ⟨?_, hneeds.pchRequired, hneeds.nothing⟩
    rw [← hneeds.state, CompileSession.resumed, hneeds.state]
    cases compilerZip with
    | none => cases pchFile <;> rfl
    | some zip => rfl
  have hprefix : uncancelled own <+: sendFiles z compilerZip pchFile := by
    rw [← hsent]
    exact hown.filter _
  obtain ⟨htakes, hwhole⟩ := downloads unpack hneeds' hunpack hprefix
  rw [← foldl_processMsg unpack own s] at htakes hwhole
  refine ⟨_, hdispatch, htakes.compiler, htakes.pch, fun hrunning => ?_, fun hfuture => ?_⟩
  · exact htakes.running (by simp [CompileSession.resumed, hrunning])
  · have htaken := hwhole (by rw [hall hfuture, hsent])
    refine ⟨htaken.compiler, htaken.pch, fun hpch => ?_⟩
    have hrunning := htaken.running hpch
    unfold CompileSession.resumed at hrunning
    simp only at hrunning
    split at hrunning
    · next hstate => exact .inr hstate
    · exact .inl hrunning

end Arrive

/-! ## A connection -/

/-- Compression that leaves everything as it is. -/
def storing : ZlibObjects where
  Compressor := Unit
  Decompressor := Unit
  compressobj := ()
  compress _ data := ((), data)
  fullFlush _ := ((), [])
  finish _ := []
  decompressobj := ()
  decompress _ data := some ((), data)
  flush _ := []

theorem storing_output (calls : List Call) : storing.output () calls = input calls := by
  induction calls with
  | nil => rfl
  | cons call calls ih =>
    cases call with
    | compress data =>
      rw [input, ← ih]
      rfl
    | fullFlush =>
      rw [input, ← ih]
      rfl

theorem storing_decompressed (pieces : List Bytes) : storing.decompressed () pieces = some pieces.flatten := by
  induction pieces with
  | nil => rfl
  | cons piece pieces ih =>
    have hrest : storing.decompressed () (piece :: pieces) = (storing.decompressed () pieces).map (piece ++ ·) := by
      show (storing.decompressed () pieces).bind _ = _
      cases storing.decompressed () pieces <;> rfl
    rw [hrest, ih, Option.map_some, List.flatten_cons]

def storingZlib : Zlib where
  toZlibObjects := storing
  inverse calls pieces h := by
    have houtput : storing.output storing.compressobj calls = input calls := storing_output calls
    rw [← houtput, ← h]
    exact storing_decompressed pieces

/-- What is stored in one block. -/
theorem readBlocks_one {data : Bytes} (hdata : data ≠ []) (hshort : data.length ≤ blockSize) :
    readBlocks data = [data] := by
  rw [readBlocks, if_neg hdata, List.take_of_length_le hshort, List.drop_of_length_le hshort, readBlocks, if_pos rfl]

/-- Another session has a message between those of a file. -/
def mixed : List Msg := [[[1], [1], [65]], [[2], [7]], [[1], [1], []], [[1], [0], []]]

theorem object_files_arrive_mixed : ∃ stream, Encodes mixed stream ∧
    ∃ s, (receiveChunks (fun _ => true) .new [stream.take 5, stream.drop 5]).calls.foldl
      (dispatch (gotDataFromServer storingZlib)) (fun _ => some { resultFiles := 1 }) [1] = some s ∧
        s.resultFutures = [some [65]] := by
  have hone : readBlocks [65] = [[65]] := readBlocks_one (by simp) (by simp [blockSize])
  have hsent : ofSession [1] mixed = [[65]].flatMap (sendCompressedFile storingZlib) := by
    simp [sendCompressedFile, compressFile, hone, compressBlocks, storingZlib, storing, partMsgs, ofSession, mixed]
  obtain ⟨stream, henc⟩ : ∃ stream, Encodes mixed stream := ⟨_, _, rfl, rfl⟩
  have hall : Encodes mixed ([] ++ [stream.take 5, stream.drop 5].flatten ++ []) := by
    simpa using henc
  let sessions : Bytes → Option ServerSession := fun _ => some { resultFiles := 1 }
  have hsession : sessions [1] = some { resultFiles := ([[65]] : List Bytes).length } := rfl
  obtain ⟨s, hs, -, hfiles⟩ :=
    object_files_arrive (fun _ => rfl) holdsFrag_new hall (unfinished_nil henc) hsession hsent
  exact ⟨stream, henc, s, hs, hfiles rfl⟩

/-- A compiler is sent, and the session is cancelled before the PCH file. -/
def mixedDownloads : List Msg :=
  [[[1], [1], [90]], [[1], [0], []], [[2], [7]], [[1], cancelSession], [[1], [1], [65]], [[1], [0], []]]

theorem downloads_arrive_mixed : ∃ stream, Encodes mixedDownloads stream ∧
    ∃ s : CompileSession storingZlib, (receiveChunks (fun _ => true) .new [stream.take 5, stream.drop 5]).calls.foldl
      (dispatch (processMsg storingZlib fun _ => .done))
        (fun _ => some ⟨true, .downloadingCompiler (some {}), none, none, false⟩) [1] = some s ∧
          s.compilerZip = some [90] ∧ s.pchBuffer = some [65] := by
  have hone : ∀ b : UInt8, readBlocks [b] = [[b]] := fun b => readBlocks_one (by simp) (by simp [blockSize])
  have hsent : uncancelled (ofSession [1] mixedDownloads) = sendFiles storingZlib (some [90]) (some [65]) := by
    have hpch : doCompress storingZlib [65] = [65] := by
      rw [doCompress, hone]
      rfl
    have hcancel : cancelSession ≠ [0] ∧ cancelSession ≠ [1] := by decide
    simp [sendFiles, sendFile, hpch, hone, partMsgs, ofSession, mixedDownloads, uncancelled, hcancel.1.symm,
      hcancel.2.symm]
  obtain ⟨stream, henc⟩ : ∃ stream, Encodes mixedDownloads stream := ⟨_, _, rfl, rfl⟩
  have hall : Encodes mixedDownloads ([] ++ [stream.take 5, stream.drop 5].flatten ++ []) := by
    simpa using henc
  let sessions : Bytes → Option (CompileSession storingZlib) :=
    fun _ => some ⟨true, .downloadingCompiler (some {}), none, none, false⟩
  have hsession : sessions [1] = some ⟨true, .downloadingCompiler (some {}), none, none, false⟩ := rfl
  have hunpack : ∀ zip ∈ some ([90] : Bytes), (fun _ => .done : Bytes → Unpacking) zip = .done := fun _ _ => rfl
  obtain ⟨s, hs, -, -, -, hend⟩ := downloads_arrive (fun _ => rfl) holdsFrag_new hall (unfinished_nil henc)
    hsession ⟨rfl, rfl, rfl, rfl⟩ hunpack hsent
  obtain ⟨hzip, hpch, -⟩ := hend rfl
  exact ⟨stream, henc, s, hs, hzip, hpch⟩

end BuildPal.FileTransfer
