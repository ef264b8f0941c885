import BuildPal.Common.Message
/-!
# What an injected process is told

`hookProcess` in `Extensions/Client/hookProcess.cpp` writes the registered
compilers and the port name into a pipe, each string with its NUL and a lone NUL
after the last compiler. `Initialize` reads them in the injected process, up to
1024 bytes at a time, and takes each buffer apart at its NULs.
-/
open BuildPal.Message

namespace BuildPal.Client.Hook

structure CompilerDescription where
  compilerPath : Bytes
  replacement : Bytes
deriving DecidableEq

/-! ## The writer -/

/-- The loop of `hookProcess` over `compilerFiles`. -/
def writeCompilers (compilerFiles : List CompilerDescription) : Bytes :=
  compilerFiles.flatMap fun desc => desc.compilerPath ++ [0] ++ (desc.replacement ++ [0])

/-- The bytes `hookProcess` writes into the pipe. -/
def hookProcess (compilerFiles : List CompilerDescription) (portName : Bytes) : Bytes :=
  writeCompilers compilerFiles ++ [0] ++ (portName ++ [0])

/-! ## The reader -/

/-- What `Initialize` keeps from one turn of its loop to the next: its flags, the
calls of `registerFile` so far and the port name. -/
structure Reader where
  readingPortName : Bool := false
  readingReplacement : Bool := false
  done : Bool := false
  registered : List CompilerDescription := []
  portName : Bytes := []
deriving DecidableEq

/-- One turn of the loop: the locals `last`, `remainder` and `compilerPath` are new in each. -/
structure Turn extends Reader where
  last : Nat := 0
  remainder : Bytes := []
  compilerPath : Bytes := []

/-- The body of the loop over `index`. -/
def scanByte (buffer : Bytes) (s : Turn) (index : Nat) : Turn :=
  if buffer[index]? = some 0 then
    if s.last = index ∧ s.readingReplacement = false ∧ s.readingPortName = false then
      { s with last := s.last + 1, readingPortName := true }
    else
      let data := s.remainder ++ (buffer.drop s.last).take (index - s.last)
      let s := { s with remainder := [] }
      let s :=
        if s.readingPortName then { s with done := true, portName := data }
        else if s.readingReplacement then
          { s with registered := s.registered ++ [⟨s.compilerPath, data⟩], readingReplacement := false }
        else { s with compilerPath := data, readingReplacement := true }
      { s with last := index + 1 }
  else s

/-- One turn of `while ( !done )`, with the `read` bytes of `buffer`. -/
def turn (r : Reader) (buffer : Bytes) : Turn :=
  let s := (List.range buffer.length).foldl (scanByte buffer) { r with }
  { s with remainder := s.remainder ++ buffer.drop s.last }

/-- `Initialize` on the buffers that the reads of the pipe return; `none` when it
waits for another one. -/
def Initialize : Reader → List Bytes → Option Reader
  | r, [] => if r.done then some r else none
  | r, buffer :: buffers => if r.done then some r else Initialize (turn r buffer).toReader buffers

/-- The reads of the pipe return these bytes, at least one and at most 1024 at a time. -/
structure Reads (buffers : List Bytes) (stream : Bytes) : Prop where
  bytes : buffers.flatten = stream
  size : ∀ buffer ∈ buffers, 1 ≤ buffer.length ∧ buffer.length ≤ 1024

/-- `Initialize` ends, having registered just these compilers in this order and
set the port name. -/
def Learns (compilerFiles : List CompilerDescription) (portName : Bytes) (buffers : List Bytes) : Prop :=
  ∃ r, Initialize {} buffers = some r ∧ r.registered = compilerFiles ∧ r.portName = portName

instance (compilerFiles : List CompilerDescription) (portName : Bytes) (buffers : List Bytes) :
    Decidable (Learns compilerFiles portName buffers) :=
  match h : Initialize {} buffers with
  | none => isFalse (by rintro ⟨r, hr, -⟩; rw [h] at hr; cases hr)
  | some r => decidable_of_iff (r.registered = compilerFiles ∧ r.portName = portName)
      ⟨fun hr => ⟨r, h, hr⟩, by rintro ⟨r', hr', h₁⟩; rw [h] at hr'; cases hr'; exact h₁⟩

/-! ## The reader byte by byte

`Parse` is the reader without offsets: the bytes since the last NUL are `cur`,
and a finished path waits in `mode` for its replacement. -/

inductive Mode
  | path
  | replacement (compilerPath : Bytes)
  | portName

structure Parse where
  registered : List CompilerDescription := []
  mode : Mode := .path
  cur : Bytes := []
  portName : Option Bytes := none

/-- The next byte. -/
def Parse.feed (st : Parse) (b : UInt8) : Parse :=
  if b ≠ 0 then { st with cur := st.cur ++ [b] }
  else
    match st.mode with
    | .path => if st.cur = [] then { st with mode := .portName } else { st with mode := .replacement st.cur, cur := [] }
    | .replacement compilerPath =>
      { st with registered := st.registered ++ [⟨compilerPath, st.cur⟩], mode := .path, cur := [] }
    | .portName => { st with portName := some st.cur, cur := [] }

def Parse.feedAll (st : Parse) (bytes : Bytes) : Parse := bytes.foldl feed st

/-- What is left when the buffer has been used up: the locals are gone. -/
def Parse.cut (st : Parse) : Parse :=
  { st with
    cur := []
    mode := match st.mode with
      | .replacement _ => .replacement []
      | mode => mode }

@[simp] theorem Parse.feedAll_nil (st : Parse) : st.feedAll [] = st := rfl

theorem Parse.feedAll_append (st : Parse) (a b : Bytes) : st.feedAll (a ++ b) = (st.feedAll a).feedAll b := by
  simp [Parse.feedAll]

theorem Parse.feedAll_concat (st : Parse) (a : Bytes) (b : UInt8) : st.feedAll (a ++ [b]) = (st.feedAll a).feed b := by
  simp [Parse.feedAll]

/-- The buffers one after the other, up to the one that ends the loop. -/
def Parse.buffers : Parse → List Bytes → Parse
  | st, [] => st
  | st, buffer :: rest => if st.portName.isSome then st else Parse.buffers (st.cut.feedAll buffer) rest

/-- The flags and results of the reader are those of the parse. -/
structure Shows (r : Reader) (st : Parse) : Prop where
  registered : r.registered = st.registered
  done : r.done = st.portName.isSome
  portName : st.portName.isSome → st.portName = some r.portName
  readingPortName : r.readingPortName = true ↔ st.mode = .portName
  readingReplacement : r.readingReplacement = true ↔ ∃ compilerPath, st.mode = .replacement compilerPath

/-- In the middle of a turn, after the first `index` bytes of the buffer. -/
structure Turns (buffer : Bytes) (index : Nat) (s : Turn) (st : Parse) : Prop extends Shows s.toReader st where
  last : s.last ≤ index
  remainder : s.remainder = []
  cur : (buffer.drop s.last).take (index - s.last) = st.cur
  compilerPath : ∀ compilerPath, st.mode = .replacement compilerPath → s.compilerPath = compilerPath

theorem shows_cut {r : Reader} {st : Parse} (h : Shows r st) (buffer : Bytes) : Turns buffer 0 { r with } st.cut := by
  obtain ⟨registered, mode, cur, portName⟩ := st
  refine ⟨⟨h.registered, h.done, h.portName, ?_, ?_⟩, Nat.le_refl _, rfl, by simp [Parse.cut], ?_⟩
  · rw [h.readingPortName]
    cases mode <;> simp [Parse.cut]
  · rw [h.readingReplacement]
    cases mode <;> simp [Parse.cut]
  · intro compilerPath hmode
    cases mode <;> simp_all [Parse.cut]

theorem drop_take_succ {buffer : Bytes} {last index : Nat} {b : UInt8} (hle : last ≤ index) (hb : buffer[index]? = some b) :
    (buffer.drop last).take (index + 1 - last) = (buffer.drop last).take (index - last) ++ [b] := by
  have hidx : (buffer.drop last)[index - last]? = some b := by
    rw [List.getElem?_drop, Nat.add_sub_cancel' hle, hb]
  rw [Nat.sub_add_comm hle, List.take_add_one, hidx]
  rfl

theorem Turns.step {buffer : Bytes} {index : Nat} {s : Turn} {st : Parse} {b : UInt8} (h : Turns buffer index s st)
    (hb : buffer[index]? = some b) : Turns buffer (index + 1) (scanByte buffer s index) (st.feed b) := by
  have hcur := h.cur
  by_cases hz : b = 0
  · subst hz
    -- nothing has come since the last NUL: that is how the reader knows the end of the list
    have hempty : s.last = index ↔ st.cur = [] := by
      have hlen := (List.getElem?_eq_some_iff.1 hb).1
      have hle := h.last
      rw [← hcur, List.take_eq_nil_iff, List.drop_eq_nil_iff]
      omega
    obtain ⟨registered, mode, cur, portName⟩ := st
    have hshow := h.toShows
    cases mode with
    | path =>
      have hport : s.readingPortName = false := by simpa using mt hshow.readingPortName.1
      have hrepl : s.readingReplacement = false := by simpa using mt hshow.readingReplacement.1
      by_cases hc : cur = []
      · have hl := hempty.2 hc
        have hscan : scanByte buffer s index = { s with last := s.last + 1, readingPortName := true } := by
          simp [scanByte, hb, hl, hport, hrepl]
        have hfeed : Parse.feed ⟨registered, .path, cur, portName⟩ 0 = ⟨registered, .portName, cur, portName⟩ := by
          simp [Parse.feed, hc]
        rw [hscan, hfeed]
        refine ⟨⟨hshow.registered, hshow.done, hshow.portName, by simp, by simp [hrepl]⟩, by simp [hl], h.remainder, ?_,
          by simp⟩
        simp [hl, hc]
      · have hl : ¬ s.last = index := fun hl => hc (hempty.1 hl)
        have hscan : scanByte buffer s index =
            { s with remainder := [], compilerPath := cur, readingReplacement := true, last := index + 1 } := by
          simp only at hcur
          simp [scanByte, hb, hl, hport, hrepl, h.remainder, hcur]
        have hfeed : Parse.feed ⟨registered, .path, cur, portName⟩ 0 = ⟨registered, .replacement cur, [], portName⟩ := by
          simp [Parse.feed, hc]
        rw [hscan, hfeed]
        exact ⟨⟨hshow.registered, hshow.done, hshow.portName, by simp [hport], by simp⟩, Nat.le_refl _, rfl, by simp,
          by simp⟩
    | replacement compilerPath =>
      have hport : s.readingPortName = false := by simpa using mt hshow.readingPortName.1
      have hrepl : s.readingReplacement = true := hshow.readingReplacement.2 ⟨compilerPath, rfl⟩
      have hpath : s.compilerPath = compilerPath := h.compilerPath compilerPath rfl
      have hscan : scanByte buffer s index =
          { s with remainder := [], registered := s.registered ++ [⟨compilerPath, cur⟩], readingReplacement := false,
                   last := index + 1 } := by
        simp only at hcur
        simp [scanByte, hb, hport, hrepl, hpath, h.remainder, hcur]
      have hfeed : Parse.feed ⟨registered, .replacement compilerPath, cur, portName⟩ 0 =
          ⟨registered ++ [⟨compilerPath, cur⟩], .path, [], portName⟩ := by simp [Parse.feed]
      rw [hscan, hfeed]
      exact ⟨⟨by simp [hshow.registered], hshow.done, hshow.portName, by simp [hport], by simp⟩, Nat.le_refl _, rfl,
        by simp, by simp⟩
    | portName =>
      have hport : s.readingPortName = true := hshow.readingPortName.2 rfl
      have hrepl : s.readingReplacement = false := by simpa using mt hshow.readingReplacement.1
      have hscan : scanByte buffer s index =
          { s with remainder := [], done := true, portName := cur, last := index + 1 } := by
        simp only at hcur
        simp [scanByte, hb, hport, h.remainder, hcur]
      have hfeed : Parse.feed ⟨registered, .portName, cur, portName⟩ 0 = ⟨registered, .portName, [], some cur⟩ := by
        simp [Parse.feed]
      rw [hscan, hfeed]
      exact ⟨⟨hshow.registered, rfl, fun _ => rfl, by simp [hport], by simp [hrepl]⟩, Nat.le_refl _, rfl, by simp,
        by simp⟩
  · have hscan : scanByte buffer s index = s := by simp [scanByte, hb, hz]
    have hfeed : st.feed b = { st with cur := st.cur ++ [b] } := by simp [Parse.feed, hz]
    have hle := h.last
    rw [hscan, hfeed]
    refine ⟨⟨h.registered, h.done, h.portName, h.readingPortName, h.readingReplacement⟩, by omega, h.remainder, ?_,
      h.compilerPath⟩
    rw [drop_take_succ hle hb, hcur]

theorem shows_turn {r : Reader} {st : Parse} (h : Shows r st) (buffer : Bytes) :
    Shows (turn r buffer).toReader (st.cut.feedAll buffer) := by
  -- by induction on how much of the buffer has been scanned
  have hpre : ∀ n, n ≤ buffer.length → Turns buffer n ((List.range n).foldl (scanByte buffer) { r with })
      (st.cut.feedAll (buffer.take n)) := by
    intro n
    induction n with
    | zero => intro _; exact shows_cut h buffer
    | succ n ih =>
      intro hn
      obtain ⟨b, hb⟩ : ∃ b, buffer[n]? = some b := ⟨_, List.getElem?_eq_getElem (by omega)⟩
      have hstep := (ih (by omega)).step hb
      rw [List.range_succ, List.foldl_append, List.take_add_one, hb]
      simp only [Option.toList, Parse.feedAll_concat]
      exact hstep
  have hall := hpre buffer.length (Nat.le_refl _)
  rw [List.take_length] at hall
  exact ⟨hall.registered, hall.done, hall.portName, hall.readingPortName, hall.readingReplacement⟩

/-- `Initialize` ends as soon as the parse has a port name. -/
theorem initialize_spec (buffers : List Bytes) : ∀ (r : Reader) (st : Parse), Shows r st →
    if (st.buffers buffers).portName.isSome then ∃ r', Initialize r buffers = some r' ∧ Shows r' (st.buffers buffers)
    else Initialize r buffers = none := by
  induction buffers with
  | nil =>
    intro r st h
    simp only [Initialize, Parse.buffers, h.done]
    split
    · exact ⟨r, rfl, h⟩
    · rfl
  | cons buffer rest ih =>
    intro r st h
    simp only [Initialize, Parse.buffers, h.done]
    by_cases hd : st.portName.isSome
    · simp only [hd, if_true]
      exact ⟨r, rfl, h⟩
    · simp only [hd]
      exact ih _ _ (shows_turn h buffer)

theorem learns_iff (compilerFiles : List CompilerDescription) (portName : Bytes) (buffers : List Bytes) :
    Learns compilerFiles portName buffers ↔
      (Parse.buffers {} buffers).registered = compilerFiles ∧ (Parse.buffers {} buffers).portName = some portName := by
  have hinit : Shows {} {} := ⟨rfl, rfl, by simp, by simp, by simp⟩
  have hspec := initialize_spec buffers {} {} hinit
  constructor
  · rintro ⟨r, hr, hreg, hport⟩
    by_cases hd : (Parse.buffers {} buffers).portName.isSome
    · rw [if_pos hd] at hspec
      obtain ⟨r', hr', hshow⟩ := hspec
      rw [hr] at hr'
      cases hr'
      exact ⟨hshow.registered ▸ hreg, hport ▸ hshow.portName hd⟩
    · rw [if_neg hd, hr] at hspec
      cases hspec
  · rintro ⟨hreg, hport⟩
    rw [if_pos (by simp [hport])] at hspec
    obtain ⟨r, hr, hshow⟩ := hspec
    refine ⟨r, hr, hshow.registered.trans hreg, ?_⟩
    have := hshow.portName (by simp [hport])
    rw [hport] at this
    exact (Option.some.inj this).symm

/-! ## Bytes that get lost

Every byte of a string is either recorded, in a description or in the port name,
or still to be recorded; what is still to be recorded when the buffer ends is
gone. -/

def CompilerDescription.size (desc : CompilerDescription) : Nat := desc.compilerPath.length + desc.replacement.length

def Parse.recorded (st : Parse) : Nat :=
  (st.registered.map CompilerDescription.size).sum + (st.portName.getD []).length

def Parse.pending (st : Parse) : Nat :=
  st.cur.length + match st.mode with
    | .replacement compilerPath => compilerPath.length
    | _ => 0

/-- The bytes that are not NULs. -/
def chars (bytes : Bytes) : Nat := bytes.countP (· ≠ 0)

theorem chars_append (a b : Bytes) : chars (a ++ b) = chars a + chars b := List.countP_append ..

theorem Parse.feed_recorded (st : Parse) (b : UInt8) :
    (st.feed b).recorded + (st.feed b).pending ≤ st.recorded + st.pending + chars [b] := by
  obtain ⟨registered, mode, cur, portName⟩ := st
  by_cases hb : b = 0
  · -- a NUL moves what is pending to what is recorded, or loses the path of an empty description
    subst hb
    cases mode with
    | path =>
      by_cases hc : cur = []
      · simp [Parse.feed, hc, recorded, pending]
      · simp [Parse.feed, hc, recorded, pending]
    | replacement compilerPath =>
      simp only [Parse.feed, recorded, pending, CompilerDescription.size, ne_eq, not_true, if_false, List.map_append,
        List.map_cons, List.map_nil, List.sum_append, List.sum_cons, List.sum_nil, List.length_nil]
      omega
    | portName =>
      simp only [Parse.feed, recorded, pending, ne_eq, not_true, if_false, Option.getD_some, List.length_nil]
      omega
  · have hchars : chars [b] = 1 := by simp [chars, hb]
    simp only [Parse.feed, ne_eq, hb, not_false_eq_true, if_true, recorded, pending, List.length_append,
      List.length_cons, List.length_nil, hchars]
    omega

theorem Parse.feedAll_recorded (bytes : Bytes) : ∀ st : Parse,
    (st.feedAll bytes).recorded + (st.feedAll bytes).pending ≤ st.recorded + st.pending + chars bytes := by
  induction bytes with
  | nil => intro st; exact Nat.le_refl _
  | cons b bytes ih =>
    intro st
    have h₁ := ih (st.feed b)
    have h₂ := st.feed_recorded b
    have hchars : chars (b :: bytes) = chars [b] + chars bytes := chars_append [b] bytes
    show ((st.feed b).feedAll bytes).recorded + ((st.feed b).feedAll bytes).pending ≤ _
    omega

theorem Parse.cut_recorded (st : Parse) : st.cut.recorded = st.recorded ∧ st.cut.pending = 0 := by
  obtain ⟨registered, mode, cur, portName⟩ := st
  cases mode <;> exact ⟨rfl, rfl⟩

theorem Parse.cut_eq {st : Parse} (h : st.pending = 0) : st.cut = st := by
  obtain ⟨registered, mode, cur, portName⟩ := st
  cases mode <;> simp_all [Parse.cut, Parse.pending]

theorem Parse.buffers_recorded (buffers : List Bytes) : ∀ st : Parse,
    (st.buffers buffers).recorded ≤ st.recorded + chars buffers.flatten := by
  induction buffers with
  | nil => intro st; exact Nat.le_add_right ..
  | cons buffer rest ih =>
    intro st
    have h₁ := ih (st.cut.feedAll buffer)
    have h₂ := st.cut.feedAll_recorded buffer
    obtain ⟨hrec, hpend⟩ := st.cut_recorded
    simp only [Parse.buffers, List.flatten_cons, chars_append]
    split <;> omega

/-! ## The whole stream at once -/

theorem Parse.feed_portName {st : Parse} (h : st.portName.isSome) (b : UInt8) : (st.feed b).portName.isSome := by
  unfold Parse.feed
  split
  · exact h
  · split
    · split <;> exact h
    · exact h
    · rfl

/-- A reader past the list of compilers registers nothing more. -/
theorem Parse.feed_registered (st : Parse) (b : UInt8) : st.registered <+: (st.feed b).registered ∧
    (st.mode = .portName → (st.feed b).mode = .portName ∧ (st.feed b).registered = st.registered) := by
  obtain ⟨registered, mode, cur, portName⟩ := st
  unfold Parse.feed
  split
  · exact ⟨List.prefix_refl _, fun h => ⟨h, rfl⟩⟩
  · cases mode with
    | path => by_cases hc : cur = [] <;> simp [hc]
    | replacement compilerPath => simp
    | portName => simp

theorem Parse.feedAll_registered (bytes : Bytes) : ∀ st : Parse, st.registered <+: (st.feedAll bytes).registered ∧
    (st.mode = .portName → (st.feedAll bytes).registered = st.registered) ∧
    (st.portName.isSome → (st.feedAll bytes).portName.isSome) := by
  induction bytes with
  | nil => intro st; exact ⟨List.prefix_refl _, fun _ => rfl, id⟩
  | cons b bytes ih =>
    intro st
    obtain ⟨hpre, hmode, hport⟩ := ih (st.feed b)
    obtain ⟨hpre₁, hmode₁⟩ := st.feed_registered b
    refine ⟨hpre₁.trans hpre, fun h => ?_, fun h => hport (Parse.feed_portName h b)⟩
    exact (hmode (hmode₁ h).1).trans (hmode₁ h).2

/-- The bytes that bring a fresh parse into this state, as long as it has no port name. -/
def Parse.source (st : Parse) : Bytes :=
  writeCompilers st.registered ++ match st.mode with
    | .path => st.cur
    | .replacement compilerPath => compilerPath ++ [0] ++ st.cur
    | .portName => [0] ++ st.cur

/-- A waiting path is not empty. -/
def Parse.PathKept (st : Parse) : Prop := ∀ compilerPath, st.mode = .replacement compilerPath → compilerPath ≠ []

theorem Parse.feed_source {st : Parse} {b : UInt8} (hpath : st.PathKept) (h : (st.feed b).portName = none) :
    (st.feed b).source = st.source ++ [b] ∧ (st.feed b).PathKept := by
  obtain ⟨registered, mode, cur, portName⟩ := st
  by_cases hb : b = 0
  · subst hb
    cases mode with
    | path =>
      by_cases hc : cur = []
      · simp [Parse.feed, hc, source, PathKept]
      · simp [Parse.feed, hc, source, PathKept]
    | replacement compilerPath => simp [Parse.feed, source, PathKept, writeCompilers]
    | portName => simp [Parse.feed] at h
  · have hfeed : Parse.feed ⟨registered, mode, cur, portName⟩ b = ⟨registered, mode, cur ++ [b], portName⟩ := by
      simp [Parse.feed, hb]
    rw [hfeed]
    refine ⟨?_, hpath⟩
    cases mode <;> simp [source]

theorem Parse.feedAll_source (bytes : Bytes) : ∀ st : Parse, st.PathKept → (st.feedAll bytes).portName = none →
    (st.feedAll bytes).source = st.source ++ bytes ∧ (st.feedAll bytes).PathKept := by
  induction bytes with
  | nil => intro st hpath _; simpa using hpath
  | cons b bytes ih =>
    intro st hpath h
    have hfirst : (st.feed b).portName = none := by
      by_contra hne
      have := ((st.feed b).feedAll_registered bytes).2.2 (Option.isSome_iff_ne_none.2 hne)
      rw [show (st.feed b).feedAll bytes = st.feedAll (b :: bytes) from rfl, h] at this
      cases this
    obtain ⟨hsource, hkept⟩ := Parse.feed_source hpath hfirst
    obtain ⟨hrest, hkept'⟩ := ih (st.feed b) hkept h
    refine ⟨?_, hkept'⟩
    rw [show st.feedAll (b :: bytes) = (st.feed b).feedAll bytes from rfl, hrest, hsource]
    simp

theorem Parse.feedAll_string {string : Bytes} (h : 0 ∉ string) : ∀ st : Parse,
    st.feedAll string = { st with cur := st.cur ++ string } := by
  induction string with
  | nil => intro st; simp
  | cons b string ih =>
    intro st
    rw [List.mem_cons, not_or] at h
    have hfeed : st.feed b = { st with cur := st.cur ++ [b] } := by simp [Parse.feed, Ne.symm h.1]
    rw [show st.feedAll (b :: string) = (st.feed b).feedAll string from rfl, ih h.2, hfeed]
    simp

/-- What the writer is given: paths that are not empty, and no NUL anywhere. -/
structure CompilerDescription.Ok (desc : CompilerDescription) : Prop where
  nonempty : desc.compilerPath ≠ []
  path : 0 ∉ desc.compilerPath
  replacement : 0 ∉ desc.replacement

theorem Parse.feedAll_writeCompilers (compilerFiles : List CompilerDescription) (h : ∀ desc ∈ compilerFiles, desc.Ok) :
    ∀ registered, Parse.feedAll { registered } (writeCompilers compilerFiles) =
      { registered := registered ++ compilerFiles } := by
  induction compilerFiles with
  | nil => intro registered; simp [writeCompilers]
  | cons desc rest ih =>
    intro registered
    obtain ⟨hne, hpath, hrepl⟩ := h desc (by simp)
    have hwrite : writeCompilers (desc :: rest) =
        desc.compilerPath ++ [0] ++ (desc.replacement ++ [0]) ++ writeCompilers rest := by simp [writeCompilers]
    have hone : Parse.feedAll { registered } (desc.compilerPath ++ [0] ++ (desc.replacement ++ [0])) =
        { registered := registered ++ [desc] } := by
      have hmode : Parse.feedAll { registered } (desc.compilerPath ++ [0]) =
          { registered, mode := .replacement desc.compilerPath } := by
        rw [Parse.feedAll_concat, Parse.feedAll_string hpath]
        simp [Parse.feed, hne]
      rw [Parse.feedAll_append, hmode, Parse.feedAll_concat, Parse.feedAll_string hrepl]
      simp [Parse.feed]
    rw [hwrite, Parse.feedAll_append, hone, ih fun d hd => h d (by simp [hd])]
    simp

section Stream
variable {compilerFiles : List CompilerDescription} {portName : Bytes} (hfiles : ∀ desc ∈ compilerFiles, desc.Ok)
  (hport : 0 ∉ portName)
include hfiles

theorem parse_list (j : Nat) : Parse.feedAll {} (writeCompilers (compilerFiles.take j)) =
    { registered := compilerFiles.take j } := by
  have := Parse.feedAll_writeCompilers (compilerFiles.take j) (fun d hd => hfiles d (List.mem_of_mem_take hd)) []
  rwa [List.nil_append] at this

theorem parse_listEnd : Parse.feedAll {} (writeCompilers compilerFiles ++ [0]) =
    { registered := compilerFiles, mode := .portName } := by
  have := Parse.feedAll_writeCompilers compilerFiles hfiles []
  rw [Parse.feedAll_concat, this]
  simp [Parse.feed]

include hport

theorem parse_almost : Parse.feedAll {} (writeCompilers compilerFiles ++ [0] ++ portName) =
    { registered := compilerFiles, mode := .portName, cur := portName } := by
  rw [Parse.feedAll_append, parse_listEnd hfiles, Parse.feedAll_string hport]
  simp

/-- Read in one go, the stream gives what was written. -/
theorem parse_stream : Parse.feedAll {} (hookProcess compilerFiles portName) =
    { registered := compilerFiles, mode := .portName, portName := some portName } := by
  rw [hookProcess, ← List.append_assoc, Parse.feedAll_concat, parse_almost hfiles hport]
  simp [Parse.feed]

/-- Before the last byte there is no port name. -/
theorem parse_prefix {seen rest : Bytes} (h : seen ++ rest = hookProcess compilerFiles portName) (hrest : rest ≠ []) :
    (Parse.feedAll {} seen).portName = none := by
  obtain ⟨rest', b, rfl⟩ : ∃ rest' b, rest = rest' ++ [b] := ⟨_, _, (List.dropLast_append_getLast hrest).symm⟩
  have hseen : seen ++ rest' = writeCompilers compilerFiles ++ [0] ++ portName := by
    have h' : (seen ++ rest') ++ [b] = (writeCompilers compilerFiles ++ [0] ++ portName) ++ [0] := by
      simpa [hookProcess] using h
    exact (List.append_inj' h' rfl).1
  by_contra hne
  have := ((Parse.feedAll {} seen).feedAll_registered rest').2.2 (Option.isSome_iff_ne_none.2 hne)
  rw [← Parse.feedAll_append, hseen, parse_almost hfiles hport] at this
  cases this

theorem parse_registered {seen rest : Bytes} (h : seen ++ rest = hookProcess compilerFiles portName) :
    (Parse.feedAll {} seen).registered <+: compilerFiles ∧
      ((Parse.feedAll {} seen).mode = .portName → (Parse.feedAll {} seen).registered = compilerFiles) := by
  obtain ⟨hpre, hmode, -⟩ := (Parse.feedAll {} seen).feedAll_registered rest
  rw [← Parse.feedAll_append, h, parse_stream hfiles hport] at hpre hmode
  exact ⟨hpre, fun hm => (hmode hm).symm⟩

end Stream

/-! ## Reads that lose nothing -/

/-- The bytes read so far end with a replacement's NUL, or with the NUL that ends
the list. -/
def CleanCut (compilerFiles : List CompilerDescription) (seen : Bytes) : Prop :=
  (∃ j, seen = writeCompilers (compilerFiles.take j)) ∨ seen = writeCompilers compilerFiles ++ [0]

section Stream
variable {compilerFiles : List CompilerDescription} {portName : Bytes} (hfiles : ∀ desc ∈ compilerFiles, desc.Ok)
  (hport : 0 ∉ portName)
include hfiles

/-- At a clean cut nothing is pending. -/
theorem pending_of_cleanCut {seen : Bytes} (h : CleanCut compilerFiles seen) : (Parse.feedAll {} seen).pending = 0 := by
  rcases h with ⟨j, rfl⟩ | rfl
  · rw [parse_list hfiles]
    rfl
  · rw [parse_listEnd hfiles]
    rfl

include hport

/-- Where nothing is pending, the cut is clean. -/
theorem cleanCut_of_pending {seen rest : Bytes} (h : seen ++ rest = hookProcess compilerFiles portName) (hrest : rest ≠ [])
    (hp : (Parse.feedAll {} seen).pending = 0) : CleanCut compilerFiles seen := by
  have hnone := parse_prefix hfiles hport h hrest
  obtain ⟨hsource, hkept⟩ := Parse.feedAll_source seen {} (by simp [Parse.PathKept]) hnone
  obtain ⟨hreg, hall⟩ := parse_registered hfiles hport h
  have hempty : Parse.source {} = [] := rfl
  rw [hempty, List.nil_append] at hsource
  obtain ⟨j, hj⟩ : ∃ j, (Parse.feedAll {} seen).registered = compilerFiles.take j :=
    ⟨_, List.prefix_iff_eq_take.1 hreg⟩
  generalize Parse.feedAll {} seen = st at *
  obtain ⟨registered, mode, cur, portName'⟩ := st
  -- the bytes read so far are determined by the state
  cases mode with
  | path =>
    simp only [Parse.pending, Nat.add_zero, List.length_eq_zero_iff] at hp
    simp only at hj
    simp only [Parse.source, hp, List.append_nil, hj] at hsource
    exact .inl ⟨j, hsource.symm⟩
  | replacement compilerPath =>
    simp only [Parse.pending, Nat.add_eq_zero_iff, List.length_eq_zero_iff] at hp
    exact absurd hp.2 (hkept compilerPath rfl)
  | portName =>
    have hr : registered = compilerFiles := hall rfl
    simp only [Parse.pending, Nat.add_zero, List.length_eq_zero_iff] at hp
    simp only [Parse.source, hp, List.append_nil, hr] at hsource
    exact .inr hsource.symm

/-- From a clean cut on, buffers that all end at clean cuts are read as one. -/
theorem buffers_of_clean (buffers : List Bytes) : ∀ seen : Bytes,
    seen ++ buffers.flatten = hookProcess compilerFiles portName → (∀ buffer ∈ buffers, buffer ≠ []) →
    (Parse.feedAll {} seen).pending = 0 →
    (∀ k, 0 < k → k < buffers.length → CleanCut compilerFiles (seen ++ (buffers.take k).flatten)) →
    Parse.buffers (Parse.feedAll {} seen) buffers = Parse.feedAll {} (hookProcess compilerFiles portName) := by
  induction buffers with
  | nil =>
    intro seen h _ _ _
    rw [← h]
    simp [Parse.buffers]
  | cons buffer rest ih =>
    intro seen h hne hp hcuts
    have hflat : (buffer :: rest).flatten ≠ [] := by
      rw [List.flatten_cons, ne_eq, List.append_eq_nil_iff]
      exact fun hnil => hne buffer (by simp) hnil.1
    have hnone := parse_prefix hfiles hport h hflat
    simp only [Parse.buffers, hnone, Option.isSome_none, Bool.false_eq_true, if_false, Parse.cut_eq hp]
    rw [← Parse.feedAll_append]
    cases rest with
    | nil =>
      rw [← h]
      simp [Parse.buffers]
    | cons next rest =>
      apply ih (seen ++ buffer)
      · simpa using h
      · exact fun b hb => hne b (by simp [hb])
      · have := hcuts 1 (by omega) (by simp)
        exact pending_of_cleanCut hfiles (by simpa using this)
      · intro k h0 hk
        have := hcuts (k + 1) (by omega) (by simpa using hk)
        simpa using this

/-- A reader that has recorded all bytes has lost none at any cut. -/
theorem clean_of_recorded (buffers : List Bytes) : ∀ seen : Bytes,
    seen ++ buffers.flatten = hookProcess compilerFiles portName → (∀ buffer ∈ buffers, buffer ≠ []) →
    (Parse.feedAll {} seen).pending = 0 →
    (Parse.buffers (Parse.feedAll {} seen) buffers).recorded = (Parse.feedAll {} seen).recorded + chars buffers.flatten →
    ∀ k, 0 < k → k < buffers.length → CleanCut compilerFiles (seen ++ (buffers.take k).flatten) := by
  induction buffers with
  | nil => intro _ _ _ _ _ k _ hk; simp at hk
  | cons buffer rest ih =>
    intro seen h hne hp hrec k h0 hk
    have hflat : (buffer :: rest).flatten ≠ [] := by
      rw [List.flatten_cons, ne_eq, List.append_eq_nil_iff]
      exact fun hnil => hne buffer (by simp) hnil.1
    have hnone := parse_prefix hfiles hport h hflat
    simp only [Parse.buffers, hnone, Option.isSome_none, Bool.false_eq_true, if_false, Parse.cut_eq hp,
      List.flatten_cons, chars_append] at hrec
    -- no byte is recorded twice, so that whatever was pending at the cut is missing at the end
    have hone := (Parse.feedAll {} seen).feedAll_recorded buffer
    have hrest := Parse.buffers_recorded rest ((Parse.feedAll {} seen).feedAll buffer)
    rw [← Parse.feedAll_append] at hone hrest hrec
    have hpend : (Parse.feedAll {} (seen ++ buffer)).pending = 0 := by omega
    have hstream : (seen ++ buffer) ++ rest.flatten = hookProcess compilerFiles portName := by simpa using h
    have hne' : ∀ b ∈ rest, b ≠ [] := fun b hb => hne b (by simp [hb])
    match k, h0 with
    | 1, _ =>
      have hrestne : rest.flatten ≠ [] := by
        match rest, hk, hne' with
        | next :: rest, _, hne' =>
          rw [List.flatten_cons, ne_eq, List.append_eq_nil_iff]
          exact fun hnil => hne' next (by simp) hnil.1
      have := cleanCut_of_pending hfiles hport hstream hrestne hpend
      simpa using this
    | k + 2, _ =>
      have hk' : k + 1 < rest.length := by
        rw [List.length_cons] at hk
        omega
      have := ih (seen ++ buffer) hstream hne' hpend (by omega) (k + 1) (by omega) hk'
      simpa using this

end Stream

theorem chars_string {string : Bytes} (h : 0 ∉ string) : chars string = string.length := by
  rw [chars, List.countP_eq_length]
  intro b hb
  have : b ≠ 0 := fun h0 => h (h0 ▸ hb)
  simpa using this

theorem chars_writeCompilers {compilerFiles : List CompilerDescription} (h : ∀ desc ∈ compilerFiles, desc.Ok) :
    chars (writeCompilers compilerFiles) = (compilerFiles.map CompilerDescription.size).sum := by
  induction compilerFiles with
  | nil => rfl
  | cons desc rest ih =>
    obtain ⟨-, hpath, hrepl⟩ := h desc (by simp)
    have hrest := ih fun d hd => h d (by simp [hd])
    have hzero : chars [0] = 0 := rfl
    have hwrite : writeCompilers (desc :: rest) =
        desc.compilerPath ++ [0] ++ (desc.replacement ++ [0]) ++ writeCompilers rest := by simp [writeCompilers]
    simp only [hwrite, chars_append, chars_string hpath, chars_string hrepl, hzero, hrest, List.map_cons, List.sum_cons,
      CompilerDescription.size]
    omega

/-- The injected process learns the compilers and the port name just when every
read but the last ends with a replacement's NUL or with the NUL that ends the
list: a part of a string, or a path that waits for its replacement, does not
outlive the buffer it was read into. -/
theorem initialize_learns_iff (compilerFiles : List CompilerDescription) (portName : Bytes) (buffers : List Bytes)
    (hfiles : ∀ desc ∈ compilerFiles, desc.compilerPath ≠ [] ∧ 0 ∉ desc.compilerPath ∧ 0 ∉ desc.replacement)
    (hport : 0 ∉ portName) (hreads : Reads buffers (hookProcess compilerFiles portName)) :
    Learns compilerFiles portName buffers ↔
      ∀ k, 0 < k → k < buffers.length → CleanCut compilerFiles (buffers.take k).flatten := by
  have hok : ∀ desc ∈ compilerFiles, desc.Ok := fun desc hd =>
    ⟨(hfiles desc hd).1, (hfiles desc hd).2.1, (hfiles desc hd).2.2⟩
  have hne : ∀ buffer ∈ buffers, buffer ≠ [] := fun buffer hb hnil => by
    have := (hreads.size buffer hb).1
    simp [hnil] at this
  have hstream : [] ++ buffers.flatten = hookProcess compilerFiles portName := hreads.bytes
  rw [learns_iff]
  constructor
  · rintro ⟨hreg, hname⟩ k h0 hk
    have hrec : (Parse.buffers (Parse.feedAll {} []) buffers).recorded =
        (Parse.feedAll {} []).recorded + chars buffers.flatten := by
      have hzero : chars [0] = 0 := rfl
      rw [Parse.feedAll_nil, Parse.recorded, hreg, hname, hreads.bytes, hookProcess]
      simp only [chars_append, chars_writeCompilers hok, chars_string hport, hzero, Option.getD_some]
      simp [Parse.recorded]
    have := clean_of_recorded hok hport buffers [] hstream hne rfl hrec k h0 hk
    simpa using this
  · intro hcuts
    have := buffers_of_clean hok hport buffers [] hstream hne rfl (by simpa using hcuts)
    rw [Parse.feedAll_nil] at this
    rw [this, parse_stream hok hport]
    exact ⟨rfl, rfl⟩

/-- Two compilers in two reads, the second of which starts at the second compiler. -/
theorem initialize_learns_two : Learns [⟨[65], [66]⟩, ⟨[67], []⟩] [80] [[65, 0, 66, 0], [67, 0, 0, 0, 80, 0]] ↔
    ∀ k, 0 < k → k < 2 → CleanCut [⟨[65], [66]⟩, ⟨[67], []⟩] ([[65, 0, 66, 0], [67, 0, 0, 0, 80, 0]].take k).flatten :=
  initialize_learns_iff [⟨[65], [66]⟩, ⟨[67], []⟩] [80] [[65, 0, 66, 0], [67, 0, 0, 0, 80, 0]] (by decide) (by decide)
    ⟨by decide, by decide⟩

/-- A read that ends inside a path: the path is registered without its beginning. -/
theorem path_cut_lost : Reads [[65], [66, 0, 0, 0, 80, 0]] (hookProcess [⟨[65, 66], []⟩] [80]) ∧
    ¬ Learns [⟨[65, 66], []⟩] [80] [[65], [66, 0, 0, 0, 80, 0]] :=
  ⟨⟨by decide, by decide⟩, by decide⟩

end BuildPal.Client.Hook
