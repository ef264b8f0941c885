import BuildPal.Client.RequestLoop
import BuildPal.Lib.Runs
import BuildPal.Manager.CompilerInfo
import BuildPal.Manager.CreatePch
import BuildPal.Manager.Linking
/-!
# A client and its command processor

The two ends of a client's connection, and what is on its way between them. The
client speaks first; after that it only answers, and the manager asks it one
thing at a time, until it tells it how to end. The client may give up at any
moment, when the connection breaks.
-/
open BuildPal.Message (Bytes Msg)
open BuildPal.Lib (toBE ofBE ofBE_toBE length_toBE run)
open BuildPal.Conversation
open BuildPal.Client.RequestLoop (Command CommandLineParser Fallback Outcome Reaction react decimal toText exitCode)
open BuildPal.Scheduler (TaskId TaskResult ClientReply DictOrder)

namespace BuildPal.ClientProtocol

/-! ## What the manager sends -/

/-- The parts of a message, as `ClientProcessor` makes them up. -/
def parts : ClientMessage → Msg
  | .exit retcode stdout stderr => [encode "EXIT", toBE 4 (retcode % 2 ^ 32).toNat, stdout, stderr]
  | .runLocally => [encode "RUN_LOCALLY"]
  | .executeAndExit cmd => [encode "EXECUTE_AND_EXIT", encode (String.ofList (executeAndExitText cmd))]
  | .locateFiles files => encode "LOCATE_FILES" :: files
  | .executeGetOutput cmd => [encode "EXECUTE_GET_OUTPUT", encode (String.ofList (executeGetOutputText cmd))]

/-- What `postprocess` sends; a call for the linker that cannot be made up raises. -/
def replyMessage (o : CompileOptions) : ClientReply → List ClientMessage
  | .exit retcode stdout stderr => [.exit retcode.toNat stdout stderr]
  | .executeAndExit =>
    match o.linkCall with
    | .ok call => [.executeAndExit (call.map fun arg => arg.toList.map fun c => String.ofList [c])]
    | .error _ => []

/-- Everything that was sent to the client. -/
def said (s : ClientProcessor) : List ClientMessage :=
  s.sent ++ match s.commandProcessor with
    | none => []
    | some cp => ((cp.command.map (·.replies)).getD []).flatMap (replyMessage cp.options)

/-! ## The two ends -/

/-- What the manager's machine does while a message is processed. -/
structure ManagerMachine where
  parseArgs : List String → Option (List Arg)
  disk : Disk
  prepareTestSource : Option TestSource
  destroy : TestSource → Bool
  host : MSVCCompiler.Host
  completedOrder : DictOrder := .entered

def ManagerMachine.env (machine : ManagerMachine) : Env where
  parseArgs := machine.parseArgs
  disk := machine.disk
  prepareTestSource := machine.prepareTestSource
  destroy := machine.destroy
  getCompilerInfo := MSVCCompiler.getCompilerInfo machine.host
  completedOrder := machine.completedOrder

inductive Client where
  | starting
  | waiting
  | finished (outcome : Outcome)
  deriving DecidableEq, Repr

structure System where
  client : Client := .starting
  manager : ClientProcessor := {}
  toManager : List Msg := []
  toClient : List Msg := []

inductive Event where
  /-- The client is connected and sends its command. -/
  | connect
  /-- The connection breaks, or was not there. -/
  | giveUp (reason : Bytes)
  /-- The client does what it is asked to. -/
  | request (machine : Client.RequestLoop.Machine)
  /-- The manager takes the next message. -/
  | deliver (machine : ManagerMachine)
  | taskCompleted (task : TaskId) (result : TaskResult)
  | cannotDistribute (task : TaskId)
  | cached (executable : String) (info : CompilerInfo)

/-- The manager went on; what it has sent meanwhile is on its way. -/
def System.managed (t : System) (manager : ClientProcessor) : System :=
  { t with
    manager := manager
    toClient := t.toClient ++ ((said manager).drop (said t.manager).length).map parts }

def step (command : Command) (cl : CommandLineParser) (t : System) : Event → Option System
  | .connect =>
    if t.client ≠ .starting then none
    else
      match command.initMessage cl with
      | none =>
        some { t with
          client := .finished (.fellBack (.trouble (Client.RequestLoop.text "Failed to expand response files."))) }
      | some msg => some { t with client := .waiting, toManager := t.toManager ++ [msg] }
  | .giveUp reason =>
    match t.client with
    | .finished _ => none
    | _ => some { t with client := .finished (.fellBack (.trouble reason)) }
  | .request machine =>
    match t.client, t.toClient with
    | .waiting, msg :: rest =>
      match react machine command.commandLine msg with
      | .send reply => some { t with toClient := rest, toManager := t.toManager ++ [reply] }
      | .finish outcome => some { t with toClient := rest, client := .finished outcome }
    | _, _ => none
  | .deliver machine =>
    -- after its last message the manager closes the connection
    if (said t.manager).any (·.isFinal) then none
    else
      match t.toManager with
      | [] => none
      | msg :: rest => some (System.managed { t with toManager := rest } (t.manager.processMsg machine.env msg).1)
  | .taskCompleted task result => some (t.managed (t.manager.handle (.taskCompleted task result)))
  | .cannotDistribute task => some (t.managed (t.manager.handle (.cannotDistribute task)))
  | .cached executable info => some (t.managed (t.manager.handle (.cached executable info)))

/-! ## What the client makes of a message -/

/-- How the client ends when it is told so. -/
def outcome (machine : Client.RequestLoop.Machine) (commandLine : Bytes) : ClientMessage → Option Outcome
  | .exit retcode stdout stderr => some (.exited (Int32.ofInt retcode) stdout stderr)
  | .runLocally => some (.ran commandLine (machine.createProcess commandLine))
  | .executeAndExit cmd =>
    let commandLine := Client.RequestLoop.compilerCommand (encode (String.ofList (executeAndExitText cmd)))
    some (.ran commandLine (machine.createProcess commandLine))
  | .locateFiles _ | .executeGetOutput _ => none

/-! ### Numbers -/

theorem exitCode_eq {data : Bytes} (h : data.length = 4) : exitCode data = (UInt32.ofNat (ofBE data)).toInt32 := by
  obtain ⟨d₀, d₁, d₂, d₃, rfl⟩ := List.length_eq_four.1 h
  rw [exitCode]
  congr 1
  apply UInt32.toNat_inj.1
  have h₀ := d₀.toNat_lt
  have h₁ := d₁.toNat_lt
  have h₂ := d₂.toNat_lt
  have h₃ := d₃.toNat_lt
  simp only [ofBE, UInt32.toNat_or, UInt32.toNat_shiftLeft, UInt8.toNat_toUInt32, UInt32.toNat_ofNat', List.length_cons,
    List.length_nil, UInt32.toNat_ofNat, Nat.reducePow, Nat.reduceMod]
  rw [Nat.mod_eq_of_lt (a := d₀.toNat <<< _) (by omega), Nat.mod_eq_of_lt (a := d₁.toNat <<< _) (by omega),
    Nat.mod_eq_of_lt (a := d₂.toNat <<< _) (by omega), Nat.or_assoc, Nat.or_assoc,
    ← Nat.shiftLeft_add_eq_or_of_lt (by omega : d₃.toNat < 2 ^ 8),
    ← Nat.shiftLeft_add_eq_or_of_lt (by omega : d₂.toNat <<< 8 + d₃.toNat < 2 ^ 16),
    ← Nat.shiftLeft_add_eq_or_of_lt (by omega : d₁.toNat <<< 16 + (d₂.toNat <<< 8 + d₃.toNat) < 2 ^ 24)]
  omega

/-- The client reads the exit code that the manager packs, up to 32 bits. -/
theorem exitCode_toBE (retcode : Int) : exitCode (toBE 4 (retcode % 2 ^ 32).toNat) = Int32.ofInt retcode := by
  rw [exitCode_eq (length_toBE _ _), ofBE_toBE (by omega)]
  apply Int32.toBitVec.inj
  rw [Int32.toBitVec_ofInt]
  apply BitVec.eq_of_toNat_eq
  simp [BitVec.toNat_ofInt]
  omega

/-- The text of a number has digits only. -/
theorem decimal_digits (n : Nat) : decimal n ≠ [] ∧ ∀ b ∈ decimal n, 48 ≤ b ∧ b ≤ 57 := by
  rw [decimal]
  split
  · simp
  · next hn =>
    refine ⟨by simpa using Nat.digits_ne_nil_iff_ne_zero.2 hn, fun b hb => ?_⟩
    obtain ⟨d, hd, rfl⟩ := List.mem_map.1 (List.mem_reverse.1 hb)
    have hlt := Nat.digits_lt_base (by decide : 1 < 10) hd
    simp only [UInt8.le_iff_toNat_le, UInt8.toNat_ofNat']
    simp
    omega

theorem digits_decimal (n : Nat) : digits (decimal n) = some (n : Int) := by
  obtain ⟨hne, hall⟩ := decimal_digits n
  have hfold : ∀ l : List Nat, (∀ d ∈ l, d < 10) →
      (l.map fun d => UInt8.ofNat (48 + d)).foldr (fun b (n : Int) => 10 * n + (b.toNat - 48 : Nat)) 0 =
        (Nat.ofDigits 10 l : Nat) := by
    intro l hl
    induction l with
    | nil => rfl
    | cons d l ih =>
      have hd := hl d (by simp)
      rw [List.map_cons, List.foldr_cons, ih fun d' h => hl d' (by simp [h]), Nat.ofDigits_cons]
      have : (UInt8.ofNat (48 + d)).toNat - 48 = d := by
        rw [UInt8.toNat_ofNat', Nat.mod_eq_of_lt (by omega)]
        omega
      rw [this]
      push_cast
      ring
  rw [digits, if_pos ⟨hne, by simpa using hall⟩, Option.some.injEq, decimal]
  split
  · next hn =>
    subst hn
    rfl
  · rw [List.foldl_reverse, hfold _ fun d hd => Nat.digits_lt_base (by decide) hd, Nat.ofDigits_digits]

theorem trim_eq {text : Bytes} (h : ∀ b ∈ text, ¬ isSpace b) :
    ((text.dropWhile isSpace).reverse.dropWhile isSpace).reverse = text := by
  have hdrop : ∀ l : Bytes, (∀ b ∈ l, ¬ isSpace b) → l.dropWhile isSpace = l := by
    intro l hl
    cases l with
    | nil => rfl
    | cons b l => rw [List.dropWhile_cons_of_neg (hl b (by simp))]
  rw [hdrop text h, hdrop _ fun b hb => h b (by simpa using hb), List.reverse_reverse]

/-- The manager reads the exit code that the client writes. -/
theorem toInt_toText (n : Int32) : toInt (toText n) = some n.toInt := by
  obtain ⟨hne, hall⟩ := decimal_digits n.toInt.natAbs
  have hspace : ∀ b ∈ decimal n.toInt.natAbs, ¬ isSpace b := by
    intro b hb
    have h := hall b hb
    simp only [UInt8.le_iff_toNat_le] at h
    simp only [isSpace, decide_eq_true_eq, not_or, not_and, UInt8.le_iff_toNat_le, ← UInt8.toNat_inj]
    simp at h ⊢
    omega
  by_cases hneg : n.toInt < 0
  · have hsp : ∀ b ∈ 45 :: decimal n.toInt.natAbs, ¬ isSpace b := by
      intro b hb
      rcases List.mem_cons.1 hb with rfl | hb
      · decide
      · exact hspace b hb
    rw [toInt, toText, if_pos hneg, trim_eq hsp]
    simp only [digits_decimal, Option.map_some]
    congr 1
    omega
  · rw [toInt, toText, if_neg hneg, trim_eq hspace]
    split
    · next rest heq =>
      have h := hall 43 (by simp [heq])
      exact absurd h.1 (by decide)
    · next rest heq =>
      have h := hall 45 (by simp [heq])
      exact absurd h.1 (by decide)
    · rw [digits_decimal]
      congr 1
      omega

/-! ### Requests -/

/-- A message that ends the conversation is done as it says. -/
theorem react_final {m : ClientMessage} (h : m.isFinal) (machine : Client.RequestLoop.Machine) (commandLine : Bytes) :
    ∃ o, outcome machine commandLine m = some o ∧ react machine commandLine (parts m) = .finish o := by
  cases m with
  | exit retcode stdout stderr =>
    refine ⟨_, rfl, ?_⟩
    have hne : encode "EXIT" ≠ Client.RequestLoop.text "RUN_LOCALLY" ∧
        encode "EXIT" ≠ Client.RequestLoop.text "EXECUTE_AND_EXIT" ∧
        encode "EXIT" ≠ Client.RequestLoop.text "EXECUTE_GET_OUTPUT" ∧
        encode "EXIT" = Client.RequestLoop.text "EXIT" := by decide
    simp only [parts, react, if_neg hne.1, if_neg hne.2.1, if_neg hne.2.2.1, if_pos hne.2.2.2, length_toBE, ne_eq,
      not_true_eq_false, if_false, exitCode_toBE]
  | runLocally =>
    have heq : encode "RUN_LOCALLY" = Client.RequestLoop.text "RUN_LOCALLY" := by decide
    exact ⟨_, rfl, by simp only [parts, react, if_pos heq]⟩
  | executeAndExit cmd =>
    have hne : encode "EXECUTE_AND_EXIT" ≠ Client.RequestLoop.text "RUN_LOCALLY" ∧
        encode "EXECUTE_AND_EXIT" = Client.RequestLoop.text "EXECUTE_AND_EXIT" := by decide
    exact ⟨_, rfl, by simp only [parts, react, if_neg hne.1, if_pos hne.2]⟩
  | locateFiles files => cases h
  | executeGetOutput cmd => cases h

theorem react_executeGetOutput (cmd : List String) (machine : Client.RequestLoop.Machine) (commandLine : Bytes) :
    (∃ code stdout stderr, react machine commandLine (parts (.executeGetOutput cmd)) =
      .send [toText code, stdout, stderr]) ∨
    react machine commandLine (parts (.executeGetOutput cmd)) = .finish (.fellBack .failedToCreateProcess) := by
  have hne : encode "EXECUTE_GET_OUTPUT" ≠ Client.RequestLoop.text "RUN_LOCALLY" ∧
      encode "EXECUTE_GET_OUTPUT" ≠ Client.RequestLoop.text "EXECUTE_AND_EXIT" ∧
      encode "EXECUTE_GET_OUTPUT" = Client.RequestLoop.text "EXECUTE_GET_OUTPUT" := by decide
  simp only [parts, react, if_neg hne.1, if_neg hne.2.1, if_pos hne.2.2]
  split
  · exact .inl ⟨_, _, _, rfl⟩
  · exact .inr rfl

theorem react_locateFiles {files : List Bytes} (h : files ≠ []) (machine : Client.RequestLoop.Machine)
    (commandLine : Bytes) : ∃ reply, react machine commandLine (parts (.locateFiles files)) = .send reply ∧
      reply.length = files.length := by
  have hne : encode "LOCATE_FILES" ≠ Client.RequestLoop.text "RUN_LOCALLY" ∧
      encode "LOCATE_FILES" ≠ Client.RequestLoop.text "EXECUTE_AND_EXIT" ∧
      encode "LOCATE_FILES" ≠ Client.RequestLoop.text "EXECUTE_GET_OUTPUT" ∧
      encode "LOCATE_FILES" ≠ Client.RequestLoop.text "EXIT" ∧
      encode "LOCATE_FILES" = Client.RequestLoop.text "LOCATE_FILES" := by decide
  simp only [parts, react, if_neg hne.1, if_neg hne.2.1, if_neg hne.2.2.1, if_neg hne.2.2.2.1, if_pos hne.2.2.2.2,
    if_neg h]
  exact ⟨_, rfl, by simp⟩

/-! ## Questions and answers -/

/-- What the manager has asked when it waits in this way. -/
inductive Question (cp : CommandProcessor) : ClientMessage → Prop where
  | output (cmd : List String) : cp.state = some .waitForCompilerInfoOutput → cp.testSource ≠ none →
    Question cp (.executeGetOutput cmd)
  | files : cp.state = some .waitForCompilerFileList → cp.compilerInfo ≠ none → cp.tmpCompilerFiles ≠ [] →
    Question cp (.locateFiles cp.tmpCompilerFiles)

/-- What the manager is there for: the exit code and the output of the test source, or a path for each file. -/
inductive Answer (cp : CommandProcessor) : Msg → Prop where
  | output (code : Int32) (stdout stderr : Bytes) : cp.state = some .waitForCompilerInfoOutput →
    cp.testSource ≠ none → Answer cp [toText code, stdout, stderr]
  | files {msg : Msg} : cp.state = some .waitForCompilerFileList → cp.compilerInfo ≠ none →
    msg.length = cp.tmpCompilerFiles.length → Answer cp msg

/-- The client answers what it is asked, unless it cannot run the compiler. -/
theorem Question.react {cp : CommandProcessor} {m : ClientMessage} (h : Question cp m)
    (machine : Client.RequestLoop.Machine) (commandLine : Bytes) :
    (∃ reply, Client.RequestLoop.react machine commandLine (parts m) = .send reply ∧ Answer cp reply) ∨
      Client.RequestLoop.react machine commandLine (parts m) = .finish (.fellBack .failedToCreateProcess) := by
  cases h with
  | output cmd hstate htest =>
    rcases react_executeGetOutput cmd machine commandLine with ⟨code, stdout, stderr, hr⟩ | hr
    · exact .inl ⟨_, hr, .output code stdout stderr hstate htest⟩
    · exact .inr hr
  | files hstate hinfo hne =>
    obtain ⟨reply, hr, hlen⟩ := react_locateFiles hne machine commandLine
    exact .inl ⟨reply, hr, .files hstate hinfo hlen⟩

theorem Question.not_final {cp : CommandProcessor} {m : ClientMessage} (h : Question cp m) : ¬ m.isFinal := by
  cases h <;> simp [ClientMessage.isFinal]

/-! ## What the manager says -/

/-- Nothing was said that ends the conversation. -/
def Open (s : ClientProcessor) : Prop := ∀ m ∈ said s, ¬ m.isFinal

/-- If there are tasks, the client hears of their results, and the linker's command can be made up. -/
def Resting (s : ClientProcessor) : Prop :=
  ∀ cp c, s.commandProcessor = some cp → cp.command = some c → c.replies = [] ∧ ∃ call, cp.options.linkCall = .ok call

/-- No task has its result still to come. -/
def Complete (s : ClientProcessor) : Prop := ∀ cp c, s.commandProcessor = some cp → cp.command = some c →
  c.tasks ⊆ c.completed

/-- What a call leaves: nothing is said, the client is asked, or it is told how to end. -/
inductive After (s s' : ClientProcessor) : Prop where
  | silent : said s' = said s → s'.requests = 0 → Resting s' → After s s'
  | asks {cp : CommandProcessor} {m : ClientMessage} : said s' = said s ++ [m] → s'.commandProcessor = some cp →
    cp.command = none → s'.requests = 1 → Question cp m → After s s'
  | tells {m : ClientMessage} : said s' = said s ++ [m] → m.isFinal → Complete s' → After s s'

section
variable {s s' : ClientProcessor} {cp : CommandProcessor} {env : Env} {msg : Msg}

theorem said_eq_sent (h : s.command = none) : said s = s.sent := by
  rw [said]
  cases hcp : s.commandProcessor with
  | none => simp
  | some cp =>
    have hcommand : cp.command = none := by simpa [ClientProcessor.command, hcp] using h
    simp [hcommand]

theorem said_setCommand (hs : s.command = none) (hcp : cp.command = none) : said (s.setCommand cp) = said s := by
  rw [said_eq_sent hs, said_eq_sent (s := s.setCommand cp) hcp]
  rfl

theorem resting_of_none (h : s.command = none) : Resting s := by
  intro cp c hcp hc
  simp [ClientProcessor.command, hcp, hc] at h

theorem complete_of_none (h : s.command = none) : Complete s := by
  intro cp c hcp hc
  simp [ClientProcessor.command, hcp, hc] at h

theorem After.of_said {s₀ : ClientProcessor} (h : After s s') (hsaid : said s = said s₀) : After s₀ s' := by
  cases h with
  | silent h hrequests hresting => exact .silent (h.trans hsaid) hrequests hresting
  | asks h hcp hcommand hrequests hq => exact .asks (hsaid ▸ h) hcp hcommand hrequests hq
  | tells h hfinal hcomplete => exact .tells (hsaid ▸ h) hfinal hcomplete

/-- Only the compiler for the client's tasks is another one. -/
def Retasked (f : CommandProcessor → CommandProcessor) : Prop :=
  ∀ cp, f cp = { cp with clientTaskCompiler := (f cp).clientTaskCompiler }

/-- The command processor is changed. -/
def mapped (s : ClientProcessor) (f : CommandProcessor → CommandProcessor) : ClientProcessor :=
  { s with commandProcessor := s.commandProcessor.map f }

section
variable {f : CommandProcessor → CommandProcessor} (hf : Retasked f)
include hf

theorem said_mapped : said (mapped s f) = said s := by
  rw [said, said, mapped]
  cases s.commandProcessor with
  | none => rfl
  | some cp =>
    simp only [Option.map_some]
    rw [hf cp]

theorem mapped_some {cp' : CommandProcessor} (h : (mapped s f).commandProcessor = some cp') :
    ∃ cp, s.commandProcessor = some cp ∧ cp' = { cp with clientTaskCompiler := (f cp).clientTaskCompiler } := by
  obtain ⟨cp, hcp, rfl⟩ := Option.map_eq_some_iff.1 h
  exact ⟨cp, hcp, hf cp⟩

theorem Resting.mapped (h : Resting s) : Resting (mapped s f) := by
  intro cp' c hcp' hc
  obtain ⟨cp, hcp, rfl⟩ := mapped_some hf hcp'
  exact h cp c hcp hc

theorem Complete.mapped (h : Complete s) : Complete (mapped s f) := by
  intro cp' c hcp' hc
  obtain ⟨cp, hcp, rfl⟩ := mapped_some hf hcp'
  exact h cp c hcp hc

theorem Question.mapped {m : ClientMessage} (h : Question cp m) : Question (f cp) m := by
  rw [hf cp]
  cases h with
  | output cmd hstate htest => exact .output cmd hstate htest
  | files hstate hinfo hne => exact @Question.files { cp with clientTaskCompiler := _ } hstate hinfo hne

theorem Answer.mapped (h : Answer cp msg) : Answer (f cp) msg := by
  rw [hf cp]
  cases h with
  | output code stdout stderr hstate htest => exact .output code stdout stderr hstate htest
  | files hstate hinfo hlen => exact @Answer.files { cp with clientTaskCompiler := _ } _ hstate hinfo hlen

theorem mapped_command (h : cp.command = none) : (f cp).command = none := by
  rw [hf cp]
  exact h

theorem After.mapped (h : After s s') : After s (mapped s' f) := by
  have hsaid := said_mapped (s := s') hf
  cases h with
  | silent h hrequests hresting => exact .silent (hsaid.trans h) hrequests (hresting.mapped hf)
  | @asks cp _ h hcp hcommand hrequests hq =>
    have hcp' : (ClientProtocol.mapped s' f).commandProcessor = some (f cp) := by
      rw [ClientProtocol.mapped, hcp, Option.map_some]
    exact .asks (hsaid.trans h) hcp' (mapped_command hf hcommand) hrequests (hq.mapped hf)
  | tells h hfinal hcomplete => exact .tells (hsaid.trans h) hfinal (hcomplete.mapped hf)

end

/-- While there is no command, what is sent is what is said. -/
theorem After.send {m : ClientMessage} (hs : s.command = none) (hfinal : m.isFinal) : After s (s.sendMsg m) := by
  have hs' : (s.sendMsg m).command = none := hs
  refine .tells ?_ hfinal (complete_of_none hs')
  rw [said_eq_sent hs', said_eq_sent hs]
  rfl

theorem After.ask {m : ClientMessage} (hcp : s.commandProcessor = some cp) (hcommand : cp.command = none)
    (hrequests : s.requests = 0) (hq : Question cp m) : After s (s.sendMsg m) := by
  have hs : s.command = none := by rw [ClientProcessor.command, hcp, Option.bind_some, hcommand]
  have hs' : (s.sendMsg m).command = none := hs
  refine .asks ?_ hcp hcommand ?_ hq
  · rw [said_eq_sent hs', said_eq_sent hs]
    rfl
  · rw [ClientProcessor.sendMsg_requests, if_neg hq.not_final, hrequests]

theorem After.rest (hs : s.command = none) (hrequests : s.requests = 0) : After s s :=
  .silent rfl hrequests (resting_of_none hs)

theorem createTasks_after (hs : s.command = none) (hrequests : s.requests = 0) (info : CompilerInfo) :
    After s (s.createTasks env cp info).1 := by
  cases htasks : cp.options.createTasks env.disk cp.cwd with
  | error e =>
    simp only [ClientProcessor.createTasks, htasks]
    exact .silent rfl hrequests (resting_of_none hs)
  | ok tasks =>
    simp only [ClientProcessor.createTasks, htasks]
    split
    · refine .tells (m := .runLocally) ?_ rfl ?_
      · rw [said_eq_sent hs]
        simp [said]
      · intro cp' c hcp' hc
        cases hcp'
        cases hc
        exact List.nil_subset _
    · refine .silent ?_ hrequests ?_
      · rw [said_eq_sent hs]
        simp [said]
      · intro cp' c hcp' hc
        cases hcp'
        cases hc
        obtain ⟨files, hfiles, -⟩ := CompileOptions.createTasks_files htasks
        exact ⟨rfl, _, CompileOptions.linkCall_eq hfiles⟩

/-- What a new client is told or asked. -/
theorem handleNewClient_after (hcp : s.commandProcessor = none) (hrequests : s.requests = 0) :
    After s (s.handleNewClient env msg).1 := by
  have hs : s.command = none := by rw [ClientProcessor.command, hcp, Option.bind_none]
  rw [ClientProcessor.handleNewClient]
  cases hnew : newCommandProcessor env msg with
  | error e => exact .rest hs hrequests
  | ok cp =>
  obtain ⟨executable, cwd, args, -, rfl⟩ := newCommandProcessor_ok.1 hnew
  simp only
  split
  · exact (After.send (s := s.setCommand _) rfl rfl).of_said (said_setCommand hs rfl)
  split
  · exact (After.send (s := s.setCommand _) rfl rfl).of_said (said_setCommand hs rfl)
  split
  · next info _ =>
    exact (createTasks_after (s := (s.setCommand _).setCommand _) rfl hrequests info).of_said (said_setCommand hs rfl)
  · rw [ClientProcessor.requestCompilerInfo]
    cases hsource : env.prepareTestSource with
    | none => exact (After.rest (s := s.setCommand _) rfl hrequests).of_said (said_setCommand hs rfl)
    | some source =>
      exact (After.ask (s := (s.setCommand _).setCommand _) rfl rfl hrequests (.output _ rfl (by simp))).of_said
        (said_setCommand hs rfl)

theorem gotCompilerOutput_after (hfiles : ∀ executable stdout stderr info files,
      env.getCompilerInfo executable stdout stderr = some (info, files) → files ≠ [])
    (hcp : s.commandProcessor = some cp) (hcommand : cp.command = none) (hrequests : s.requests = 0) :
    After s (s.gotCompilerOutput env cp msg).1 := by
  have hs : s.command = none := by rw [ClientProcessor.command, hcp, Option.bind_some, hcommand]
  rw [ClientProcessor.gotCompilerOutput]
  split
  · exact .rest hs hrequests
  split
  · exact .rest hs hrequests
  have hset' : said (s.setCommand { cp with testSource := none }) = said s := said_setCommand hs hcommand
  simp only
  split
  · exact (After.rest (s := s.setCommand { cp with testSource := none }) hcommand hrequests).of_said hset'
  split
  · exact (After.send (s := s.setCommand { cp with testSource := none }) (m := .exit _ _ _) hcommand rfl).of_said hset'
  split
  · exact (After.send (s := s.setCommand { cp with testSource := none }) (m := .runLocally) hcommand rfl).of_said hset'
  · next info files hinfo =>
    have hne := hfiles _ _ _ _ _ hinfo
    exact (After.ask (s := s.setCommand { cp with
        testSource := none, compilerInfo := some info, tmpCompilerFiles := files,
        state := some .waitForCompilerFileList }) (m := .locateFiles files) rfl hcommand hrequests
      (.files rfl (by simp) hne)).of_said (said_setCommand hs hcommand)

theorem gotFileList_after (hcp : s.commandProcessor = some cp) (hcommand : cp.command = none)
    (hrequests : s.requests = 0) : After s (s.gotFileList env cp msg).1 := by
  have hs : s.command = none := by rw [ClientProcessor.command, hcp, Option.bind_some, hcommand]
  rw [ClientProcessor.gotFileList]
  split
  · exact .rest hs hrequests
  split
  · exact .rest hs hrequests
  · next info _ =>
    simp only
    let located := { info with files := msg.zip cp.tmpCompilerFiles }
    let ready := { cp with compilerInfo := some located, state := some .ready }
    have hready : (s.setCommand ready).command = none := hcommand
    have h : After s ((s.setCommand ready).createTasks env ready located).1 :=
      (createTasks_after hready hrequests located).of_said (said_setCommand hs hcommand)
    split
    · next s' e hr =>
      rw [hr] at h
      exact h
    · next s' hr =>
      rw [hr] at h
      exact h.mapped (f := CommandProcessor.clientIsReady) fun _ => rfl

/-- The manager takes an answer that it waits for. -/
theorem processMsg_after (machine : ManagerMachine) (hcp : s.commandProcessor = some cp) (hcommand : cp.command = none)
    (hrequests : s.requests = 1) (h : Answer cp msg) : After s (s.processMsg machine.env msg).1 := by
  have hreplied : s.replied.requests = 0 := by rw [ClientProcessor.replied, hrequests]
  have hfiles : ∀ executable stdout stderr info files,
      machine.env.getCompilerInfo executable stdout stderr = some (info, files) → files ≠ [] := by
    intro executable stdout stderr info files hinfo
    exact MSVCCompiler.getCompilerInfo_files hinfo
  have hsaid : said s.replied = said s := rfl
  rw [ClientProcessor.processMsg, hcp]
  simp only [ClientProcessor.gotDataFromClient]
  cases h with
  | output code stdout stderr hstate htest =>
    simp only [hstate]
    exact (gotCompilerOutput_after (s := s.replied) hfiles hcp hcommand hreplied).of_said hsaid
  | files hstate hinfo hlen =>
    simp only [hstate]
    exact (gotFileList_after (s := s.replied) hcp hcommand hreplied).of_said hsaid

theorem replyMessage_final {o : CompileOptions} {call : List String} (h : o.linkCall = .ok call) (r : ClientReply) :
    ∃ m, replyMessage o r = [m] ∧ m.isFinal := by
  cases r with
  | exit retcode stdout stderr => exact ⟨_, rfl, rfl⟩
  | executeAndExit => exact ⟨_, by rw [replyMessage, h], rfl⟩

/-- A result that is not waited for is refused. -/
theorem taskCompleted_refused {task : TaskId} {result : TaskResult} (h : Complete s) :
    s.handle (.taskCompleted task result) = s := by
  rw [ClientProcessor.handle]
  cases hcp : s.commandProcessor with
  | none => rw [Option.map_none, ← hcp]
  | some cp =>
  have hnone : cp.taskCompleted task result = none := by
    rw [CommandProcessor.taskCompleted]
    cases hc : cp.command with
    | none => rfl
    | some c =>
      rw [Option.bind_some, if_neg]
      rintro ⟨htask, hnot⟩
      exact hnot (h cp c hcp hc htask)
  rw [Option.map_some, hnone, Option.getD_none, ← hcp]

/-- The client hears of the results when the last one is there. -/
theorem taskCompleted_after {task : TaskId} {result : TaskResult} (hrequests : s.requests = 0) (h : Resting s) :
    After s (s.handle (.taskCompleted task result)) := by
  rw [ClientProcessor.handle]
  cases hcp : s.commandProcessor with
  | none => exact .silent (by simp [said, hcp]) hrequests (by simp [Resting])
  | some cp =>
  simp only [Option.map_some]
  cases hdone : cp.taskCompleted task result with
  | none =>
    rw [Option.getD_none, ← hcp]
    exact .silent rfl hrequests h
  | some cp' =>
    obtain ⟨c, hc, -, rfl⟩ := ClientProcessor.taskCompleted_cases hdone
    obtain ⟨hreplies, call, hcall⟩ := h cp c hcp hc
    have hsaid : said s = s.sent := by simp [said, hcp, hc, hreplies]
    rw [Option.getD_some, Scheduler.Command.postprocessIfDone]
    split
    · next hall =>
      obtain ⟨r, hr⟩ : ∃ r, (c.addResult task result).postprocess.replies = [r] := by
        rw [Scheduler.Command.postprocess, Scheduler.Command.addResult]
        exact ⟨_, by rw [hreplies, List.nil_append]⟩
      obtain ⟨m, hm, hfinal⟩ := replyMessage_final hcall r
      refine .tells (m := m) ?_ hfinal ?_
      · rw [hsaid]
        simp [said, hr, hm]
      · intro cp' c' hcp' hc'
        cases hcp'
        cases hc'
        intro t ht
        simp only [Scheduler.Command.sameElements, Bool.and_eq_true, List.all_eq_true, decide_eq_true_eq] at hall
        exact hall.1 t ht
    · refine .silent ?_ hrequests ?_
      · rw [hsaid]
        simp [said, Scheduler.Command.addResult, hreplies]
      · intro cp' c' hcp' hc'
        cases hcp'
        cases hc'
        exact ⟨hreplies, call, hcall⟩

end

/-! ## What is on its way -/

/-- The client has given up, for no fault of the conversation. -/
def Client.GaveUp (client : Client) : Prop :=
  ∃ reason, client = .finished (.fellBack reason) ∧
    (reason = .failedToCreateProcess ∨ ∃ text, reason = .trouble text)

def Client.Connected (client : Client) : Prop := client = .waiting ∨ client.GaveUp

/-- The last thing that was said, and the only one, is how to end. -/
structure Told (s : ClientProcessor) (m : ClientMessage) : Prop where
  last : ∃ before, said s = before ++ [m] ∧ ∀ m ∈ before, ¬ m.isFinal
  final : m.isFinal
  complete : Complete s

/-- The state of the conversation: whose turn it is, and what is on its way. -/
inductive Link (command : Command) (cl : CommandLineParser) (t : System) : Prop where
  | fresh : t.manager.commandProcessor = none → t.manager.sent = [] → t.manager.requests = 0 → t.toManager = [] →
    t.toClient = [] → t.client = .starting ∨ t.client.GaveUp → Link command cl t
  | calling {msg : Msg} : command.initMessage cl = some msg → t.manager.commandProcessor = none → t.manager.sent = [] →
    t.manager.requests = 0 → t.toManager = [msg] → t.toClient = [] → t.client.Connected → Link command cl t
  | asked {cp : CommandProcessor} {m : ClientMessage} : t.manager.commandProcessor = some cp → cp.command = none →
    Open t.manager → t.manager.requests = 1 → Question cp m → t.toManager = [] → t.toClient = [parts m] →
    t.client.Connected → Link command cl t
  | answered {cp : CommandProcessor} {msg : Msg} : t.manager.commandProcessor = some cp → cp.command = none →
    Open t.manager → t.manager.requests = 1 → Answer cp msg → t.toManager = [msg] → t.toClient = [] →
    t.client.Connected → Link command cl t
  | abandoned {cp : CommandProcessor} : t.manager.commandProcessor = some cp → cp.command = none → Open t.manager →
    t.toManager = [] → t.toClient = [] → t.client.GaveUp → Link command cl t
  | idle : Open t.manager → t.manager.requests = 0 → Resting t.manager → t.toManager = [] → t.toClient = [] →
    t.client.Connected → Link command cl t
  | told {m : ClientMessage} : Told t.manager m → t.toManager = [] → t.toClient = [parts m] → t.client.Connected →
    Link command cl t
  | closed {m : ClientMessage} {machine : Client.RequestLoop.Machine} {o : Outcome} : Told t.manager m →
    t.toManager = [] → t.toClient = [] → outcome machine command.commandLine m = some o → t.client = .finished o →
    Link command cl t

section
variable {command : Command} {cl : CommandLineParser} {t t' : System}

theorem open_of_fresh {s : ClientProcessor} (hcp : s.commandProcessor = none) (hsent : s.sent = []) : Open s := by
  simp [Open, said, hcp, hsent]

theorem managed_eq {s : ClientProcessor} {new : List ClientMessage} (h : said s = said t.manager ++ new) :
    t.managed s = { t with manager := s, toClient := t.toClient ++ new.map parts } := by
  rw [System.managed, h, List.drop_left]

theorem managed_same {s : ClientProcessor} (h : said s = said t.manager) :
    t.managed s = { t with manager := s } := by
  rw [managed_eq (h.trans (List.append_nil _).symm), List.map_nil, List.append_nil]

/-- With nothing on its way, the manager was called. -/
theorem After.link {s : ClientProcessor} (h : After t.manager s) (hopen : Open t.manager) (hto : t.toManager = [])
    (hclient : t.toClient = []) (hconnected : t.client.Connected) : Link command cl (t.managed s) := by
  cases h with
  | silent hsaid hrequests hresting =>
    rw [managed_same hsaid]
    refine .idle ?_ hrequests hresting hto hclient hconnected
    rw [Open, hsaid]
    exact hopen
  | @asks cp m hsaid hcp hcommand hrequests hq =>
    rw [managed_eq hsaid]
    refine .asked hcp hcommand ?_ hrequests hq hto (by simp [hclient]) hconnected
    intro m' hm'
    rw [hsaid] at hm'
    rcases List.mem_append.1 hm' with hm' | hm'
    · exact hopen m' hm'
    · rw [List.mem_singleton.1 hm']
      exact hq.not_final
  | @tells m hsaid hfinal hcomplete =>
    rw [managed_eq hsaid]
    exact .told ⟨⟨_, hsaid, hopen⟩, hfinal, hcomplete⟩ hto (by simp [hclient]) hconnected

/-- Only the compiler for the client's tasks, and what is known of other compilers, changes. -/
theorem link_mapped {f : CommandProcessor → CommandProcessor} (hf : Retasked f)
    {cache : String → Option CompilerInfo} (h : Link command cl t) :
    Link command cl (t.managed { mapped t.manager f with compilerInfoCache := cache }) := by
  have hsaid : said { mapped t.manager f with compilerInfoCache := cache } = said t.manager := by
    rw [← said_mapped (s := t.manager) hf]
    rfl
  have hopen : Open t.manager → Open { mapped t.manager f with compilerInfoCache := cache } := by
    intro h
    rw [Open, hsaid]
    exact h
  have hsome : ∀ {cp}, t.manager.commandProcessor = some cp →
      ({ mapped t.manager f with compilerInfoCache := cache } : ClientProcessor).commandProcessor = some (f cp) := by
    intro cp hcp
    rw [ClientProtocol.mapped, hcp, Option.map_some]
  have hnone : t.manager.commandProcessor = none →
      ({ mapped t.manager f with compilerInfoCache := cache } : ClientProcessor).commandProcessor = none := by
    intro hcp
    rw [ClientProtocol.mapped, hcp, Option.map_none]
  have htold : ∀ {m}, Told t.manager m → Told { mapped t.manager f with compilerInfoCache := cache } m := by
    intro m h
    refine ⟨?_, h.final, h.complete.mapped hf⟩
    rw [hsaid]
    exact h.last
  rw [managed_same hsaid]
  cases h with
  | fresh hcp hsent hrequests hto hclient hc => exact .fresh (hnone hcp) hsent hrequests hto hclient hc
  | calling hmsg hcp hsent hrequests hto hclient hc => exact .calling hmsg (hnone hcp) hsent hrequests hto hclient hc
  | asked hcp hcommand ho hrequests hq hto hclient hc =>
    exact .asked (hsome hcp) (mapped_command hf hcommand) (hopen ho) hrequests (hq.mapped hf) hto hclient hc
  | answered hcp hcommand ho hrequests ha hto hclient hc =>
    exact .answered (hsome hcp) (mapped_command hf hcommand) (hopen ho) hrequests (ha.mapped hf) hto hclient hc
  | abandoned hcp hcommand ho hto hclient hc =>
    exact .abandoned (hsome hcp) (mapped_command hf hcommand) (hopen ho) hto hclient hc
  | idle ho hrequests hresting hto hclient hc =>
    exact .idle (hopen ho) hrequests (hresting.mapped hf) hto hclient hc
  | told h hto hclient hc => exact .told (htold h) hto hclient hc
  | closed h hto hclient ho hc => exact .closed (htold h) hto hclient ho hc

theorem taskCompleted_link {task : TaskId} {result : TaskResult} (h : Link command cl t) :
    Link command cl (t.managed (t.manager.handle (.taskCompleted task result))) := by
  have hsame : Complete t.manager → Link command cl (t.managed (t.manager.handle (.taskCompleted task result))) := by
    intro hcomplete
    rw [taskCompleted_refused hcomplete, managed_same rfl]
    exact h
  have hcommand : ∀ {cp}, t.manager.commandProcessor = some cp → cp.command = none → Complete t.manager := by
    intro cp hcp hcommand
    apply complete_of_none
    rw [ClientProcessor.command, hcp, Option.bind_some, hcommand]
  have hfresh : t.manager.commandProcessor = none → Complete t.manager := by
    intro hcp
    apply complete_of_none
    rw [ClientProcessor.command, hcp, Option.bind_none]
  cases h with
  | fresh hcp => exact hsame (hfresh hcp)
  | calling _ hcp => exact hsame (hfresh hcp)
  | asked hcp hc => exact hsame (hcommand hcp hc)
  | answered hcp hc => exact hsame (hcommand hcp hc)
  | abandoned hcp hc => exact hsame (hcommand hcp hc)
  | idle ho hrequests hresting hto hclient hconnected =>
    exact (taskCompleted_after hrequests hresting).link ho hto hclient hconnected
  | told h => exact hsame h.complete
  | closed h => exact hsame h.complete

theorem connect_link (h : Link command cl t) (hs : step command cl t .connect = some t') : Link command cl t' := by
  simp only [step] at hs
  split at hs
  · cases hs
  next hstarting =>
  have hstarting := Classical.not_not.1 hstarting
  have hno : ¬ t.client.Connected := by
    rw [hstarting]
    rintro (h | ⟨reason, h, -⟩) <;> cases h
  cases h with
  | fresh hcp hsent hrequests hto hclient hc =>
    split at hs
    · cases hs
      exact .fresh hcp hsent hrequests hto hclient (.inr ⟨_, rfl, .inr ⟨_, rfl⟩⟩)
    · next msg hmsg =>
      cases hs
      exact .calling hmsg hcp hsent hrequests (by simp [hto]) hclient (.inl rfl)
  | calling _ _ _ _ _ _ hc => exact absurd hc hno
  | asked _ _ _ _ _ _ _ hc => exact absurd hc hno
  | answered _ _ _ _ _ _ _ hc => exact absurd hc hno
  | abandoned _ _ _ _ _ hc => exact absurd (.inr hc) hno
  | idle _ _ _ _ _ hc => exact absurd hc hno
  | told _ _ _ hc => exact absurd hc hno
  | closed _ _ _ _ hc =>
    rw [hstarting] at hc
    cases hc

theorem giveUp_link {reason : Bytes} (h : Link command cl t) (hs : step command cl t (.giveUp reason) = some t') :
    Link command cl t' := by
  have hgave : Client.GaveUp (.finished (.fellBack (.trouble reason))) := ⟨_, rfl, .inr ⟨_, rfl⟩⟩
  simp only [step] at hs
  split at hs
  · cases hs
  next hrunning =>
  cases hs
  cases h with
  | fresh hcp hsent hrequests hto hclient => exact .fresh hcp hsent hrequests hto hclient (.inr hgave)
  | calling hmsg hcp hsent hrequests hto hclient => exact .calling hmsg hcp hsent hrequests hto hclient (.inr hgave)
  | asked hcp hcommand ho hrequests hq hto hclient =>
    exact .asked hcp hcommand ho hrequests hq hto hclient (.inr hgave)
  | answered hcp hcommand ho hrequests ha hto hclient =>
    exact .answered hcp hcommand ho hrequests ha hto hclient (.inr hgave)
  | abandoned hcp hcommand ho hto hclient => exact .abandoned hcp hcommand ho hto hclient hgave
  | idle ho hrequests hresting hto hclient => exact .idle ho hrequests hresting hto hclient (.inr hgave)
  | told h hto hclient => exact .told h hto hclient (.inr hgave)
  | closed _ _ _ _ hc => exact absurd hc (hrunning _)

/-- The client does what it is asked, or told. -/
theorem request_link {machine : Client.RequestLoop.Machine} (h : Link command cl t)
    (hs : step command cl t (.request machine) = some t') : Link command cl t' := by
  simp only [step] at hs
  split at hs
  swap
  · cases hs
  next msg rest hwaiting hqueue =>
  have hne : t.toClient ≠ [] := by simp [hqueue]
  cases h with
  | fresh _ _ _ _ hclient => exact absurd hclient hne
  | calling _ _ _ _ _ hclient => exact absurd hclient hne
  | @asked cp m hcp hcommand ho hrequests hq hto hclient hc =>
    rw [hqueue] at hclient
    obtain ⟨rfl, rfl⟩ := List.cons.inj hclient
    rcases hq.react machine command.commandLine with ⟨reply, hr, ha⟩ | hr
    · rw [hr] at hs
      cases hs
      exact .answered hcp hcommand ho hrequests ha (by simp [hto]) rfl hc
    · rw [hr] at hs
      cases hs
      exact .abandoned hcp hcommand ho hto rfl ⟨_, rfl, .inl rfl⟩
  | answered _ _ _ _ _ _ hclient => exact absurd hclient hne
  | abandoned _ _ _ _ hclient => exact absurd hclient hne
  | idle _ _ _ _ hclient => exact absurd hclient hne
  | @told m h hto hclient hc =>
    rw [hqueue] at hclient
    obtain ⟨rfl, rfl⟩ := List.cons.inj hclient
    obtain ⟨o, ho, hr⟩ := react_final h.final machine command.commandLine
    rw [hr] at hs
    cases hs
    exact .closed h hto rfl ho rfl
  | closed _ _ hclient => exact absurd hclient hne

/-- The manager takes the client's command, or its answer. -/
theorem deliver_link {machine : ManagerMachine} (h : Link command cl t)
    (hs : step command cl t (.deliver machine) = some t') : Link command cl t' := by
  simp only [step] at hs
  split at hs
  · cases hs
  split at hs
  · cases hs
  next msg rest hqueue =>
  cases hs
  have hne : t.toManager ≠ [] := by simp [hqueue]
  cases h with
  | fresh _ _ _ hto => exact absurd hto hne
  | @calling msg' hmsg hcp hsent hrequests hto hclient hc =>
    rw [hqueue] at hto
    obtain ⟨rfl, rfl⟩ := List.cons.inj hto
    have hafter : After t.manager (t.manager.processMsg machine.env msg).1 := by
      rw [ClientProcessor.processMsg, hcp]
      have hreplied : t.manager.replied.requests = 0 := by rw [ClientProcessor.replied, hrequests]
      exact (handleNewClient_after (s := t.manager.replied) hcp hreplied).of_said rfl
    exact hafter.link (t := { t with toManager := [] }) (open_of_fresh hcp hsent) rfl hclient hc
  | asked _ _ _ _ _ hto => exact absurd hto hne
  | @answered cp msg' hcp hcommand ho hrequests ha hto hclient hc =>
    rw [hqueue] at hto
    obtain ⟨rfl, rfl⟩ := List.cons.inj hto
    exact (processMsg_after machine hcp hcommand hrequests ha).link (t := { t with toManager := [] }) ho rfl hclient hc
  | abandoned _ _ _ hto => exact absurd hto hne
  | idle _ _ _ hto => exact absurd hto hne
  | told _ hto => exact absurd hto hne
  | closed _ hto => exact absurd hto hne

theorem step_link {e : Event} (h : Link command cl t) (hs : step command cl t e = some t') : Link command cl t' := by
  cases e with
  | connect => exact connect_link h hs
  | giveUp reason => exact giveUp_link h hs
  | request machine => exact request_link h hs
  | deliver machine => exact deliver_link h hs
  | taskCompleted task result =>
    cases hs
    exact taskCompleted_link h
  | cannotDistribute task =>
    cases hs
    have hf : Retasked fun cp => cp.compileOnClient task := by
      intro cp
      simp only [CommandProcessor.compileOnClient]
      split <;> rfl
    have hsame : t.manager.handle (.cannotDistribute task) =
        { mapped t.manager fun cp => cp.compileOnClient task with
          compilerInfoCache := t.manager.compilerInfoCache } := rfl
    rw [hsame]
    exact link_mapped hf h
  | cached executable info =>
    cases hs
    have hsame : t.manager.handle (.cached executable info) =
        { mapped t.manager id with
          compilerInfoCache := (t.manager.handle (.cached executable info)).compilerInfoCache } := by
      simp [ClientProcessor.handle, ClientProtocol.mapped]
    rw [hsame]
    exact link_mapped (fun _ => rfl) h

/-! ## Runs -/

def start (id : Scheduler.CommandId) (cache : String → Option CompilerInfo) : System :=
  { manager := { id := id, compilerInfoCache := cache } }

theorem link_start (id : Scheduler.CommandId) (cache : String → Option CompilerInfo) :
    Link command cl (start id cache) := .fresh rfl rfl rfl rfl rfl (.inl rfl)

theorem link_run {id : Scheduler.CommandId} {cache : String → Option CompilerInfo} {events : List Event}
    (hr : run (step command cl) (start id cache) events = some t) : Link command cl t :=
  Lib.run_inv (step command cl) (fun _ _ _ h hs => step_link h hs) (link_start id cache) hr

theorem Open.any_final {s : ClientProcessor} (h : Open s) : (said s).any (·.isFinal) = false := by
  simpa [Open] using h

theorem GaveUp.finished {client : Client} (h : client.GaveUp) : ∃ o, client = .finished o := by
  obtain ⟨reason, h, -⟩ := h
  exact ⟨_, h⟩

/-! ### Progress -/

/-- What the manager's machine has to do when the next message is taken; of the client nothing is asked. -/
def Works (command : Command) (cl : CommandLineParser) (t : System) : Event → Prop
  | .deliver machine =>
    match t.manager.commandProcessor with
    | none => ∀ msg, command.initMessage cl = some msg → t.manager.Accepts machine.env msg
    | some cp =>
      (cp.state = some .waitForCompilerInfoOutput → ∀ source, cp.testSource = some source → machine.destroy source) ∧
        (cp.state = some .waitForCompilerFileList → cp.options.Creatable machine.disk cp.cwd)
  | _ => True

structure Progressing (command : Command) (cl : CommandLineParser) (t : System) : Prop where
  link : Link command cl t
  served : t.manager.Served
  called : t.client = .waiting → t.manager.commandProcessor ≠ none ∨ t.toManager ≠ []

theorem some_of_obliged {s : ClientProcessor} (hi : s.Inv) (h : s.Obliged) : s.commandProcessor ≠ none := by
  intro hnone
  obtain ⟨hrequests, hsent⟩ := hi.idle hnone
  have hcommand : s.command = none := by rw [ClientProcessor.command, hnone, Option.bind_none]
  rcases h with (⟨m, hm, -⟩ | ⟨c, hc, -⟩) | h | ⟨c, hc, -⟩
  · simp [hsent] at hm
  · simp [hcommand] at hc
  · omega
  · simp [hcommand] at hc

/-- An answer goes through if the manager's machine does its part. -/
theorem Answer.goesThrough {s : ClientProcessor} {cp : CommandProcessor} {msg : Msg} {machine : ManagerMachine}
    (h : Answer cp msg) (hcp : s.commandProcessor = some cp)
    (hdestroy : cp.state = some .waitForCompilerInfoOutput → ∀ source, cp.testSource = some source →
      machine.destroy source)
    (hcreatable : cp.state = some .waitForCompilerFileList → cp.options.Creatable machine.disk cp.cwd) :
    s.GoesThrough machine.env msg := by
  simp only [ClientProcessor.GoesThrough, hcp]
  cases h with
  | output code stdout stderr hstate htest =>
    obtain ⟨source, hsource⟩ := Option.ne_none_iff_exists'.1 htest
    simp only [hstate]
    exact .inr ⟨⟨source, hsource, hdestroy hstate source hsource⟩, _, _, _, [], rfl, by simp [toInt_toText]⟩
  | files hstate _ hlen =>
    simp only [hstate]
    exact .inr ⟨hlen, hcreatable hstate⟩

theorem deliver_goesThrough {machine : ManagerMachine} {msg : Msg} {rest : List Msg} (h : Link command cl t)
    (hworks : Works command cl t (.deliver machine)) (hqueue : t.toManager = msg :: rest) :
    t.manager.GoesThrough machine.env msg := by
  have hne : t.toManager ≠ [] := by simp [hqueue]
  rw [Works] at hworks
  cases h with
  | fresh _ _ _ hto => exact absurd hto hne
  | calling hmsg hcp _ _ hto =>
    rw [hqueue] at hto
    obtain ⟨rfl, rfl⟩ := List.cons.inj hto
    simp only [hcp] at hworks
    simp only [ClientProcessor.GoesThrough, hcp]
    exact hworks msg hmsg
  | asked _ _ _ _ _ hto => exact absurd hto hne
  | answered hcp _ _ _ ha hto =>
    rw [hqueue] at hto
    obtain ⟨rfl, rfl⟩ := List.cons.inj hto
    simp only [hcp] at hworks
    exact ha.goesThrough hcp hworks.1 hworks.2
  | abandoned _ _ _ hto => exact absurd hto hne
  | idle _ _ _ hto => exact absurd hto hne
  | told _ hto => exact absurd hto hne
  | closed _ hto => exact absurd hto hne

/-- The manager went on without a message. -/
theorem Progressing.managed {e : ClientProcessor.Event} (h : Progressing command cl t) (hcond : t.manager.Cond e)
    (hlink : Link command cl (t.managed (t.manager.handle e)))
    (hkeeps : t.manager.commandProcessor ≠ none → (t.manager.handle e).commandProcessor ≠ none) :
    Progressing command cl (t.managed (t.manager.handle e)) where
  link := hlink
  served := h.served.step hcond rfl
  called hwaiting := (h.called hwaiting).imp_left hkeeps

theorem step_progressing {e : Event} (h : Progressing command cl t) (hworks : Works command cl t e)
    (hs : step command cl t e = some t') : Progressing command cl t' := by
  have hlink := step_link h.link hs
  cases e with
  | connect =>
    simp only [step] at hs
    split at hs
    · cases hs
    split at hs
    · cases hs
      exact ⟨hlink, h.served, by simp⟩
    · cases hs
      exact ⟨hlink, h.served, by simp⟩
  | giveUp reason =>
    simp only [step] at hs
    split at hs
    · cases hs
    · cases hs
      exact ⟨hlink, h.served, by simp⟩
  | request machine =>
    simp only [step] at hs
    split at hs
    · split at hs
      · cases hs
        exact ⟨hlink, h.served, by simp⟩
      · cases hs
        exact ⟨hlink, h.served, by simp⟩
    · cases hs
  | deliver machine =>
    simp only [step] at hs
    split at hs
    · cases hs
    split at hs
    · cases hs
    next msg rest hqueue =>
    cases hs
    have hgoes := deliver_goesThrough h.link hworks hqueue
    obtain ⟨hi, hobliged⟩ :
        (t.manager.processMsg machine.env msg).1.Inv ∧ _ :=
      ClientProcessor.processMsg_obliged h.served.toInv h.served.obliged
    refine ⟨hlink, ⟨hi, fun _ => hobliged.2 hgoes⟩, fun _ => .inl ?_⟩
    exact some_of_obliged hi (hobliged.2 hgoes)
  | taskCompleted task result =>
    cases hs
    exact h.managed trivial hlink (by simp [ClientProcessor.handle])
  | cannotDistribute task =>
    cases hs
    exact h.managed trivial hlink (by simp [ClientProcessor.handle])
  | cached executable info =>
    cases hs
    exact h.managed trivial hlink id

theorem progressing_start (id : Scheduler.CommandId) (cache : String → Option CompilerInfo) :
    Progressing command cl (start id cache) :=
  ⟨link_start id cache, ClientProcessor.served_start id cache, by simp [start]⟩

theorem Told.getLast {s : ClientProcessor} {m : ClientMessage} (h : Told s m) : (said s).getLast? = some m := by
  obtain ⟨before, hsaid, -⟩ := h.last
  simp [hsaid]

theorem Told.nothing_after {s : ClientProcessor} {m m' : ClientMessage} {before after : List ClientMessage}
    (h : Told s m) (hsaid : said s = before ++ m' :: after) (hfinal : m'.isFinal) : after = [] := by
  obtain ⟨before', hlast, hopen⟩ := h.last
  cases after using List.reverseRecOn with
  | nil => rfl
  | append_singleton after x =>
    have heq : before' ++ [m] = (before ++ m' :: after) ++ [x] := by
      rw [← hlast, hsaid]
      simp
    obtain ⟨hbefore, -⟩ := List.append_inj' heq rfl
    exact absurd hfinal (hopen m' (by simp [hbefore]))

/-- The manager has told the client how to end, or not yet. -/
theorem Link.open_or_told (h : Link command cl t) : Open t.manager ∨ ∃ m, Told t.manager m := by
  cases h with
  | fresh hcp hsent => exact .inl (open_of_fresh hcp hsent)
  | calling _ hcp hsent => exact .inl (open_of_fresh hcp hsent)
  | asked _ _ ho => exact .inl ho
  | answered _ _ ho => exact .inl ho
  | abandoned _ _ ho => exact .inl ho
  | idle ho => exact .inl ho
  | told h => exact .inr ⟨_, h⟩
  | closed h => exact .inr ⟨_, h⟩

theorem Link.ended (h : Link command cl t) {o : Outcome} (ho : t.client = .finished o) : t.client.GaveUp ∨
    ∃ m machine, Told t.manager m ∧ outcome machine command.commandLine m = some o := by
  have hconnected : t.client.Connected → t.client.GaveUp := by
    rintro (hw | hg)
    · rw [ho] at hw
      cases hw
    · exact hg
  cases h with
  | fresh _ _ _ _ _ hc =>
    refine .inl (hc.resolve_left ?_)
    rw [ho]
    simp
  | calling _ _ _ _ _ _ hc => exact .inl (hconnected hc)
  | asked _ _ _ _ _ _ _ hc => exact .inl (hconnected hc)
  | answered _ _ _ _ _ _ _ hc => exact .inl (hconnected hc)
  | abandoned _ _ _ _ _ hc => exact .inl hc
  | idle _ _ _ _ _ hc => exact .inl (hconnected hc)
  | told _ _ _ hc => exact .inl (hconnected hc)
  | closed h _ _ hout hc =>
    rw [ho] at hc
    cases hc
    exact .inr ⟨_, _, h, hout⟩

end

/-- A client that is to preprocess a source. -/
def preprocessing : Command where
  compilerToolset := encode "msvc"
  compilerExecutable := encode "cl.exe"
  commandLine := encode "cl /E a.cpp"
  currentPath := encode "C:/w"
  env _ := none

/-- The command line has one argument. -/
def oneArgument : CommandLineParser := ⟨fun _ => [encode "cl", encode "/E"], some⟩

def managerMachine : ManagerMachine where
  parseArgs _ := some [⟨"E", [], ["/E"]⟩]
  disk := ⟨fun _ => false, fun _ => none⟩
  prepareTestSource := none
  destroy _ := false
  host := ⟨fun _ => none, fun _ => 1⟩

/-- **The client and the manager speak in turns, and never past each other.** In every reachable state one message at
most is on its way, in either direction. What is on its way to the manager is the client's command, if the manager has
none yet, or an answer of the form it waits for; what is on its way to the client is what the manager waits for an
answer to, or how to end. So the client falls back only if the connection breaks or the compiler cannot be run, never
over a message of the manager. -/
theorem conversation_in_step {command : Command} {cl : CommandLineParser} {id : Scheduler.CommandId}
    {cache : String → Option CompilerInfo} {events : List Event} {t : System}
    (hr : run (step command cl) (start id cache) events = some t) :
    t.toManager.length + t.toClient.length ≤ 1 ∧
    (∀ msg ∈ t.toManager, t.manager.commandProcessor = none ∧ command.initMessage cl = some msg ∨
      ∃ cp, t.manager.commandProcessor = some cp ∧ Answer cp msg) ∧
    (∀ msg ∈ t.toClient, ∃ m, msg = parts m ∧
      (m.isFinal ∨ ∃ cp, t.manager.commandProcessor = some cp ∧ Question cp m)) ∧
    ∀ reason, t.client = .finished (.fellBack reason) →
      reason = .failedToCreateProcess ∨ ∃ text, reason = .trouble text := by
  have h := link_run hr
  refine ⟨?_, ?_, ?_, ?_⟩
  · cases h <;> simp [*]
  · intro msg hmsg
    cases h with
    | calling hinit hcp _ _ hto =>
      rw [hto, List.mem_singleton] at hmsg
      exact .inl ⟨hcp, hmsg ▸ hinit⟩
    | answered hcp _ _ _ ha hto =>
      rw [hto, List.mem_singleton] at hmsg
      exact .inr ⟨_, hcp, hmsg ▸ ha⟩
    | _ => simp [*] at hmsg
  · intro msg hmsg
    cases h with
    | asked hcp _ _ _ hq _ hclient =>
      rw [hclient, List.mem_singleton] at hmsg
      exact ⟨_, hmsg, .inr ⟨_, hcp, hq⟩⟩
    | told ht _ hclient =>
      rw [hclient, List.mem_singleton] at hmsg
      exact ⟨_, hmsg, .inl ht.final⟩
    | _ => simp [*] at hmsg
  · intro reason hc
    rcases h.ended hc with ⟨reason', hc', hreason⟩ | ⟨m, machine, -, hout⟩
    · rw [hc] at hc'
      cases hc'
      exact hreason
    · cases m <;> simp [outcome] at hout

theorem conversation_in_step_preprocessing :
    ∃ t, run (step preprocessing oneArgument) (start 0 fun _ => none) [.connect, .deliver managerMachine] = some t ∧
      t.toManager.length + t.toClient.length ≤ 1 :=
  ⟨_, rfl, (@conversation_in_step preprocessing oneArgument 0 (fun _ => none) [.connect, .deliver managerMachine] _
    rfl).1⟩

/-- **Nobody waits for nothing.** Where the manager's machine does its part whenever a message is taken, in every
reachable state the client has not started or has ended, or the next message can be taken at one of the two ends, or
the result of a task is still to come. -/
theorem someone_moves {command : Command} {cl : CommandLineParser} {id : Scheduler.CommandId}
    {cache : String → Option CompilerInfo} {events : List Event} {t : System}
    (hworks : Lib.Meets (step command cl) (Works command cl) (start id cache) events)
    (hr : run (step command cl) (start id cache) events = some t) :
    t.client = .starting ∨ (∃ o, t.client = .finished o) ∨
      (∀ machine, (step command cl t (.deliver machine)).isSome) ∨
      (∀ machine, (step command cl t (.request machine)).isSome) ∨ t.manager.Working := by
  have h : Progressing command cl t := Lib.run_inv_of_meets (step command cl)
    (fun _ _ _ h hw hs => step_progressing h hw hs) events _ t (progressing_start id cache) hworks hr
  have hrequest : ∀ {msg}, t.toClient = [msg] → t.client.Connected → (∃ o, t.client = .finished o) ∨
      ∀ machine, (step command cl t (.request machine)).isSome := by
    rintro msg hclient (hw | hg)
    · refine .inr fun machine => ?_
      simp only [step, hw, hclient]
      split <;> rfl
    · exact .inl (GaveUp.finished hg)
  have hdeliver : ∀ {msg}, t.toManager = [msg] → Open t.manager → ∀ machine,
      (step command cl t (.deliver machine)).isSome := by
    intro msg hto ho machine
    simp [step, ho.any_final, hto]
  cases h.link with
  | fresh _ _ _ _ _ hc =>
    rcases hc with hc | hc
    · exact .inl hc
    · exact .inr (.inl (GaveUp.finished hc))
  | calling _ hcp hsent _ hto => exact .inr (.inr (.inl (hdeliver hto (open_of_fresh hcp hsent))))
  | asked _ _ _ _ _ _ hclient hc =>
    rcases hrequest hclient hc with hf | hs
    · exact .inr (.inl hf)
    · exact .inr (.inr (.inr (.inl hs)))
  | answered _ _ ho _ _ hto => exact .inr (.inr (.inl (hdeliver hto ho)))
  | abandoned _ _ _ _ _ hc => exact .inr (.inl (GaveUp.finished hc))
  | idle ho hrequests hresting hto _ hc =>
    rcases hc with hw | hg
    swap
    · exact .inr (.inl (GaveUp.finished hg))
    have hcp := (h.called hw).resolve_right (by simp [hto])
    rcases h.served.obliged hcp with (⟨m, hm, hfinal⟩ | ⟨c, hc, hreplies⟩) | hreq | hworking
    · exact absurd hfinal (ho m (List.mem_append_left _ hm))
    · obtain ⟨cp, hcp', hc'⟩ := Option.bind_eq_some_iff.1 hc
      exact absurd (hresting cp c hcp' hc').1 hreplies
    · omega
    · exact .inr (.inr (.inr (.inr hworking)))
  | told _ _ hclient hc =>
    rcases hrequest hclient hc with hf | hs
    · exact .inr (.inl hf)
    · exact .inr (.inr (.inr (.inl hs)))
  | closed _ _ _ _ hc => exact .inr (.inl ⟨_, hc⟩)

theorem someone_moves_preprocessing :
    ∃ t, run (step preprocessing oneArgument) (start 0 fun _ => none) [.connect, .deliver managerMachine] = some t ∧
      (t.client = .starting ∨ (∃ o, t.client = .finished o) ∨
        (∀ machine, (step preprocessing oneArgument t (.deliver machine)).isSome) ∨
        (∀ machine, (step preprocessing oneArgument t (.request machine)).isSome) ∨ t.manager.Working) := by
  refine ⟨_, rfl, @someone_moves _ _ _ _ [.connect, .deliver managerMachine] _ ?_ rfl⟩
  refine ⟨trivial, fun s hs => ⟨?_, fun _ _ => trivial⟩⟩
  cases hs
  intro msg hmsg
  cases hmsg
  refine ⟨"cl.exe", "C:/w", [⟨"E", [], ["/E"]⟩], ⟨"", ["/E"], ?_, rfl⟩, .inl (by decide)⟩
  have hempty : decode [] = some "" := decode_encode ""
  simp [preprocessing, oneArgument, decode_encode, hempty]

/-- **The client ends as it is told.** In every reachable state the manager has said nothing after a message that ends
the conversation; and a client that has ended, and did not give up, has done what the manager's last message says:
exited with its code, up to 32 bits, and its output, or run the command line it names. -/
theorem ends_as_told {command : Command} {cl : CommandLineParser} {id : Scheduler.CommandId}
    {cache : String → Option CompilerInfo} {events : List Event} {t : System}
    (hr : run (step command cl) (start id cache) events = some t) :
    (∀ before m after, said t.manager = before ++ m :: after → m.isFinal → after = []) ∧
    ∀ o, t.client = .finished o → t.client.GaveUp ∨
      ∃ m machine, (said t.manager).getLast? = some m ∧ outcome machine command.commandLine m = some o := by
  have h := link_run hr
  constructor
  · intro before m after hsaid hfinal
    rcases h.open_or_told with ho | ⟨m', ht⟩
    · exact absurd hfinal (ho m (by simp [hsaid]))
    · exact ht.nothing_after hsaid hfinal
  · intro o ho
    rcases h.ended ho with hg | ⟨m, machine, ht, hout⟩
    · exact .inl hg
    · exact .inr ⟨m, machine, ht.getLast, hout⟩

theorem ends_as_told_trouble :
    ∃ t, run (step preprocessing oneArgument) (start 0 fun _ => none) [.connect, .giveUp []] = some t ∧
      (t.client.GaveUp ∨ ∃ m machine, (said t.manager).getLast? = some m ∧
        outcome machine preprocessing.commandLine m = some (.fellBack (.trouble []))) :=
  ⟨_, rfl, (@ends_as_told preprocessing oneArgument 0 (fun _ => none) [.connect, .giveUp []] _ rfl).2 _ rfl⟩

/-- **A compiler that fails on the test source is not hidden.** When the client has compiled the test source and that
failed, the manager's next message makes the client exit with the compiler's own code, and with its output after a line
of the manager's. -/
theorem failed_test_told {command : Command} {cl : CommandLineParser} {id : Scheduler.CommandId}
    {cache : String → Option CompilerInfo} {events : List Event} {t t' : System} {cp : CommandProcessor}
    {source : TestSource} {code : Int32} {stdout stderr : Bytes} {machine : ManagerMachine}
    (hr : run (step command cl) (start id cache) events = some t) (hwaiting : t.client = .waiting)
    (hcp : t.manager.commandProcessor = some cp) (hstate : cp.state = some .waitForCompilerInfoOutput)
    (hmsg : t.toManager = [[toText code, stdout, stderr]]) (hcode : code ≠ 0) (hsource : cp.testSource = some source)
    (hdestroy : machine.destroy source) (hs : step command cl t (.deliver machine) = some t')
    (client : Client.RequestLoop.Machine) :
    ∃ t'', step command cl t' (.request client) = some t'' ∧
      t''.client = .finished (.exited code
        ("BuildPal - failed to run test compile.\r\n".toUTF8.toList ++ stdout) stderr) := by
  have hlink := link_run hr
  have hne : t.toManager ≠ [] := by simp [hmsg]
  -- With the output on its way, the client is the one that was asked for it.
  cases hlink with
  | fresh _ _ _ hto => exact absurd hto hne
  | calling _ hcp' =>
    rw [hcp] at hcp'
    cases hcp'
  | asked _ _ _ _ _ hto => exact absurd hto hne
  | abandoned _ _ _ hto => exact absurd hto hne
  | idle _ _ _ hto => exact absurd hto hne
  | told _ hto => exact absurd hto hne
  | closed _ hto => exact absurd hto hne
  | answered hcp' hcommand ho _ _ _ hclient =>
  rw [hcp] at hcp'
  cases hcp'
  let m : ClientMessage :=
    .exit code.toInt ("BuildPal - failed to run test compile.\r\n".toUTF8.toList ++ stdout) stderr
  have hparse : parseOutput [toText code, stdout, stderr] = .ok (code.toInt, stdout, stderr) := by
    simp only [parseOutput, toInt_toText]
  have hne' : code.toInt ≠ 0 := fun h0 => hcode (Int32.toInt_inj.1 (h0.trans Int32.toInt_zero.symm))
  have hprocessed : (t.manager.processMsg machine.env [toText code, stdout, stderr]).1 =
      (t.manager.replied.setCommand { cp with testSource := none }).sendMsg m := by
    simp only [ClientProcessor.processMsg, hcp, ClientProcessor.gotDataFromClient, hstate,
      ClientProcessor.gotCompilerOutput, hsource]
    have hd : (!machine.env.destroy source) = false := by simpa [ManagerMachine.env] using hdestroy
    simp only [hd, Bool.false_eq_true, if_false, hparse, if_pos hne', m]
  have hsaid : said ((t.manager.replied.setCommand { cp with testSource := none }).sendMsg m) =
      said t.manager ++ [m] := by
    have hs : t.manager.command = none := by rw [ClientProcessor.command, hcp, Option.bind_some, hcommand]
    rw [said_eq_sent hs]
    exact said_eq_sent (s := (t.manager.replied.setCommand { cp with testSource := none }).sendMsg m) hcommand
  have ht' : t' = { t with
      manager := (t.manager.replied.setCommand { cp with testSource := none }).sendMsg m
      toManager := []
      toClient := [parts m] } := by
    simp only [step, ho.any_final, Bool.false_eq_true, if_false, hmsg, Option.some.injEq] at hs
    rw [← hs, hprocessed, managed_eq (t := { t with toManager := [] }) hsaid]
    simp [hclient]
  obtain ⟨o, hout, hreact⟩ := react_final (m := m) rfl client command.commandLine
  cases hout
  refine ⟨{ t' with
    toClient := []
    client := .finished (.exited code ("BuildPal - failed to run test compile.\r\n".toUTF8.toList ++ stdout) stderr) },
    ?_, rfl⟩
  rw [ht']
  simp only [step, hwaiting, hreact, Int32.ofInt_toInt]

/-- A manager that does not know the compiler yet. -/
def testing : ManagerMachine where
  parseArgs _ := some []
  disk := ⟨fun _ => false, fun _ => none⟩
  prepareTestSource := some ⟨"t.cpp", "t.obj"⟩
  destroy _ := true
  host := ⟨fun _ => none, fun _ => 1⟩

/-- A client whose compiler fails. -/
def failing : Client.RequestLoop.Machine where
  createProcess _ := -1
  getOutput _ := some (2, [], [65])
  compilerDir := []
  path := none
  pathCombine dir file := dir ++ file
  pathFileExists _ := false

theorem failed_test_told_two :
    ∃ t t' t'', run (step preprocessing oneArgument) (start 0 fun _ => none)
        [.connect, .deliver testing, .request failing] = some t ∧
      step preprocessing oneArgument t (.deliver testing) = some t' ∧
      step preprocessing oneArgument t' (.request failing) = some t'' ∧
      t''.client = .finished (.exited 2 ("BuildPal - failed to run test compile.\r\n".toUTF8.toList ++ []) [65]) := by
  let cp : CommandProcessor := {
    executable := "cl.exe", cwd := "C:/w", options := ⟨[]⟩, testSource := some ⟨"t.cpp", "t.obj"⟩
    state := some .waitForCompilerInfoOutput }
  let msg : Msg := [encode "msvc", encode "cl.exe", [], encode "C:/w", encode "/E"]
  have hempty : decode [] = some "" := decode_encode ""
  have hnew : newCommandProcessor testing.env msg = .ok { executable := "cl.exe", cwd := "C:/w", options := ⟨[]⟩ } := by
    refine newCommandProcessor_ok.2 ⟨"cl.exe", "C:/w", [], ⟨"", ["/E"], ?_, rfl⟩, rfl⟩
    simp [msg, decode_encode, hempty]
  have hprocessed : ((start 0 fun _ => none).manager.processMsg testing.env msg).1 =
      { commandProcessor := some cp, sent := [.executeGetOutput (TestSource.command ⟨"t.cpp", "t.obj"⟩)]
        requests := 1 } := by
    simp only [ClientProcessor.processMsg, start, ClientProcessor.handleNewClient, hnew]
    rfl
  let asked : ClientProcessor := {
    commandProcessor := some cp, sent := [.executeGetOutput (TestSource.command ⟨"t.cpp", "t.obj"⟩)], requests := 1 }
  let t₁ : System := { client := .waiting, toManager := [msg] }
  let t₂ : System := {
    client := .waiting, manager := asked
    toClient := [parts (.executeGetOutput (TestSource.command ⟨"t.cpp", "t.obj"⟩))] }
  let t : System := { client := .waiting, manager := asked, toManager := [[toText 2, [], [65]]] }
  have h₁ : step preprocessing oneArgument (start 0 fun _ => none) .connect = some t₁ := rfl
  have h₂ : step preprocessing oneArgument t₁ (.deliver testing) = some t₂ := by
    show some (System.managed { t₁ with toManager := [] }
      ((start 0 fun _ => none).manager.processMsg testing.env msg).1) = some t₂
    rw [hprocessed]
    rfl
  have h₃ : step preprocessing oneArgument t₂ (.request failing) = some t := rfl
  have hrun : run (step preprocessing oneArgument) (start 0 fun _ => none)
      [.connect, .deliver testing, .request failing] = some t := by
    simp only [run, h₁, h₂, h₃, Option.bind_some]
  obtain ⟨t', hdeliver⟩ : ∃ t', step preprocessing oneArgument t (.deliver testing) = some t' := ⟨_, rfl⟩
  obtain ⟨t'', hrequest, hclient⟩ := failed_test_told hrun rfl rfl rfl rfl (by decide) rfl rfl hdeliver failing
  exact ⟨t, t', t'', hrun, hdeliver, hrequest, hclient⟩

end BuildPal.ClientProtocol
