import BuildPal.Lib.CommandLine
import BuildPal.Manager.ClientProcessor
/-!
# Creating a PCH file

A command that creates a PCH file is not distributed: the client is told to run
it, as a text that the compiler splits into arguments again. `arg_values` has a
list of strings for each option, and `list2cmdline` is given these lists as they
are.
-/
open BuildPal.Message
open BuildPal.Lib.CommandLine (Text Intact characters list2cmdline split split_iff split_strings)

namespace BuildPal.Conversation

/-- The text of `do_execute_and_exit`. -/
def executeAndExitText (cmd : List (List String)) : Text := list2cmdline (cmd.map (·.map String.toList))

/-- The text of `do_execute_get_output`, whose command has strings. -/
def executeGetOutputText (cmd : List String) : Text := list2cmdline (cmd.map fun a => characters a.toList)

/-- Each option is rendered as the strings it was read from. -/
structure Faithful (command : List String) (args : List Arg) : Prop where
  rendered : args.flatMap (·.rendered) = command
  ne_nil : ∀ a ∈ args, a.rendered ≠ []

namespace ClientProcessor

/-- The client is told to run its command. -/
def TellsToRun (s : ClientProcessor) (env : Env) (msg : List Bytes) (command : List String) : Prop :=
  ∃ cmd, (s.processMsg env msg).1.sent = s.sent ++ [.executeAndExit cmd] ∧
    split (executeAndExitText cmd) = command.map String.toList

/-- A new client that is to create a PCH file is sent its options as they are rendered. -/
theorem processMsg_createPch {s : ClientProcessor} {env : Env} {msg : List Bytes} {executable cwd : String}
    {args : List Arg}
    (hs : s.commandProcessor = none) (hreads : Reads env msg executable cwd args)
    (hlocal : ¬ (⟨args⟩ : CompileOptions).shouldBuildLocally) (hyc : "Yc" ∈ (⟨args⟩ : CompileOptions).optionNames) :
    (s.processMsg env msg).1.sent = s.sent ++ [.executeAndExit (args.map (·.rendered))] := by
  have hnew := newCommandProcessor_ok.2 ⟨executable, cwd, args, hreads, rfl⟩
  have hpch : (⟨args⟩ : CompileOptions).createPchCmd = some (args.map (·.rendered)) := if_neg (not_not_intro hyc)
  rw [processMsg, hs]
  simp only [handleNewClient, hnew]
  rw [if_neg hlocal, hpch]
  rfl

/-- A command that creates a PCH file is run unchanged exactly where each option is one string, which has neither blanks
nor quotation marks, or is one. -/
theorem tellsToRun_iff {s : ClientProcessor} {env : Env} {msg : List Bytes} {executable sysincludeDirs cwd : String}
    {command : List String} {args : List Arg} (hs : s.commandProcessor = none)
    (hmsg : msg.map decode = ("msvc" :: executable :: sysincludeDirs :: cwd :: command).map some)
    (hargs : env.parseArgs command = some args) (hfaithful : Faithful command args)
    (hlocal : ¬ (⟨args⟩ : CompileOptions).shouldBuildLocally) (hyc : "Yc" ∈ (⟨args⟩ : CompileOptions).optionNames) :
    s.TellsToRun env msg command ↔ ∀ a ∈ args, ∃ p, a.rendered = [p] ∧ Intact p.toList := by
  have hsent := processMsg_createPch hs ⟨sysincludeDirs, command, hmsg, hargs⟩ hlocal hyc
  have htells : s.TellsToRun env msg command ↔
      split (executeAndExitText (args.map (·.rendered))) = command.map String.toList := by
    rw [TellsToRun, hsent]
    constructor
    · rintro ⟨cmd, hcmd, hsplit⟩
      cases List.append_cancel_left hcmd
      exact hsplit
    · exact fun h => ⟨_, rfl, h⟩
  have hflat : command.map String.toList = ((args.map (·.rendered)).map (·.map String.toList)).flatten := by
    rw [← hfaithful.rendered, List.map_flatMap, List.map_map, List.flatMap_def]
    rfl
  have hne : ∀ arg ∈ (args.map (·.rendered)).map (·.map String.toList), arg ≠ [] := by
    simpa using hfaithful.ne_nil
  rw [htells, hflat, executeAndExitText, split_iff hne]
  simp only [List.forall_mem_map]
  refine forall₂_congr fun a _ => ?_
  constructor
  · rintro ⟨p, hp, hintact⟩
    obtain ⟨p, hrendered, rfl⟩ := List.map_eq_singleton_iff.mp hp
    exact ⟨p, hrendered, hintact⟩
  · rintro ⟨p, hrendered, hintact⟩
    exact ⟨p.toList, congrArg (·.map String.toList) hrendered, hintact⟩

end ClientProcessor

/-- A command that is a list of strings is run as it is. -/
theorem executeGetOutput_unchanged (cmd : List String) : split (executeGetOutputText cmd) = cmd.map String.toList := by
  have hstrings := split_strings (cmd.map String.toList)
  rwa [List.map_map] at hstrings

/-- Options that are each one string. -/
def pchArgs (sources : List String) : List Arg :=
  ⟨"Yc", ["pch.h"], ["/Ycpch.h"]⟩ :: sources.map fun source => ⟨"<input>", [source], [source]⟩

theorem tellsToRun_plain : ({} : ClientProcessor).TellsToRun (machine (pchArgs ["pch.cpp"]))
    (clientMsg ["msvc", "cl.exe", "", "C:\\p", "/Ycpch.h", "pch.cpp"]) ["/Ycpch.h", "pch.cpp"] := by
  have hmsg : (clientMsg ["msvc", "cl.exe", "", "C:\\p", "/Ycpch.h", "pch.cpp"]).map decode =
      ("msvc" :: "cl.exe" :: "" :: "C:\\p" :: ["/Ycpch.h", "pch.cpp"]).map some := by decide +kernel
  have hfaithful : Faithful ["/Ycpch.h", "pch.cpp"] (pchArgs ["pch.cpp"]) := ⟨rfl, by simp [pchArgs]⟩
  refine (ClientProcessor.tellsToRun_iff rfl hmsg rfl hfaithful (by decide +kernel) (by decide +kernel)).mpr ?_
  refine List.forall_mem_cons.mpr ⟨⟨_, rfl, ?_⟩, List.forall_mem_singleton.mpr ⟨_, rfl, ?_⟩⟩
  · exact .of_all (by decide +kernel) (by decide +kernel)
  · exact .of_all (by decide +kernel) (by decide +kernel)

/-- A source whose name has a space comes to the compiler as two. -/
theorem space_lost : ¬ ({} : ClientProcessor).TellsToRun (machine (pchArgs ["my pch.cpp"]))
    (clientMsg ["msvc", "cl.exe", "", "C:\\p", "/Ycpch.h", "my pch.cpp"]) ["/Ycpch.h", "my pch.cpp"] := by
  rintro ⟨cmd, hsent, hsplit⟩
  have hreads : ClientProcessor.Reads (machine (pchArgs ["my pch.cpp"]))
      (clientMsg ["msvc", "cl.exe", "", "C:\\p", "/Ycpch.h", "my pch.cpp"]) "cl.exe" "C:\\p" (pchArgs ["my pch.cpp"]) :=
    ⟨"", ["/Ycpch.h", "my pch.cpp"], by decide +kernel, rfl⟩
  have htold := ClientProcessor.processMsg_createPch (s := {}) rfl hreads (by decide +kernel) (by decide +kernel)
  cases List.append_cancel_left (hsent.symm.trans htold)
  revert hsplit
  decide +kernel

end BuildPal.Conversation
