import Mathlib.Data.Nat.Digits.Defs
import BuildPal.Client.SearchPath
import BuildPal.Common.Message
/-!
# The client's requests

`distributedCompile` of `client.cpp`: the client sends its command to the
manager and does what it is asked to, until it is told how to end. Whatever goes
wrong on the way makes it fall back.
-/
open BuildPal.Message (Bytes Msg)

namespace BuildPal.Client.RequestLoop

/-- A string literal. -/
def text (s : String) : Bytes := s.toList.map fun c => UInt8.ofNat c.toNat

def decimal (n : Nat) : Bytes := if n = 0 then [48] else ((Nat.digits 10 n).map fun d => UInt8.ofNat (48 + d)).reverse

/-- `std::to_string`. -/
def toText (n : Int32) : Bytes :=
  if n.toInt < 0 then 45 :: decimal n.toInt.natAbs else decimal n.toInt.natAbs

/-! ## The first message -/

/-- How `distributedCompile` is called; `currentPath` is the current directory where the caller gives none. -/
structure Command where
  compilerToolset : Bytes
  compilerExecutable : Bytes
  commandLine : Bytes
  currentPath : Bytes
  env : Bytes → Option Bytes

/-- What LLVM does. -/
structure CommandLineParser where
  tokenizeWindowsCommandLine : Bytes → List Bytes
  expandResponseFiles : List Bytes → Option (List Bytes)

/-- The arguments; those that come from the environment are in front of the others. -/
def Command.argv (command : Command) (cl : CommandLineParser) : Option (List Bytes) :=
  let argv := cl.tokenizeWindowsCommandLine command.commandLine
  let envArgv := ((command.env (text "CL")).map cl.tokenizeWindowsCommandLine).getD []
  cl.expandResponseFiles (argv.take 1 ++ envArgv ++ argv.drop 1)

def Command.initMessage (command : Command) (cl : CommandLineParser) : Option Msg :=
  (command.argv cl).map fun argv =>
    [command.compilerToolset, command.compilerExecutable, (command.env (text "INCLUDE")).getD [],
      command.currentPath] ++ argv.drop 1

/-! ## Requests -/

/-- Why the client gives up. -/
inductive Fallback where
  /-- The connection, or the response files. -/
  | trouble (reason : Bytes)
  | emptyMessage
  | invalidMessageLength
  | invalidExitCodeLength
  | failedToCreateProcess
  | invalidRequest (request : Bytes)
  deriving DecidableEq, Repr

def Fallback.error : Fallback → Bytes
  | .trouble reason => reason
  | .emptyMessage => text "Empty message."
  | .invalidMessageLength => text "Invalid message length."
  | .invalidExitCodeLength => text "Invalid exit code length."
  | .failedToCreateProcess => text "Failed to create process."
  | .invalidRequest request => text "Invalid request (" ++ request ++ text ")."

inductive Outcome where
  /-- The compiler was run, and this is how it ended. -/
  | ran (commandLine : Bytes) (code : Int32)
  | exited (code : Int32) (stdOut stdErr : Bytes)
  | fellBack (reason : Fallback)
  deriving DecidableEq, Repr

/-- The client's machine, while a request is carried out. -/
structure Machine where
  /-- How the compiler ends when it is run with a command line, or -1. -/
  createProcess : Bytes → Int32
  /-- The same with its output, if it can be run. -/
  getOutput : Bytes → Option (Int32 × Bytes × Bytes)
  /-- The directory of the compiler: what is in front of `PathFindFileName`. -/
  compilerDir : SearchPath.Path
  path : Option SearchPath.Path
  pathCombine : SearchPath.Path → SearchPath.Path → SearchPath.Path
  pathFileExists : SearchPath.Path → Bool

/-- Running the compiler is implied. -/
def compilerCommand (commandLine : Bytes) : Bytes := text "compiler " ++ commandLine

def toPath (file : Bytes) : SearchPath.Path := file.map fun b => Char.ofNat b.toNat

def ofPath (path : SearchPath.Path) : Bytes := path.map fun c => UInt8.ofNat c.toNat

/-- A file that is not found has an empty path. -/
def locate (machine : Machine) (file : Bytes) : Bytes :=
  ((SearchPath.findOnPath machine.pathCombine machine.pathFileExists
    (SearchPath.getPath machine.path [machine.compilerDir]) (toPath file)).map ofPath).getD []

def exitCode (data : Bytes) : Int32 :=
  match data with
  | [d₀, d₁, d₂, d₃] =>
    ((d₀.toUInt32 <<< 24) ||| (d₁.toUInt32 <<< 16) ||| (d₂.toUInt32 <<< 8) ||| d₃.toUInt32).toInt32
  | _ => 0

inductive Reaction where
  | send (msg : Msg)
  | finish (outcome : Outcome)
  deriving DecidableEq, Repr

/-- One turn of the loop, with the message received. -/
def react (machine : Machine) (commandLine : Bytes) : Msg → Reaction
  | [] => .finish (.fellBack .emptyMessage)
  | request :: parts =>
    if request = text "RUN_LOCALLY" then .finish (.ran commandLine (machine.createProcess commandLine))
    else if request = text "EXECUTE_AND_EXIT" then
      match parts with
      | [cmd] => .finish (.ran (compilerCommand cmd) (machine.createProcess (compilerCommand cmd)))
      | _ => .finish (.fellBack .invalidMessageLength)
    else if request = text "EXECUTE_GET_OUTPUT" then
      match parts with
      | [cmd] =>
        match machine.getOutput (compilerCommand cmd) with
        | some (result, stdOut, stdErr) => .send [toText result, stdOut, stdErr]
        | none => .finish (.fellBack .failedToCreateProcess)
      | _ => .finish (.fellBack .invalidMessageLength)
    else if request = text "EXIT" then
      match parts with
      | [code, stdOut, stdErr] =>
        if code.length ≠ 4 then .finish (.fellBack .invalidExitCodeLength)
        else .finish (.exited (exitCode code) stdOut stdErr)
      | _ => .finish (.fellBack .invalidMessageLength)
    else if request = text "LOCATE_FILES" then
      if parts = [] then .finish (.fellBack .invalidMessageLength) else .send (parts.map (locate machine))
    else .finish (.fellBack (.invalidRequest request))

end BuildPal.Client.RequestLoop
