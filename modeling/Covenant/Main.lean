/-
**The program.**

Reads the files and the input that a command needs, carries the command out, and writes what it
leaves behind.  The interactive shell is the exception: it replies to each line as it comes.
-/

import Covenant.CommandLine

set_option relaxedAutoImplicit false
set_option autoImplicit false

namespace Covenant.CommandLine

/-- The bytes of a file. -/
def readFile (path : String) : IO (Except Failure (List UInt8)) := do
  try
    let bytes ← IO.FS.readBinFile path
    return .ok bytes.data.toList
  catch
    | .inappropriateType .. => return .error .directory
    | _ => return .error .missingFile

/-- Writes what a command leaves behind. -/
def finish (verbosity : Nat) (result : Result) : IO UInt32 := do
  IO.print result.output
  IO.eprint (Event.renderAll verbosity result.log)
  return UInt32.ofNat result.exitCode

/-- The reply to the next line, if there is one. -/
def nextReply (input : IO.FS.Stream) : IO (Option Shell.Reply) := do
  try
    let line ← input.getLine
    return if line.isEmpty then none else some (Shell.reply (Text.Utf8.encode line))
  catch _ => return some (.broken .invalidUtf8)

/-- Replies to lines until the input ends or a line ends the session. -/
partial def converse (verbosity : Nat) (input : IO.FS.Stream) : IO UInt32 := do
  IO.print Shell.prompt
  (← IO.getStdout).flush
  match ← nextReply input with
  | none => return 0
  | some (.answer output log) =>
    IO.eprint (Event.renderAll verbosity log)
    IO.print output
    converse verbosity input
  | some (.leave output) =>
    IO.print output
    return 0
  | some (.broken failure) => finish verbosity (.of "" [] (some failure))

/-- Carries out a request. -/
def Request.run : Request → IO UInt32
  | .version => do
    IO.print versionText
    return 0
  | .help => do
    IO.print usageText
    return 0
  | .unusable => do
    IO.eprint usageText
    return 2
  | .command verbosity .repl => do
    IO.println Shell.banner
    converse verbosity (← IO.getStdin)
  | .command verbosity (.compile path) => do
    finish verbosity (CommandLine.compile (← readFile path))
  | .command verbosity (.assemble path) => do
    finish verbosity (CommandLine.assemble (← readFile path))
  | .command verbosity (.disassemble bytecode) =>
    finish verbosity (CommandLine.disassemble bytecode)

end Covenant.CommandLine

/-- Carries out the request of a command line. -/
def main (arguments : List String) : IO UInt32 :=
  (Covenant.CommandLine.parse arguments).run
