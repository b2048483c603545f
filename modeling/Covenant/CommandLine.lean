/-
**The command line.**

A command line is a subcommand with its arguments.  Options may stand before the subcommand and
behind it; behind `--` everything is an argument.

Main definitions:

* `Covenant.CommandLine.Command`, `Covenant.CommandLine.Request` — what a user asks for;
* `Covenant.CommandLine.parse` — the request of a command line;
* `Covenant.CommandLine.compile`, `Covenant.CommandLine.assemble`,
  `Covenant.CommandLine.disassemble`, `Covenant.CommandLine.shell` — carrying out a command;
* `Covenant.CommandLine.Result` — what a command leaves behind.
-/

import Covenant.Log
import Covenant.Shell

set_option relaxedAutoImplicit false
set_option autoImplicit false

namespace Covenant.CommandLine

/-! ### Requests -/

/-- A subcommand with its arguments. -/
inductive Command where
  /-- Compiles the contract in a file. -/
  | compile (path : String)
  /-- Assembles the assembly text in a file. -/
  | assemble (path : String)
  /-- Disassembles bytecode in hexadecimal. -/
  | disassemble (bytecode : String)
  /-- Starts the interactive shell. -/
  | repl
  deriving DecidableEq

/-- What a user asks for. -/
inductive Request where
  /-- A command is to be carried out, and this much is to be logged. -/
  | command (verbosity : Nat) (command : Command)
  /-- The version is to be shown. -/
  | version
  /-- The usage is to be shown. -/
  | help
  /-- The command line has no meaning. -/
  | unusable
  deriving DecidableEq

/-- The version of the program. -/
def versionText : String := "koa 0.1.0\n"

/-- How the program is used. -/
def usageText : String :=
  String.join (List.map (fun line => line ++ "\n")
    ["Compiler for the Koa contract language",
     "",
     "Usage: koa [OPTIONS] <COMMAND>",
     "",
     "Commands:",
     "  compile      Compile a contract and print its ABI, assembly and raw bytecode as JSON " ++
       "[aliases: c]",
     "  assemble     Assemble an assembly file and print the raw bytecode as hex",
     "  disassemble  Print the assembly of hex encoded raw bytecode",
     "  repl         Start the interactive shell",
     "  help         Print this message or the help of the given subcommand(s)",
     "",
     "Options:",
     "  -v, --verbose...  Log more detail; repeat for debug and trace output",
     "  -h, --help        Print help",
     "  -V, --version     Print version"])

/-! ### Parsing -/

/-- The subcommands. -/
inductive Verb where
  | compile | assemble | disassemble | repl
  deriving DecidableEq, Repr

/-- The subcommand of a name; names are not abbreviated. -/
def Verb.ofName? : String → Option Verb
  | "compile" => some compile
  | "c" => some compile
  | "assemble" => some assemble
  | "disassemble" => some disassemble
  | "repl" => some repl
  | _ => none

/-- What an option asks for: more detail in the log, or something other than a command. -/
inductive OptionEffect where
  | verbose (count : Nat)
  | stop (request : Request)
  deriving DecidableEq

/-- The effect of short options in one argument, some of which ask for more detail; the version
can be asked for only before the subcommand. -/
def shortOptions (count : Nat) (mayAskVersion : Bool) : List Char → OptionEffect
  | [] => .verbose count
  | 'v' :: rest => shortOptions (count + 1) mayAskVersion rest
  | 'h' :: _ => .stop .help
  | 'V' :: _ => .stop (if mayAskVersion then .version else .unusable)
  | _ => .stop .unusable

/-- The effect of an argument that is an option, if it is one.  A lone dash is none. -/
def optionEffect? (mayAskVersion : Bool) (argument : String) : Option OptionEffect :=
  match argument.toList with
  | '-' :: '-' :: _ =>
    if argument = "--verbose" then some (.verbose 1)
    else if argument = "--help" then some (.stop .help)
    else if argument = "--version" ∧ mayAskVersion then some (.stop .version)
    else some (.stop .unusable)
  | '-' :: c :: rest => some (shortOptions 0 mayAskVersion (c :: rest))
  | _ => none

/-- The command of a subcommand and all its arguments, if they are as many as it takes. -/
def command? : Verb → List String → Option Command
  | .compile, [path] => some (.compile path)
  | .assemble, [path] => some (.assemble path)
  | .disassemble, [bytecode] => some (.disassemble bytecode)
  | .repl, [] => some .repl
  | _, _ => none

/-- The number of arguments that a subcommand takes. -/
def Verb.arity : Verb → Nat
  | .repl => 0
  | _ => 1

/-- The arguments of a subcommand with one more, if it takes one more.  The name of a file must not
be empty. -/
def accept? (verb : Verb) (arguments : List String) (argument : String) : Option (List String) :=
  if arguments.length < verb.arity then
    if argument = "" ∧ verb ≠ .disassemble then none else some (arguments ++ [argument])
  else none

/-- The request of a command line behind its subcommand.  The detail asked for here, if any is,
counts in place of the detail asked for before. -/
def parseBehind (verb : Verb) (before here : Nat) (plain : Bool) (arguments : List String) :
    List String → Request
  | [] =>
    match command? verb arguments with
    | some command => .command (if here = 0 then before else here) command
    | none => .unusable
  | argument :: rest =>
    if plain then
      match accept? verb arguments argument with
      | some arguments => parseBehind verb before here true arguments rest
      | none => .unusable
    else if argument = "--" then parseBehind verb before here true arguments rest
    else
      match optionEffect? false argument with
      | some (.verbose count) => parseBehind verb before (here + count) false arguments rest
      | some (.stop request) => request
      | none =>
        match accept? verb arguments argument with
        | some arguments => parseBehind verb before here false arguments rest
        | none => .unusable

/-- The request of what follows the name `help`: the usage of the program or of one subcommand. -/
def parseHelp : List String → Request
  | [] => .help
  | [name] => if name = "help" ∨ (Verb.ofName? name).isSome then .help else .unusable
  | _ => .unusable

/-- The request of a command line before its subcommand. -/
def parseBefore (verbosity : Nat) : List String → Request
  | [] => .unusable
  | argument :: rest =>
    if argument = "--" then .unusable
    else
      match optionEffect? true argument with
      | some (.verbose count) => parseBefore (verbosity + count) rest
      | some (.stop request) => request
      | none =>
        match Verb.ofName? argument with
        | some verb => parseBehind verb verbosity 0 false [] rest
        | none => if argument = "help" then parseHelp rest else .unusable

/-- The request of a command line. -/
def parse (arguments : List String) : Request :=
  parseBefore 0 arguments

/-! ### Commands -/

/-- What a command leaves behind. -/
structure Result where
  exitCode : Nat
  output : String
  log : List Event

/-- The result of a command that has written some output and perhaps failed at last.  The failure
is the last event of the log. -/
def Result.of (output : String) (log : List Event) (failure : Option Failure) : Result :=
  match failure with
  | none => ⟨0, output, log⟩
  | some failure => ⟨1, output, log ++ [⟨.error, failure.message, []⟩]⟩

/-- The text of a file's bytes. -/
def decodeFile (file : Except Failure (List UInt8)) : Except Failure String :=
  match file with
  | .error failure => .error failure
  | .ok bytes =>
    match Text.Utf8.decode? bytes with
    | some text => .ok text
    | none => .error .invalidUtf8

/-- Compiles the contract in a file. -/
def compile (file : Except Failure (List UInt8)) : Result :=
  match decodeFile file with
  | .error failure => .of "" [] (some failure)
  | .ok source =>
    match Contract.ofText source with
    | .error mistake => .of "" [] (some (.parse mistake))
    | .ok contract =>
      let log := Compilation.logOfContract contract
      match Artifact.ofContract contract with
      | .error fault => .of "" log (some (.compile fault))
      | .ok artifact => .of (artifact.toJson ++ "\n") log none

/-- Assembles the text in a file. -/
def assemble (file : Except Failure (List UInt8)) : Result :=
  match decodeFile file with
  | .error failure => .of "" [] (some failure)
  | .ok text =>
    match Assembly.ofText text with
    | .error fault => .of "" [] (some (.assembly fault))
    | .ok code => .of (code.hex ++ "\n") [] none

/-- The text without the prefixes `0x` at its front. -/
def dropHexPrefixes : List Char → List Char
  | '0' :: 'x' :: rest => dropHexPrefixes rest
  | text => text

/-- Disassembles bytecode in hexadecimal, which may have blanks around it and `0x` before it. -/
def disassemble (bytecode : String) : Result :=
  let digits := String.ofList (dropHexPrefixes (Text.trim bytecode.toList))
  match Text.Hex.decode (Text.Utf8.encode digits) with
  | .error fault => .of "" [] (some (.hex fault))
  | .ok bytes =>
    match Assembly.ofBytecode bytes with
    | .error fault => .of "" [] (some (.decode fault))
    | .ok code => .of code.render [] none

/-- Runs the interactive shell on an input. -/
def shell (input : List UInt8) : Result :=
  let session := Shell.run input
  .of (Shell.banner ++ "\n" ++ session.output) session.log session.failure

/-- Carries out a command, given what each file holds and the input. -/
def Command.run (files : String → Except Failure (List UInt8)) (input : List UInt8) :
    Command → Result
  | .compile path => CommandLine.compile (files path)
  | .assemble path => CommandLine.assemble (files path)
  | .disassemble bytecode => CommandLine.disassemble bytecode
  | .repl => shell input

end Covenant.CommandLine
