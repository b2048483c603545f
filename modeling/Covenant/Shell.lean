/-
**The interactive shell.**

The shell compiles each line by itself.  A line that begins with the word `contract` is compiled as
a contract; any other line as the body of a function without parameters.  The answer shows the code
and where every name is in memory at the end.

Main definitions:

* `Covenant.Shell.evaluate` — the answer to a line;
* `Covenant.Shell.reply` — what the shell does with a line;
* `Covenant.Shell.run` — the replies to all lines up to the end of the input or `exit()`.
-/

import Covenant.Artifact
import Covenant.Failure
import Covenant.MemoryMap.Table

set_option relaxedAutoImplicit false
set_option autoImplicit false

namespace Covenant

/-- The tables of scopes, each with something written before it. -/
def Scope.tables (before : String) (scopes : List Scope) : String :=
  String.join (scopes.map fun scope => before ++ scope.memory.table scope.name)

namespace Shell

/-! ### One line -/

/-- The line begins with the word of a contract. -/
def isContract (line : String) : Bool :=
  line.toList.takeWhile Token.isWordChar == Keyword.contract.spelling.toList

/-- The function that a line of statements is compiled as. -/
def mainOf (body : List Statement) : FunctionDecl :=
  { name := "main", parameters := [], returns := none, body }

/-- The answer to a line that is a contract. -/
def evaluateContract (line : String) : Except Failure String :=
  match Contract.ofText line with
  | .error mistake => .error (.parse mistake)
  | .ok contract =>
    match Compilation.ofContract contract with
    | .error fault => .error (.compile fault)
    | .ok compilation =>
      .ok ((Artifact.ofCompilation compilation (Interface.ofContract contract)).toJson ++
        Scope.tables "\n" compilation.scopes)

/-- The answer to a line of statements. -/
def evaluateStatements (line : String) : Except Failure String :=
  match Statement.listOfText line with
  | .error mistake => .error (.parse mistake)
  | .ok body =>
    match Compilation.ofFunction (mainOf body) with
    | .error fault => .error (.compile fault)
    | .ok compilation =>
      .ok (compilation.code.render ++ compilation.code.hex ++ "\n" ++
        Scope.tables "" compilation.scopes)

/-- The answer to a line. -/
def evaluate (line : String) : Except Failure String :=
  if isContract line then evaluateContract line else evaluateStatements line

/-- The events of answering a line. -/
def logOf (line : String) : List Event :=
  let compiling :=
    if isContract line then
      match Contract.ofText line with
      | .error _ => []
      | .ok contract => Compilation.logOfContract contract
    else
      match Statement.listOfText line with
      | .error _ => []
      | .ok body => Compilation.logOfFunction (mainOf body)
  match evaluate line with
  | .ok _ => compiling
  | .error failure => compiling ++ [⟨.debug, "evaluation failed", [("error", failure.message)]⟩]

/-! ### All lines -/

/-- What the shell writes before it reads a line. -/
def prompt : String := ">> "

/-- What the shell writes first. -/
def banner : String := "Koa interactive shell. Type `exit()` to leave."

/-- The line that ends a session. -/
def exitLine : String := "exit()"

/-- What the shell does with a line. -/
inductive Reply where
  /-- It answers, after which it reads on. -/
  | answer (output : String) (log : List Event)
  /-- It says goodbye. -/
  | leave (output : String)
  /-- It cannot read the line. -/
  | broken (failure : Failure)

/-- The reply to a line, given by its bytes.  Blanks around it do not count, and an empty line is
answered by nothing. -/
def reply (bytes : List UInt8) : Reply :=
  match Text.Utf8.decode? bytes with
  | none => .broken .invalidUtf8
  | some text =>
    let line := String.ofList (Text.trim text.toList)
    if line = exitLine then .leave "bye\n"
    else if line = "" then .answer "" []
    else
      match evaluate line with
      | .ok output => .answer (output ++ "\n") (logOf line)
      | .error failure => .answer (failure.message ++ "\n") (logOf line)

/-- The output and the events of a session, and the failure that ended it if one did. -/
structure Session where
  output : String
  log : List Event
  failure : Option Failure

/-- Replies to lines, given by their bytes, up to the end or the first that ends the session. -/
def replyAll : List (List UInt8) → Session
  | [] => ⟨prompt, [], none⟩
  | line :: rest =>
    match reply line with
    | .answer output log =>
      let session := replyAll rest
      ⟨prompt ++ output ++ session.output, log ++ session.log, session.failure⟩
    | .leave output => ⟨prompt ++ output, [], none⟩
    | .broken failure => ⟨prompt, [], some failure⟩

/-- The lines of an input, by its bytes.  Nothing after the last line feed is no line. -/
def splitLines : List UInt8 → List (List UInt8)
  | [] => []
  | byte :: rest =>
    if byte = 0x0A then [] :: splitLines rest
    else
      match splitLines rest with
      | [] => [[byte]]
      | line :: lines => (byte :: line) :: lines

/-- A session with the given input. -/
def run (input : List UInt8) : Session :=
  replyAll (splitLines input)

end Shell

end Covenant
