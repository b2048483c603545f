/-
**Reading assembly text.**

An instruction is written on a line of its own: its name, then after blanks its operand.  What
follows a percent sign is a note.  A line that holds nothing else is skipped.  An operand is `0x`
with up to sixteen hexadecimal digits, or a signed decimal integer of sixty-four bits.  Its readers
take it from the front of a text and leave the rest, so what an instruction leaves has to be looked
at in the end: nothing but blanks may stand there.

Main definitions:

* `Covenant.Assembly.readOperand?` — the operand at the front of a text;
* `Covenant.Assembly.readInstruction?` — the name and the operand that are a whole text;
* `Covenant.Assembly.readLine` — the instruction of a line, or `Covenant.Assembly.Fault`;
* `Covenant.Assembly.ofText` — the assembly of a text, or the fault of the first line that has one.
-/

import Covenant.Assembly
import Covenant.Text.Blank

set_option relaxedAutoImplicit false
set_option autoImplicit false

namespace Covenant.Assembly

open Machine

/-! ### Faults -/

/-- How many operands an operation takes, and another number of them that it was given. -/
structure OperandCount where
  expected : Nat
  given : Nat
  deriving DecidableEq

/-- What is wrong with a line, which is counted from one. -/
inductive Fault where
  /-- There is no operation of this name. -/
  | notAnOperation (line : Nat) (name : String)
  /-- The operation takes another number of operands than it was given. -/
  | wrongArity (line : Nat) (opcode : Opcode) (operands : OperandCount)
  /-- The line, given without the blanks around it, does not have the form of an instruction. -/
  | malformed (line : Nat) (text : String)
  deriving DecidableEq

/-- The report on a line that cannot be read. -/
def Fault.message : Fault → String
  | .notAnOperation line name =>
    "Error on line " ++ Text.Decimal.ofNat line ++ ": " ++ name ++ " is not an operation."
  | .wrongArity line opcode operands =>
    "Error on line " ++ Text.Decimal.ofNat line ++ ": " ++ opcode.name ++ " requires " ++
      Text.Decimal.ofNat operands.expected ++ " operands but was given " ++
      Text.Decimal.ofNat operands.given ++ "."
  | .malformed line text =>
    "Error on line " ++ Text.Decimal.ofNat line ++ ": could not parse `" ++ text ++ "`."

/-! ### Operands -/

/-- The hexadecimal operand at the front of a text, and what follows it: `0x` and the digits behind
it, of which there is one at least.  No more than sixteen are taken. -/
def hexOperand? : List Char → Option (Word × List Char)
  | '0' :: 'x' :: text =>
    let digits := (text.take 16).takeWhile Text.Hex.isDigit
    if digits = [] then none
    else some (.ofNat (Text.Hex.value digits), text.drop digits.length)
  | _ => none

/-- The decimal operand at the front of a text, and what follows it: all the digits that stand
there, perhaps with a minus sign before them.  There is none if the integer does not fit sixty-four
bits. -/
def decimalOperand? : List Char → Option (Word × List Char)
  | '-' :: text =>
    (Text.Decimal.int64? ('-' :: text.takeWhile Char.isDigit)).map fun value =>
      (.ofInt64 value, text.dropWhile Char.isDigit)
  | text =>
    (Text.Decimal.int64? (text.takeWhile Char.isDigit)).map fun value =>
      (.ofInt64 value, text.dropWhile Char.isDigit)

/-- The operand at the front of a text, and what follows it.  A `0x` without digits behind it is no
hexadecimal operand, and so begins with a decimal zero. -/
def readOperand? (text : List Char) : Option (Word × List Char) :=
  (hexOperand? text).or (decimalOperand? text)

/-! ### Lines -/

/-- The blanks that may stand within a line. -/
def isGap (c : Char) : Bool :=
  c == ' ' || c == '\t'

/-- The operand at the front of a text behind gaps, of which there is one at least. -/
def readArgument? : List Char → Option (Word × List Char)
  | [] => none
  | c :: text => if isGap c then readOperand? (text.dropWhile isGap) else none

/-- The name and the operand of the instruction that is the whole text, but for gaps at either side.
Where no operand can be read, what stands behind the name has to be gaps. -/
def readInstruction? (text : List Char) : Option (String × Option Word) :=
  let text := text.dropWhile isGap
  let name := text.takeWhile Char.isAlpha
  let behind := text.dropWhile Char.isAlpha
  if name = [] then none
  else
    match readArgument? behind with
    | some (word, rest) => if rest.all isGap then some (String.ofList name, some word) else none
    | none => if behind.all isGap then some (String.ofList name, none) else none

/-- The code of a line: what stands before the first percent sign. -/
def codePart (text : List Char) : List Char :=
  text.takeWhile (· != '%')

/-- The note of a line: what follows the first percent sign, without blanks at either side, unless
that leaves nothing. -/
def notePart (text : List Char) : Option String :=
  match Text.trim ((text.dropWhile (· != '%')).drop 1) with
  | [] => none
  | note => some (String.ofList note)

/-- The instruction and note of the line that has this number, where there is one. -/
def readLine (number : Nat) (text : List Char) : Except Fault (Option Line) :=
  let code := codePart text
  if Text.trim code = [] then .ok none
  else
    match readInstruction? code with
    | none => .error (.malformed number (String.ofList (Text.trim text)))
    | some (name, operand) =>
      match Opcode.ofName? name with
      | none => .error (.notAnOperation number name)
      | some opcode =>
        let given := if operand.isSome then 1 else 0
        if opcode.arity = given then .ok (some ⟨⟨opcode, operand⟩, notePart text⟩)
        else .error (.wrongArity number opcode ⟨opcode.arity, given⟩)

/-- Reads lines, the first of which has this number, up to the first fault. -/
def readLines (number : Nat) : List (List Char) → Except Fault (List Line)
  | [] => .ok []
  | text :: rest =>
    match readLine number text with
    | .error fault => .error fault
    | .ok none => readLines (number + 1) rest
    | .ok (some line) => (readLines (number + 1) rest).map (line :: ·)

/-- The assembly of a text. -/
def ofText (text : String) : Except Fault Assembly :=
  (readLines 1 (Text.lines text.toList)).map Assembly.mk

end Covenant.Assembly
