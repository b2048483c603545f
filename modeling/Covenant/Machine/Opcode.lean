/-
**Opcodes.**

An opcode is one byte of code.  `Push` alone is followed by an operand word; every other operation
takes what it needs from the stack.  With `a` pushed before `b`, the operations do this:

    Add, Mul, Sub, Div, Mod    a, b                   -> a op b
    And, Or                    a, b                   -> a op b
    LessThan .. Equal          a, b                   -> a op b
    Not                        a                      -> not a
    Pop                        a                      ->
    Push                                              -> operand
    Mload                      size, offset           -> memory at offset
    Mstore                     value, size, offset    ->
    LoadFunc                                          -> selector of the called function
    LoadArgs                   index                  -> call argument at index
    Returning                  value                  -> (gives the value to the caller)
    Jump                       destination            ->
    Jumpi                      condition, destination ->
    JumpDst                                           (marks where a jump may go)
    Exit                                              (stops)

Main definitions:

* `Covenant.Machine.Opcode` — the operations;
* `Opcode.code`, `Opcode.ofCode?`, `Opcode.name`, `Opcode.ofName?` — their bytes and names;
* `Opcode.arity`, `Opcode.size` — operand words after an opcode, bytes of an instruction.

Main results:

* `Opcode.ofCode?_eq_some_iff`, `Opcode.ofName?_eq_some_iff` — bytes and names determine opcodes.
-/

import Covenant.Machine.Word

set_option relaxedAutoImplicit false
set_option autoImplicit false

namespace Covenant.Machine

/-- The operations of the machine. -/
inductive Opcode where
  | add | mul | sub | div | mod | and | or
  | lessThan | greaterThan | lessThanOrEqual | greaterThanOrEqual | equal | not
  | pop | push | mload | mstore | loadFunc | loadArgs | returning | jump | jumpi | jumpDst
  | exit
  deriving DecidableEq, Repr

namespace Opcode

/-- All operations, by increasing code. -/
def all : List Opcode :=
  [add, mul, sub, div, mod, and, or,
    lessThan, greaterThan, lessThanOrEqual, greaterThanOrEqual, equal, not,
    pop, push, mload, mstore, loadFunc, loadArgs, returning, jump, jumpi, jumpDst,
    exit]

/-- The byte of an operation.  The three groups leave room between them. -/
def code : Opcode → UInt8
  | add => 0x01 | mul => 0x02 | sub => 0x03 | div => 0x04 | mod => 0x05 | and => 0x06 | or => 0x07
  | lessThan => 0x10 | greaterThan => 0x11 | lessThanOrEqual => 0x12 | greaterThanOrEqual => 0x13
  | equal => 0x14 | not => 0x15
  | pop => 0x20 | push => 0x21 | mload => 0x22 | mstore => 0x23 | loadFunc => 0x24
  | loadArgs => 0x25 | returning => 0x26 | jump => 0x27 | jumpi => 0x28 | jumpDst => 0x29
  | exit => 0x30

/-- The name of an operation in assembly. -/
def name : Opcode → String
  | add => "Add" | mul => "Mul" | sub => "Sub" | div => "Div" | mod => "Mod"
  | and => "And" | or => "Or"
  | lessThan => "LessThan" | greaterThan => "GreaterThan"
  | lessThanOrEqual => "LessThanOrEqual" | greaterThanOrEqual => "GreaterThanOrEqual"
  | equal => "Equal" | not => "Not"
  | pop => "Pop" | push => "Push" | mload => "Mload" | mstore => "Mstore"
  | loadFunc => "LoadFunc" | loadArgs => "LoadArgs" | returning => "Returning"
  | jump => "Jump" | jumpi => "Jumpi" | jumpDst => "JumpDst"
  | exit => "Exit"

/-- The operation of a byte. -/
def ofCode? (byte : UInt8) : Option Opcode :=
  all.find? fun opcode => opcode.code == byte

/-- The operation of a name; case matters. -/
def ofName? (text : String) : Option Opcode :=
  all.find? fun opcode => opcode.name == text

/-- The number of operand words after an opcode. -/
def arity : Opcode → Nat
  | push => 1
  | _ => 0

/-- The number of bytes that an instruction of this operation takes. -/
def size (opcode : Opcode) : Nat :=
  1 + opcode.arity * Word.size

theorem mem_all (opcode : Opcode) : opcode ∈ all := by
  cases opcode <;> decide

@[simp] theorem ofCode?_code (opcode : Opcode) : ofCode? opcode.code = some opcode := by
  cases opcode <;> rfl

@[simp] theorem ofName?_name (opcode : Opcode) : ofName? opcode.name = some opcode := by
  cases opcode <;> decide

/-- A byte denotes the operation that has it as its code, and no other. -/
theorem ofCode?_eq_some_iff {byte : UInt8} {opcode : Opcode} :
    ofCode? byte = some opcode ↔ opcode.code = byte := by
  constructor
  · intro h
    simpa using List.find?_some h
  · rintro rfl
    simp

/-- A text denotes the operation that has it as its name, and no other. -/
theorem ofName?_eq_some_iff {text : String} {opcode : Opcode} :
    ofName? text = some opcode ↔ opcode.name = text := by
  constructor
  · intro h
    simpa using List.find?_some h
  · rintro rfl
    simp

end Opcode

end Covenant.Machine
