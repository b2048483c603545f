/-
**Instructions and bytecode.**

An instruction is an opcode with an operand word or without one.  In bytecode the opcode's byte
comes first and the bytes of the word follow.  An instruction is *well formed* if it has an operand
exactly when its opcode takes one; only such instructions are read back from bytecode.

Main definitions:

* `Covenant.Machine.Instruction`, `Covenant.Machine.Instruction.WellFormed`;
* `Instruction.render`, `Instruction.bytes` — its text and its bytes;
* `Covenant.Machine.Bytecode.decodeAt`, `Covenant.Machine.Bytecode.decode` — reading one
  instruction, and all of them;
* `Covenant.Machine.Bytecode.Fault` — why bytes are no bytecode.

Main results:

* `Instruction.length_bytes` — a well-formed instruction has the size that its opcode says.
-/

import Covenant.Front
import Covenant.Machine.Opcode
import Covenant.Machine.Operand

set_option relaxedAutoImplicit false
set_option autoImplicit false

namespace Covenant.Machine

/-- An opcode, with an operand word or without one. -/
structure Instruction where
  opcode : Opcode
  operand : Option Word
  deriving DecidableEq

namespace Instruction

/-- An operation that takes everything from the stack. -/
def plain (opcode : Opcode) : Instruction := ⟨opcode, none⟩

/-- Pushes a word. -/
def push (word : Word) : Instruction := ⟨.push, some word⟩

/-- There is an operand exactly when the opcode takes one. -/
def WellFormed (instruction : Instruction) : Prop :=
  instruction.operand.isSome = true ↔ instruction.opcode.arity = 1

instance (instruction : Instruction) : Decidable instruction.WellFormed := by
  unfold WellFormed; infer_instance

/-- The number of bytes that the opcode asks for. -/
def size (instruction : Instruction) : Nat :=
  instruction.opcode.size

/-- The name of the opcode, and the operand in hexadecimal. -/
def render (instruction : Instruction) : String :=
  match instruction.operand with
  | some word => instruction.opcode.name ++ " 0x" ++ word.hex
  | none => instruction.opcode.name

/-- The bytes of an instruction. -/
def bytes (instruction : Instruction) : List UInt8 :=
  match instruction.operand with
  | some word => instruction.opcode.code :: word.bytes
  | none => [instruction.opcode.code]

theorem wellFormed_push (word : Word) : (push word).WellFormed := by
  simp [push, WellFormed, Opcode.arity]

/-- A well-formed instruction is as long as its opcode says. -/
theorem length_bytes {instruction : Instruction} (h : instruction.WellFormed) :
    instruction.bytes.length = instruction.size := by
  obtain ⟨opcode, operand⟩ := instruction
  cases operand with
  | none =>
    have : opcode.arity ≠ 1 := by simpa [WellFormed] using h
    cases opcode <;> simp_all [bytes, size, Opcode.size, Opcode.arity]
  | some word =>
    have : opcode.arity = 1 := by simpa [WellFormed] using h
    simp [bytes, size, Opcode.size, this, word.length_bytes, Word.size]

end Instruction

namespace Bytecode

/-! ### Decoding -/

/-- Why no instruction stands at a position of the code. -/
inductive Fault where
  /-- The code ends before the position. -/
  | outOfBounds (position : Nat)
  /-- The byte there is no opcode. -/
  | unknownOpcode (position : Nat) (byte : UInt8)
  /-- Fewer bytes follow than the operand has. -/
  | truncated (position : Nat) (opcode : Opcode)
  deriving DecidableEq

/-- The report on code that cannot be decoded. -/
def Fault.message : Fault → String
  | .outOfBounds position => "no instruction at byte " ++ Text.Decimal.ofNat position
  | .unknownOpcode position byte =>
    "unknown opcode 0x" ++ Text.Hex.encode [byte] ++ " at byte " ++ Text.Decimal.ofNat position
  | .truncated position opcode =>
    opcode.name ++ " at byte " ++ Text.Decimal.ofNat position ++ " is missing its operand"

/-- Reads the instruction at the front of some code, which stands at `position`. -/
def decodeFront (position : Nat) (code : List UInt8) :
    Except Fault (Front UInt8 Instruction code.length) :=
  match code with
  | [] => .error (.outOfBounds position)
  | byte :: rest =>
    match Opcode.ofCode? byte with
    | none => .error (.unknownOpcode position byte)
    | some opcode =>
      if opcode.arity = 0 then .ok ⟨.plain opcode, rest, Nat.lt_succ_self _⟩
      else if h : (rest.take Word.size).length = Word.size then
        .ok ⟨⟨opcode, some ⟨rest.take Word.size, h⟩⟩, rest.drop Word.size, by
          simp only [List.length_cons, List.length_drop]
          omega⟩
      else .error (.truncated position opcode)

/-- Reads the instruction at a position of the code. -/
def decodeAt (code : List UInt8) (position : Nat) : Except Fault Instruction :=
  (decodeFront position (code.drop position)).map Front.value

/-- Reads instructions up to the end of some code, which stands at `position`. -/
def decodeFrom (position : Nat) (code : List UInt8) : Except Fault (List Instruction) :=
  match code with
  | [] => .ok []
  | byte :: tail =>
    match decodeFront position (byte :: tail) with
    | .error fault => .error fault
    | .ok ⟨instruction, rest, _⟩ =>
      (decodeFrom (position + instruction.size) rest).map (instruction :: ·)
termination_by code.length
decreasing_by assumption

/-- Reads all instructions of some code. -/
def decode (code : List UInt8) : Except Fault (List Instruction) :=
  decodeFrom 0 code

end Bytecode

end Covenant.Machine
