/-
**Assembly.**

Assembly is a sequence of instructions, each with an optional note saying what it is for.  It is
built by appending instructions and by filling in operands of earlier ones, and it is rendered both
as bytecode and as text, one instruction per line.

Main definitions:

* `Covenant.Assembly`, `Covenant.Assembly.Line` — the sequence and its members;
* `Assembly.emit`, `Assembly.patch?` — appending an instruction, replacing an operand;
* `Assembly.position` — the byte at which the next instruction will start;
* `Assembly.bytes`, `Assembly.hex`, `Assembly.render` — bytecode and text;
* `Assembly.ofBytecode` — assembly without notes, from bytecode.

Main results:

* `Assembly.length_bytes` — where every instruction is well formed, the position is the number of
  bytes.
-/

import Covenant.Machine.Instruction

set_option relaxedAutoImplicit false
set_option autoImplicit false

namespace Covenant

open Machine

/-- An instruction and the note on it. -/
structure Assembly.Line where
  instruction : Instruction
  note : Option String
  deriving DecidableEq

/-- A sequence of instructions with notes. -/
structure Assembly where
  lines : List Assembly.Line
  deriving DecidableEq

namespace Assembly

/-- No instructions. -/
def empty : Assembly := ⟨[]⟩

/-- The instructions without their notes. -/
def instructions (code : Assembly) : List Instruction :=
  code.lines.map Line.instruction

/-! ### Building -/

/-- The byte at which the next instruction will start, counted by what the opcodes ask for. -/
def position (code : Assembly) : Nat :=
  code.lines.foldr (fun line n => line.instruction.size + n) 0

/-- Appends an instruction, whose index is the number of lines before. -/
def emit (code : Assembly) (instruction : Instruction) (note : Option String) : Assembly :=
  ⟨code.lines ++ [⟨instruction, note⟩]⟩

/-- Replaces the operand and the note of the instruction at `index`.  There is nothing to replace
if no instruction stands there or it has no operand. -/
def patch? (code : Assembly) (index : Nat) (word : Word) (note : Option String) :
    Option Assembly :=
  match code.lines[index]? with
  | some ⟨⟨opcode, some _⟩, _⟩ => some ⟨code.lines.set index ⟨⟨opcode, some word⟩, note⟩⟩
  | _ => none

/-- The lines of one sequence, then those of another. -/
def append (code more : Assembly) : Assembly :=
  ⟨code.lines ++ more.lines⟩

@[simp] theorem position_empty : empty.position = 0 := rfl

@[simp] theorem position_append (code more : Assembly) :
    (code.append more).position = code.position + more.position := by
  obtain ⟨lines⟩ := code
  induction lines with
  | nil => simp [position, append]
  | cons line lines ih =>
    simp only [position, append, List.cons_append, List.foldr_cons] at ih ⊢
    omega

@[simp] theorem position_emit (code : Assembly) (instruction : Instruction) (note : Option String) :
    (code.emit instruction note).position = code.position + instruction.size :=
  position_append code ⟨[⟨instruction, note⟩]⟩

/-! ### Bytecode -/

/-- The bytes of all instructions, in order. -/
def bytes (code : Assembly) : List UInt8 :=
  code.lines.flatMap fun line => line.instruction.bytes

/-- The bytecode in hexadecimal. -/
def hex (code : Assembly) : String :=
  Text.Hex.encode code.bytes

/-- Assembly without notes, from the instructions of some bytecode. -/
def ofBytecode (code : List UInt8) : Except Bytecode.Fault Assembly :=
  (Bytecode.decode code).map fun instructions => ⟨instructions.map fun i => ⟨i, none⟩⟩

/-- Where every instruction is well formed, there are as many bytes as the position says. -/
theorem length_bytes {code : Assembly} (h : ∀ line ∈ code.lines, line.instruction.WellFormed) :
    code.bytes.length = code.position := by
  obtain ⟨lines⟩ := code
  induction lines with
  | nil => rfl
  | cons line lines ih =>
    have here := Instruction.length_bytes (h line (by simp))
    have there := ih fun l hl => h l (by simp [hl])
    simp_all [bytes, position]

/-! ### Text -/

/-- The width of the column that instructions with a note are padded to. -/
def noteColumn : Nat := 30

/-- One line of text: the instruction, and the note behind a percent sign. -/
def Line.render (line : Line) : String :=
  match line.note with
  | some note =>
    let instruction := line.instruction.render
    instruction ++ "".pushn ' ' (noteColumn - instruction.length) ++ "% " ++ note ++ "\n"
  | none => line.instruction.render ++ "\n"

/-- The text of a sequence, each line ended by a line feed. -/
def render (code : Assembly) : String :=
  String.join (code.lines.map Line.render)

end Assembly

end Covenant
