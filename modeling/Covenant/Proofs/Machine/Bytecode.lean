/-
**Bytecode that was laid out.**

`Covenant/Machine/Instruction.lean` writes an instruction as bytes and reads one off the front of
some bytes.  This module joins the two: where the bytes of well-formed instructions stand one after
another, the decoder finds each of them at the position where its bytes begin, and reading from the
front gives all of them back.

Main definitions:

* `Covenant.Assembly.WellFormed` — every instruction has an operand exactly when it takes one;
* `Covenant.Assembly.Addressable` — every byte has an address that fits a word;
* `Covenant.Assembly.Holds` — some emitted items stand at a position of the code.

Main results:

* `Assembly.decode_bytes` — **the bytecode of well-formed code decodes to its instructions**;
* `Assembly.Holds.decodeAt` — the instruction of an item is decoded where the item stands.
-/

import Covenant.Assembly
import Covenant.Emission
import Covenant.Proofs.Machine.Word

set_option relaxedAutoImplicit false
set_option autoImplicit false

namespace Covenant

namespace Machine

/-! ### One instruction -/

theorem Opcode.size_pos (opcode : Opcode) : 0 < opcode.size := by
  cases opcode <;> decide

namespace Bytecode

/-- The bytes of a well-formed instruction are read back, whatever follows them. -/
theorem decodeFront_bytes {instruction : Instruction} (h : instruction.WellFormed) (position : ℕ)
    (rest : List UInt8) : ∃ shorter, decodeFront position (instruction.bytes ++ rest) =
      .ok ⟨instruction, rest, shorter⟩ := by
  obtain ⟨opcode, operand⟩ := instruction
  cases operand with
  | none =>
      have arity : opcode.arity = 0 := by cases opcode <;> simp_all [Instruction.WellFormed,
        Opcode.arity]
      exact ⟨by simp [Instruction.bytes], by
        simp [decodeFront, Instruction.bytes, arity, Instruction.plain]⟩
  | some word =>
      have arity : opcode.arity = 1 := by simpa [Instruction.WellFormed] using h
      obtain ⟨bytes, eight⟩ := word
      have shorter : rest.length < (opcode.code :: bytes ++ rest).length := by
        rw [List.cons_append, List.length_cons, List.length_append]
        omega
      refine ⟨shorter, ?_⟩
      simp [decodeFront, Instruction.bytes, arity, eight, Word.size]

/-- An instruction is decoded at the position where its bytes begin. -/
theorem decodeAt_append {instruction : Instruction} (h : instruction.WellFormed)
    (before after : List UInt8) :
    decodeAt (before ++ (instruction.bytes ++ after)) before.length = .ok instruction := by
  obtain ⟨shorter, read⟩ := decodeFront_bytes h before.length after
  rw [decodeAt, List.drop_left, read]
  rfl

/-- Reading on from a well-formed instruction reads it and what follows. -/
theorem decodeFrom_append {instruction : Instruction} (h : instruction.WellFormed) (position : ℕ)
    (rest : List UInt8) : decodeFrom position (instruction.bytes ++ rest) =
      (decodeFrom (position + instruction.size) rest).map (instruction :: ·) := by
  obtain ⟨shorter, read⟩ := decodeFront_bytes h position rest
  generalize instruction.bytes ++ rest = code at shorter read ⊢
  cases code with
  | nil => simp at shorter
  | cons byte tail => rw [decodeFrom, read]

end Bytecode

end Machine

open Machine

namespace Assembly

/-! ### Whole sequences -/

/-- Every instruction has an operand exactly when its opcode takes one. -/
def WellFormed (code : Assembly) : Prop :=
  ∀ line ∈ code.lines, line.instruction.WellFormed

/-- The code is no larger than the addresses that fit a word, so that every byte has one. -/
def Addressable (code : Assembly) : Prop :=
  code.position ≤ 2 ^ 64

/-- The bytes of well-formed lines are read back one by one. -/
theorem decodeFrom_flatMap {lines : List Line} (h : ∀ line ∈ lines, line.instruction.WellFormed)
    (position : ℕ) :
    Bytecode.decodeFrom position (lines.flatMap fun line => line.instruction.bytes) =
      .ok (lines.map Line.instruction) := by
  induction lines generalizing position with
  | nil => simp [Bytecode.decodeFrom]
  | cons line lines ih =>
      have first := h line (by simp)
      rw [List.flatMap_cons, Bytecode.decodeFrom_append first, ih fun l hl => h l (by simp [hl])]
      rfl

/-- **The bytecode of well-formed code decodes to its instructions.** -/
theorem decode_bytes {code : Assembly} (h : code.WellFormed) :
    Bytecode.decode code.bytes = .ok code.instructions :=
  decodeFrom_flatMap h 0

/-! ### Where items stand -/

/-- The lines of some emitted items stand in the code, the first of them at a position. -/
def Holds (code : Assembly) (position : ℕ) (items : List Emission.Item) : Prop :=
  ∃ before after, code.lines = before ++ (Emission.Item.lines items ++ after) ∧
    (Assembly.mk before).position = position

namespace Holds

variable {code : Assembly} {position : ℕ} {items more : List Emission.Item}

theorem left (h : code.Holds position (items ++ more)) : code.Holds position items := by
  obtain ⟨before, after, same, start⟩ := h
  exact ⟨before, Emission.Item.lines more ++ after, by simp [same], start⟩

theorem right (h : code.Holds position (items ++ more)) :
    code.Holds (position + Emission.Item.totalSize items) more := by
  obtain ⟨before, after, same, start⟩ := h
  refine ⟨before ++ Emission.Item.lines items, after, by simp [same], ?_⟩
  have sum := position_append ⟨before⟩ ⟨Emission.Item.lines items⟩
  rwa [start, Emission.Item.position_lines] at sum

theorem tail {item : Emission.Item} (h : code.Holds position (item :: items)) :
    code.Holds (position + item.size) items := by
  have split : item :: items = [item] ++ items := rfl
  rw [split] at h
  simpa [Emission.Item.totalSize] using h.right

/-- What stands in the code ends within it. -/
theorem stop_le (h : code.Holds position items) :
    position + Emission.Item.totalSize items ≤ code.position := by
  obtain ⟨before, after, same, start⟩ := h
  have sum := position_append ⟨before⟩ ⟨Emission.Item.lines items ++ after⟩
  have inner := position_append ⟨Emission.Item.lines items⟩ ⟨after⟩
  rw [Emission.Item.position_lines] at inner
  simp only [append] at sum inner
  have whole : code.position =
      (Assembly.mk (before ++ (Emission.Item.lines items ++ after))).position :=
    congrArg (fun lines => (Assembly.mk lines).position) same
  omega

/-- The instruction of an item is decoded where the item stands. -/
theorem decodeAt {item : Emission.Item} {line : Line} (h : code.Holds position (item :: items))
    (sound : code.WellFormed) (some : item.line? = some line) :
    Bytecode.decodeAt code.bytes position = .ok line.instruction := by
  obtain ⟨before, after, same, start⟩ := h
  have lines : Emission.Item.lines (item :: items) = line :: Emission.Item.lines items := by
    simp [Emission.Item.lines, some]
  rw [lines, List.cons_append] at same
  have early : (Assembly.mk before).bytes.length = position := by
    rw [← start]
    exact length_bytes fun l hl => sound l (by simp [same, hl])
  have bytes : code.bytes = (Assembly.mk before).bytes ++ (line.instruction.bytes ++
      (Assembly.mk (Emission.Item.lines items ++ after)).bytes) := by
    simp [Assembly.bytes, same]
  rw [bytes, ← early]
  exact Bytecode.decodeAt_append (sound line (by simp [same])) _ _

/-- Code that stands at its beginning is all of the code. -/
theorem whole (h : code.lines = Emission.Item.lines items) : code.Holds 0 items :=
  ⟨[], [], by simp [h], rfl⟩

end Holds

end Assembly

end Covenant
