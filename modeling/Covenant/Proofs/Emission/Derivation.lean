/-
**What compiling emits, as a relation.**

`Covenant/Emission/Code.lean` compiles by a monad that emits items and may fail.  Whoever reasons
about the code of a contract wants to know only what was emitted when nothing failed, one rule for
each construct.  This module states these rules as relations between the source, the items and the
memory maps before and behind them, and proves that every compilation which succeeds obeys them.

A list of statements is related to its code by a single relation: `cons` takes the first statement
as a list of its own, and the other rules are about lists of one statement.

Main definitions:

* `Covenant.Emission.Yields` — an emission succeeds with these items and this result;
* `Covenant.Expression.Code` — the code of an expression under a memory map;
* `Covenant.Statement.Block` — the code of statements at a position, and the memory map behind them.

Main results:

* `Expression.code_of_yields`, `Statement.block_of_yieldsAll` — **what compiling emits obeys the
  rules**.

The rules for functions and contracts are in `Covenant/Proofs/Emission/Declarations.lean`.
-/

import Covenant.Emission.Code
import Mathlib.Data.Nat.Notation

set_option relaxedAutoImplicit false
set_option autoImplicit false

namespace Covenant

open Machine Emission

/-! ### Emissions that succeed -/

namespace Emission

variable {α β : Type}

/-- The emission succeeds with these items and this result. -/
def Yields (emission : Emission α) (items : List Item) (result : α) : Prop :=
  emission.items = items ∧ emission.result = .ok result

theorem yields_pure_iff {a b : α} {items : List Item} :
    (pure a : Emission α).Yields items b ↔ items = [] ∧ b = a := by
  simp [Yields, eq_comm]

theorem yields_emit_iff {item : Item} {items : List Item} {u : Unit} :
    (emit item).Yields items u ↔ items = [item] := by
  simp [Yields, emit, eq_comm]

theorem not_yields_fail {fault : CompileError} {items : List Item} {a : α} :
    ¬ (fail fault : Emission α).Yields items a := by
  simp [Yields, fail]

/-- What a sequence of two emissions yields is what the first yields, and what the second yields on
its result. -/
theorem yields_bind_iff {first : Emission α} {next : α → Emission β} {items : List Item} {b : β} :
    (first >>= next).Yields items b ↔
      ∃ a front back, first.Yields front a ∧ (next a).Yields back b ∧ items = front ++ back := by
  constructor
  · rintro ⟨same, success⟩
    rw [result_bind] at success
    cases h : first.result with
    | error fault =>
        rw [h] at success
        cases success
    | ok a =>
        rw [h] at success
        refine ⟨a, first.items, (next a).items, ⟨rfl, h⟩, ⟨rfl, success⟩, ?_⟩
        rw [← same, items_bind_ok h]
  · rintro ⟨a, front, back, ⟨rfl, first_ok⟩, ⟨rfl, next_ok⟩, rfl⟩
    refine ⟨items_bind_ok first_ok, ?_⟩
    rw [result_bind, first_ok]
    exact next_ok

/-- An emission that cannot fail, before another one. -/
theorem yields_emit_bind_iff {item : Item} {next : Unit → Emission β} {items : List Item} {b : β} :
    (emit item >>= next).Yields items b ↔
      ∃ back, (next ()).Yields back b ∧ items = item :: back := by
  rw [yields_bind_iff]
  constructor
  · rintro ⟨_, _, back, front, h, rfl⟩
    rw [yields_emit_iff] at front
    exact ⟨back, h, by rw [front]; rfl⟩
  · rintro ⟨back, h, rfl⟩
    exact ⟨(), [item], back, yields_emit_iff.2 rfl, h, rfl⟩

/-- The size of an emission that succeeds is that of its items. -/
theorem Yields.size_eq {emission : Emission α} {items : List Item} {a : α}
    (h : emission.Yields items a) : emission.size = Item.totalSize items := by
  rw [← h.1]
  rfl

namespace Item

/-- An operation without a note. -/
def plain (opcode : Opcode) : Item := .line ⟨.plain opcode, none⟩

/-- An operation with a note. -/
def noted (opcode : Opcode) (note : String) : Item := .line ⟨.plain opcode, some note⟩

/-- The push of a word. -/
def push (word : Word) (note : String) : Item := .line ⟨.push word, some note⟩

/-- The jump over a block if the value on the stack is false. -/
def skip (destination : ℕ) (note : String) : List Item :=
  [plain .not, .forward destination note, plain .jumpi]

/-- The jump from the end of one block behind another. -/
def leave (destination : ℕ) : List Item :=
  [.forward destination "to end if", plain .jump]

end Item

end Emission

open Emission (Item)

/-- The access to a slot by one of the two operations on memory. -/
def Slot.access (slot : Slot) (opcode : Opcode) (name : String) : List Item :=
  [.push (.ofNat slot.size) ("size of " ++ name), .push (.ofNat slot.offset) ("offset of " ++ name),
    .plain opcode]

theorem Slot.yields_emitLoad_iff {slot : Slot} {name : String} {items : List Item} {u : Unit} :
    (slot.emitLoad name).Yields items u ↔ items = slot.access .mload name :=
  ⟨fun h => h.1.symm, fun h => ⟨h.symm, rfl⟩⟩

theorem Slot.yields_emitStore_iff {slot : Slot} {name : String} {items : List Item} {u : Unit} :
    (slot.emitStore name).Yields items u ↔ items = slot.access .mstore name :=
  ⟨fun h => h.1.symm, fun h => ⟨h.symm, rfl⟩⟩

theorem MemoryMap.yields_resolve_iff {memory : MemoryMap} {statement : Statement} {name : String}
    {items : List Item} {slot : Slot} :
    (memory.resolve statement name).Yields items slot ↔
      items = [] ∧ memory.slot? name = some slot := by
  unfold resolve find
  cases memory.slot? name with
  | none => simp [Emission.not_yields_fail]
  | some other => simp [Emission.yields_pure_iff, eq_comm]

/-! ### Expressions -/

namespace Expression

/-- The literal that an expression is, if it is one. -/
def literal? : Expression → Option Operand
  | integer value => some (.integer value)
  | boolean value => some (.boolean value)
  | text value => some (.text value)
  | _ => none

/-- The code of an expression under a memory map. -/
inductive Code (memory : MemoryMap) : Expression → List Item → Prop
  | literal {value : Expression} {operand : Operand} {word : Word}
      (shape : value.literal? = some operand) (fits : operand.encode = .ok word) :
      Code memory value [.push word operand.render]
  | identifier {name : String} {slot : Slot} (found : memory.slot? name = some slot) :
      Code memory (.identifier name) (slot.access .mload name)
  | not {right : Expression} {items : List Item} (code : Code memory right items) :
      Code memory (.unary .not right) (items ++ [.plain .not])
  | minus {right : Expression} {items : List Item} (code : Code memory right items) :
      Code memory (.unary .minus right) (.push (.ofNat 0) "0" :: (items ++ [.plain .sub]))
  | binary {left right : Expression} {op : BinaryOperator} {items more : List Item}
      (first : Code memory left items) (second : Code memory right more) :
      Code memory (.binary left op right) (items ++ (more ++ op.opcodes.map .plain))

theorem yields_emitOpcodes_iff {opcodes : List Opcode} {items : List Item} {u : Unit} :
    (emitOpcodes opcodes).Yields items u ↔ items = opcodes.map .plain := by
  induction opcodes generalizing items with
  | nil => simp [emitOpcodes, Emission.yields_pure_iff]
  | cons opcode rest ih =>
      rw [emitOpcodes, Emission.plain, Emission.yields_emit_bind_iff]
      constructor
      · rintro ⟨back, h, rfl⟩
        rw [ih.1 h]
        rfl
      · rintro rfl
        exact ⟨_, ih.2 rfl, rfl⟩

theorem yields_pushLiteral_iff {statement : Statement} {literal : Operand} {items : List Item}
    {u : Unit} : (statement.pushLiteral literal).Yields items u ↔
      ∃ word, literal.encode = .ok word ∧ items = [.push word literal.render] := by
  unfold Statement.pushLiteral
  cases literal.encode with
  | error fault => simp [Emission.not_yields_fail]
  | ok word =>
      constructor
      · intro h
        exact ⟨word, rfl, Emission.yields_emit_iff.1 h⟩
      · rintro ⟨other, same, rfl⟩
        cases same
        exact Emission.yields_emit_iff.2 rfl

/-- **The code of an expression obeys the rules.** -/
theorem code_of_yields {memory : MemoryMap} {statement : Statement} {value : Expression}
    {items : List Item} {u : Unit} (h : (value.emit memory statement).Yields items u) :
    Code memory value items := by
  induction value generalizing items with
  | integer value =>
      obtain ⟨word, fits, rfl⟩ := yields_pushLiteral_iff.1 h
      exact Code.literal rfl fits
  | boolean value =>
      obtain ⟨word, fits, rfl⟩ := yields_pushLiteral_iff.1 h
      exact Code.literal rfl fits
  | text value =>
      obtain ⟨word, fits, rfl⟩ := yields_pushLiteral_iff.1 h
      exact Code.literal rfl fits
  | identifier name =>
      rw [emit, Emission.yields_bind_iff] at h
      obtain ⟨slot, front, back, resolved, load, rfl⟩ := h
      obtain ⟨rfl, found⟩ := MemoryMap.yields_resolve_iff.1 resolved
      rw [Slot.yields_emitLoad_iff.1 load]
      exact Code.identifier found
  | unary op right ih =>
      cases op with
      | not =>
          rw [emit, Emission.yields_bind_iff] at h
          obtain ⟨_, front, back, first, last, rfl⟩ := h
          rw [Emission.plain, Emission.yields_emit_iff] at last
          rw [last]
          exact Code.not (ih first)
      | minus =>
          rw [emit, Emission.push, Emission.yields_emit_bind_iff] at h
          obtain ⟨rest, h, rfl⟩ := h
          rw [Emission.yields_bind_iff] at h
          obtain ⟨_, front, back, first, last, rfl⟩ := h
          rw [Emission.plain, Emission.yields_emit_iff] at last
          rw [last]
          exact Code.minus (ih first)
  | binary left op right ihLeft ihRight =>
      rw [emit, Emission.yields_bind_iff] at h
      obtain ⟨_, front, back, first, rest, rfl⟩ := h
      rw [Emission.yields_bind_iff] at rest
      obtain ⟨_, middle, last, second, opcodes, rfl⟩ := rest
      rw [yields_emitOpcodes_iff.1 opcodes]
      exact Code.binary (ihLeft first) (ihRight second)

end Expression

/-! ### Statements -/

/-- The warning about a declaration that hides an earlier one. -/
def MemoryMap.shadowing (memory : MemoryMap) (name : String) : List Item :=
  if memory.isDefined name then [.remark (.shadowed name)] else []

namespace Statement

/-- The code of statements at a position, under one memory map and before another. -/
inductive Block : ℕ → MemoryMap → List Statement → List Item → MemoryMap → Prop
  | nil {position : ℕ} {memory : MemoryMap} : Block position memory [] [] memory
  | cons {position : ℕ} {memory middle last : MemoryMap} {statement : Statement}
      {rest : List Statement} {items more : List Item}
      (head : Block position memory [statement] items middle)
      (tail : Block (position + Item.totalSize items) middle rest more last) :
      Block position memory (statement :: rest) (items ++ more) last
  | declare {position : ℕ} {memory : MemoryMap} {type : DataType} {name : String}
      {value : Expression} {items : List Item} (code : value.Code memory items) :
      Block position memory [.declare type name value]
        (items ++ (memory.shadowing name ++ memory.next.access .mstore name)) (memory.define name)
  | assign {position : ℕ} {memory : MemoryMap} {name : String} {value : Expression} {slot : Slot}
      {items : List Item} (code : value.Code memory items)
      (found : memory.slot? name = some slot) :
      Block position memory [.assign name value] (items ++ slot.access .mstore name) memory
  | returnValue {position : ℕ} {memory : MemoryMap} {value : Expression} {items : List Item}
      (code : value.Code memory items) :
      Block position memory [.return (some value)] (items ++ [.plain .returning]) memory
  | returnNothing {position : ℕ} {memory : MemoryMap} :
      Block position memory [.return none] [.noted .exit "return"] memory
  | expression {position : ℕ} {memory : MemoryMap} {value : Expression} {items : List Item}
      (code : value.Code memory items) :
      Block position memory [.expression value] (items ++ [.plain .pop]) memory
  | ifThen {position start stop : ℕ} {memory last : MemoryMap} {condition : Expression}
      {consequence : List Statement} {items block : List Item}
      (test : condition.Code memory items) (start_eq : start = position + Item.totalSize items + 11)
      (inner : Block start memory consequence block last)
      (stop_eq : stop = start + Item.totalSize block) :
      Block position memory [.ifThen condition consequence]
        (items ++ (Item.skip stop "to end if" ++ (block ++ [.noted .jumpDst "end if"]))) last
  | ifElse {position start otherwise stop : ℕ} {memory middle last : MemoryMap}
      {condition : Expression} {consequence alternative : List Statement}
      {items block other : List Item}
      (test : condition.Code memory items) (start_eq : start = position + Item.totalSize items + 11)
      (inner : Block start memory consequence block middle)
      (otherwise_eq : otherwise = start + Item.totalSize block + 10)
      (outer : Block (otherwise + 1) middle alternative other last)
      (stop_eq : stop = otherwise + 1 + Item.totalSize other) :
      Block position memory [.ifElse condition consequence alternative]
        (items ++ (Item.skip otherwise "to else" ++ (block ++ (Item.leave stop ++
          (.noted .jumpDst "else" :: (other ++ [.noted .jumpDst "end if"])))))) last

mutual

/-- The code of a statement obeys the rules. -/
theorem block_of_yields {position : ℕ} {memory last : MemoryMap} {items : List Item} :
    (statement : Statement) → (statement.emit position memory).Yields items last →
      Block position memory [statement] items last
  | .declare type name value, h => by
      rw [emit, Emission.yields_bind_iff] at h
      obtain ⟨_, front, back, first, rest, rfl⟩ := h
      have code := Expression.code_of_yields first
      suffices back = memory.shadowing name ++ memory.next.access .mstore name ∧
          last = memory.define name by
        rw [this.1, this.2]
        exact Block.declare code
      rw [MemoryMap.shadowing]
      split at rest
      · rename_i defined
        rw [Emission.remark, Emission.yields_emit_bind_iff] at rest
        obtain ⟨back, rest, rfl⟩ := rest
        rw [Emission.yields_bind_iff] at rest
        obtain ⟨_, store, empty, stored, ended, rfl⟩ := rest
        obtain ⟨rfl, rfl⟩ := Emission.yields_pure_iff.1 ended
        rw [Slot.yields_emitStore_iff.1 stored, if_pos defined]
        exact ⟨by simp, rfl⟩
      · rename_i fresh
        rw [Emission.yields_bind_iff] at rest
        obtain ⟨_, store, empty, stored, ended, rfl⟩ := rest
        obtain ⟨rfl, rfl⟩ := Emission.yields_pure_iff.1 ended
        rw [Slot.yields_emitStore_iff.1 stored, if_neg fresh]
        exact ⟨by simp, rfl⟩
  | .assign name value, h => by
      rw [emit, Emission.yields_bind_iff] at h
      obtain ⟨_, front, back, first, rest, rfl⟩ := h
      rw [Emission.yields_bind_iff] at rest
      obtain ⟨slot, middle, back, resolved, rest, rfl⟩ := rest
      obtain ⟨rfl, found⟩ := MemoryMap.yields_resolve_iff.1 resolved
      rw [Emission.yields_bind_iff] at rest
      obtain ⟨_, store, empty, stored, ended, rfl⟩ := rest
      obtain ⟨rfl, rfl⟩ := Emission.yields_pure_iff.1 ended
      rw [Slot.yields_emitStore_iff.1 stored, List.nil_append, List.append_nil]
      exact Block.assign (Expression.code_of_yields first) found
  | .return none, h => by
      rw [emit, Emission.noted, Emission.yields_emit_bind_iff] at h
      obtain ⟨back, ended, rfl⟩ := h
      obtain ⟨rfl, rfl⟩ := Emission.yields_pure_iff.1 ended
      exact Block.returnNothing
  | .return (some value), h => by
      rw [emit, Emission.yields_bind_iff] at h
      obtain ⟨_, front, back, first, rest, rfl⟩ := h
      rw [Emission.plain, Emission.yields_emit_bind_iff] at rest
      obtain ⟨back, ended, rfl⟩ := rest
      obtain ⟨rfl, rfl⟩ := Emission.yields_pure_iff.1 ended
      exact Block.returnValue (Expression.code_of_yields first)
  | .expression value, h => by
      rw [emit, Emission.yields_bind_iff] at h
      obtain ⟨_, front, back, first, rest, rfl⟩ := h
      rw [Emission.plain, Emission.yields_emit_bind_iff] at rest
      obtain ⟨back, ended, rfl⟩ := rest
      obtain ⟨rfl, rfl⟩ := Emission.yields_pure_iff.1 ended
      exact Block.expression (Expression.code_of_yields first)
  | .ifThen condition consequence, h => by
      rw [emit, Emission.yields_bind_iff] at h
      obtain ⟨_, front, back, first, rest, rfl⟩ := h
      simp only [Emission.plain, Emission.forward, Emission.noted,
        Emission.yields_emit_bind_iff] at rest
      obtain ⟨_, ⟨_, ⟨_, rest, rfl⟩, rfl⟩, rfl⟩ := rest
      rw [Emission.yields_bind_iff] at rest
      obtain ⟨middle, block, back, inner, rest, rfl⟩ := rest
      rw [Emission.yields_emit_bind_iff] at rest
      obtain ⟨back, ended, rfl⟩ := rest
      obtain ⟨rfl, rfl⟩ := Emission.yields_pure_iff.1 ended
      have start := first.size_eq
      have size := inner.size_eq
      exact Block.ifThen (Expression.code_of_yields first) (by rw [start]; rfl)
        (block_of_yieldsAll consequence inner) (by rw [size])
  | .ifElse condition consequence alternative, h => by
      rw [emit, Emission.yields_bind_iff] at h
      obtain ⟨_, front, back, first, rest, rfl⟩ := h
      simp only [Emission.plain, Emission.forward, Emission.noted,
        Emission.yields_emit_bind_iff] at rest
      obtain ⟨_, ⟨_, ⟨_, rest, rfl⟩, rfl⟩, rfl⟩ := rest
      rw [Emission.yields_bind_iff] at rest
      obtain ⟨middle, block, back, inner, rest, rfl⟩ := rest
      simp only [Emission.yields_emit_bind_iff] at rest
      obtain ⟨_, ⟨_, ⟨_, rest, rfl⟩, rfl⟩, rfl⟩ := rest
      rw [Emission.yields_bind_iff] at rest
      obtain ⟨final, other, back, outer, rest, rfl⟩ := rest
      rw [Emission.yields_emit_bind_iff] at rest
      obtain ⟨back, ended, rfl⟩ := rest
      obtain ⟨rfl, rfl⟩ := Emission.yields_pure_iff.1 ended
      have start := first.size_eq
      have size := inner.size_eq
      have tail := outer.size_eq
      exact Block.ifElse (Expression.code_of_yields first) (by rw [start]; rfl)
        (block_of_yieldsAll consequence inner) (by rw [size]; rfl)
        (block_of_yieldsAll alternative outer) (by rw [tail]; rfl)

/-- **The code of statements obeys the rules.** -/
theorem block_of_yieldsAll {position : ℕ} {memory last : MemoryMap} {items : List Item} :
    (statements : List Statement) → (emitAll position memory statements).Yields items last →
      Block position memory statements items last
  | [], h => by
      rw [emitAll] at h
      obtain ⟨rfl, rfl⟩ := Emission.yields_pure_iff.1 h
      exact Block.nil
  | statement :: rest, h => by
      rw [emitAll, Emission.yields_bind_iff] at h
      obtain ⟨middle, front, back, first, more, rfl⟩ := h
      rw [first.size_eq] at more
      exact Block.cons (block_of_yields statement first) (block_of_yieldsAll rest more)

end

end Statement

end Covenant
