/-
**Moving code.**

Code that is compiled at another position differs in one respect only: its jumps lead as much
further as the code was moved.  This is so before anything is known of the code, even where
compiling fails: emitting at a moved position is emitting and moving what was emitted.

In the lines of emitted code a destination is a word like any other.  It shows as one by what stands
behind it, since nothing but a jump ever follows the push of a destination.

Main definitions:

* `Covenant.Emission.moved` — an emission with all its destinations moved;
* `Covenant.Assembly.Relocated` — lines that differ in nothing but in what they push for a jump.

Main results:

* `Statement.emit_moved`, `FunctionDecl.emit_moved` — **emitting at a moved position is moving what
  is emitted**;
* `Assembly.Relocated.unique` — lines can be relocated in one way only;
* `FunctionDecl.Code.relocates` — the lines of a function are relocated if its items are moved.
-/

import Covenant.Proofs.Emission.Layout
import Covenant.Proofs.Machine.ControlFlow

set_option relaxedAutoImplicit false
set_option autoImplicit false

namespace Covenant

open Machine
open Emission (Item)

/-! ### Moved emissions -/

namespace Emission

namespace Item

/-- An item whose destination, if it has one, lies further on. -/
def moved (offset : ℕ) : Item → Item
  | .forward destination note => .forward (destination + offset) note
  | item => item

@[simp] theorem size_moved (offset : ℕ) (item : Item) : (item.moved offset).size = item.size := by
  cases item with
  | line code => rfl
  | forward destination note =>
      have same : ∀ target, (forward target note).size = 9 := fun _ => rfl
      rw [moved, same, same]
  | remark remark => rfl

@[simp] theorem totalSize_map_moved (offset : ℕ) (items : List Item) :
    totalSize (items.map (moved offset)) = totalSize items := by
  induction items with
  | nil => rfl
  | cons item rest ih => simp [ih]

/-- Items without destinations stay as they are. -/
theorem map_moved_of_straight {items : List Item} (straight : ∀ item ∈ items, item.Straight)
    (offset : ℕ) : items.map (moved offset) = items := by
  refine (List.map_congr_left fun item mem => ?_).trans (List.map_id items)
  cases straight item mem <;> rfl

end Item

variable {α β : Type}

/-- An emission whose destinations all lie further on. -/
def moved (offset : ℕ) (emission : Emission α) : Emission α :=
  ⟨emission.items.map (Item.moved offset), emission.result⟩

@[simp] theorem size_moved (offset : ℕ) (emission : Emission α) :
    (emission.moved offset).size = emission.size :=
  Item.totalSize_map_moved offset emission.items

@[simp] theorem moved_pure (offset : ℕ) (a : α) :
    (pure a : Emission α).moved offset = pure a := rfl

@[simp] theorem moved_fail (offset : ℕ) (fault : CompileError) :
    (fail fault : Emission α).moved offset = fail fault := rfl

@[simp] theorem moved_plain (offset : ℕ) (opcode : Opcode) :
    (plain opcode).moved offset = plain opcode := rfl

@[simp] theorem moved_noted (offset : ℕ) (opcode : Opcode) (note : String) :
    (noted opcode note).moved offset = noted opcode note := rfl

@[simp] theorem moved_push (offset : ℕ) (word : Word) (note : String) :
    (push word note).moved offset = push word note := rfl

@[simp] theorem moved_remark (offset : ℕ) (r : Remark) :
    (remark r).moved offset = remark r := rfl

@[simp] theorem moved_forward (offset destination : ℕ) (note : String) :
    (forward destination note).moved offset = forward (destination + offset) note := rfl

/-- A moved emission yields what the emission yields, moved. -/
theorem yields_moved_iff {offset : ℕ} {emission : Emission α} {items : List Item} {a : α} :
    (emission.moved offset).Yields items a ↔
      ∃ first, emission.Yields first a ∧ items = first.map (Item.moved offset) := by
  simp [Yields, moved, eq_comm, and_comm]

/-- A sequence is moved by moving its steps. -/
@[simp] theorem moved_bind (offset : ℕ) (first : Emission α) (next : α → Emission β) :
    (first >>= next).moved offset = first.moved offset >>= fun a => (next a).moved offset := by
  cases h : first.result <;> simp [moved, bind, h]

end Emission

/-! ### Emitting at a moved position -/

theorem MemoryMap.resolve_moved (memory : MemoryMap) (statement : Statement) (name : String)
    (offset : ℕ) :
    (memory.resolve statement name).moved offset = memory.resolve statement name := by
  unfold resolve
  split <;> rfl

theorem Slot.emitStore_moved (slot : Slot) (name : String) (offset : ℕ) :
    (slot.emitStore name).moved offset = slot.emitStore name := rfl

theorem Slot.emitLoad_moved (slot : Slot) (name : String) (offset : ℕ) :
    (slot.emitLoad name).moved offset = slot.emitLoad name := rfl

namespace Expression

theorem emitOpcodes_moved (opcodes : List Opcode) (offset : ℕ) :
    (emitOpcodes opcodes).moved offset = emitOpcodes opcodes := by
  induction opcodes with
  | nil => rfl
  | cons opcode rest ih => simp [emitOpcodes, ih]

theorem pushLiteral_moved (statement : Statement) (literal : Operand) (offset : ℕ) :
    (statement.pushLiteral literal).moved offset = statement.pushLiteral literal := by
  unfold Statement.pushLiteral
  split <;> rfl

/-- The code of an expression has no destinations. -/
theorem emit_moved (memory : MemoryMap) (statement : Statement) (value : Expression) (offset : ℕ) :
    (value.emit memory statement).moved offset = value.emit memory statement := by
  induction value with
  | integer value => exact pushLiteral_moved _ _ _
  | boolean value => exact pushLiteral_moved _ _ _
  | text value => exact pushLiteral_moved _ _ _
  | identifier name => simp [emit, MemoryMap.resolve_moved, Slot.emitLoad_moved]
  | unary op right ih => cases op <;> simp [emit, ih]
  | binary left op right ihLeft ihRight => simp [emit, ihLeft, ihRight, emitOpcodes_moved]

end Expression

namespace Statement

mutual

/-- **Emitting a statement at a moved position is moving what it emits.** -/
theorem emit_moved (position : ℕ) (memory : MemoryMap) (offset : ℕ) :
    (statement : Statement) →
      statement.emit (position + offset) memory = (statement.emit position memory).moved offset
  | .declare type name value => by
      rw [emit, emit]
      cases h : memory.isDefined name <;>
        simp [Expression.emit_moved, Slot.emitStore_moved]
  | .assign name value => by
      simp [emit, Expression.emit_moved, MemoryMap.resolve_moved, Slot.emitStore_moved]
  | .return none => by simp [emit]
  | .return (some value) => by simp [emit, Expression.emit_moved]
  | .expression value => by simp [emit, Expression.emit_moved]
  | .ifThen condition consequence => by
      -- the offset is carried out of every sum, so that it is added to a position last
      have inner := fun start => emitAll_moved start memory offset consequence
      simp only [emit, Nat.add_right_comm position offset, Nat.add_right_comm _ offset, inner]
      simp [Expression.emit_moved]
  | .ifElse condition consequence alternative => by
      have inner := fun start => emitAll_moved start memory offset consequence
      have outer := fun start memory => emitAll_moved start memory offset alternative
      simp only [emit, Nat.add_right_comm position offset, Nat.add_right_comm _ offset, inner]
      simp [Expression.emit_moved, outer]

/-- The same for a list of statements. -/
theorem emitAll_moved (position : ℕ) (memory : MemoryMap) (offset : ℕ) :
    (statements : List Statement) →
      emitAll (position + offset) memory statements =
        (emitAll position memory statements).moved offset
  | [] => by simp [emitAll]
  | statement :: rest => by
      have first := emit_moved position memory offset statement
      have more := fun start memory => emitAll_moved start memory offset rest
      simp only [emitAll, first, Emission.size_moved, Nat.add_right_comm position offset, more,
        Emission.moved_bind]

end

end Statement

theorem Parameter.emitAll_moved (index : ℕ) (memory : MemoryMap) (parameters : List Parameter)
    (offset : ℕ) : (Parameter.emitAll index memory parameters).moved offset =
      Parameter.emitAll index memory parameters := by
  induction parameters generalizing index memory with
  | nil => simp [Parameter.emitAll]
  | cons parameter rest ih => simp [Parameter.emitAll, Slot.emitStore_moved, ih]

/-- **Emitting a function at a moved position is moving what it emits.** -/
theorem FunctionDecl.emit_moved (position offset : ℕ) (function : FunctionDecl) :
    function.emit (position + offset) = (function.emit position).moved offset := by
  simp only [emit, Nat.add_right_comm _ offset, Statement.emitAll_moved]
  simp [Parameter.emitAll_moved]

/-! ### Relocated lines -/

namespace Assembly

/-- Lines that agree with others except for what is pushed for a jump right behind, which is larger
by an offset.  Every jump stands behind such a push. -/
inductive Relocated (offset : ℕ) : List Line → List Line → Prop
  | nil : Relocated offset [] []
  | same {line : Line} {rest moved : List Line} (calm : line.instruction.opcode.isJump = false)
      (tail : Relocated offset rest moved) : Relocated offset (line :: rest) (line :: moved)
  | further {word other : Word} {note : Option String} {jump : Line} {rest moved : List Line}
      (jumps : jump.instruction.opcode.isJump = true) (larger : other.toNat = word.toNat + offset)
      (tail : Relocated offset rest moved) :
      Relocated offset (⟨.push word, note⟩ :: jump :: rest) (⟨.push other, note⟩ :: jump :: moved)

namespace Relocated

variable {offset : ℕ} {lines more moved further : List Line}

theorem append (front : Relocated offset lines moved) (back : Relocated offset more further) :
    Relocated offset (lines ++ more) (moved ++ further) := by
  induction front with
  | nil => exact back
  | same calm _ ih => exact .same calm ih
  | further jumps larger _ ih => exact .further jumps larger ih

/-- Lines without jumps are relocated as they are. -/
theorem refl (calm : ∀ line ∈ lines, line.instruction.opcode.isJump = false) :
    Relocated offset lines lines := by
  induction lines with
  | nil => exact .nil
  | cons line rest ih =>
      rw [List.forall_mem_cons] at calm
      exact .same calm.1 (ih calm.2)

/-- **Lines can be relocated in one way only.** -/
theorem unique {other : List Line} (first : Relocated offset lines moved)
    (second : Relocated offset lines other) : moved = other := by
  induction first generalizing other with
  | nil =>
      cases second
      rfl
  | same calm tail ih =>
      cases second with
      | same _ tail' => rw [ih tail']
      | further jumps _ tail' =>
          -- the line is the push before a jump, and a jump is never left as it is
          cases tail with
          | same calm' => rw [jumps] at calm'; cases calm'
          | further => cases jumps
  | further jumps larger tail ih =>
      cases second with
      | same _ tail' =>
          cases tail' with
          | same calm' => rw [jumps] at calm'; cases calm'
          | further => cases jumps
      | further _ larger' tail' =>
          rw [Word.eq_of_toNat_eq (larger.trans larger'.symm), ih tail']

end Relocated

end Assembly

open Assembly (Relocated)

namespace Emission.Item

variable {offset : ℕ} {items more : List Item}

/-- The lines of some items are relocated if the items are moved. -/
def Relocates (offset : ℕ) (items : List Item) : Prop :=
  Relocated offset (lines items) (lines (items.map (moved offset)))

theorem Relocates.append (front : Relocates offset items) (back : Relocates offset more) :
    Relocates offset (items ++ more) := by
  rw [Relocates, List.map_append, lines_append, lines_append]
  exact Relocated.append front back

/-- Items without jumps are relocated as they are. -/
theorem relocates_of_straight (straight : ∀ item ∈ items, item.Straight) :
    Relocates offset items := by
  rw [Relocates, map_moved_of_straight straight]
  refine Relocated.refl fun line mem => ?_
  obtain ⟨item, itemMem, same⟩ := List.mem_filterMap.1 mem
  have calm : ∀ {opcode : Opcode}, opcode.isSimple = true → opcode.isJump = false := by
    intro opcode simple
    cases opcode <;> first | rfl | cases simple
  cases straight item itemMem with
  | push word note => cases same; rfl
  | plain simple => cases same; exact calm simple
  | noted simple note => cases same; exact calm simple
  | remark r => cases same

theorem relocates_mark (note : String) : Relocates offset [.noted .jumpDst note] :=
  .same rfl .nil

/-- The destination before a jump is moved, and fits a word before and after. -/
theorem relocates_jump {destination : ℕ} {note : String} {opcode : Opcode}
    (jumps : opcode.isJump = true) (fits : destination + offset < 2 ^ 64) :
    Relocates offset [.forward destination note, .plain opcode] := by
  refine .further jumps ?_ .nil
  rw [Word.toNat_ofNat_of_lt fits, Word.toNat_ofNat_of_lt (by omega)]

theorem relocates_skip {destination : ℕ} {note : String} (fits : destination + offset < 2 ^ 64) :
    Relocates offset (skip destination note) :=
  .same rfl (relocates_jump rfl fits)

theorem relocates_leave {destination : ℕ} (fits : destination + offset < 2 ^ 64) :
    Relocates offset (leave destination) :=
  relocates_jump rfl fits

end Emission.Item

open Emission.Item (relocates_of_straight relocates_mark relocates_skip relocates_leave)

/-- The lines of a block are relocated if its items are moved. -/
theorem Statement.Block.relocates {position offset : ℕ} {memory last : MemoryMap}
    {statements : List Statement} {items : List Item}
    (block : Block position memory statements items last)
    (fits : position + Item.totalSize items + offset ≤ 2 ^ 64) : Item.Relocates offset items := by
  induction block with
  | nil => exact .nil
  | cons _ _ ihHead ihTail =>
      rw [Item.totalSize_append] at fits
      exact (ihHead (by omega)).append (ihTail (by omega))
  | ifThen test start_eq inner stop_eq ih =>
      subst start_eq stop_eq
      simp only [Item.totalSize_append, Item.totalSize_skip, Item.totalSize_cons,
        Item.size_mark] at fits
      exact (relocates_of_straight test.straight).append
        ((relocates_skip (by omega)).append ((ih (by omega)).append (relocates_mark _)))
  | ifElse test start_eq inner otherwise_eq outer stop_eq ihInner ihOuter =>
      subst start_eq otherwise_eq stop_eq
      simp only [Item.totalSize_append, Item.totalSize_skip, Item.totalSize_cons,
        Item.totalSize_leave, Item.size_mark] at fits
      have other := (relocates_mark "else").append
        ((ihOuter (by omega)).append (relocates_mark "end if"))
      exact (relocates_of_straight test.straight).append ((relocates_skip (by omega)).append
        ((ihInner (by omega)).append ((relocates_leave (by omega)).append other)))
  | declare value => exact relocates_of_straight (value.straight_declare _)
  | assign value => exact relocates_of_straight (value.straight_assign _ _)
  | returnValue value => exact relocates_of_straight (value.straight_plain rfl)
  | returnNothing => exact relocates_of_straight (by simpa using Item.Straight.noted rfl _)
  | expression value => exact relocates_of_straight (value.straight_plain rfl)

/-- **The lines of a function are relocated if its items are moved.** -/
theorem FunctionDecl.Code.relocates {position offset : ℕ} {function : FunctionDecl}
    {items : List Item} {memory : MemoryMap} (code : function.Code position items memory)
    (fits : position + Item.totalSize items + offset ≤ 2 ^ 64) : Item.Relocates offset items := by
  obtain ⟨parameters, rfl, block⟩ := code
  simp only [Item.totalSize_cons, Item.totalSize_append, Item.size_mark] at fits
  have stop : ∀ slots, Item.Relocates offset [.noted .exit ("end of " ++ function.name),
      .remark (.compiledFunction function.name slots)] := by
    intro slots
    refine relocates_of_straight (List.forall_mem_cons.2 ⟨.noted rfl _, ?_⟩)
    simpa using Item.Straight.remark _
  exact (relocates_mark _).append ((relocates_of_straight parameters.straight).append
    ((block.relocates (by omega)).append (stop _)))

end Covenant
