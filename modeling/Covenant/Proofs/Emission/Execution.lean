/-
**Executing emitted code.**

The steps of the machine through the sequences that constructs become: the push of a word, an
operation, an access to the slot of a name, and the conditional jump over a block.  Except for the
conditional jump these steps are forced, and from them the code of an expression is a path that
pushes a word and loads the slots of the names it reads, from left to right.

All lemmas are about items that stand in sound code.

Main definitions:

* `Covenant.Assembly.Sound` — every instruction is well formed and every byte has an address;
* `Covenant.Slot.load`, `Covenant.Slot.store` — the accesses to a slot;
* `Covenant.MemoryMap.loads` — the accesses that read names;
* `Covenant.MemoryMap.view` — memory as a store.

Main results:

* `Machine.step_plain`, `Machine.path_push` — the step of an item;
* `Slot.path_load`, `Slot.path_store` — reading and writing a slot;
* `Expression.Code.path` — **the code of an expression pushes its value**;
* `Expression.Code.path_declare`, `Expression.Code.path_assign`, `Expression.Code.path_drop`,
  `Expression.Code.path_test` — what is done with the value of an expression.
-/

import Covenant.Proofs.Contract.Evaluation
import Covenant.Proofs.Emission.Layout
import Covenant.Proofs.Machine.Execution

set_option relaxedAutoImplicit false
set_option autoImplicit false

namespace Covenant

open Machine
open Emission (Item)

/-- Every instruction is well formed, and every byte has an address. -/
structure Assembly.Sound (code : Assembly) : Prop where
  wellFormed : code.WellFormed
  addressable : code.Addressable

variable {world : World} {code : Assembly} {position : ℕ} {item : Item} {items : List Item}
variable {stack : List Word} {slots : ℕ → Word}

/-! ### Single items -/

namespace Machine

theorem step_plain {opcode : Opcode} {note : Option String}
    (holds : code.Holds position (item :: items)) (is : item.line? = some ⟨.plain opcode, note⟩)
    (sound : code.Sound) (taken : Word → Bool) :
    step world taken code.bytes ⟨position, stack, slots⟩ =
      perform world taken code.bytes opcode ⟨position, stack, slots⟩ :=
  step_of_plain (holds.decodeAt sound.wellFormed is)

/-- The accesses of an item are those of its operation. -/
theorem accesses_item {instruction : Instruction} {note : Option String}
    (holds : code.Holds position (item :: items)) (is : item.line? = some ⟨instruction, note⟩)
    (sound : code.Sound) : accesses code.bytes ⟨position, stack, slots⟩ =
      instruction.opcode.accesses stack := by
  have decoded := holds.decodeAt sound.wellFormed is
  simp only [accesses, decoded]

/-- An operation that always leads to the same state is a path there. -/
theorem path_plain {opcode : Opcode} {note : Option String} {next : State}
    (holds : code.Holds position (item :: items)) (is : item.line? = some ⟨.plain opcode, note⟩)
    (sound : code.Sound) (performed : ∀ taken,
      perform world taken code.bytes opcode ⟨position, stack, slots⟩ = some (.running next)) :
    Path (Forced world code.bytes) code.bytes ⟨position, stack, slots⟩ (opcode.accesses stack)
      next := by
  have moved : Forced world code.bytes ⟨position, stack, slots⟩ next := by
    intro taken
    rw [step_plain holds is sound, performed]
  have path := @Path.single _ code.bytes _ _ moved
  rwa [accesses_item holds is sound] at path

theorem path_push {word : Word} {note : Option String}
    (holds : code.Holds position (item :: items)) (is : item.line? = some ⟨.push word, note⟩)
    (sound : code.Sound) :
    Path (Forced world code.bytes) code.bytes ⟨position, stack, slots⟩ []
      ⟨position + 9, word :: stack, slots⟩ := by
  have decoded := holds.decodeAt sound.wellFormed is
  have moved : Forced world code.bytes ⟨position, stack, slots⟩
      ⟨position + 9, word :: stack, slots⟩ := by
    intro taken
    rw [step_of_push decoded]
    rfl
  have path := @Path.single _ code.bytes _ _ moved
  rwa [accesses_item holds is sound] at path

end Machine

/-! ### Slots -/

namespace Slot

variable {slot : Slot} {name : String}

/-- The access that reads a slot. -/
def load (slot : Slot) : Access := .load (.ofNat slot.size) (.ofNat slot.offset)

/-- The access that writes a slot. -/
def store (slot : Slot) : Access := .store (.ofNat slot.size) (.ofNat slot.offset)

/-- Pushing the address of a slot. -/
theorem path_address {opcode : Opcode} (holds : code.Holds position (slot.access opcode name))
    (sound : code.Sound) :
    Path (Forced world code.bytes) code.bytes ⟨position, stack, slots⟩ []
        ⟨position + 18, .ofNat slot.offset :: .ofNat slot.size :: stack, slots⟩ :=
  (path_push holds rfl sound).trans (path_push holds.tail rfl sound)

/-- Reading a slot pushes its value. -/
theorem path_load (holds : code.Holds position (slot.access .mload name)) (sound : code.Sound)
    (size : slot.size = MemoryMap.slotSize) (bound : slot.offset < 2 ^ 64) :
    Path (Forced world code.bytes) code.bytes ⟨position, stack, slots⟩ [slot.load]
      ⟨position + Item.totalSize (slot.access .mload name), slots slot.offset :: stack, slots⟩ := by
  refine (path_address holds sound).trans (path_plain holds.tail.tail rfl sound ?_)
  intro taken
  rw [size]
  have place := Word.toNat_ofNat_of_lt bound
  simp only [perform, State.next, MemoryMap.slotSize, place, if_pos]
  rfl

/-- Writing a slot takes a value from the stack. -/
theorem path_store (holds : code.Holds position (slot.access .mstore name))
    (sound : code.Sound) (size : slot.size = MemoryMap.slotSize) (bound : slot.offset < 2 ^ 64)
    (value : Word) :
    Path (Forced world code.bytes) code.bytes ⟨position, value :: stack, slots⟩ [slot.store]
      ⟨position + Item.totalSize (slot.access .mstore name), stack,
        Function.update slots slot.offset value⟩ := by
  refine (path_address holds sound).trans (path_plain holds.tail.tail rfl sound ?_)
  intro taken
  rw [size]
  have place := Word.toNat_ofNat_of_lt bound
  simp only [perform, State.next, MemoryMap.slotSize, place, if_pos]
  rfl

end Slot

/-! ### Jumps -/

namespace Machine

theorem toNat_destination {destination : ℕ} {note : String}
    (target : code.Holds destination (.noted .jumpDst note :: items)) (sound : code.Sound) :
    (Word.ofNat destination).toNat = destination := by
  have stop := target.stop_le
  have fits := sound.addressable
  rw [Item.totalSize_cons, Item.size_noted] at stop
  have one : Opcode.jumpDst.size = 1 := rfl
  rw [Assembly.Addressable] at fits
  exact Word.toNat_ofNat_of_lt (by omega)

/-- A jump goes to the mark at its destination. -/
theorem jump_eq {state : State} {destination : ℕ} {note : String} {rest : List Word}
    (target : code.Holds destination (.noted .jumpDst note :: items)) (sound : code.Sound) :
    state.jump code.bytes (.ofNat destination) rest =
      some (.running ⟨destination, rest, state.memory⟩) := by
  have decoded := target.decodeAt sound.wellFormed rfl
  rw [State.jump, toNat_destination target sound, decoded]
  rfl

/-- Passing a mark. -/
theorem path_mark {note : String} (holds : code.Holds position (.noted .jumpDst note :: items))
    (sound : code.Sound) :
    Path (Forced world code.bytes) code.bytes ⟨position, stack, slots⟩ []
      ⟨position + 1, stack, slots⟩ :=
  path_plain holds rfl sound fun _ => rfl

/-- The jump behind a block goes to the mark at its destination. -/
theorem path_leave {destination : ℕ} {note : String} {more : List Item}
    (holds : code.Holds position (Item.leave destination ++ more))
    (target : code.Holds destination (.noted .jumpDst note :: items)) (sound : code.Sound) :
    Path (Forced world code.bytes) code.bytes ⟨position, stack, slots⟩ []
      ⟨destination, stack, slots⟩ :=
  (path_push holds rfl sound).trans
    (path_plain holds.tail rfl sound fun _ => jump_eq target sound)

end Machine

/-! ### Names -/

namespace MemoryMap

variable {memory : MemoryMap} {name : String} {slot : Slot}

/-- The accesses that read the slots of names, in order. -/
def loads (memory : MemoryMap) (names : List String) : List Access :=
  names.filterMap fun name => (memory.slot? name).map Slot.load

theorem loads_append (memory : MemoryMap) (names more : List String) :
    memory.loads (names ++ more) = memory.loads names ++ memory.loads more :=
  List.filterMap_append

/-- The values that names have in memory. -/
def view (memory : MemoryMap) (slots : ℕ → Word) : Store :=
  ⟨fun name => (memory.slot? name).map fun slot => slots slot.offset⟩

@[simp] theorem view_empty (slots : ℕ → Word) : empty.view slots = Store.empty := rfl

/-- Writing the slot of a name binds the name. -/
theorem view_update (sound : memory.Sound) (found : memory.slot? name = some slot)
    (value : Word) : memory.view (Function.update slots slot.offset value) =
      (memory.view slots).bind name value := by
  ext1
  funext other
  by_cases same : other = name
  · simp [view, same, found]
  · rw [Store.value?_bind_of_ne _ _ same]
    cases place : memory.slot? other with
    | none => simp [view, place]
    | some next =>
        have distinct : next.offset ≠ slot.offset := fun h => same (sound.apart place found h)
        simp [view, place, Function.update_of_ne distinct]

/-- Writing the slot of a new name binds the name, whatever it stood for before. -/
theorem view_define (sound : memory.Sound) (name : String) (value : Word) :
    (memory.define name).view (Function.update slots memory.next.offset value) =
      (memory.view slots).bind name value := by
  rw [view_update (sound.define name) (slot?_define_self memory name)]
  ext1
  funext other
  by_cases same : other = name
  · simp [same]
  · rw [Store.value?_bind_of_ne _ _ same, Store.value?_bind_of_ne _ _ same]
    simp only [view, slot?_define_of_ne memory same]

end MemoryMap

/-! ### Expressions -/

namespace Expression

theorem eval_of_literal? {value : Expression} {operand : Operand} {word : Word} {store : Store}
    (shape : value.literal? = some operand) (fits : operand.encode = .ok word) :
    value.eval world store = some word := by
  cases value <;> cases shape <;> simp only [eval, fits, Except.toOption]

theorem names_of_literal? {value : Expression} {operand : Operand}
    (shape : value.literal? = some operand) : value.names = [] := by
  cases value <;> cases shape <;> rfl

/-- The opcodes of a binary operator compute it. -/
theorem path_opcodes {op : BinaryOperator} {left right : Word}
    (holds : code.Holds position (op.opcodes.map .plain)) (sound : code.Sound) :
    Path (Forced world code.bytes) code.bytes ⟨position, right :: left :: stack, slots⟩ []
      ⟨position + Item.totalSize (op.opcodes.map .plain),
        op.compute world left right :: stack, slots⟩ := by
  cases op with
  | notEqual =>
      exact (path_plain holds rfl sound fun _ => perform_of_isBinary rfl).trans
        (path_plain holds.tail rfl sound fun _ => rfl)
  | _ => exact path_plain holds rfl sound fun _ => perform_of_isBinary rfl

/-- **The code of an expression pushes its value**, reads the slots of its names from left to right
and changes nothing else. -/
theorem Code.path {memory : MemoryMap} {value : Expression} (code_of : Code memory value items)
    (holds : code.Holds position items) (sound : code.Sound) (memory_sound : memory.Sound)
    (bound : memory.cursor ≤ 2 ^ 64) (stack : List Word) :
    ∃ word, value.eval world (memory.view slots) = some word ∧
      Path (Forced world code.bytes) code.bytes ⟨position, stack, slots⟩ (memory.loads value.names)
        ⟨position + Item.totalSize items, word :: stack, slots⟩ := by
  induction code_of generalizing position stack with
  | @literal _ _ word shape fits =>
      refine ⟨word, eval_of_literal? shape fits, ?_⟩
      rw [names_of_literal? shape]
      exact path_push holds rfl sound
  | @identifier name slot found =>
      have place := memory_sound.offset_lt found
      refine ⟨slots slot.offset, by simp [eval, MemoryMap.view, found], ?_⟩
      rw [names, MemoryMap.loads, List.filterMap_cons_some (by rw [found]; rfl)]
      exact slot.path_load holds sound (memory_sound.size_eq found) (by omega)
  | not _ ih =>
      obtain ⟨word, value_eq, path⟩ := ih holds.left stack
      refine ⟨world.negate word, by simp [eval, value_eq, UnaryOperator.compute], ?_⟩
      have last := path.trans (path_plain holds.right rfl sound fun _ => rfl)
      rw [Item.totalSize_append, ← Nat.add_assoc, names]
      simpa [Opcode.accesses] using last
  | minus _ ih =>
      obtain ⟨word, value_eq, path⟩ := ih holds.tail.left (.ofNat 0 :: stack)
      refine ⟨world.binary .sub (.ofNat 0) word,
        by simp [eval, value_eq, UnaryOperator.compute], ?_⟩
      have last := (path_push holds rfl sound).trans
        (path.trans (path_plain holds.tail.right rfl sound fun _ => rfl))
      rw [Item.totalSize_cons, Item.totalSize_append, ← Nat.add_assoc, ← Nat.add_assoc, names]
      simpa [Opcode.accesses] using last
  | binary _ _ ihLeft ihRight =>
      obtain ⟨first, first_eq, path⟩ := ihLeft holds.left stack
      obtain ⟨second, second_eq, more⟩ := ihRight holds.right.left (first :: stack)
      refine ⟨_, by simp [eval, first_eq, second_eq]; rfl, ?_⟩
      have last := path.trans (more.trans (path_opcodes holds.right.right sound))
      rw [Item.totalSize_append, Item.totalSize_append, ← Nat.add_assoc, ← Nat.add_assoc, names,
        MemoryMap.loads_append]
      rwa [List.append_nil] at last

end Expression

/-! ### Statements without branches -/

namespace Expression.Code

variable {memory : MemoryMap} {value : Expression}

/-- A value that is written to the slot of a name. -/
theorem path_assign {name : String} {slot : Slot} (code_of : Code memory value items)
    (found : memory.slot? name = some slot)
    (holds : code.Holds position (items ++ slot.access .mstore name)) (sound : code.Sound)
    (memory_sound : memory.Sound) (bound : memory.cursor ≤ 2 ^ 64) (stack : List Word) :
    ∃ word, value.eval world (memory.view slots) = some word ∧
      Path (Forced world code.bytes) code.bytes ⟨position, stack, slots⟩
        (memory.loads value.names ++ [slot.store])
        ⟨position + Item.totalSize (items ++ slot.access .mstore name), stack,
          Function.update slots slot.offset word⟩ := by
  obtain ⟨word, evaluated, path⟩ := code_of.path holds.left sound memory_sound bound stack
  have place := memory_sound.offset_lt found
  refine ⟨word, evaluated, ?_⟩
  rw [Item.totalSize_append, ← Nat.add_assoc]
  exact path.trans (slot.path_store holds.right sound (memory_sound.size_eq found) (by omega) word)

/-- A value that is written to a slot of its own. -/
theorem path_declare {name : String} (code_of : Code memory value items)
    (holds : code.Holds position
      (items ++ (memory.shadowing name ++ memory.next.access .mstore name)))
    (sound : code.Sound) (memory_sound : memory.Sound) (bound : memory.cursor ≤ position)
    (stack : List Word) :
    ∃ word, value.eval world (memory.view slots) = some word ∧
      Path (Forced world code.bytes) code.bytes ⟨position, stack, slots⟩
        (memory.loads value.names ++ [memory.next.store])
        ⟨position + Item.totalSize
            (items ++ (memory.shadowing name ++ memory.next.access .mstore name)), stack,
          Function.update slots memory.cursor word⟩ := by
  have room := holds.stop_le
  have fits : code.position ≤ 2 ^ 64 := sound.addressable
  simp only [Item.totalSize_append, Slot.totalSize_access] at room
  obtain ⟨word, evaluated, path⟩ :=
    code_of.path holds.left sound memory_sound (by omega) stack
  have fresh : memory.next.offset < 2 ^ 64 := Nat.lt_of_le_of_lt bound (by omega)
  -- the warning about an earlier definition is no code
  have address := holds.right.right
  rw [MemoryMap.totalSize_shadowing, Nat.add_zero] at address
  refine ⟨word, evaluated, ?_⟩
  rw [Item.totalSize_append, Item.totalSize_append, MemoryMap.totalSize_shadowing, Nat.zero_add,
    ← Nat.add_assoc]
  exact path.trans (memory.next.path_store address sound rfl fresh word)

/-- A value that is dropped. -/
theorem path_drop (code_of : Code memory value items)
    (holds : code.Holds position (items ++ [.plain .pop])) (sound : code.Sound)
    (memory_sound : memory.Sound) (bound : memory.cursor ≤ 2 ^ 64) (stack : List Word) :
    ∃ word, value.eval world (memory.view slots) = some word ∧
      Path (Forced world code.bytes) code.bytes ⟨position, stack, slots⟩ (memory.loads value.names)
        ⟨position + Item.totalSize (items ++ [.plain .pop]), stack, slots⟩ := by
  obtain ⟨word, evaluated, path⟩ := code_of.path holds.left sound memory_sound bound stack
  refine ⟨word, evaluated, ?_⟩
  rw [Item.totalSize_append, ← Nat.add_assoc]
  have last := path.trans (path_plain holds.right rfl sound fun _ => rfl)
  simpa [Opcode.accesses] using last

/-- The condition of a block and the conditional jump over it, which is all that is left to decide:
the block is entered if the jump is not taken. -/
theorem path_test {destination : ℕ} {note mark : String} {more rest : List Item}
    (code_of : Code memory value items)
    (holds : code.Holds position (items ++ (Item.skip destination note ++ more)))
    (target : code.Holds destination (.noted .jumpDst mark :: rest)) (sound : code.Sound)
    (memory_sound : memory.Sound) (bound : memory.cursor ≤ 2 ^ 64) (stack : List Word) :
    ∃ word jump, value.eval world (memory.view slots) = some word ∧
      Path (Forced world code.bytes) code.bytes ⟨position, stack, slots⟩ (memory.loads value.names)
        jump ∧
      accesses code.bytes jump = [] ∧ ∀ taken, step world taken code.bytes jump =
        some (.running ⟨if taken (world.negate word) then destination
          else position + Item.totalSize items + 11, stack, slots⟩) := by
  obtain ⟨word, evaluated, path⟩ := code_of.path holds.left sound memory_sound bound stack
  have skip : code.Holds (position + Item.totalSize items) (Item.skip destination note ++ more) :=
    holds.right
  have jump : code.Holds (position + Item.totalSize items + 10) (.plain .jumpi :: more) :=
    skip.tail.tail
  refine ⟨word, ⟨position + Item.totalSize items + 10,
    .ofNat destination :: world.negate word :: stack, slots⟩, evaluated, ?_,
    accesses_item jump rfl sound, ?_⟩
  · rw [← List.append_nil (memory.loads value.names)]
    exact path.trans ((path_plain skip rfl sound fun _ => rfl).trans
      (path_push skip.tail rfl sound))
  · intro taken
    rw [step_plain jump rfl sound]
    cases h : taken (world.negate word) with
    | true => simp [perform, h, jump_eq target sound]
    | false => simp [perform, h, State.next, Opcode.size, Opcode.arity]

end Expression.Code

/-! ### Parameters -/

namespace Parameter

/-- The accesses that write parameters, the first of which takes the next slot. -/
def stores (memory : MemoryMap) : List Parameter → List Access
  | [] => []
  | parameter :: rest => memory.next.store :: stores (memory.define parameter.name) rest

/-- The code for parameters binds them to the call arguments. -/
theorem Code.path {index : ℕ} {memory last : MemoryMap} {parameters : List Parameter}
    (copy : Parameter.Code index memory parameters items last) (holds : code.Holds position items)
    (sound : code.Sound) (memory_sound : memory.Sound) (bound : memory.cursor ≤ position)
    (few : index ≤ position) (world : World) (stack : List Word) (slots : ℕ → Word) :
    ∃ final, last.view final = bindAll world index (memory.view slots) parameters ∧
      Path (Forced world code.bytes) code.bytes ⟨position, stack, slots⟩
        (stores memory parameters) ⟨position + Item.totalSize items, stack, final⟩ := by
  have fits : code.position ≤ 2 ^ 64 := sound.addressable
  induction copy generalizing position slots with
  | nil => exact ⟨slots, rfl, .refl _⟩
  | @cons index memory _ parameter _ _ tail ih =>
      have room := holds.stop_le
      simp only [Item.totalSize_cons, Item.totalSize_append, Slot.totalSize_access] at room
      have load := holds.tail
      have store := load.tail.left
      have more := load.tail.right
      have argument : (Word.ofNat index).toNat = index := Word.toNat_ofNat_of_lt (by omega)
      have fresh : memory.next.offset < 2 ^ 64 := Nat.lt_of_le_of_lt bound (by omega)
      have value : Path (Forced world code.bytes) code.bytes ⟨position, stack, slots⟩ []
          ⟨position + 10, world.argument index :: stack, slots⟩ :=
        (path_push holds rfl sound).trans (path_plain load rfl sound fun _ => by
          simp only [perform, argument]
          rfl)
      have define := value.trans (Slot.path_store store sound rfl fresh _)
      have grown := MemoryMap.cursor_define memory parameter.name
      have slot : MemoryMap.slotSize = 8 := rfl
      obtain ⟨final, view, path⟩ := ih more (memory_sound.define _)
        (by simp only [Item.size_push, Item.size_plain, Slot.totalSize_access]; omega)
        (by simp only [Item.size_push, Item.size_plain, Slot.totalSize_access]; omega)
        (Function.update slots memory.next.offset (world.argument index))
      refine ⟨final, by rw [view, MemoryMap.view_define memory_sound, bindAll], ?_⟩
      simp only [Item.totalSize_cons, Item.totalSize_append, ← Nat.add_assoc]
      exact define.trans path

end Parameter

end Covenant
