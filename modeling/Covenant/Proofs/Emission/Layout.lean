/-
**What stands in emitted code.**

The rules of `Covenant/Proofs/Emission/Derivation.lean` fix all that later modules need to know of
emitted code without executing it: that its instructions are well formed, and what a block does to
the memory map.

Main definitions:

* `Covenant.Emission.Item.WellFormed` — the instruction of an item, if it has one, is well formed;
* `Covenant.Emission.Item.Straight` — an item neither jumps nor marks a place;
* `Covenant.Compilation.Offers` — a function that was compiled, and where it begins.

Main results:

* `Expression.Code.straight` — expressions bring neither jumps nor marks;
* `FunctionDecl.Code.wellFormed`, `FunctionDecl.Codes.wellFormed` — **all instructions are well
  formed**;
* `Statement.Block.sound`, `Statement.Block.cursor_le`, `Statement.Block.cursor_stop` — a block
  keeps slots apart, only ever takes further ones, and no more of them than it has bytes;
* `Statement.Block.slot?_eq`, `Statement.Block.cursor_le_offset` — the slot of a name changes
  exactly in a block that declares it, and then to a new one;
* `Compilation.lines_ofContract`, `Compilation.Offers.holds` — where the code of a contract and of
  each function stands.
-/

import Covenant.Proofs.Contract.Names
import Covenant.Proofs.Emission.Declarations
import Covenant.Proofs.Machine.Bytecode
import Covenant.Proofs.MemoryMap

set_option relaxedAutoImplicit false
set_option autoImplicit false

namespace Covenant

open Machine
open Emission (Item)

/-! ### Sizes -/

namespace Emission.Item

@[simp] theorem totalSize_nil : totalSize [] = 0 := rfl

@[simp] theorem totalSize_cons (item : Item) (items : List Item) :
    totalSize (item :: items) = item.size + totalSize items := rfl

/-- What is emitted behind is emitted at the position that was reached before. -/
theorem events_append (position : ℕ) (items more : List Item) :
    events position (items ++ more) =
      events position items ++ events (position + totalSize items) more := by
  induction items generalizing position with
  | nil => rfl
  | cons item items ih =>
      rw [List.cons_append, events, events, ih, totalSize_cons, Nat.add_assoc, List.cons_append]

@[simp] theorem size_push (word : Word) (note : String) : (push word note).size = 9 := rfl

@[simp] theorem size_plain (opcode : Opcode) : (plain opcode).size = opcode.size := rfl

@[simp] theorem size_noted (opcode : Opcode) (note : String) :
    (noted opcode note).size = opcode.size := rfl

@[simp] theorem size_mark (note : String) : (noted .jumpDst note).size = 1 := rfl

@[simp] theorem totalSize_skip (destination : ℕ) (note : String) :
    totalSize (skip destination note) = 11 := rfl

@[simp] theorem totalSize_leave (destination : ℕ) : totalSize (leave destination) = 10 := rfl

end Emission.Item

@[simp] theorem Slot.totalSize_access (slot : Slot) (opcode : Opcode) (name : String) :
    Item.totalSize (slot.access opcode name) = 18 + opcode.size := by
  simp [access]
  omega

@[simp] theorem MemoryMap.totalSize_shadowing (memory : MemoryMap) (name : String) :
    Item.totalSize (memory.shadowing name) = 0 := by
  unfold shadowing
  split <;> rfl

/-! ### Well-formed instructions -/

/-- The operations without an operand that execution goes on behind and never jumps to. -/
def Machine.Opcode.isSimple : Opcode → Bool
  | push | jump | jumpi | jumpDst => false
  | _ => true

theorem Machine.Opcode.arity_of_isSimple {opcode : Opcode} (simple : opcode.isSimple = true) :
    opcode.arity = 0 := by
  cases opcode <;> first | rfl | cases simple

namespace Emission.Item

/-- The instruction of an item, if it has one, is well formed. -/
def WellFormed (item : Item) : Prop :=
  ∀ line ∈ item.line?, line.instruction.WellFormed

theorem wellFormed_push (word : Word) (note : String) : (push word note).WellFormed := by
  rintro line ⟨⟩
  exact Instruction.wellFormed_push word

theorem wellFormed_forward (destination : ℕ) (note : String) :
    (forward destination note).WellFormed := by
  rintro line ⟨⟩
  exact Instruction.wellFormed_push _

theorem wellFormed_plain {opcode : Opcode} (h : opcode.arity = 0) : (plain opcode).WellFormed := by
  rintro line ⟨⟩
  simp [Instruction.WellFormed, Instruction.plain, h]

theorem wellFormed_noted {opcode : Opcode} (h : opcode.arity = 0) (note : String) :
    (noted opcode note).WellFormed := by
  rintro line ⟨⟩
  simp [Instruction.WellFormed, Instruction.plain, h]

theorem wellFormed_remark (r : Remark) : (Item.remark r).WellFormed := by
  rintro line ⟨⟩

/-- Code whose lines come from well-formed items is well formed. -/
theorem wellFormed_lines {items : List Item} (h : ∀ item ∈ items, item.WellFormed) :
    (Assembly.mk (lines items)).WellFormed := by
  intro line mem
  obtain ⟨item, itemMem, same⟩ := List.mem_filterMap.1 mem
  exact h item itemMem line same

theorem wellFormed_skip (destination : ℕ) (note : String) :
    ∀ item ∈ skip destination note, item.WellFormed := by
  simp only [skip, List.forall_mem_cons]
  exact ⟨wellFormed_plain rfl, wellFormed_forward _ _, wellFormed_plain rfl, by simp⟩

theorem wellFormed_leave (destination : ℕ) : ∀ item ∈ leave destination, item.WellFormed := by
  simp only [leave, List.forall_mem_cons]
  exact ⟨wellFormed_forward _ _, wellFormed_plain rfl, by simp⟩

/-- An item that neither jumps nor marks a place: a push, a simple operation or a remark. -/
inductive Straight : Item → Prop
  | push (word : Word) (note : String) : Straight (push word note)
  | plain {opcode : Opcode} (simple : opcode.isSimple = true) : Straight (plain opcode)
  | noted {opcode : Opcode} (simple : opcode.isSimple = true) (note : String) :
      Straight (noted opcode note)
  | remark (r : Remark) : Straight (.remark r)

theorem Straight.wellFormed {item : Item} (straight : item.Straight) : item.WellFormed := by
  cases straight with
  | push word note => exact wellFormed_push word note
  | plain simple => exact wellFormed_plain (Opcode.arity_of_isSimple simple)
  | noted simple note => exact wellFormed_noted (Opcode.arity_of_isSimple simple) note
  | remark r => exact wellFormed_remark r

theorem wellFormed_of_straight {items : List Item} (straight : ∀ item ∈ items, item.Straight) :
    ∀ item ∈ items, item.WellFormed :=
  fun item mem => (straight item mem).wellFormed

end Emission.Item

theorem Slot.straight_access {opcode : Opcode} (slot : Slot) (simple : opcode.isSimple = true)
    (name : String) : ∀ item ∈ slot.access opcode name, item.Straight := by
  simp only [access, List.forall_mem_cons]
  exact ⟨.push _ _, .push _ _, .plain simple, by simp⟩

theorem BinaryOperator.isSimple_of_mem_opcodes {op : BinaryOperator} {opcode : Opcode}
    (h : opcode ∈ op.opcodes) : opcode.isSimple = true := by
  cases op <;> simp [opcodes] at h <;> rcases h with rfl | rfl <;> rfl

theorem MemoryMap.straight_shadowing (memory : MemoryMap) (name : String) :
    ∀ item ∈ memory.shadowing name, item.Straight := by
  unfold shadowing
  split
  · simpa using Item.Straight.remark _
  · simp

namespace Expression.Code

variable {memory : MemoryMap} {value : Expression} {items : List Item}

/-- The code of an expression neither jumps nor marks a place. -/
theorem straight (code : Code memory value items) : ∀ item ∈ items, item.Straight := by
  induction code with
  | literal => simpa using Item.Straight.push _ _
  | identifier => exact Slot.straight_access _ rfl _
  | not _ ih => exact List.forall_mem_append.2 ⟨ih, by simpa using Item.Straight.plain rfl⟩
  | minus _ ih =>
      refine List.forall_mem_cons.2 ⟨.push _ _, List.forall_mem_append.2 ⟨ih, ?_⟩⟩
      simpa using Item.Straight.plain rfl
  | binary _ _ ihLeft ihRight =>
      refine List.forall_mem_append.2 ⟨ihLeft, List.forall_mem_append.2 ⟨ihRight, ?_⟩⟩
      intro item mem
      obtain ⟨opcode, opcodeMem, rfl⟩ := List.mem_map.1 mem
      exact .plain (BinaryOperator.isSimple_of_mem_opcodes opcodeMem)

theorem straight_append (code : Code memory value items) {more : List Item}
    (straight : ∀ item ∈ more, item.Straight) : ∀ item ∈ items ++ more, item.Straight :=
  List.forall_mem_append.2 ⟨code.straight, straight⟩

theorem straight_declare (code : Code memory value items) (name : String) :
    ∀ item ∈ items ++ (memory.shadowing name ++ memory.next.access .mstore name),
      item.Straight :=
  code.straight_append (List.forall_mem_append.2
    ⟨memory.straight_shadowing name, memory.next.straight_access rfl name⟩)

theorem straight_assign (code : Code memory value items) (slot : Slot) (name : String) :
    ∀ item ∈ items ++ slot.access .mstore name, item.Straight :=
  code.straight_append (slot.straight_access rfl name)

theorem straight_plain (code : Code memory value items) {opcode : Opcode}
    (simple : opcode.isSimple = true) : ∀ item ∈ items ++ [.plain opcode], item.Straight :=
  code.straight_append (by simpa using Item.Straight.plain simple)

end Expression.Code

open Emission.Item in
theorem Statement.Block.wellFormed {position : ℕ} {memory last : MemoryMap}
    {statements : List Statement} {items : List Item}
    (block : Block position memory statements items last) : ∀ item ∈ items, item.WellFormed := by
  induction block with
  | nil => simp
  | cons _ _ ihHead ihTail => exact List.forall_mem_append.2 ⟨ihHead, ihTail⟩
  | declare value => exact wellFormed_of_straight (value.straight_declare _)
  | assign value => exact wellFormed_of_straight (value.straight_assign _ _)
  | returnValue value => exact wellFormed_of_straight (value.straight_plain rfl)
  | returnNothing => simpa using wellFormed_noted rfl _
  | expression value => exact wellFormed_of_straight (value.straight_plain rfl)
  | ifThen test _ _ _ ih =>
      simp only [List.forall_mem_append]
      exact ⟨wellFormed_of_straight test.straight, wellFormed_skip _ _, ih,
        by simpa using wellFormed_noted rfl _⟩
  | ifElse test _ _ _ _ _ ihInner ihOuter =>
      simp only [List.forall_mem_append, List.forall_mem_cons]
      refine ⟨wellFormed_of_straight test.straight, wellFormed_skip _ _, ihInner,
        wellFormed_leave _, ?_, ihOuter, ?_⟩
      · exact wellFormed_noted rfl _
      · simpa using wellFormed_noted rfl _

/-- The code for parameters neither jumps nor marks a place. -/
theorem Parameter.Code.straight {index : ℕ} {memory last : MemoryMap}
    {parameters : List Parameter} {items : List Item}
    (code : Parameter.Code index memory parameters items last) :
    ∀ item ∈ items, item.Straight := by
  induction code with
  | nil => simp
  | cons _ ih =>
      simp only [List.forall_mem_append, List.forall_mem_cons]
      exact ⟨.push _ _, .plain rfl, Slot.straight_access _ rfl _, ih⟩

open Emission.Item in
/-- **All instructions of a function are well formed.** -/
theorem FunctionDecl.Code.wellFormed {position : ℕ} {function : FunctionDecl}
    {items : List Item} {last : MemoryMap} (code : function.Code position items last) :
    ∀ item ∈ items, item.WellFormed := by
  obtain ⟨parameters, -, block⟩ := code
  simp only [List.forall_mem_append, List.forall_mem_cons]
  refine ⟨wellFormed_noted rfl _, wellFormed_of_straight parameters.straight,
    block.wellFormed, ?_, ?_, ?_⟩
  · exact wellFormed_noted rfl _
  · exact wellFormed_remark _
  · simp

theorem FunctionDecl.Codes.wellFormed {position : ℕ} {functions : List FunctionDecl}
    {entries : List ℕ} {items : List Item} {memories : List MemoryMap}
    (codes : Codes position functions entries items memories) :
    ∀ item ∈ items, item.WellFormed := by
  induction codes with
  | nil => simp
  | cons head _ ih => exact List.forall_mem_append.2 ⟨head.wellFormed, ih⟩

open Emission.Item in
theorem Contract.wellFormed_dispatch (selector : ℕ) (labels : List (String × ℕ)) :
    ∀ item ∈ dispatch selector labels, item.WellFormed := by
  induction labels generalizing selector with
  | nil => simpa [dispatch] using wellFormed_noted rfl _
  | cons label rest ih =>
      simp only [dispatch, List.forall_mem_cons]
      refine ⟨wellFormed_push _ _, wellFormed_plain rfl, wellFormed_plain rfl, ?_, ?_, ih _⟩
      · exact wellFormed_forward _ _
      · exact wellFormed_plain rfl

/-! ### Where branches stand -/

namespace Assembly.Holds

variable {code : Assembly} {position : ℕ} {items block other : List Item}

/-- The block of an `if` without `else`, and the mark behind it. -/
theorem ifThen {stop : ℕ} {note mark : String} (holds : code.Holds position
      (items ++ (Item.skip stop note ++ (block ++ [.noted .jumpDst mark])))) :
    code.Holds (position + Item.totalSize items + 11) block ∧
      code.Holds (position + Item.totalSize items + 11 + Item.totalSize block)
        [.noted .jumpDst mark] :=
  ⟨holds.right.right.left, holds.right.right.right⟩

/-- The blocks of an `if` with `else`, the jump between them and the marks. -/
theorem ifElse {otherwise stop : ℕ} {note mark behind : String} (holds : code.Holds position
      (items ++ (Item.skip otherwise note ++ (block ++ (Item.leave stop ++
        (.noted .jumpDst mark :: (other ++ [.noted .jumpDst behind]))))))) :
    code.Holds (position + Item.totalSize items + 11) block ∧
      code.Holds (position + Item.totalSize items + 11 + Item.totalSize block) (Item.leave stop ++
        (.noted .jumpDst mark :: (other ++ [.noted .jumpDst behind]))) ∧
      code.Holds (position + Item.totalSize items + 11 + Item.totalSize block + 10)
        (.noted .jumpDst mark :: (other ++ [.noted .jumpDst behind])) ∧
      code.Holds (position + Item.totalSize items + 11 + Item.totalSize block + 10 + 1) other ∧
      code.Holds (position + Item.totalSize items + 11 + Item.totalSize block + 10 + 1 +
        Item.totalSize other) [.noted .jumpDst behind] :=
  have leave := holds.right.right.right
  ⟨holds.right.right.left, leave, leave.right, leave.right.tail.left, leave.right.tail.right⟩

end Assembly.Holds

/-! ### Memory maps -/

namespace Statement.Block

variable {position : ℕ} {memory last : MemoryMap} {statements : List Statement} {items : List Item}

/-- A block keeps slots apart. -/
theorem sound (block : Block position memory statements items last) (h : memory.Sound) :
    last.Sound := by
  induction block with
  | cons _ _ ihHead ihTail => exact ihTail (ihHead h)
  | declare => exact h.define _
  | ifThen _ _ _ _ ih => exact ih h
  | ifElse _ _ _ _ _ _ ihInner ihOuter => exact ihOuter (ihInner h)
  | _ => exact h

/-- A block gives no slot back. -/
theorem cursor_le (block : Block position memory statements items last) :
    memory.cursor ≤ last.cursor := by
  induction block with
  | cons _ _ ihHead ihTail => exact Nat.le_trans ihHead ihTail
  | declare => exact Nat.le_add_right _ _
  | ifThen _ _ _ _ ih => exact ih
  | ifElse _ _ _ _ _ _ ihInner ihOuter => exact Nat.le_trans ihInner ihOuter
  | _ => exact Nat.le_refl _

/-- A block takes fewer bytes of memory than it has itself. -/
theorem cursor_stop (block : Block position memory statements items last) :
    last.cursor ≤ memory.cursor + Item.totalSize items := by
  induction block with
  | cons _ _ ihHead ihTail =>
      rw [Item.totalSize_append]
      omega
  | declare =>
      have slot : MemoryMap.slotSize = 8 := rfl
      simp only [MemoryMap.cursor_define, Item.totalSize_append, Slot.totalSize_access]
      omega
  | ifThen _ _ _ _ ih =>
      simp only [Item.totalSize_append]
      omega
  | ifElse _ _ _ _ _ _ ihInner ihOuter =>
      simp only [Item.totalSize_append, Item.totalSize_cons]
      omega
  | _ => omega

/-- The slot of a name that the block does not declare is the same behind it. -/
theorem slot?_eq {name : String} (block : Block position memory statements items last)
    (h : name ∉ declaredAll statements) : last.slot? name = memory.slot? name := by
  induction block with
  | cons _ _ ihHead ihTail =>
      simp only [declaredAll, List.append_nil, List.mem_append, not_or] at h ihHead
      rw [ihTail h.2, ihHead h.1]
  | declare =>
      simp only [declaredAll, declared, List.append_nil, List.mem_singleton] at h
      exact MemoryMap.slot?_define_of_ne _ h
  | ifThen _ _ _ _ ih =>
      simp only [declaredAll, declared, List.append_nil] at h
      exact ih h
  | ifElse _ _ _ _ _ _ ihInner ihOuter =>
      simp only [declaredAll, declared, List.append_nil, List.mem_append, not_or] at h
      rw [ihOuter h.2, ihInner h.1]
  | _ => rfl

/-- A block that declares nothing leaves the memory map as it is. -/
theorem eq_of_declared_eq_nil (block : Block position memory statements items last)
    (h : declaredAll statements = []) : last = memory := by
  induction block with
  | cons _ _ ihHead ihTail =>
      simp only [declaredAll, List.append_nil, List.append_eq_nil_iff] at h ihHead
      rw [ihTail h.2, ihHead h.1]
  | declare => simp [declaredAll, declared] at h
  | ifThen _ _ _ _ ih =>
      simp only [declaredAll, declared, List.append_nil] at h
      exact ih h
  | ifElse _ _ _ _ _ _ ihInner ihOuter =>
      simp only [declaredAll, declared, List.append_nil, List.append_eq_nil_iff] at h
      rw [ihOuter h.2, ihInner h.1]
  | _ => rfl

/-- The slot of a name that the block declares is a new one behind it. -/
theorem cursor_le_offset {name : String} (block : Block position memory statements items last)
    (h : name ∈ declaredAll statements) {slot : Slot} (found : last.slot? name = some slot) :
    memory.cursor ≤ slot.offset := by
  induction block with
  | nil => simp [declaredAll] at h
  | @cons _ _ _ _ _ rest _ _ head tail ihHead ihTail =>
      simp only [declaredAll, List.append_nil, List.mem_append] at h ihHead
      by_cases later : name ∈ declaredAll rest
      · exact Nat.le_trans head.cursor_le (ihTail later found)
      · rw [tail.slot?_eq later] at found
        exact ihHead (h.resolve_right later) found
  | declare =>
      simp only [declaredAll, declared, List.append_nil, List.mem_singleton] at h
      subst h
      rw [MemoryMap.slot?_define_self] at found
      cases found
      exact Nat.le_refl _
  | ifThen _ _ _ _ ih =>
      simp only [declaredAll, declared, List.append_nil] at h
      exact ih h found
  | @ifElse _ _ _ _ _ _ _ _ _ alternative _ _ _ _ _ inner _ outer _ ihInner ihOuter =>
      simp only [declaredAll, declared, List.append_nil, List.mem_append] at h
      by_cases later : name ∈ declaredAll alternative
      · exact Nat.le_trans inner.cursor_le (ihOuter later found)
      · rw [outer.slot?_eq later] at found
        exact ihInner (h.resolve_right later) found
  | _ => simp [declaredAll, declared] at h

end Statement.Block

namespace Parameter.Code

variable {index : ℕ} {memory last : MemoryMap} {parameters : List Parameter} {items : List Item}

/-- Parameters keep slots apart. -/
theorem sound (code : Parameter.Code index memory parameters items last) (h : memory.Sound) :
    last.Sound := by
  induction code with
  | nil => exact h
  | cons _ ih => exact ih (h.define _)

/-- Parameters take fewer bytes of memory than the code that copies them has. -/
theorem cursor_stop (code : Parameter.Code index memory parameters items last) :
    last.cursor ≤ memory.cursor + Item.totalSize items := by
  induction code with
  | nil => omega
  | cons _ ih =>
      have slot : MemoryMap.slotSize = 8 := rfl
      simp only [MemoryMap.cursor_define, Item.totalSize_cons, Item.totalSize_append,
        Slot.totalSize_access] at ih ⊢
      omega

end Parameter.Code

/-! ### Compilations -/

namespace Compilation

/-- The code of a compiled function is well formed. -/
theorem wellFormed_ofFunction {function : FunctionDecl} {compilation : Compilation}
    (h : ofFunction function = .ok compilation) : compilation.code.WellFormed := by
  obtain ⟨items, memory, emitted, rfl⟩ := ofFunction_eq_ok_iff.1 h
  exact Item.wellFormed_lines (FunctionDecl.code_of_yields emitted).wellFormed

/-- The code of a compiled contract is the dispatcher and the code of its functions. -/
theorem lines_ofContract {contract : Contract} {compilation : Compilation}
    (h : ofContract contract = .ok compilation) :
    ∃ functions memories bytes, FunctionDecl.Codes contract.bodyPosition contract.functions
        (FunctionDecl.entries contract.bodyPosition contract.functions) functions memories ∧
      compilation.code.lines = Item.lines (Contract.dispatch 0 contract.labels ++ (functions ++
        [.remark (.compiledContract contract.functions.length bytes)])) ∧
      compilation.labels = contract.labels := by
  obtain ⟨selectors, items, memories, -, emitted, rfl⟩ := ofContract_eq_ok_iff.1 h
  obtain ⟨functions, bytes, codes, rfl⟩ := Contract.codes_of_yields emitted
  exact ⟨functions, memories, bytes, codes, rfl, rfl⟩

/-- The code of a compiled contract is well formed. -/
theorem wellFormed_ofContract {contract : Contract} {compilation : Compilation}
    (h : ofContract contract = .ok compilation) : compilation.code.WellFormed := by
  obtain ⟨functions, memories, bytes, codes, lines, -⟩ := lines_ofContract h
  rw [Assembly.WellFormed, lines]
  refine Item.wellFormed_lines (List.forall_mem_append.2 ⟨?_, List.forall_mem_append.2 ⟨?_, ?_⟩⟩)
  · exact Contract.wellFormed_dispatch _ _
  · exact codes.wellFormed
  · simpa using Item.wellFormed_remark _

end Compilation

/-! ### Where functions stand -/

/-- The code of every function stands at its entry. -/
theorem FunctionDecl.Codes.holds {code : Assembly} {position : ℕ} {functions : List FunctionDecl}
    {entries : List ℕ} {items : List Item} {memories : List MemoryMap}
    (codes : Codes position functions entries items memories) (holds : code.Holds position items)
    {index : ℕ} {function : FunctionDecl} {entry : ℕ} (member : functions[index]? = some function)
    (place : entries[index]? = some entry) :
    ∃ items memory, function.Code entry items memory ∧ code.Holds entry items := by
  induction codes generalizing index with
  | nil => simp at member
  | cons head _ ih =>
      cases index with
      | zero =>
          cases member
          cases place
          exact ⟨_, _, head, holds.left⟩
      | succ index => exact ih holds.right member place

namespace Compilation

/-- Every function of a compiled contract has a label with its name. -/
theorem exists_label {contract : Contract} {compilation : Compilation} {index : ℕ}
    {function : FunctionDecl} (compiled : ofContract contract = .ok compilation)
    (member : contract.functions[index]? = some function) :
    ∃ entry, compilation.labels[index]? = some (function.name, entry) := by
  obtain ⟨-, -, -, -, -, labels⟩ := lines_ofContract compiled
  have bound := (List.getElem?_eq_some_iff.1 member).1
  rw [← Contract.length_entries contract.bodyPosition] at bound
  have place := List.getElem?_eq_getElem bound
  rw [labels, Contract.labels]
  exact ⟨_, List.getElem?_zip_eq_some.2 ⟨by simp [member], place⟩⟩

/-- A function that was compiled, by itself or in a contract, and the byte where it begins. -/
inductive Offers (compilation : Compilation) (function : FunctionDecl) : ℕ → Prop
  | alone (compiled : ofFunction function = .ok compilation) : Offers compilation function 0
  | member {contract : Contract} {index entry : ℕ}
      (compiled : ofContract contract = .ok compilation)
      (member : contract.functions[index]? = some function)
      (label : compilation.labels[index]? = some (function.name, entry)) :
      Offers compilation function entry

namespace Offers

variable {compilation : Compilation} {function : FunctionDecl} {entry : ℕ}

theorem wellFormed (offers : compilation.Offers function entry) : compilation.code.WellFormed := by
  cases offers with
  | alone compiled => exact wellFormed_ofFunction compiled
  | member compiled => exact wellFormed_ofContract compiled

/-- The code of a function stands where it begins. -/
theorem holds (offers : compilation.Offers function entry) :
    ∃ items memory, function.Code entry items memory ∧ compilation.code.Holds entry items := by
  cases offers with
  | alone compiled =>
      obtain ⟨items, memory, emitted, rfl⟩ := ofFunction_eq_ok_iff.1 compiled
      exact ⟨items, memory, FunctionDecl.code_of_yields emitted, Assembly.Holds.whole rfl⟩
  | member compiled member label =>
      obtain ⟨functions, memories, bytes, codes, lines, labels⟩ := lines_ofContract compiled
      have body := (Assembly.Holds.whole lines).right.left
      rw [Contract.totalSize_dispatch_labels, Nat.zero_add] at body
      rw [labels] at label
      exact codes.holds body member (List.getElem?_zip_eq_some.1 label).2

end Offers

end Compilation

end Covenant
