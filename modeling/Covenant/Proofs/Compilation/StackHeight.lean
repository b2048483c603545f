/-
**The stack in compiled code.**

Every construct of a contract becomes code with one effect on the height of the stack: an expression
raises it by one wherever it stands, a statement leaves it at zero.  So does a function, and so does
the dispatcher, whatever becomes of the jumps in between.  This is seen from the rules of
`Covenant/Proofs/Emission/Derivation.lean` alone, one construct at a time.

The statements of a function stand where the sizes of the code before them put them.  These sizes
can be told from the source, so the places of statements are defined on the source, and that the
code of a statement stands there is part of what is proved.

Main definitions:

* `Covenant.Expression.codeSize`, `Covenant.Statement.codeSize` — the size of code, by the source;
* `Covenant.Statement.places`, `Covenant.FunctionDecl.places` — statements, nested ones among them,
  and the bytes where they begin;
* `Covenant.Compilation.Disciplined` — heights for the instructions of a compiled contract.

Main results:

* `Expression.Code.raises`, `Statement.Block.raises`, `Contract.raises_dispatch` — the effect of
  each construct;
* `Statement.Block.level_of_mem` — nothing is on the stack where a statement begins;
* `Compilation.disciplined_ofContract` — **compiled code is balanced**.
-/

import Covenant.Proofs.Compilation.Jumps
import Covenant.Proofs.Machine.StackHeight

set_option relaxedAutoImplicit false
set_option autoImplicit false

namespace Covenant

open Machine
open Emission (Item)

/-! ### The size of code -/

/-- The number of bytes that the code of an expression takes. -/
def Expression.codeSize : Expression → ℕ
  | integer _ | boolean _ | text _ => 9
  | identifier _ => 19
  | unary .not right => right.codeSize + 1
  | unary .minus right => 9 + right.codeSize + 1
  | binary left op right => left.codeSize + right.codeSize + op.opcodes.length

theorem Expression.Code.totalSize_eq {memory : MemoryMap} {value : Expression} {items : List Item}
    (code : Code memory value items) : Item.totalSize items = value.codeSize := by
  induction code with
  | @literal value operand word shape fits =>
      cases value <;> first | rfl | cases shape
  | identifier found => rfl
  | not code ih =>
      rw [Item.totalSize_append, ih]
      rfl
  | minus code ih =>
      rw [Item.totalSize_cons, Item.totalSize_append, ih]
      exact (Nat.add_assoc _ _ _).symm
  | @binary left right op items more first second ihLeft ihRight =>
      rw [Item.totalSize_append, Item.totalSize_append, ihLeft, ihRight, codeSize, Nat.add_assoc]
      cases op <;> rfl

namespace Statement

mutual

/-- The number of bytes that the code of a statement takes. -/
def codeSize : Statement → ℕ
  | declare _ _ value | assign _ value => value.codeSize + 19
  | .return (some value) | expression value => value.codeSize + 1
  | .return none => 1
  | ifThen condition consequence => condition.codeSize + 11 + codeSizeAll consequence + 1
  | ifElse condition consequence alternative =>
    condition.codeSize + 11 + codeSizeAll consequence + 11 + codeSizeAll alternative + 1

/-- The number of bytes that the code of statements takes. -/
def codeSizeAll : List Statement → ℕ
  | [] => 0
  | statement :: rest => statement.codeSize + codeSizeAll rest

end

/-- The code of statements has the size that the source says. -/
theorem Block.totalSize_eq {position : ℕ} {memory last : MemoryMap} {statements : List Statement}
    {items : List Item} (block : Block position memory statements items last) :
    Item.totalSize items = codeSizeAll statements := by
  induction block with
  | nil => rfl
  | cons _ _ ihHead ihTail =>
      rw [Item.totalSize_append, ihHead, ihTail]
      rfl
  | declare code | assign code =>
      simp [codeSizeAll, codeSize, code.totalSize_eq, Opcode.size, Opcode.arity]
  | returnValue code | expression code =>
      simp [codeSizeAll, codeSize, code.totalSize_eq, Opcode.size, Opcode.arity]
  | returnNothing => rfl
  | ifThen test _ _ _ ih =>
      simp only [Item.totalSize_append, Item.totalSize_skip, Item.totalSize_cons,
        Item.totalSize_nil, Item.size_mark, test.totalSize_eq, ih, codeSizeAll, codeSize]
      omega
  | ifElse test _ _ _ _ _ ihInner ihOuter =>
      simp only [Item.totalSize_append, Item.totalSize_skip, Item.totalSize_leave,
        Item.totalSize_cons, Item.totalSize_nil, Item.size_mark, test.totalSize_eq, ihInner,
        ihOuter, codeSizeAll, codeSize]
      omega

end Statement

/-! ### The effect of code -/

namespace Emission.Item

/-- Executing some items turns one height of the stack into another. -/
def Raises (start : ℕ) (items : List Item) (last : ℕ) : Prop :=
  Bytecode.Raises start (instructions items) last

theorem Raises.append {start middle last : ℕ} {items more : List Item}
    (front : Raises start items middle) (back : Raises middle more last) :
    Raises start (items ++ more) last := by
  rw [Raises, instructions_append]
  exact Bytecode.Raises.append front back

theorem raises_push (start : ℕ) (word : Word) (note : String) :
    Raises start [push word note] (start + 1) :=
  .cons start rfl nofun .nil

theorem raises_remark (start : ℕ) (r : Remark) : Raises start [.remark r] start :=
  .nil

theorem raises_mark (note : String) : Raises 0 [.noted .jumpDst note] 0 :=
  .cons 0 rfl (fun _ => rfl) .nil

theorem raises_exit (note : String) : Raises 0 [.noted .exit note] 0 :=
  .cons 0 rfl (fun _ => rfl) .nil

/-- A condition is taken from the stack by the jump that depends on it. -/
theorem raises_skip (destination : ℕ) (note : String) : Raises 1 (skip destination note) 0 :=
  .cons 0 rfl nofun (.cons 1 rfl nofun (.cons 0 rfl (fun _ => rfl) .nil))

theorem raises_leave (destination : ℕ) : Raises 0 (leave destination) 0 :=
  .cons 0 rfl nofun (.cons 0 rfl (fun _ => rfl) .nil)

end Emission.Item

theorem Slot.raises_load (slot : Slot) (name : String) (start : ℕ) :
    Item.Raises start (slot.access .mload name) (start + 1) :=
  .cons start rfl nofun (.cons (start + 1) rfl nofun (.cons start rfl nofun .nil))

theorem Slot.raises_store (slot : Slot) (name : String) :
    Item.Raises 1 (slot.access .mstore name) 0 :=
  .cons 1 rfl nofun (.cons 2 rfl nofun (.cons 0 rfl nofun .nil))

theorem MemoryMap.raises_shadowing (memory : MemoryMap) (name : String) (start : ℕ) :
    Item.Raises start (memory.shadowing name) start := by
  unfold shadowing
  split
  · exact Item.raises_remark start _
  · exact .nil

/-- The operations of an operator take two values and leave one. -/
theorem BinaryOperator.raises_opcodes (op : BinaryOperator) (start : ℕ) :
    Item.Raises (start + 2) (op.opcodes.map Item.plain) (start + 1) := by
  cases op with
  | notEqual => exact .cons start rfl nofun (.cons start rfl nofun .nil)
  | _ => exact .cons start rfl nofun .nil

/-- **An expression leaves one value on the stack**, whatever lies below. -/
theorem Expression.Code.raises {memory : MemoryMap} {value : Expression} {items : List Item}
    (code : Code memory value items) (start : ℕ) : Item.Raises start items (start + 1) := by
  induction code generalizing start with
  | literal => exact Item.raises_push start _ _
  | identifier => exact Slot.raises_load _ _ start
  | not _ ih => exact (ih start).append (.cons start rfl nofun .nil)
  | minus _ ih =>
      have sub : Item.Raises (start + 2) [.plain .sub] (start + 1) := .cons start rfl nofun .nil
      exact (Item.raises_push start _ _).append ((ih (start + 1)).append sub)
  | binary _ _ ihLeft ihRight =>
      exact (ihLeft start).append ((ihRight (start + 1)).append (BinaryOperator.raises_opcodes _ _))

/-- **A statement leaves nothing on the stack.** -/
theorem Statement.Block.raises {position : ℕ} {memory last : MemoryMap}
    {statements : List Statement} {items : List Item}
    (block : Block position memory statements items last) : Item.Raises 0 items 0 := by
  induction block with
  | nil => exact .nil
  | cons _ _ ihHead ihTail => exact ihHead.append ihTail
  | declare code =>
      exact (code.raises 0).append
        ((MemoryMap.raises_shadowing _ _ 1).append (Slot.raises_store _ _))
  | assign code => exact (code.raises 0).append (Slot.raises_store _ _)
  | returnValue code => exact (code.raises 0).append (.cons 0 rfl (fun _ => rfl) .nil)
  | returnNothing => exact Item.raises_exit _
  | expression code => exact (code.raises 0).append (.cons 0 rfl nofun .nil)
  | ifThen test _ _ _ ih =>
      exact (test.raises 0).append
        ((Item.raises_skip _ _).append (ih.append (Item.raises_mark _)))
  | ifElse test _ _ _ _ _ ihInner ihOuter =>
      have other := (Item.raises_mark "else").append (ihOuter.append (Item.raises_mark "end if"))
      exact (test.raises 0).append ((Item.raises_skip _ _).append
        (ihInner.append ((Item.raises_leave _).append other)))

/-- Parameters are copied from the caller to memory, one after another. -/
theorem Parameter.Code.raises {index : ℕ} {memory last : MemoryMap} {parameters : List Parameter}
    {items : List Item} (code : Parameter.Code index memory parameters items last) :
    Item.Raises 0 items 0 := by
  induction code with
  | nil => exact .nil
  | cons _ ih =>
      exact .cons 0 rfl nofun (.cons 0 rfl nofun ((Slot.raises_store _ _).append ih))

theorem FunctionDecl.Code.raises {position : ℕ} {function : FunctionDecl} {items : List Item}
    {memory : MemoryMap} (code : function.Code position items memory) : Item.Raises 0 items 0 := by
  obtain ⟨parameters, -, block⟩ := code
  exact (Item.raises_mark _).append (parameters.raises.append (block.raises.append
    ((Item.raises_exit _).append (Item.raises_remark 0 _))))

theorem FunctionDecl.Codes.raises {position : ℕ} {functions : List FunctionDecl}
    {entries : List ℕ} {items : List Item} {memories : List MemoryMap}
    (codes : Codes position functions entries items memories) : Item.Raises 0 items 0 := by
  induction codes with
  | nil => exact .nil
  | cons head _ ih => exact head.raises.append ih

/-- A call of the dispatcher takes the selectors that it compares from the stack. -/
theorem Contract.raises_dispatch (selector : ℕ) (labels : List (String × ℕ)) :
    Item.Raises 0 (dispatch selector labels) 0 := by
  induction labels generalizing selector with
  | nil => exact Item.raises_exit _
  | cons label rest ih =>
      exact .cons 0 rfl nofun (.cons 1 rfl nofun (.cons 0 rfl nofun (.cons 1 rfl nofun
        (.cons 0 rfl (fun _ => rfl) (ih _)))))

/-! ### Where statements stand -/

namespace Statement

mutual

/-- A statement at a position and the statements inside it, with the bytes where they begin. -/
def places (position : ℕ) : Statement → List (ℕ × Statement)
  | ifThen condition consequence =>
    (position, ifThen condition consequence) ::
      placesAll (position + condition.codeSize + 11) consequence
  | ifElse condition consequence alternative =>
    (position, ifElse condition consequence alternative) ::
      (placesAll (position + condition.codeSize + 11) consequence ++
        placesAll (position + condition.codeSize + 11 + codeSizeAll consequence + 11) alternative)
  | statement => [(position, statement)]

/-- The same for statements, the first of which stands at a position. -/
def placesAll (position : ℕ) : List Statement → List (ℕ × Statement)
  | [] => []
  | statement :: rest =>
    statement.places position ++ placesAll (position + statement.codeSize) rest

end

/-- The code of a statement stands at its place among some items, and nothing is on the stack in
front of it. -/
def Level (position : ℕ) (items : List Item) (place : ℕ × Statement) : Prop :=
  ∃ before inner after memory last, items = before ++ (inner ++ after) ∧
    place.1 = position + Item.totalSize before ∧ Item.Raises 0 before 0 ∧
    Block place.1 memory [place.2] inner last

/-- A statement stands at the beginning of its own code. -/
theorem Block.level {position : ℕ} {memory last : MemoryMap} {statement : Statement}
    {items : List Item} (block : Block position memory [statement] items last) :
    Level position items (position, statement) :=
  ⟨[], items, [], memory, last, by simp, rfl, .nil, block⟩

/-- What is level in a piece of code is so in the code around it. -/
theorem Level.inside {position start : ℕ} {items : List Item} {place : ℕ × Statement}
    (level : Level start items place) (front back : List Item)
    (start_eq : start = position + Item.totalSize front) (raises : Item.Raises 0 front 0) :
    Level position (front ++ (items ++ back)) place := by
  obtain ⟨before, inner, after, memory, last, rfl, same, raises', block⟩ := level
  refine ⟨front ++ before, inner, after ++ back, memory, last, by simp, ?_, raises.append raises',
    block⟩
  rw [same, start_eq, Item.totalSize_append, Nat.add_assoc]

/-- **Nothing is on the stack where a statement begins**, however deep it stands in others. -/
theorem Block.level_of_mem {position : ℕ} {memory last : MemoryMap} {statements : List Statement}
    {items : List Item} (block : Block position memory statements items last) :
    ∀ place ∈ placesAll position statements, Level position items place := by
  induction block with
  | nil => simp [placesAll]
  | @cons position _ _ _ statement rest items more head tail ihHead ihTail =>
      intro place mem
      rw [placesAll, List.mem_append] at mem
      simp only [placesAll, List.append_nil] at ihHead
      rcases mem with mem | mem
      · exact (ihHead place mem).inside [] more rfl .nil
      · have size := head.totalSize_eq
        rw [codeSizeAll, codeSizeAll, Nat.add_zero] at size
        rw [← size] at mem
        simpa using (ihTail place mem).inside items [] rfl head.raises
  | @ifThen position start stop _ _ _ _ items _ test start_eq inner stop_eq ih =>
      intro place mem
      simp only [placesAll, places, List.append_nil, List.mem_cons] at mem
      rcases mem with rfl | mem
      · exact (Block.ifThen test start_eq inner stop_eq).level
      · rw [← test.totalSize_eq, ← start_eq] at mem
        have front := (test.raises 0).append (Item.raises_skip stop "to end if")
        simpa using (ih place mem).inside (items ++ Item.skip stop "to end if") _
          (by rw [start_eq, Item.totalSize_append, Item.totalSize_skip, Nat.add_assoc]) front
  | @ifElse position start otherwise stop _ _ _ _ _ _ items block other test start_eq inner
      otherwise_eq outer stop_eq ihInner ihOuter =>
      intro place mem
      simp only [placesAll, places, List.append_nil, List.mem_cons, List.mem_append] at mem
      have front := (test.raises 0).append (Item.raises_skip otherwise "to else")
      rcases mem with rfl | mem | mem
      · exact (Block.ifElse test start_eq inner otherwise_eq outer stop_eq).level
      · rw [← test.totalSize_eq, ← start_eq] at mem
        simpa using (ihInner place mem).inside (items ++ Item.skip otherwise "to else") _
          (by rw [start_eq, Item.totalSize_append, Item.totalSize_skip, Nat.add_assoc]) front
      · -- in front of the alternative stand the whole consequence and a mark
        rw [← test.totalSize_eq, ← start_eq, ← inner.totalSize_eq] at mem
        have behind : start + Item.totalSize block + 11 = otherwise + 1 := by omega
        rw [behind] at mem
        have second := front.append (inner.raises.append
          ((Item.raises_leave stop).append (Item.raises_mark "else")))
        have size : otherwise + 1 = position + Item.totalSize (items ++
            Item.skip otherwise "to else" ++ (block ++ (Item.leave stop ++
              [.noted .jumpDst "else"]))) := by
          simp only [Item.totalSize_append, Item.totalSize_skip, Item.totalSize_leave,
            Item.totalSize_cons, Item.totalSize_nil, Item.size_mark]
          omega
        simpa using (ihOuter place mem).inside _ [.noted .jumpDst "end if"] size second
  | declare code => simpa [placesAll, places] using (Block.declare code).level
  | assign code found => simpa [placesAll, places] using (Block.assign code found).level
  | returnValue code => simpa [placesAll, places] using (Block.returnValue code).level
  | @returnNothing position memory =>
      simpa [placesAll, places] using (@Block.returnNothing position memory).level
  | expression code => simpa [placesAll, places] using (Block.expression code).level

end Statement

theorem Parameter.Code.totalSize_eq {index : ℕ} {memory last : MemoryMap}
    {parameters : List Parameter} {items : List Item}
    (code : Parameter.Code index memory parameters items last) :
    Item.totalSize items = 29 * parameters.length := by
  induction code with
  | nil => rfl
  | cons _ ih =>
      simp only [Item.totalSize_cons, Item.totalSize_append, Slot.totalSize_access, ih,
        List.length_cons, Item.size_push, Item.size_plain, Opcode.size, Opcode.arity]
      omega

namespace FunctionDecl

/-- The statements of a function that begins at an entry, and the bytes where they begin. -/
def places (entry : ℕ) (function : FunctionDecl) : List (ℕ × Statement) :=
  Statement.placesAll (entry + 1 + 29 * function.parameters.length) function.body

/-- Nothing is on the stack where a statement of a function begins. -/
theorem Code.level_of_mem {entry : ℕ} {function : FunctionDecl} {items : List Item}
    {memory : MemoryMap} (code : function.Code entry items memory) :
    ∀ place ∈ function.places entry, Statement.Level entry items place := by
  intro place mem
  obtain ⟨parameters, start_eq, block⟩ := code
  rw [places, ← parameters.totalSize_eq, ← start_eq] at mem
  have front := (Item.raises_mark ("func " ++ function.name)).append parameters.raises
  have size := start_eq.trans (Nat.add_assoc _ _ _)
  exact (block.level_of_mem place mem).inside _ _ size front

end FunctionDecl

/-! ### Heights where items stand -/

namespace Assembly

variable {code : Assembly} {position : ℕ}

/-- The instruction of an item begins where the item stands. -/
theorem Holds.starts {item : Item} {items : List Item} {line : Line}
    (h : code.Holds position (item :: items)) (some : item.line? = some line) :
    Bytecode.Starts code.instructions position line.instruction := by
  obtain ⟨before, after, same, start⟩ := h
  have lines : Item.lines (item :: items) = line :: Item.lines items := by
    simp [Item.lines, some]
  refine ⟨before.map Line.instruction, (Item.lines items ++ after).map Line.instruction, ?_, ?_⟩
  · simp [instructions, same, lines]
  · rw [← start]
    exact size_instructions ⟨before⟩

/-- The height behind items is the one that they turn the height in front of them into. -/
theorem Holds.height_eq {items : List Item} {last final : ℕ} (h : code.Holds position items)
    (whole : Bytecode.Raises 0 code.instructions final)
    (raises : Item.Raises (Bytecode.height 0 code.instructions position) items last) :
    Bytecode.height 0 code.instructions (position + Item.totalSize items) = last := by
  obtain ⟨before, after, same, start⟩ := h
  have split : code.instructions = before.map Line.instruction ++
      (Item.instructions items ++ after.map Line.instruction) := by
    simp [instructions, same, Item.instructions]
  have size : Bytecode.size (before.map Line.instruction) = position := by
    rw [← start]
    exact size_instructions ⟨before⟩
  rw [split] at whole raises ⊢
  obtain ⟨middle, front, -⟩ := Bytecode.raises_append_iff.1 whole
  have here := front.height_eq (Item.instructions items ++ after.map Line.instruction)
  rw [size] at here
  rw [here] at raises
  have behind := (front.append raises).height_eq (after.map Line.instruction)
  rwa [List.append_assoc, Bytecode.size_append, size, Item.size_instructions] at behind

end Assembly

/-! ### Contracts -/

namespace Compilation

/-- Heights for the instructions of a compiled contract.  They are balanced, so that the stack has
these heights on every path, and it is empty where a function or a statement begins. -/
structure Disciplined (contract : Contract) (compilation : Compilation) (height : ℕ → ℕ) : Prop
    extends Bytecode.Balanced compilation.code.instructions height where
  /-- The instructions are those of the bytecode. -/
  decoded : Bytecode.decode compilation.code.bytes = .ok compilation.code.instructions
  /-- A call begins with an empty stack. -/
  agrees : ∀ (world : World) (memory : ℕ → Word) (trace : List Access) (last : State),
    Path (Free world compilation.code.bytes) compilation.code.bytes ⟨0, [], memory⟩ trace last →
      last.stack.length = height last.position
  /-- Nothing is on the stack where a function begins, and where any of its statements does. -/
  member : ∀ (index : ℕ) (function : FunctionDecl), contract.functions[index]? = some function →
    ∃ entry, compilation.labels[index]? = some (function.name, entry) ∧
      Bytecode.Starts compilation.code.instructions entry (.plain .jumpDst) ∧ height entry = 0 ∧
      ∀ place ∈ function.places entry, height place.1 = 0 ∧ ∃ memory items last,
        Statement.Block place.1 memory [place.2] items last ∧ compilation.code.Holds place.1 items

/-- The instructions of a compiled contract, item by item, and where they end. -/
theorem instructions_ofContract {contract : Contract} {compilation : Compilation}
    (compiled : ofContract contract = .ok compilation) :
    ∃ functions memories, FunctionDecl.Codes contract.bodyPosition contract.functions
        (contract.labels.map Prod.snd) functions memories ∧
      compilation.code.instructions =
        Item.instructions (Contract.dispatch 0 contract.labels ++ functions) ∧
      contract.bodyPosition + Item.totalSize functions = compilation.code.position := by
  obtain ⟨functions, memories, bytes, codes, lines, -⟩ := lines_ofContract compiled
  have code : compilation.code.instructions =
      Item.instructions (Contract.dispatch 0 contract.labels ++ functions) := by
    rw [Assembly.instructions, lines, ← List.append_assoc, Item.lines_append]
    exact congrArg _ (List.append_nil _)
  refine ⟨functions, memories, by rwa [Contract.labels_snd], code, ?_⟩
  rw [← Assembly.size_instructions, code, Item.size_instructions, Item.totalSize_append,
    Contract.totalSize_dispatch_labels]

/-- The jumps of a compiled contract are resolved. -/
theorem resolved_ofContract {contract : Contract} {compilation : Compilation}
    (compiled : ofContract contract = .ok compilation) (fits : compilation.code.Addressable) :
    ∃ destination, Bytecode.Resolved compilation.code.instructions destination := by
  obtain ⟨functions, memories, codes, code, size⟩ := instructions_ofContract compiled
  obtain ⟨links, routed, -⟩ := codes.routed (by rwa [size])
  obtain ⟨calls, ⟨⟨marks, linked, answered⟩, forward⟩, -⟩ :=
    Contract.routed routed rfl codes.le_entry (by rwa [size])
  obtain ⟨destination, resolved, -⟩ := linked.resolved answered forward
  exact ⟨destination, by rwa [code]⟩

/-- The heights of a compiled contract begin and end at zero. -/
theorem raises_ofContract {contract : Contract} {compilation : Compilation}
    (compiled : ofContract contract = .ok compilation) :
    Bytecode.Raises 0 compilation.code.instructions 0 := by
  obtain ⟨functions, memories, codes, code, -⟩ := instructions_ofContract compiled
  rw [code]
  exact (Contract.raises_dispatch 0 contract.labels).append codes.raises

/-- **Compiled code is balanced.** -/
theorem disciplined_ofContract {contract : Contract} {compilation : Compilation}
    (compiled : ofContract contract = .ok compilation) (fits : compilation.code.Addressable) :
    ∃ height, Disciplined contract compilation height := by
  have sound := wellFormed_ofContract compiled
  have raises := raises_ofContract compiled
  obtain ⟨destination, resolved⟩ := resolved_ofContract compiled fits
  have balanced := raises.balanced resolved
  refine ⟨_, balanced, Assembly.decode_bytes sound, ?_, ?_⟩
  · intro world memory trace last path
    have on : compilation.code.OnTrack destination ⟨0, [], memory⟩ :=
      Assembly.onTrack_of_entrance resolved (.inl rfl)
    exact Assembly.length_stack_of_path sound resolved balanced on balanced.start.symm path
  · intro index function member
    obtain ⟨entry, label⟩ := exists_label compiled member
    obtain ⟨items, memory, code, holds⟩ := (Offers.member compiled member label).holds
    have begins : Bytecode.Starts compilation.code.instructions entry (.plain .jumpDst) := by
      obtain ⟨-, -, -⟩ := code
      exact holds.starts rfl
    have empty := balanced.mark begins rfl
    refine ⟨entry, label, begins, empty, fun place mem => ?_⟩
    obtain ⟨before, inner, after, start, last, rfl, same, level, block⟩ :=
      code.level_of_mem place mem
    -- what stands between the entry and the statement leaves nothing on the stack
    have below := holds.left.height_eq raises (by rwa [empty])
    rw [same] at block ⊢
    exact ⟨below, start, inner, last, block, holds.right.left⟩

/-- The function `func late(c bool) int { return 1 if c { return 2 } }`, which has code that no path
reaches. -/
def late : FunctionDecl where
  name := "late"
  parameters := [⟨"c", .bool⟩]
  returns := some .int
  body := [.return (some (.integer 1)), .ifThen (.identifier "c") [.return (some (.integer 2))]]

/-- Nothing is on the stack where the second `return` begins, behind the first. -/
theorem disciplined_late : ∃ compilation height, ofContract ⟨[late]⟩ = .ok compilation ∧
    compilation.code.Addressable ∧ Disciplined ⟨[late]⟩ compilation height ∧
    (92, Statement.return (some (.integer 2))) ∈ late.places 22 ∧ height 92 = 0 := by
  obtain ⟨compilation, compiled, fits, label⟩ : ∃ compilation,
      ofContract ⟨[late]⟩ = .ok compilation ∧ compilation.code.position ≤ 2 ^ 64 ∧
        compilation.labels[0]? = some ("late", 22) :=
    ⟨_, rfl, by decide, by decide⟩
  have place : (92, Statement.return (some (.integer 2))) ∈ late.places 22 := by decide
  obtain ⟨height, disciplined⟩ := disciplined_ofContract compiled fits
  obtain ⟨entry, here, -, -, statements⟩ := disciplined.member 0 late rfl
  rw [label] at here
  cases here
  exact ⟨compilation, height, compiled, fits, disciplined, place, (statements _ place).1⟩

end Compilation

end Covenant
