/-
**The memory layout of a compiled function.**

The compiler threads one memory map through the whole body of a function and asks it for slots in
the middle of expressions.  What comes of this can be said without any memory map.  The text of a
function uses names in some order: it defines parameters, reads what a value needs, then declares a
name or stores to one, the first branch before the second.  The code makes exactly these accesses
to memory, in this order, and the slot of each is told by the definitions that the text has made
until then.  That a name is declared only behind its value is a matter of the order of accesses
alone.

The invariant is that the memory map is the one behind the definitions so far.  It is carried
through the rules for emitted code, one case for each of them.

Main definitions:

* `Covenant.SlotUse`, `Covenant.FunctionDecl.accesses` — the uses of memory that a text asks for,
  in order;
* `Covenant.SlotUse.Performs` — code makes the accesses and no others;
* `Covenant.FunctionDecl.LaidOut` — what the code and the memory map of a function have to do with
  its definitions.

Main results:

* `SlotUse.Performs.fed` — every operation on memory is fed the slot of its access;
* `Expression.Code.performs`, `Statement.Block.performs`, `FunctionDecl.Code.laidOut` — the code of
  each construct makes the accesses of its text;
* `Compilation.functions_laidOut` — **the memory layout of a compiled function is the order of its
  definitions**.
-/

import Covenant.Proofs.Compilation.Segments
import Covenant.Proofs.MemoryMap.Definitions

set_option relaxedAutoImplicit false
set_option autoImplicit false

namespace Covenant

open Machine
open Emission (Item)

/-! ### Accesses -/

/-- A use of memory that the text of a function asks for. -/
inductive SlotUse where
  /-- A parameter or a declaration gives a value to a new slot. -/
  | define (name : String)
  /-- An assignment gives a new value to a name. -/
  | store (name : String)
  /-- An expression reads a name. -/
  | load (name : String)

namespace SlotUse

/-- The name that is used. -/
def name : SlotUse → String
  | define name | store name | load name => name

/-- The operation that is carried out on memory. -/
def opcode : SlotUse → Opcode
  | define _ | store _ => .mstore
  | load _ => .mload

/-- The name that becomes defined. -/
def defined? : SlotUse → Option String
  | define name => some name
  | _ => none

/-- The names that accesses define, in order. -/
def definitions (accesses : List SlotUse) : List String :=
  accesses.filterMap defined?

@[simp] theorem definitions_nil : definitions [] = [] := rfl

@[simp] theorem definitions_define_cons (name : String) (rest : List SlotUse) :
    definitions (define name :: rest) = name :: definitions rest := rfl

@[simp] theorem definitions_store_cons (name : String) (rest : List SlotUse) :
    definitions (store name :: rest) = definitions rest := rfl

@[simp] theorem definitions_load_cons (name : String) (rest : List SlotUse) :
    definitions (load name :: rest) = definitions rest := rfl

@[simp] theorem definitions_append (accesses others : List SlotUse) :
    definitions (accesses ++ others) = definitions accesses ++ definitions others := by
  simp [definitions]

/-- Behind the definitions of some names, an access is made to the slot that the definition at an
index takes: a definition takes the next one, and a name stands for its latest definition. -/
def Concerns (earlier : List String) (index : ℕ) : SlotUse → Prop
  | define _ => index = earlier.length
  | store name | load name => MemoryMap.Latest earlier name index

/-- The lines that feed the size and the offset of a slot to an operation on memory. -/
def address (access : SlotUse) (index : ℕ) : List Assembly.Line :=
  [⟨.push (.ofNat 8), some ("size of " ++ access.name)⟩,
    ⟨.push (.ofNat (8 * index)), some ("offset of " ++ access.name)⟩]

/-- The line that carries out an access. -/
def operation (access : SlotUse) : Assembly.Line :=
  ⟨.plain access.opcode, none⟩

/-- The line is an operation on memory. -/
def IsOperation (line : Assembly.Line) : Prop :=
  line.instruction.opcode = .mload ∨ line.instruction.opcode = .mstore

instance (line : Assembly.Line) : Decidable (IsOperation line) :=
  inferInstanceAs (Decidable (_ ∨ _))

/-- Behind the definitions of some names, lines of code make accesses, each to the slot that it
concerns, and hold no other operation on memory. -/
inductive Performs : List String → List Assembly.Line → List SlotUse → Prop
  | nil {earlier : List String} : Performs earlier [] []
  | other {earlier : List String} {line : Assembly.Line} {lines : List Assembly.Line}
      {accesses : List SlotUse} (apart : ¬ IsOperation line)
      (rest : Performs earlier lines accesses) : Performs earlier (line :: lines) accesses
  | access {earlier : List String} {index : ℕ} {access : SlotUse} {lines : List Assembly.Line}
      {accesses : List SlotUse} (concerns : access.Concerns earlier index)
      (rest : Performs (earlier ++ definitions [access]) lines accesses) :
      Performs earlier (access.address index ++ access.operation :: lines) (access :: accesses)

namespace Performs

variable {earlier : List String} {lines more : List Assembly.Line}
  {accesses others : List SlotUse}

/-- Lines that hold no operation on memory make no access. -/
theorem of_forall_not (apart : ∀ line ∈ lines, ¬ IsOperation line) : Performs earlier lines [] := by
  induction lines with
  | nil => exact nil
  | cons line lines ih =>
      rw [List.forall_mem_cons] at apart
      exact other apart.1 (ih apart.2)

/-- What stands behind makes its accesses behind the definitions of what stands before. -/
theorem append (first : Performs earlier lines accesses)
    (second : Performs (earlier ++ definitions accesses) more others) :
    Performs earlier (lines ++ more) (accesses ++ others) := by
  induction first with
  | nil => simpa using second
  | other apart rest ih => exact other apart (ih second)
  | @access earlier index access lines accesses concerns rest ih =>
      rw [List.append_assoc, List.cons_append]
      refine Performs.access concerns (ih ?_)
      rwa [List.append_assoc, ← definitions_append]

/-- **Every operation on memory carries out an access and is fed the slot that it concerns.** -/
theorem fed (performs : Performs earlier lines accesses) {front back : List Assembly.Line}
    {line : Assembly.Line} (split : lines = front ++ line :: back) (operation : IsOperation line) :
    ∃ before access after index head, accesses = before ++ access :: after ∧
      line = access.operation ∧ front = head ++ access.address index ∧
      access.Concerns (earlier ++ definitions before) index := by
  induction performs generalizing front with
  | nil => simp at split
  | other apart rest ih =>
      cases front with
      | nil =>
          cases split
          exact absurd operation apart
      | cons first front =>
          cases split
          obtain ⟨before, access, after, index, head, rfl, rfl, rfl, concerns⟩ := ih rfl
          exact ⟨before, access, after, index, _ :: head, rfl, rfl, rfl, concerns⟩
  | @access earlier index access lines accesses concerns rest ih =>
      -- the line is a push, which is no operation, or that of the access, or stands behind it
      rcases front with _ | ⟨size, _ | ⟨offset, _ | ⟨last, front⟩⟩⟩
      · cases split
        rcases operation with clash | clash <;> cases clash
      · cases split
        rcases operation with clash | clash <;> cases clash
      · cases split
        exact ⟨[], access, accesses, index, [], rfl, rfl, rfl, by simpa using concerns⟩
      · cases split
        obtain ⟨before, other, after, place, head, rfl, rfl, rfl, concerned⟩ := ih rfl
        refine ⟨access :: before, other, after, place,
          access.address index ++ access.operation :: head, rfl, rfl, ?_, ?_⟩
        · simp [address]
        · rwa [List.append_assoc, ← definitions_append] at concerned

/-- The definitions take one slot after another. -/
theorem defines (performs : Performs earlier lines accesses) {index : ℕ} {name : String}
    (member : (definitions accesses)[index]? = some name) :
    ∃ front back, lines = front ++ ((define name).address (earlier.length + index) ++
      (define name).operation :: back) := by
  induction performs generalizing index with
  | nil => simp at member
  | @other earlier line lines accesses apart rest ih =>
      obtain ⟨front, back, rfl⟩ := ih member
      exact ⟨line :: front, back, rfl⟩
  | @access earlier place access lines accesses concerns rest ih =>
      have behind : ∀ {index}, (definitions accesses)[index]? = some name → ∃ front back,
          access.address place ++ access.operation :: lines =
            front ++ ((define name).address
              ((earlier ++ definitions [access]).length + index) ++
                (define name).operation :: back) := by
        intro index member
        obtain ⟨front, back, rfl⟩ := ih member
        exact ⟨access.address place ++ access.operation :: front, back, by simp⟩
      cases access with
      | store other => simpa using behind member
      | load other => simpa using behind member
      | define other =>
          cases index with
          | zero =>
              cases member
              cases concerns
              exact ⟨[], lines, rfl⟩
          | succ index =>
              simpa [Nat.add_assoc, Nat.add_comm 1] using behind member

end Performs

end SlotUse

/-! ### The accesses of a text -/

/-- The accesses that the value of an expression needs. -/
def Expression.accesses (value : Expression) : List SlotUse :=
  value.names.map .load

@[simp] theorem Expression.definitions_accesses (value : Expression) :
    SlotUse.definitions value.accesses = [] := by
  simp [accesses, SlotUse.definitions, SlotUse.defined?]

namespace Statement

mutual

/-- The accesses of a statement: what a value needs comes before the name that it is given to, and
the first branch before the second. -/
def accesses : Statement → List SlotUse
  | declare _ name value => value.accesses ++ [.define name]
  | assign name value => value.accesses ++ [.store name]
  | .return (some value) => value.accesses
  | .return none => []
  | ifThen condition consequence => condition.accesses ++ accessesAll consequence
  | ifElse condition consequence alternative =>
    condition.accesses ++ (accessesAll consequence ++ accessesAll alternative)
  | expression value => value.accesses

/-- The accesses of statements, in the order of the text. -/
def accessesAll : List Statement → List SlotUse
  | [] => []
  | statement :: rest => statement.accesses ++ accessesAll rest

end

mutual

/-- The definitions among the accesses are the declarations. -/
@[simp] theorem definitions_accesses : (statement : Statement) →
    SlotUse.definitions statement.accesses = statement.declared
  | declare .. | assign .. | .return (some _) | .return none | expression _ => by
      simp [accesses, declared]
  | ifThen _ consequence => by
      simp [accesses, declared, definitions_accessesAll consequence]
  | ifElse _ consequence alternative => by
      simp [accesses, declared, definitions_accessesAll consequence,
        definitions_accessesAll alternative]

/-- The definitions among the accesses are the declarations, at any depth. -/
@[simp] theorem definitions_accessesAll : (statements : List Statement) →
    SlotUse.definitions (accessesAll statements) = declaredAll statements
  | [] => rfl
  | statement :: rest => by
      rw [accessesAll, SlotUse.definitions_append, definitions_accesses statement,
        definitions_accessesAll rest, declaredAll]

end

end Statement

namespace FunctionDecl

/-- The accesses of a function: each parameter takes a slot before the body begins. -/
def accesses (function : FunctionDecl) : List SlotUse :=
  function.parameters.map (fun parameter => .define parameter.name) ++
    Statement.accessesAll function.body

/-- The names that a function defines, the parameters first and then the declarations of the body
at any depth, in the order of the text. -/
def definitions (function : FunctionDecl) : List String :=
  function.parameters.map Parameter.name ++ Statement.declaredAll function.body

end FunctionDecl

/-! ### The accesses of code -/

namespace Emission.Item

/-- The item does not become an operation on memory. -/
def Apart (item : Item) : Prop :=
  ∀ line, item.line? = some line → ¬ SlotUse.IsOperation line

@[simp] theorem apart_push (word : Word) (note : String) : (push word note).Apart := by
  rintro line ⟨⟩
  simp [SlotUse.IsOperation, Instruction.push]

@[simp] theorem apart_forward (destination : ℕ) (note : String) :
    (forward destination note).Apart := by
  rintro line ⟨⟩
  simp [SlotUse.IsOperation, Instruction.push]

@[simp] theorem apart_remark (r : Remark) : (remark r).Apart := by
  rintro line ⟨⟩

@[simp] theorem apart_plain_iff {opcode : Opcode} :
    (plain opcode).Apart ↔ opcode ≠ .mload ∧ opcode ≠ .mstore := by
  simp [Apart, plain, line?, SlotUse.IsOperation, Instruction.plain]

@[simp] theorem apart_noted_iff {opcode : Opcode} {note : String} :
    (noted opcode note).Apart ↔ opcode ≠ .mload ∧ opcode ≠ .mstore := by
  simp [Apart, noted, line?, SlotUse.IsOperation, Instruction.plain]

/-- The lines of items that are no operations on memory. -/
theorem not_isOperation_of_mem_lines {items : List Item} (apart : ∀ item ∈ items, item.Apart) :
    ∀ line ∈ lines items, ¬ SlotUse.IsOperation line := by
  intro line mem
  obtain ⟨item, member, becomes⟩ := List.mem_filterMap.1 mem
  exact apart item member line becomes

end Emission.Item

namespace SlotUse.Performs

variable {earlier : List String} {items more : List Item} {accesses others : List SlotUse}

/-- What is emitted behind makes its accesses behind the definitions of what is emitted before. -/
theorem append_lines (first : Performs earlier (Item.lines items) accesses)
    (second : Performs (earlier ++ definitions accesses) (Item.lines more) others) :
    Performs earlier (Item.lines (items ++ more)) (accesses ++ others) := by
  rw [Item.lines_append]
  exact first.append second

/-- Items that are no operations on memory make no access. -/
theorem of_apart (apart : ∀ item ∈ items, item.Apart) : Performs earlier (Item.lines items) [] :=
  of_forall_not (Item.not_isOperation_of_mem_lines apart)

/-- Items that are no operations on memory may stand behind. -/
theorem append_apart (first : Performs earlier (Item.lines items) accesses)
    (apart : ∀ item ∈ more, item.Apart) :
    Performs earlier (Item.lines (items ++ more)) accesses := by
  have both := first.append_lines (of_apart apart)
  rwa [List.append_nil] at both

/-- Items that are no operations on memory may stand before. -/
theorem apart_append (apart : ∀ item ∈ more, item.Apart)
    (second : Performs earlier (Item.lines items) accesses) :
    Performs earlier (Item.lines (more ++ items)) accesses := by
  refine append_lines (of_apart apart) ?_
  rwa [definitions_nil, List.append_nil]

/-- The access to the slot of a definition. -/
theorem of_access (access : SlotUse) {index : ℕ} (concerns : access.Concerns earlier index) :
    Performs earlier (Item.lines ((Slot.nth index).access access.opcode access.name)) [access] :=
  Performs.access concerns nil

end SlotUse.Performs

open MemoryMap (ofNames)

/-- **The code of an expression reads its names from left to right.** -/
theorem Expression.Code.performs {earlier : List String} {value : Expression} {items : List Item}
    (code : Code (ofNames earlier) value items) :
    SlotUse.Performs earlier (Item.lines items) value.accesses := by
  induction code with
  | @literal value operand word shape fits =>
      have silent : value.accesses = [] := by
        cases value <;> first | rfl | cases shape
      rw [silent]
      exact SlotUse.Performs.of_apart (by simp)
  | @identifier name slot found =>
      obtain ⟨index, latest, rfl⟩ := MemoryMap.slot?_ofNames_eq_some_iff.1 found
      exact SlotUse.Performs.of_access (.load name) latest
  | not _ ih => exact ih.append_apart (by simp)
  | minus _ ih =>
      rw [← List.singleton_append]
      exact SlotUse.Performs.apart_append (by simp) (ih.append_apart (by simp))
  | @binary left right op items more _ _ ihLeft ihRight =>
      have silent : ∀ item ∈ op.opcodes.map Item.plain, item.Apart := by
        cases op <;> simp [BinaryOperator.opcodes]
      have same : (Expression.binary left op right).accesses = left.accesses ++ right.accesses := by
        simp [accesses, names]
      rw [same]
      refine ihLeft.append_lines ?_
      rw [definitions_accesses, List.append_nil]
      exact ihRight.append_apart silent

/-- **The code of statements makes the accesses of their text**, and the memory map stays the one
behind the definitions so far. -/
theorem Statement.Block.performs {position : ℕ} {memory last : MemoryMap}
    {statements : List Statement} {items : List Item}
    (block : Block position memory statements items last) {earlier : List String}
    (known : memory = ofNames earlier) :
    SlotUse.Performs earlier (Item.lines items) (accessesAll statements) ∧
      last = ofNames (earlier ++ declaredAll statements) := by
  induction block generalizing earlier with
  | nil => exact ⟨.nil, by rw [known, declaredAll, List.append_nil]⟩
  | cons head tail ihHead ihTail =>
      obtain ⟨first, middle⟩ := ihHead known
      simp only [accessesAll, declaredAll, List.append_nil] at first middle
      obtain ⟨second, final⟩ := ihTail middle
      refine ⟨first.append_lines ?_, ?_⟩
      · rwa [definitions_accesses]
      · rw [final, List.append_assoc, declaredAll]
  | @declare position memory type name value items code =>
      subst known
      simp only [accessesAll, declaredAll, accesses, declared, List.append_nil]
      have silent : ∀ item ∈ (ofNames earlier).shadowing name, item.Apart := by
        rw [MemoryMap.shadowing]
        split <;> simp
      refine ⟨code.performs.append_lines (SlotUse.Performs.apart_append silent ?_), ?_⟩
      · -- the value is computed before the name takes its slot
        rw [Expression.definitions_accesses, List.append_nil, MemoryMap.next_ofNames]
        exact SlotUse.Performs.of_access (.define name) rfl
      · rw [MemoryMap.ofNames_append_singleton]
  | @assign position memory name value slot items code found =>
      subst known
      simp only [accessesAll, declaredAll, accesses, declared, List.append_nil]
      obtain ⟨index, latest, rfl⟩ := MemoryMap.slot?_ofNames_eq_some_iff.1 found
      refine ⟨code.performs.append_lines ?_, trivial⟩
      rw [Expression.definitions_accesses, List.append_nil]
      exact SlotUse.Performs.of_access (.store name) latest
  | returnValue code =>
      subst known
      simp only [accessesAll, declaredAll, accesses, declared, List.append_nil]
      exact ⟨code.performs.append_apart (by simp), trivial⟩
  | returnNothing =>
      simp only [accessesAll, declaredAll, accesses, declared, List.append_nil]
      exact ⟨SlotUse.Performs.of_apart (by simp), known⟩
  | expression code =>
      subst known
      simp only [accessesAll, declaredAll, accesses, declared, List.append_nil]
      exact ⟨code.performs.append_apart (by simp), trivial⟩
  | ifThen test start_eq inner stop_eq ih =>
      obtain ⟨block, final⟩ := ih known
      subst known
      simp only [accessesAll, declaredAll, accesses, declared, List.append_nil]
      refine ⟨test.performs.append_lines (SlotUse.Performs.apart_append (by simp [Item.skip]) ?_),
        final⟩
      rw [Expression.definitions_accesses, List.append_nil]
      exact block.append_apart (by simp)
  | @ifElse position start otherwise stop memory middle last condition consequence alternative
      items block other test start_eq inner otherwise_eq outer stop_eq ihInner ihOuter =>
      obtain ⟨first, between⟩ := ihInner known
      obtain ⟨second, final⟩ := ihOuter between
      subst known
      simp only [accessesAll, declaredAll, accesses, declared, List.append_nil]
      refine ⟨test.performs.append_lines (SlotUse.Performs.apart_append (by simp [Item.skip]) ?_),
        by rw [final, List.append_assoc]⟩
      rw [Expression.definitions_accesses, List.append_nil]
      refine first.append_lines (SlotUse.Performs.apart_append (by simp [Item.leave]) ?_)
      rw [definitions_accessesAll, ← List.singleton_append]
      exact SlotUse.Performs.apart_append (by simp) (second.append_apart (by simp))

/-! ### Functions -/

namespace Parameter

/-- The lines that copy the call argument at an index to the slot of a parameter. -/
def copy (index : ℕ) (parameter : Parameter) : List Assembly.Line :=
  ⟨.push (.ofNat index), some ("argument " ++ Text.Decimal.ofNat index)⟩ ::
    ⟨.plain .loadArgs, none⟩ ::
      ((SlotUse.define parameter.name).address index ++ [(SlotUse.define parameter.name).operation])

/-- **The parameters are copied in order**, and each takes the next slot. -/
theorem Code.copies {index : ℕ} {memory last : MemoryMap} {parameters : List Parameter}
    {items : List Item} (code : Code index memory parameters items last) {earlier : List String}
    (known : memory = ofNames earlier) (place : index = earlier.length) :
    Item.lines items =
        (parameters.mapIdx fun offset parameter => parameter.copy (index + offset)).flatten ∧
      SlotUse.Performs earlier (Item.lines items)
        (parameters.map fun parameter => .define parameter.name) ∧
      last = ofNames (earlier ++ parameters.map Parameter.name) := by
  induction code generalizing earlier with
  | nil => exact ⟨rfl, .nil, by rw [known, List.map_nil, List.append_nil]⟩
  | @cons index memory last parameter rest more tail ih =>
      obtain ⟨lines, performs, final⟩ :=
        ih (by rw [known, MemoryMap.ofNames_append_singleton]) (by rw [place, List.length_append,
          List.length_singleton])
      have slot : memory.next = Slot.nth index := by rw [known, MemoryMap.next_ofNames, place]
      rw [slot]
      refine ⟨?_, ?_, ?_⟩
      · have shift : ∀ offset, index + 1 + offset = index + (offset + 1) := by
          intro offset
          omega
        simp only [shift] at lines
        rw [List.mapIdx_cons, List.flatten_cons, ← lines]
        rfl
      · have silent : ∀ item ∈ [Item.push (.ofNat index) ("argument " ++ Text.Decimal.ofNat index),
            Item.plain .loadArgs], item.Apart := by simp
        have made := SlotUse.Performs.of_access (.define parameter.name) place
        exact SlotUse.Performs.apart_append silent (made.append_lines performs)
      · rw [final, List.append_assoc, List.singleton_append, List.map_cons]

/-- The parameters are the definitions among their accesses. -/
theorem definitions_map_define (parameters : List Parameter) :
    SlotUse.definitions (parameters.map fun parameter => .define parameter.name) =
      parameters.map Parameter.name := by
  induction parameters with
  | nil => rfl
  | cons parameter rest ih =>
      rw [List.map_cons, SlotUse.definitions_define_cons, ih, List.map_cons]

end Parameter

namespace FunctionDecl

/-- What the code of a function and its memory map have to do with the definitions in its text. -/
structure LaidOut (function : FunctionDecl) (lines : List Assembly.Line) (memory : MemoryMap) :
    Prop where
  /-- The parameters are copied from the call arguments before the body runs, the one at an index
  from the argument at this index to the slot at this index. -/
  copied : ∃ body, lines = ⟨.plain .jumpDst, some ("func " ++ function.name)⟩ ::
    ((function.parameters.mapIdx Parameter.copy).flatten ++ body)
  /-- The code makes the accesses of the text in their order. -/
  performs : SlotUse.Performs [] lines function.accesses
  /-- Declarations take the slots behind the parameters, in the order of the text. -/
  declared : ∀ (index : ℕ) (name : String),
    (Statement.declaredAll function.body)[index]? = some name →
      ∃ front back, lines = front ++
        ((SlotUse.define name).address (function.parameters.length + index) ++
          (SlotUse.define name).operation :: back)
  /-- Every operation on memory is fed the size and the offset of the slot of an access: the next
  one for a definition, and else that of the latest definition of the name so far. -/
  fed : ∀ (front back : List Assembly.Line) (line : Assembly.Line),
    lines = front ++ line :: back → SlotUse.IsOperation line →
      ∃ before access after index head, function.accesses = before ++ access :: after ∧
        line = access.operation ∧ front = head ++ access.address index ∧
        access.Concerns (SlotUse.definitions before) index
  /-- Every parameter and every declaration at any depth takes eight bytes. -/
  cursor : memory.cursor =
    8 * (function.parameters.length + (Statement.declaredAll function.body).length)
  /-- The entries are the names with the slots of their last definitions. -/
  entries : ∀ (name : String) (slot : Slot), (name, slot) ∈ memory.rows ↔
    ∃ index, MemoryMap.Latest function.definitions name index ∧ slot = Slot.nth index
  distinct : (memory.rows.map Prod.fst).Nodup
  increasing : memory.rows.Pairwise fun row other => row.2.offset < other.2.offset
  /-- No slot reaches into another. -/
  disjoint : memory.rows.Pairwise fun row other => row.2.stop ≤ other.2.offset

theorem length_definitions (function : FunctionDecl) : function.definitions.length =
    function.parameters.length + (Statement.declaredAll function.body).length := by
  rw [definitions, List.length_append, List.length_map]

/-- The definitions among the accesses of a function are its parameters and declarations. -/
theorem definitions_accesses (function : FunctionDecl) :
    SlotUse.definitions function.accesses = function.definitions := by
  rw [accesses, SlotUse.definitions_append, Parameter.definitions_map_define,
    Statement.definitions_accessesAll, definitions]

namespace Code

variable {position : ℕ} {function : FunctionDecl} {items : List Item} {memory : MemoryMap}

/-- The code of a function begins with the copies of its parameters. -/
theorem copied (code : Code position function items memory) : ∃ body, Item.lines items =
    ⟨.plain .jumpDst, some ("func " ++ function.name)⟩ ::
      ((function.parameters.mapIdx Parameter.copy).flatten ++ body) := by
  obtain ⟨parameters, -, -⟩ := code
  obtain ⟨lines, -, -⟩ := parameters.copies MemoryMap.ofNames_nil.symm rfl
  simp only [Nat.zero_add] at lines
  rw [← List.singleton_append, Item.lines_append, Item.lines_append, lines]
  exact ⟨_, rfl⟩

/-- **The code of a function makes the accesses of its text**, and its memory map is the one behind
all of its definitions. -/
theorem performs (code : Code position function items memory) :
    SlotUse.Performs [] (Item.lines items) function.accesses ∧
      memory = ofNames function.definitions := by
  obtain ⟨parameters, -, block⟩ := code
  obtain ⟨-, defined, between⟩ := parameters.copies MemoryMap.ofNames_nil.symm rfl
  obtain ⟨uses, final⟩ := block.performs between
  refine ⟨?_, final⟩
  rw [← List.singleton_append]
  refine SlotUse.Performs.apart_append (by simp) (defined.append_lines ?_)
  rw [Parameter.definitions_map_define]
  exact uses.append_apart (by simp)

/-- **The code of a function is laid out by its definitions.** -/
theorem laidOut (code : Code position function items memory) :
    function.LaidOut (Item.lines items) memory := by
  obtain ⟨performs, known⟩ := code.performs
  subst known
  refine
    { copied := code.copied
      performs
      declared := fun index name member => ?_
      fed := fun front back line split operation => performs.fed split operation
      cursor := by rw [MemoryMap.cursor_ofNames, length_definitions]
      entries := fun name slot => MemoryMap.mem_rows_ofNames_iff
      distinct := MemoryMap.nodup_rows_ofNames _
      increasing := MemoryMap.increasing_rows_ofNames _
      disjoint := MemoryMap.pairwise_rows_ofNames _ }
  have behind : (SlotUse.definitions function.accesses)[function.parameters.length + index]? =
      some name := by
    rw [definitions_accesses, definitions, List.getElem?_append_right (by simp)]
    simpa using member
  simpa using performs.defines behind

end Code

end FunctionDecl

/-! ### Compilations -/

namespace Compilation

/-- **The memory layout of a compiled function is the order of its definitions**, whether it is
compiled by itself or in a contract, where its code is a segment behind the dispatcher. -/
theorem functions_laidOut :
    (∀ (function : FunctionDecl) (compilation : Compilation),
      ofFunction function = .ok compilation →
        ∃ memory, compilation.scopes = [⟨function.name, memory⟩] ∧
          function.LaidOut compilation.code.lines memory) ∧
    (∀ (contract : Contract) (compilation : Compilation),
      ofContract contract = .ok compilation →
        ∃ segments : List (List Assembly.Line),
          compilation.code.lines = compilation.dispatcher ++ segments.flatten ∧
          segments.length = contract.functions.length ∧
          ∀ (index : ℕ) (function : FunctionDecl), contract.functions[index]? = some function →
            ∃ segment memory, segments[index]? = some segment ∧
              compilation.scopes[index]? = some ⟨function.name, memory⟩ ∧
              function.LaidOut segment memory) := by
  constructor
  · intro function compilation compiled
    obtain ⟨items, memory, yields, rfl⟩ := ofFunction_eq_ok_iff.1 compiled
    exact ⟨memory, rfl, (FunctionDecl.code_of_yields yields).laidOut⟩
  · intro contract compilation compiled
    obtain ⟨segments, lines, length, stands⟩ := exists_segments compiled
    refine ⟨segments.map Item.lines, lines, by rw [List.length_map, length], ?_⟩
    intro index function member
    obtain ⟨segment, memory, entry, here, -, -, scope, yields⟩ := stands index function member
    exact ⟨Item.lines segment, memory, by rw [List.getElem?_map, here]; rfl, scope,
      (FunctionDecl.code_of_yields yields).laidOut⟩

/-- The function `func f(a int, a int) int`, which declares `b` and, in one of two branches, `a`
once more; the other branch assigns to `a`. -/
def redefining : FunctionDecl where
  name := "f"
  parameters := [⟨"a", .int⟩, ⟨"a", .int⟩]
  returns := some .int
  body :=
    [.declare .int "b" (.identifier "a"),
      .ifElse (.identifier "b") [.declare .int "a" (.identifier "a")]
        [.assign "a" (.integer 1)],
      .return (some (.identifier "a"))]

/-- The last `a` of `redefining` is the fourth definition; what stands behind it in the text, the
other branch included, uses the slot of this one. -/
theorem functions_laidOut_redefining : ∃ compilation memory,
    ofFunction redefining = .ok compilation ∧ compilation.scopes = [⟨"f", memory⟩] ∧
    redefining.LaidOut compilation.code.lines memory ∧
    memory.rows = [("b", .nth 2), ("a", .nth 3)] ∧ memory.cursor = 32 := by
  obtain ⟨compilation, compiled, rows⟩ : ∃ compilation, ofFunction redefining = .ok compilation ∧
      compilation.scopes.map (fun scope => scope.memory.rows) = [[("b", .nth 2), ("a", .nth 3)]] :=
    ⟨_, rfl, by decide⟩
  obtain ⟨memory, scopes, laid⟩ := functions_laidOut.1 redefining compilation compiled
  rw [scopes] at rows
  exact ⟨compilation, memory, compiled, scopes, laid, by simpa using rows, laid.cursor⟩

end Compilation

end Covenant
