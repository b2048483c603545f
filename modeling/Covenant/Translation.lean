/-
**Translating in one pass.**

`Covenant/Emission/Code.lean` writes the destination of a jump at once, because it has the code that
the jump leads over before it.  A compiler that goes through a contract once, and appends to the
code as it goes, has not: where a destination lies ahead it pushes zero, keeps the index of the
push, and fills in the operand when it arrives at the destination.  The entries of functions are
filled in the same way, long after the dispatcher that jumps to them.  What it works on is a
*draft*, which holds everything that a compilation will have, and the log.

That the two compilers agree is proved in `Covenant/Proofs/Compilation/Translation.lean`.

Main definitions:

* `Covenant.Draft` — a compilation that is being made, and its log;
* `Covenant.Translator` — the steps on a draft, which may stop at a fault;
* `Covenant.Translator.fillDestination`, `Covenant.Translator.placeDestination` — filling in the
  destination of an earlier jump;
* `Covenant.Expression.translate`, `Covenant.Statement.translate`, `Covenant.FunctionDecl.translate`
  — the translation of an expression, a statement and a function;
* `Covenant.Draft.ofContract`, `Covenant.Draft.ofFunction` — the translation of a contract, and of
  one function by itself.
-/

import Covenant.Compilation

set_option relaxedAutoImplicit false
set_option autoImplicit false

namespace Covenant

open Machine

/-! ### Drafts -/

/-- A compilation that is being made, and the events of making it. -/
structure Draft extends Compilation where
  log : List Event

/-- Nothing made yet. -/
def Draft.empty : Draft where
  code := .empty
  scopes := []
  labels := []
  selectors := .empty
  log := []

/-- Steps on a draft, with a result or a fault.  The draft stays as it is at a fault, since the log
is shown even then. -/
abbrev Translator : Type → Type :=
  ExceptT CompileError (StateM Draft)

namespace Translator

/-! ### Steps -/

/-- Appends an instruction, and tells its index. -/
def emit (instruction : Instruction) (note : Option String) : Translator Nat := do
  let draft ← get
  set { draft with
    code := draft.code.emit instruction note
    log := draft.log ++ [Event.ofInstruction instruction draft.code.position] }
  return draft.code.lines.length

/-- Appends an operation without a note. -/
def plain (opcode : Opcode) : Translator Unit := do
  let _ ← emit (.plain opcode) none

/-- Appends an operation with a note. -/
def noted (opcode : Opcode) (note : String) : Translator Unit := do
  let _ ← emit (.plain opcode) (some note)

/-- Pushes a number that the compiler has made itself, and tells the index of the push.  An empty
note is none. -/
def pushNumber (n : Nat) (note : String) : Translator Nat :=
  emit (.push (.ofNat n)) (if note = "" then none else some note)

/-- Makes a remark. -/
def remark (r : Remark) : Translator Unit :=
  modify fun draft => { draft with log := draft.log ++ [r.event] }

/-- Fills in the destination of the jump that is pushed at an index.  Were there no push, the code
would stay as it is. -/
def fillDestination (index destination : Nat) (note : String) : Translator Unit :=
  modify fun draft => { draft with
    code := (draft.code.patch? index (.ofNat destination) (some note)).getD draft.code }

/-- Makes the position arrived at the destination of the jump that is pushed at an index. -/
def placeDestination (index : Nat) (label : String) : Translator Unit := do
  let draft ← get
  fillDestination index draft.code.position ("to " ++ label)
  noted .jumpDst label

/-- Pushes the size and the offset of the slot of a name. -/
def pushAddress (slot : Slot) (name : String) : Translator Unit := do
  let _ ← pushNumber slot.size ("size of " ++ name)
  let _ ← pushNumber slot.offset ("offset of " ++ name)

/-- Moves the value on the stack to the slot of a name. -/
def store (slot : Slot) (name : String) : Translator Unit := do
  pushAddress slot name
  plain .mstore

/-- Pushes the value in the slot of a name. -/
def load (slot : Slot) (name : String) : Translator Unit := do
  pushAddress slot name
  plain .mload

/-- The slot of a name that a statement uses. -/
def resolve (memory : MemoryMap) (statement : Statement) (name : String) : Translator Slot :=
  match memory.find name with
  | .ok slot => pure slot
  | .error fault => throw (.undefinedReference statement fault)

/-- Pushes a literal of a statement. -/
def pushLiteral (statement : Statement) (literal : Operand) : Translator Unit :=
  match literal.encode with
  | .ok word => do
    let _ ← emit (.push word) (some literal.render)
  | .error fault => throw (.invalidOperand statement fault)

/-- Appends operations without notes. -/
def operations : List Opcode → Translator Unit
  | [] => pure ()
  | opcode :: rest => do
    plain opcode
    operations rest

end Translator

open Translator

/-! ### Expressions and statements -/

/-- Translates an expression, which pushes its value.  Faults are reported in the statement that
the expression belongs to. -/
def Expression.translate (memory : MemoryMap) (statement : Statement) :
    Expression → Translator Unit
  | integer value => pushLiteral statement (.integer value)
  | boolean value => pushLiteral statement (.boolean value)
  | text value => pushLiteral statement (.text value)
  | identifier name => do
    let slot ← resolve memory statement name
    load slot name
  | unary .not right => do
    right.translate memory statement
    plain .not
  | unary .minus right => do
    let _ ← pushNumber 0 "0"
    right.translate memory statement
    plain .sub
  | binary left op right => do
    left.translate memory statement
    right.translate memory statement
    operations op.opcodes

namespace Statement

mutual

/-- Translates a statement, and gives the memory map behind it. -/
def translate (memory : MemoryMap) (statement : Statement) : Translator MemoryMap :=
  match statement with
  | declare _ name value => do
    value.translate memory statement
    if memory.isDefined name then
      remark (.shadowed name)
    store memory.next name
    return memory.define name
  | assign name value => do
    value.translate memory statement
    let slot ← resolve memory statement name
    store slot name
    return memory
  | .return (some value) => do
    value.translate memory statement
    plain .returning
    return memory
  | .return none => do
    noted .exit "return"
    return memory
  | ifThen condition consequence => do
    condition.translate memory statement
    plain .not
    let skip ← pushNumber 0 ""
    plain .jumpi
    let memory ← translateAll memory consequence
    placeDestination skip "end if"
    return memory
  | ifElse condition consequence alternative => do
    condition.translate memory statement
    plain .not
    let skip ← pushNumber 0 ""
    plain .jumpi
    let memory ← translateAll memory consequence
    let leave ← pushNumber 0 ""
    plain .jump
    placeDestination skip "else"
    let memory ← translateAll memory alternative
    placeDestination leave "end if"
    return memory
  | expression value => do
    value.translate memory statement
    plain .pop
    return memory

/-- Translates statements in order. -/
def translateAll (memory : MemoryMap) : List Statement → Translator MemoryMap
  | [] => pure memory
  | statement :: rest => do
    let memory ← translate memory statement
    translateAll memory rest

end

end Statement

/-! ### Functions -/

/-- Copies call arguments to the slots of parameters, the first of which has this index. -/
def Parameter.translateAll (index : Nat) (memory : MemoryMap) :
    List Parameter → Translator MemoryMap
  | [] => pure memory
  | parameter :: rest => do
    let _ ← pushNumber index ("argument " ++ Text.Decimal.ofNat index)
    plain .loadArgs
    store memory.next parameter.name
    translateAll (index + 1) (memory.define parameter.name) rest

namespace FunctionDecl

/-- Translates the code of a function, and gives the memory map at its end. -/
def translateCode (function : FunctionDecl) : Translator MemoryMap := do
  noted .jumpDst ("func " ++ function.name)
  let memory ← Parameter.translateAll 0 MemoryMap.empty function.parameters
  let memory ← Statement.translateAll memory function.body
  noted .exit ("end of " ++ function.name)
  remark (.compiledFunction function.name memory.slotCount)
  return memory

/-- Translates a function.  Its label is the position arrived at, and its scope is kept once the
code is complete. -/
def translate (function : FunctionDecl) : Translator Unit := do
  modify fun draft => { draft with
    labels := draft.labels ++ [(function.name, draft.code.position)] }
  let memory ← function.translateCode
  modify fun draft => { draft with scopes := draft.scopes ++ [⟨function.name, memory⟩] }

end FunctionDecl

/-! ### Contracts -/

namespace Contract

/-- Gives functions their selectors, up to the first that is refused one. -/
def translateNames : List FunctionDecl → Translator Unit
  | [] => pure ()
  | function :: rest => do
    let draft ← get
    match draft.selectors.insert? function.name with
    | none => throw (.duplicateFunction function.name)
    | some selectors =>
      set { draft with selectors }
      translateNames rest

/-- Compares with the selector of every function, and tells the indices of the pushes that must be
filled in with their entries.  The first function has this selector, counted in thirty-two bits. -/
def translateDispatch (selector : Nat) : List FunctionDecl → Translator (List Nat)
  | [] => do
    noted .exit "no function matched"
    return []
  | function :: rest => do
    let _ ← pushNumber (UInt32.ofNat selector).toNat ("selector of " ++ function.name)
    plain .loadFunc
    plain .equal
    let entry ← pushNumber 0 ("entry of " ++ function.name)
    plain .jumpi
    return entry :: (← translateDispatch (selector + 1) rest)

/-- Translates functions, each of which begins where the push at its index leads. -/
def translateFunctions : List (FunctionDecl × Nat) → Translator Unit
  | [] => pure ()
  | (function, index) :: rest => do
    let draft ← get
    fillDestination index draft.code.position ("entry of " ++ function.name)
    function.translate
    translateFunctions rest

/-- Translates a contract. -/
def translate (contract : Contract) : Translator Unit := do
  translateNames contract.functions
  let entries ← translateDispatch 0 contract.functions
  translateFunctions (contract.functions.zip entries)
  let draft ← get
  remark (.compiledContract contract.functions.length draft.code.position)

end Contract

/-! ### Compilations -/

namespace Draft

/-- What a translator makes of an empty draft: the compilation or a fault, and the log. -/
def finish (translator : Translator Unit) : Except CompileError Compilation × List Event :=
  let (result, draft) := translator.run.run empty
  (result.map fun _ => draft.toCompilation, draft.log)

/-- The translation of a contract. -/
def ofContract (contract : Contract) : Except CompileError Compilation × List Event :=
  finish contract.translate

/-- The translation of a function by itself. -/
def ofFunction (function : FunctionDecl) : Except CompileError Compilation × List Event :=
  finish do
    modify fun draft => { draft with
      selectors := (draft.selectors.insert? function.name).getD draft.selectors }
    function.translate

end Draft

end Covenant
