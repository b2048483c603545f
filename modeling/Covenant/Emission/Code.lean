/-
**The code of a contract.**

Every construct becomes a fixed sequence of instructions.  An expression leaves its value on the
stack, and a statement leaves the stack as it was:

    literal              Push
    identifier           Push size, Push offset, Mload
    !a                   a, Not
    -a                   Push 0, a, Sub
    a op b               a, b, the opcodes of the operator
    T x = a,  x = a      a, Push size, Push offset, Mstore
    return a             a, Returning
    return               Exit
    if a { b }           a, Not, Push end, Jumpi, b, end: JumpDst
    if a { b } else { c }
                         a, Not, Push else, Jumpi, b, Push end, Jump,
                         else: JumpDst, c, end: JumpDst
    a                    a, Pop

The code of a contract begins with a dispatcher, which compares the selector of the called function
with every declared one:

    Push selector, LoadFunc, Equal, Push entry, Jumpi     (for each function)
    Exit
    JumpDst, parameters, body, Exit                       (for each function)

The destination of a jump is written at once, since the size of the code that the jump leads over is
known from that code.  `Covenant/Translation.lean` has the translator that fills it in later.

Main definitions:

* `Covenant.Expression.emit`, `Covenant.Statement.emit` — the code of an expression and a
  statement;
* `Covenant.FunctionDecl.emit` — the code of a function at its position;
* `Covenant.Contract.emit` — the dispatcher and the code of all functions.
-/

import Covenant.Emission

set_option relaxedAutoImplicit false
set_option autoImplicit false

namespace Covenant

open Machine

/-! ### Access to memory -/

namespace Slot

/-- Pushes the size and the offset of the slot of a name. -/
def pushAddress (slot : Slot) (name : String) : Emission Unit := do
  Emission.push (.ofNat slot.size) ("size of " ++ name)
  Emission.push (.ofNat slot.offset) ("offset of " ++ name)

/-- Moves the value on the stack to the slot of a name. -/
def emitStore (slot : Slot) (name : String) : Emission Unit := do
  slot.pushAddress name
  Emission.plain .mstore

/-- Pushes the value in the slot of a name. -/
def emitLoad (slot : Slot) (name : String) : Emission Unit := do
  slot.pushAddress name
  Emission.plain .mload

end Slot

/-- The slot of a name that a statement uses. -/
def MemoryMap.resolve (memory : MemoryMap) (statement : Statement) (name : String) :
    Emission Slot :=
  match memory.find name with
  | .ok slot => pure slot
  | .error fault => Emission.fail (.undefinedReference statement fault)

/-! ### Expressions -/

/-- The opcodes that compute an operator on the two topmost values. -/
def BinaryOperator.opcodes : BinaryOperator → List Opcode
  | plus => [.add]
  | minus => [.sub]
  | times => [.mul]
  | divide => [.div]
  | modulo => [.mod]
  | less => [.lessThan]
  | greater => [.greaterThan]
  | lessOrEqual => [.lessThanOrEqual]
  | greaterOrEqual => [.greaterThanOrEqual]
  | equal => [.equal]
  | notEqual => [.equal, .not]
  | and => [.and]
  | or => [.or]

/-- Pushes a literal of a statement. -/
def Statement.pushLiteral (statement : Statement) (literal : Operand) : Emission Unit :=
  match literal.encode with
  | .ok word => Emission.push word literal.render
  | .error fault => Emission.fail (.invalidOperand statement fault)

/-- Emits operations without notes. -/
def emitOpcodes : List Opcode → Emission Unit
  | [] => pure ()
  | opcode :: rest => do
    Emission.plain opcode
    emitOpcodes rest

/-- The code of an expression, which pushes its value.  Faults are reported in the statement that
the expression belongs to. -/
def Expression.emit (memory : MemoryMap) (statement : Statement) : Expression → Emission Unit
  | integer value => statement.pushLiteral (.integer value)
  | boolean value => statement.pushLiteral (.boolean value)
  | text value => statement.pushLiteral (.text value)
  | identifier name => do
    let slot ← memory.resolve statement name
    slot.emitLoad name
  | unary .not right => do
    right.emit memory statement
    Emission.plain .not
  | unary .minus right => do
    Emission.push (.ofNat 0) "0"
    right.emit memory statement
    Emission.plain .sub
  | binary left op right => do
    left.emit memory statement
    right.emit memory statement
    emitOpcodes op.opcodes

/-! ### Statements -/

namespace Statement

mutual

/-- The code of a statement at a position, and the memory map behind it. -/
def emit (position : Nat) (memory : MemoryMap) (statement : Statement) : Emission MemoryMap :=
  match statement with
  | declare _ name value => do
    value.emit memory statement
    if memory.isDefined name then
      Emission.remark (.shadowed name)
    memory.next.emitStore name
    return memory.define name
  | assign name value => do
    value.emit memory statement
    let slot ← memory.resolve statement name
    slot.emitStore name
    return memory
  | .return (some value) => do
    value.emit memory statement
    Emission.plain .returning
    return memory
  | .return none => do
    Emission.noted .exit "return"
    return memory
  | ifThen condition consequence => do
    let test := condition.emit memory statement
    let start := position + test.size + Opcode.not.size + Opcode.push.size + Opcode.jumpi.size
    let block := emitAll start memory consequence
    test
    Emission.plain .not
    Emission.forward (start + block.size) "to end if"
    Emission.plain .jumpi
    let memory ← block
    Emission.noted .jumpDst "end if"
    return memory
  | ifElse condition consequence alternative => do
    let test := condition.emit memory statement
    let start := position + test.size + Opcode.not.size + Opcode.push.size + Opcode.jumpi.size
    let block := emitAll start memory consequence
    let otherwise := start + block.size + Opcode.push.size + Opcode.jump.size
    test
    Emission.plain .not
    Emission.forward otherwise "to else"
    Emission.plain .jumpi
    let memory ← block
    let other := emitAll (otherwise + Opcode.jumpDst.size) memory alternative
    Emission.forward (otherwise + Opcode.jumpDst.size + other.size) "to end if"
    Emission.plain .jump
    Emission.noted .jumpDst "else"
    let memory ← other
    Emission.noted .jumpDst "end if"
    return memory
  | expression value => do
    value.emit memory statement
    Emission.plain .pop
    return memory

/-- The code of statements, the first of which stands at a position. -/
def emitAll (position : Nat) (memory : MemoryMap) : List Statement → Emission MemoryMap
  | [] => pure memory
  | statement :: rest => do
    let first := emit position memory statement
    let memory ← first
    emitAll (position + first.size) memory rest

end

end Statement

/-! ### Functions -/

/-- The code that copies call arguments to the slots of parameters, the first of which has this
index. -/
def Parameter.emitAll (index : Nat) (memory : MemoryMap) : List Parameter → Emission MemoryMap
  | [] => pure memory
  | parameter :: rest => do
    Emission.push (.ofNat index) ("argument " ++ Text.Decimal.ofNat index)
    Emission.plain .loadArgs
    memory.next.emitStore parameter.name
    emitAll (index + 1) (memory.define parameter.name) rest

namespace FunctionDecl

/-- The code of a function at a position, and the memory map at its end. -/
def emit (position : Nat) (function : FunctionDecl) : Emission MemoryMap := do
  Emission.noted .jumpDst ("func " ++ function.name)
  let parameters := Parameter.emitAll 0 MemoryMap.empty function.parameters
  let memory ← parameters
  let memory ←
    Statement.emitAll (position + Opcode.jumpDst.size + parameters.size) memory function.body
  Emission.noted .exit ("end of " ++ function.name)
  Emission.remark (.compiledFunction function.name memory.slotCount)
  return memory

/-- The positions of functions, the first of which stands at the given one. -/
def entries (position : Nat) : List FunctionDecl → List Nat
  | [] => []
  | function :: rest => position :: entries (position + (function.emit position).size) rest

/-- The code of functions, the first of which stands at a position, and their memory maps. -/
def emitAll (position : Nat) : List FunctionDecl → Emission (List MemoryMap)
  | [] => pure []
  | function :: rest => do
    let code := function.emit position
    let memory ← code
    let more ← emitAll (position + code.size) rest
    return memory :: more

end FunctionDecl

/-! ### Contracts -/

namespace Contract

/-- The number of bytes that the dispatcher takes for each function. -/
def dispatchSize : Nat :=
  Opcode.push.size + Opcode.loadFunc.size + Opcode.equal.size + Opcode.push.size +
    Opcode.jumpi.size

/-- The comparison with a selector and the jump to the entry of its function, for functions given
by their names and entries, the first of which has this selector. -/
def emitDispatch (selector : Nat) : List (String × Nat) → Emission Unit
  | [] => Emission.noted .exit "no function matched"
  | (name, entry) :: rest => do
    Emission.push (.ofNat selector) ("selector of " ++ name)
    Emission.plain .loadFunc
    Emission.plain .equal
    Emission.forward entry ("entry of " ++ name)
    Emission.plain .jumpi
    emitDispatch (selector + 1) rest

/-- The position behind the dispatcher. -/
def bodyPosition (contract : Contract) : Nat :=
  contract.functions.length * dispatchSize + Opcode.exit.size

/-- The names of functions and where they begin, in order. -/
def labels (contract : Contract) : List (String × Nat) :=
  (contract.functions.map FunctionDecl.name).zip
    (FunctionDecl.entries contract.bodyPosition contract.functions)

/-- The code of a contract, and the memory maps of its functions. -/
def emit (contract : Contract) : Emission (List MemoryMap) := do
  let dispatcher := emitDispatch 0 contract.labels
  let functions := FunctionDecl.emitAll contract.bodyPosition contract.functions
  dispatcher
  let memories ← functions
  Emission.remark
    (.compiledContract contract.functions.length (dispatcher.size + functions.size))
  return memories

end Contract

end Covenant
