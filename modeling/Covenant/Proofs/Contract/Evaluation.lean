/-
**What a function means.**

A function is evaluated directly on its text, over a store that gives values to names.  Neither code
nor positions nor memory occur here: a declaration and an assignment both bind a name, a return ends
the call, and an `if` runs one of its blocks.  What operations compute and what the caller hands
over is given by the same world that the machine executes in.

Main definitions:

* `Covenant.Store` — values of names;
* `Covenant.Expression.eval` — the value of an expression;
* `Covenant.Statement.Ending`, `Covenant.Statement.exec` — what running statements comes to;
* `Covenant.FunctionDecl.eval` — the outcome of a call.

Evaluation gives no result where a name has no value or a literal fits no word.

Main results:

* `Statement.execAll_cons`, `Statement.execAll_singleton` — statements run one after another.
-/

import Covenant.Contract
import Covenant.Proofs.Machine.Execution

set_option relaxedAutoImplicit false
set_option autoImplicit false

namespace Covenant

open Machine

/-- The values of names, as far as they have one. -/
@[ext]
structure Store where
  value? : String → Option Word

namespace Store

/-- No name has a value. -/
def empty : Store := ⟨fun _ => none⟩

/-- Binds a name to a value, whatever it was bound to before. -/
def bind (store : Store) (name : String) (value : Word) : Store :=
  ⟨Function.update store.value? name (some value)⟩

@[simp] theorem value?_bind_self (store : Store) (name : String) (value : Word) :
    (store.bind name value).value? name = some value :=
  Function.update_self _ _ _

theorem value?_bind_of_ne {name other : String} (store : Store) (value : Word)
    (h : other ≠ name) : (store.bind name value).value? other = store.value? other :=
  Function.update_of_ne h _ _

end Store

/-! ### Expressions -/

/-- What a binary operator computes. -/
def BinaryOperator.compute (world : World) (left right : Word) : BinaryOperator → Word
  | plus => world.binary .add left right
  | minus => world.binary .sub left right
  | times => world.binary .mul left right
  | divide => world.binary .div left right
  | modulo => world.binary .mod left right
  | less => world.binary .lessThan left right
  | greater => world.binary .greaterThan left right
  | lessOrEqual => world.binary .lessThanOrEqual left right
  | greaterOrEqual => world.binary .greaterThanOrEqual left right
  | equal => world.binary .equal left right
  | notEqual => world.negate (world.binary .equal left right)
  | and => world.binary .and left right
  | or => world.binary .or left right

/-- What a unary operator computes.  A minus sign subtracts from zero. -/
def UnaryOperator.compute (world : World) (right : Word) : UnaryOperator → Word
  | not => world.negate right
  | minus => world.binary .sub (.ofNat 0) right

/-- The value of an expression. -/
def Expression.eval (world : World) (store : Store) : Expression → Option Word
  | integer value => (Operand.integer value).encode.toOption
  | boolean value => (Operand.boolean value).encode.toOption
  | text value => (Operand.text value).encode.toOption
  | identifier name => store.value? name
  | unary op right => do
    let right ← right.eval world store
    return op.compute world right
  | binary left op right => do
    let left ← left.eval world store
    let right ← right.eval world store
    return op.compute world left right

/-! ### Statements -/

namespace Statement

/-- What running statements comes to: they end, and the values of names are these, or they stop the
call. -/
inductive Ending where
  | running (store : Store)
  | stopped (outcome : Outcome)

mutual

/-- Runs a statement. -/
def exec (world : World) (store : Store) : Statement → Option Ending
  | declare _ name value => do
    let value ← value.eval world store
    return .running (store.bind name value)
  | assign name value => do
    let value ← value.eval world store
    return .running (store.bind name value)
  | .return none => return .stopped .exited
  | .return (some value) => do
    let value ← value.eval world store
    return .stopped (.returned value)
  | ifThen condition consequence => do
    let condition ← condition.eval world store
    if world.isTrue condition then execAll world store consequence else return .running store
  | ifElse condition consequence alternative => do
    let condition ← condition.eval world store
    if world.isTrue condition then execAll world store consequence
    else execAll world store alternative
  | expression value => do
    let _ ← value.eval world store
    return .running store

/-- Runs statements in order, up to the first that stops the call. -/
def execAll (world : World) (store : Store) : List Statement → Option Ending
  | [] => return .running store
  | statement :: rest => do
    match ← exec world store statement with
    | .running store => execAll world store rest
    | .stopped outcome => return .stopped outcome

end

variable {world : World} {store : Store} {statement : Statement} {rest : List Statement}

/-- Running one statement by itself. -/
theorem execAll_singleton : execAll world store [statement] = exec world store statement := by
  rw [execAll]
  cases exec world store statement with
  | none => rfl
  | some ending => cases ending <;> rfl

/-- Behind a statement that ends, the others run. -/
theorem execAll_cons_of_running {next : Store}
    (h : execAll world store [statement] = some (.running next)) :
    execAll world store (statement :: rest) = execAll world next rest := by
  rw [execAll_singleton] at h
  rw [execAll, h]
  rfl

/-- Behind a statement that stops the call, nothing runs. -/
theorem execAll_cons_of_stopped {outcome : Outcome}
    (h : execAll world store [statement] = some (.stopped outcome)) :
    execAll world store (statement :: rest) = some (.stopped outcome) := by
  rw [execAll_singleton] at h
  rw [execAll, h]
  rfl

end Statement

/-! ### Functions -/

/-- Binds parameters, the first of which has this index, to the call arguments. -/
def Parameter.bindAll (world : World) (index : ℕ) (store : Store) : List Parameter → Store
  | [] => store
  | parameter :: rest =>
    bindAll world (index + 1) (store.bind parameter.name (world.argument index)) rest

/-- The outcome of calling a function.  A body that ends without a return exits. -/
def FunctionDecl.eval (world : World) (function : FunctionDecl) : Option Outcome := do
  match ← Statement.execAll world (Parameter.bindAll world 0 .empty function.parameters)
      function.body with
  | .running _ => return .exited
  | .stopped outcome => return outcome

end Covenant
