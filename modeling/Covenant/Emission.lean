/-
**Emission.**

Compiling emits instructions one after another, with remarks between them, and may stop at a fault.
What was emitted before the fault is kept, since it shows in the log.  A jump goes to a place that
lies ahead: its destination is not known when it is emitted, and the log shows zero in its place.

Main definitions:

* `Covenant.CompileError` — what is wrong with a contract;
* `Covenant.Remark`, `Covenant.Emission.Item` — what is emitted;
* `Covenant.Emission` — the items emitted so far, and a result or a fault;
* `Covenant.Event` — an entry of the log.

Main results:

* `Emission.items_bind_ok`, `Emission.items_bind_error` — items are emitted in order, up to the
  first fault.
-/

import Covenant.Assembly
import Covenant.Contract
import Covenant.MemoryMap

set_option relaxedAutoImplicit false
set_option autoImplicit false

namespace Covenant

open Machine

/-! ### Faults -/

/-- What is wrong with a contract. -/
inductive CompileError where
  /-- The statement uses a name that was not declared before. -/
  | undefinedReference (statement : Statement) (name : MemoryMap.Undefined)
  /-- The statement holds a literal that fits no word. -/
  | invalidOperand (statement : Statement) (literal : Operand.Oversize)
  /-- Two functions have this name. -/
  | duplicateFunction (name : String)
  deriving DecidableEq

/-- The report on a contract that cannot be compiled. -/
def CompileError.message : CompileError → String
  | undefinedReference statement name => "in `" ++ statement.render ++ "`: " ++ name.message
  | invalidOperand statement literal => "in `" ++ statement.render ++ "`: " ++ literal.message
  | duplicateFunction name => "function `" ++ name ++ "` is declared more than once"

/-! ### The log -/

/-- What the compiler remarks on its work. -/
inductive Remark where
  /-- A definition hides an earlier one of the same name. -/
  | shadowed (name : String)
  /-- A function is complete and has taken this many slots. -/
  | compiledFunction (name : String) (slots : Nat)
  /-- A contract of this many functions is complete and takes this many bytes. -/
  | compiledContract (functions bytes : Nat)
  deriving DecidableEq

/-- How much an event matters, the most important first. -/
inductive Level where
  | error | warn | info | debug | trace
  deriving DecidableEq, Repr

/-- An event of the log: its level, its message and its named fields. -/
structure Event where
  level : Level
  message : String
  fields : List (String × String)
  deriving DecidableEq

/-- The event of a remark. -/
def Remark.event : Remark → Event
  | shadowed name => ⟨.warn, "redefinition shadows the previous definition", [("identifier", name)]⟩
  | compiledFunction name slots =>
    ⟨.debug, "compiled function", [("function", name), ("slots", Text.Decimal.ofNat slots)]⟩
  | compiledContract functions bytes =>
    ⟨.info, "compiled contract",
      [("functions", Text.Decimal.ofNat functions), ("bytes", Text.Decimal.ofNat bytes)]⟩

/-- The event of an instruction that is emitted at a position. -/
def Event.ofInstruction (instruction : Instruction) (position : Nat) : Event :=
  ⟨.trace, instruction.render, [("position", Text.Decimal.ofNat position)]⟩

/-! ### Items -/

/-- What is emitted. -/
inductive Emission.Item where
  /-- An instruction, as it stays. -/
  | line (line : Assembly.Line)
  /-- A push of a destination that lies ahead. -/
  | forward (destination : Nat) (note : String)
  /-- A remark, which is no code. -/
  | remark (remark : Remark)
  deriving DecidableEq

namespace Emission.Item

/-- The line of code that an item becomes. -/
def line? : Item → Option Assembly.Line
  | line code => some code
  | forward destination note => some ⟨.push (.ofNat destination), some note⟩
  | remark _ => none

/-- The number of bytes that an item takes in the code. -/
def size (item : Item) : Nat :=
  match item.line? with
  | some code => code.instruction.size
  | none => 0

/-- The event of an item that is emitted at a position. -/
def event (item : Item) (position : Nat) : Event :=
  match item with
  | line code => .ofInstruction code.instruction position
  | forward _ _ => .ofInstruction (.push (.ofNat 0)) position
  | remark r => r.event

/-- The events of items, the first of which is emitted at a position. -/
def events (position : Nat) : List Item → List Event
  | [] => []
  | item :: rest => item.event position :: events (position + item.size) rest

/-- The lines of code among some items. -/
def lines (items : List Item) : List Assembly.Line :=
  items.filterMap line?

/-- The number of bytes that some items take in the code. -/
def totalSize (items : List Item) : Nat :=
  items.foldr (fun item n => item.size + n) 0

@[simp] theorem lines_append (items more : List Item) :
    lines (items ++ more) = lines items ++ lines more := by
  simp [lines]

@[simp] theorem totalSize_append (items more : List Item) :
    totalSize (items ++ more) = totalSize items + totalSize more := by
  induction items with
  | nil => simp [totalSize]
  | cons item items ih =>
    simp only [totalSize, List.cons_append, List.foldr_cons] at ih ⊢
    omega

/-- Items take as many bytes as their lines. -/
theorem position_lines (items : List Item) : (Assembly.mk (lines items)).position =
    totalSize items := by
  induction items with
  | nil => rfl
  | cons item items ih =>
    simp only [Assembly.position, lines, totalSize, List.foldr_cons] at ih ⊢
    cases h : item.line? with
    | none => simp [h, size, ih]
    | some code => simp [h, size, ih]

end Emission.Item

/-! ### Emitting -/

/-- The items emitted so far, and a result, or the fault at which emission stopped. -/
structure Emission (α : Type) where
  items : List Emission.Item
  result : Except CompileError α

namespace Emission

variable {α β : Type}

instance : Monad Emission where
  pure a := ⟨[], .ok a⟩
  bind first next :=
    match first.result with
    | .error fault => ⟨first.items, .error fault⟩
    | .ok a =>
      let rest := next a
      ⟨first.items ++ rest.items, rest.result⟩

/-- Emits one item. -/
def emit (item : Item) : Emission Unit :=
  ⟨[item], .ok ()⟩

/-- Stops at a fault. -/
def fail (fault : CompileError) : Emission α :=
  ⟨[], .error fault⟩

/-- The number of bytes emitted. -/
def size (emission : Emission α) : Nat :=
  Item.totalSize emission.items

/-- Emits an operation without a note. -/
def plain (opcode : Opcode) : Emission Unit :=
  emit (.line ⟨.plain opcode, none⟩)

/-- Emits an operation with a note. -/
def noted (opcode : Opcode) (note : String) : Emission Unit :=
  emit (.line ⟨.plain opcode, some note⟩)

/-- Pushes a word with a note. -/
def push (word : Word) (note : String) : Emission Unit :=
  emit (.line ⟨.push word, some note⟩)

/-- Pushes a destination that lies ahead. -/
def forward (destination : Nat) (note : String) : Emission Unit :=
  emit (.forward destination note)

/-- Makes a remark. -/
def remark (r : Remark) : Emission Unit :=
  emit (.remark r)

@[simp] theorem items_pure (a : α) : (pure a : Emission α).items = [] := rfl

@[simp] theorem result_pure (a : α) : (pure a : Emission α).result = .ok a := rfl

/-- What follows a result is emitted behind it. -/
theorem items_bind_ok {first : Emission α} {next : α → Emission β} {a : α}
    (h : first.result = .ok a) : (first >>= next).items = first.items ++ (next a).items := by
  simp [bind, h]

/-- Nothing is emitted behind a fault. -/
theorem items_bind_error {first : Emission α} {next : α → Emission β} {fault : CompileError}
    (h : first.result = .error fault) : (first >>= next).items = first.items := by
  simp [bind, h]

/-- The result is that of the steps, whatever they emit. -/
@[simp] theorem result_bind (first : Emission α) (next : α → Emission β) :
    (first >>= next).result = first.result >>= fun a => (next a).result := by
  cases h : first.result <;> simp [bind, h, Except.bind]

end Emission

end Covenant
