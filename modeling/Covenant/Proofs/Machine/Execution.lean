/-
**The machine.**

The table in `Covenant/Machine/Opcode.lean` says what every operation does to the stack.  This
module turns it into a machine that executes bytecode: words on a stack, a memory of word slots
addressed by byte offset, and a position in the bytes.  What the operations on values compute, which
words count as true and what the caller hands over is left open; it is given by a *world*, of which
only one thing is known, that `Not` turns truth round.

A jump needs a `JumpDst` where it goes, and an access to memory needs the size of a word; without
them the machine is stuck.  Which way a conditional jump goes is a parameter of a step: an execution
asks the world, and a path in general may go either way at every conditional jump.

Main definitions:

* `Covenant.Machine.World`, `Covenant.Machine.State`, `Covenant.Machine.Outcome`;
* `Covenant.Machine.World.unsigned` — a world;
* `Covenant.Machine.step`, `Covenant.Machine.run` — one step, and execution until it stops;
* `Covenant.Machine.Access`, `Covenant.Machine.accesses` — what a step does to memory;
* `Covenant.Machine.Forced`, `Covenant.Machine.Decided`, `Covenant.Machine.Free` — the steps that no
  decision changes, those of an execution, and those of any path;
* `Covenant.Machine.Path` — a sequence of such steps, with the accesses on the way.

Main results:

* `Machine.run_mono` — an execution that stops is not changed by more steps;
* `Machine.run_of_path` — **a path that decides as the world does is an execution**.
-/

import Covenant.Proofs.Machine.Bytecode
import Mathlib.Logic.Function.Basic

set_option relaxedAutoImplicit false
set_option autoImplicit false

namespace Covenant.Machine

/-! ### States -/

/-- What execution depends on and the code does not say: the operations on words, the words that
count as true, and what the caller hands over. -/
structure World where
  /-- The operations on two values, the one pushed first coming first. -/
  binary : Opcode → Word → Word → Word
  negate : Word → Word
  isTrue : Word → Bool
  /-- The selector of the called function. -/
  selector : Word
  /-- The call argument at an index. -/
  argument : ℕ → Word
  isTrue_negate : ∀ word, isTrue (negate word) = !isTrue word

/-- The byte where the next instruction begins, the stack from its top on, and the word slots of
memory by their offsets. -/
structure State where
  position : ℕ
  stack : List Word
  memory : ℕ → Word

/-- How a call ends. -/
inductive Outcome where
  | returned (value : Word)
  | exited
  deriving DecidableEq

/-- Where a step leads. -/
inductive Progress where
  | running (state : State)
  | stopped (outcome : Outcome)

/-! ### Steps -/

/-- The operations that take two values and give one. -/
def Opcode.isBinary : Opcode → Bool
  | add | mul | sub | div | mod | and | or => true
  | lessThan | greaterThan | lessThanOrEqual | greaterThanOrEqual | equal => true
  | _ => false

/-- The step of a jump, which needs a mark where it goes. -/
def State.jump (code : List UInt8) (state : State) (destination : Word) (stack : List Word) :
    Option Progress :=
  match Bytecode.decodeAt code destination.toNat with
  | .ok ⟨.jumpDst, none⟩ => some (.running ⟨destination.toNat, stack, state.memory⟩)
  | _ => none

/-- The step behind an operation, which leaves this stack and this memory. -/
def State.next (state : State) (opcode : Opcode) (stack : List Word) (memory : ℕ → Word) :
    Option Progress :=
  some (.running ⟨state.position + opcode.size, stack, memory⟩)

/-- The step of an operation without an operand.  A conditional jump is taken on the conditions that
satisfy `taken`. -/
def perform (world : World) (taken : Word → Bool) (code : List UInt8) (opcode : Opcode)
    (state : State) : Option Progress :=
  match opcode, state.stack with
  | .exit, _ => some (.stopped .exited)
  | .returning, value :: _ => some (.stopped (.returned value))
  | .jumpDst, stack => state.next .jumpDst stack state.memory
  | .jump, destination :: stack => state.jump code destination stack
  | .jumpi, destination :: condition :: stack =>
    if taken condition then state.jump code destination stack
    else state.next .jumpi stack state.memory
  | .pop, _ :: stack => state.next .pop stack state.memory
  | .mload, offset :: size :: stack =>
    if size = .ofNat Word.size then
      state.next .mload (state.memory offset.toNat :: stack) state.memory
    else none
  | .mstore, offset :: size :: value :: stack =>
    if size = .ofNat Word.size then
      state.next .mstore stack (Function.update state.memory offset.toNat value)
    else none
  | .loadFunc, stack => state.next .loadFunc (world.selector :: stack) state.memory
  | .loadArgs, index :: stack =>
    state.next .loadArgs (world.argument index.toNat :: stack) state.memory
  | .not, value :: stack => state.next .not (world.negate value :: stack) state.memory
  | opcode, right :: left :: stack =>
    if opcode.isBinary then
      state.next opcode (world.binary opcode left right :: stack) state.memory
    else none
  | _, _ => none

/-- The step of the instruction at the position of a state, if it can be made. -/
def step (world : World) (taken : Word → Bool) (code : List UInt8) (state : State) :
    Option Progress :=
  match Bytecode.decodeAt code state.position with
  | .ok ⟨.push, some word⟩ => state.next .push (word :: state.stack) state.memory
  | .ok ⟨opcode, none⟩ => perform world taken code opcode state
  | _ => none

theorem step_of_plain {world : World} {taken : Word → Bool} {code : List UInt8} {state : State}
    {opcode : Opcode} (h : Bytecode.decodeAt code state.position = .ok (.plain opcode)) :
    step world taken code state = perform world taken code opcode state := by
  rw [step, h]
  cases opcode <;> rfl

theorem step_of_push {world : World} {taken : Word → Bool} {code : List UInt8} {state : State}
    {word : Word} (h : Bytecode.decodeAt code state.position = .ok (.push word)) :
    step world taken code state = state.next .push (word :: state.stack) state.memory := by
  rw [step, h]
  rfl

/-- An operation that gives one value for two. -/
theorem perform_of_isBinary {world : World} {taken : Word → Bool} {code : List UInt8}
    {opcode : Opcode} (h : opcode.isBinary) {position : ℕ} {right left : Word}
    {stack : List Word} {memory : ℕ → Word} :
    perform world taken code opcode ⟨position, right :: left :: stack, memory⟩ =
      some (.running
        ⟨position + opcode.size, world.binary opcode left right :: stack, memory⟩) := by
  cases opcode <;> first | rfl | cases h

/-- A world that computes with unsigned numbers, in which only zero is false.  The operations that
it does not know give their first operand. -/
def World.unsigned (arguments : List ℕ) : World where
  binary
    | .add, left, right => .ofNat (left.toNat + right.toNat)
    | .sub, left, right => .ofNat (left.toNat + (2 ^ 64 - right.toNat))
    | .lessThan, left, right => .ofNat (if left.toNat < right.toNat then 1 else 0)
    | .equal, left, right => .ofNat (if left.toNat = right.toNat then 1 else 0)
    | _, left, _ => left
  negate word := .ofNat (if word.toNat = 0 then 1 else 0)
  isTrue word := word.toNat ≠ 0
  selector := .ofNat 0
  argument index := .ofNat (arguments.getD index 0)
  isTrue_negate word := by
    by_cases h : word.toNat = 0 <;> simp [h, Word.toNat_ofNat]

/-- Executes code for at most this many steps; the outcome, if it stops by then. -/
def run (world : World) (code : List UInt8) : ℕ → State → Option Outcome
  | 0, _ => none
  | fuel + 1, state =>
    match step world world.isTrue code state with
    | some (.running next) => run world code fuel next
    | some (.stopped outcome) => some outcome
    | none => none

/-- An execution that stops does so however many more steps it is given. -/
theorem run_mono {world : World} {code : List UInt8} {fuel more : ℕ} {state : State}
    {outcome : Outcome} (h : run world code fuel state = some outcome) (le : fuel ≤ more) :
    run world code more state = some outcome := by
  induction fuel generalizing more state with
  | zero => simp [run] at h
  | succ fuel ih =>
      obtain ⟨more, rfl⟩ : ∃ n, more = n + 1 := ⟨more - 1, by omega⟩
      rw [run] at h ⊢
      split at h
      · rename_i next stepped
        exact ih h (by omega)
      · exact h
      · cases h

/-! ### Paths -/

/-- What a step does to memory. -/
inductive Access where
  | load (size offset : Word)
  | store (size offset : Word)
  deriving DecidableEq

/-- The accesses of an operation on a stack. -/
def Opcode.accesses : Opcode → List Word → List Access
  | mload, offset :: size :: _ => [.load size offset]
  | mstore, offset :: size :: _ :: _ => [.store size offset]
  | _, _ => []

/-- The accesses of the instruction at the position of a state. -/
def accesses (code : List UInt8) (state : State) : List Access :=
  match Bytecode.decodeAt code state.position with
  | .ok instruction => instruction.opcode.accesses state.stack
  | .error _ => []

/-- The steps that conditional jumps have no say in. -/
def Forced (world : World) (code : List UInt8) (state next : State) : Prop :=
  ∀ taken, step world taken code state = some (.running next)

/-- The steps of an execution, which decides conditional jumps as the world does. -/
def Decided (world : World) (code : List UInt8) (state next : State) : Prop :=
  step world world.isTrue code state = some (.running next)

/-- The steps of a path, which may decide every conditional jump either way. -/
def Free (world : World) (code : List UInt8) (state next : State) : Prop :=
  ∃ taken, step world taken code state = some (.running next)

/-- A sequence of moves from one state to another, with the accesses on the way. -/
inductive Path (moves : State → State → Prop) (code : List UInt8) :
    State → List Access → State → Prop
  | refl (state : State) : Path moves code state [] state
  | head {first next last : State} {trace : List Access} (move : moves first next)
      (rest : Path moves code next trace last) :
      Path moves code first (accesses code first ++ trace) last

namespace Path

variable {moves more : State → State → Prop} {code : List UInt8}

theorem single {first next : State} (move : moves first next) :
    Path moves code first (accesses code first) next := by
  have path := Path.head move (@Path.refl moves code next)
  rwa [List.append_nil] at path

theorem trans {first middle last : State} {trace rest : List Access}
    (front : Path moves code first trace middle) (back : Path moves code middle rest last) :
    Path moves code first (trace ++ rest) last := by
  induction front with
  | refl => exact back
  | head move _ ih =>
      rw [List.append_assoc]
      exact Path.head move (ih back)

theorem mono (weaker : ∀ s t, moves s t → more s t) {first last : State} {trace : List Access}
    (path : Path moves code first trace last) : Path more code first trace last := by
  induction path with
  | refl => exact Path.refl _
  | head move _ ih => exact Path.head (weaker _ _ move) ih

variable {world : World} {first last : State} {trace : List Access}

/-- Steps that conditional jumps have no say in are steps of an execution. -/
theorem decided (path : Path (Forced world code) code first trace last) :
    Path (Decided world code) code first trace last :=
  path.mono fun _ _ move => move world.isTrue

/-- Steps that conditional jumps have no say in are steps of a path. -/
theorem free (path : Path (Forced world code) code first trace last) :
    Path (Free world code) code first trace last :=
  path.mono fun _ _ move => ⟨world.isTrue, move world.isTrue⟩

end Path

/-- **A path that decides as the world does is an execution.** -/
theorem run_of_path {world : World} {code : List UInt8} {first last : State}
    {trace : List Access} {outcome : Outcome}
    (path : Path (Decided world code) code first trace last)
    (stop : step world world.isTrue code last = some (.stopped outcome)) :
    ∃ fuel, run world code fuel first = some outcome := by
  induction path with
  | refl => exact ⟨1, by simp [run, stop]⟩
  | head move _ ih =>
      obtain ⟨fuel, ran⟩ := ih stop
      exact ⟨fuel + 1, by rw [run, move]; exact ran⟩

end Covenant.Machine
