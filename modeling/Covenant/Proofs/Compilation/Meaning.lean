/-
**Compiling preserves meaning.**

Executing the code of a function and evaluating its text come to the same.  While the code of a
block is executed, memory seen through the memory map *is* the store of the evaluation: a definition
takes a slot that no other name has, so writing it binds the one name.  This is why no branch may
hold a declaration.  The memory map is the same behind both branches, but a slot that only one of
them takes would not be written on the other way.

Main definitions:

* `Covenant.Statement.Meets` — an execution comes to what the evaluation comes to.

Main results:

* `Statement.Block.simulates` — the code of a block meets its evaluation;
* `FunctionDecl.Code.simulates` — the same for the code of a function, wherever it stands;
* `Compilation.run_ofFunction_eq_eval` — **a function that compiles is evaluated, and executing its
  bytecode stops with the outcome of the evaluation**.
-/

import Covenant.Proofs.Emission.Execution

set_option relaxedAutoImplicit false
set_option autoImplicit false

namespace Covenant

open Machine
open Emission (Item)

variable {world : World} {code : Assembly} {position : ℕ} {items : List Item}
variable {stack : List Word} {slots : ℕ → Word}

/-- A block is entered if its condition is true. -/
theorem Expression.Code.path_decision {memory : MemoryMap} {value : Expression}
    {destination : ℕ} {note mark : String} {more rest : List Item} (test : Code memory value items)
    (holds : code.Holds position (items ++ (Item.skip destination note ++ more)))
    (target : code.Holds destination (.noted .jumpDst mark :: rest)) (sound : code.Sound)
    (memory_sound : memory.Sound) (bound : memory.cursor ≤ 2 ^ 64) (stack : List Word)
    (slots : ℕ → Word) :
    ∃ word trace, value.eval world (memory.view slots) = some word ∧
      Path (Decided world code.bytes) code.bytes ⟨position, stack, slots⟩ trace
        ⟨if world.isTrue word then position + Item.totalSize items + 11 else destination, stack,
          slots⟩ := by
  obtain ⟨word, jump, evaluated, path, -, decide⟩ :=
    test.path_test holds target sound memory_sound bound stack
  refine ⟨word, _, evaluated, path.decided.trans (Path.single ?_)⟩
  rw [Decided, decide, world.isTrue_negate]
  cases world.isTrue word <;> rfl

namespace Statement

/-- An execution comes to what the evaluation of a block comes to: it arrives behind the block,
where memory is the store, or it stops with the outcome. -/
inductive Meets (world : World) (code : Assembly) (memory : MemoryMap) (stop : ℕ)
    (stack : List Word) (state : State) : Ending → Prop
  | running {slots : ℕ → Word} {trace : List Access}
      (path : Path (Decided world code.bytes) code.bytes state trace ⟨stop, stack, slots⟩) :
      Meets world code memory stop stack state (.running (memory.view slots))
  | stopped {final : State} {trace : List Access} {outcome : Outcome}
      (path : Path (Decided world code.bytes) code.bytes state trace final)
      (stops : step world world.isTrue code.bytes final = some (.stopped outcome)) :
      Meets world code memory stop stack state (.stopped outcome)

namespace Meets

variable {memory : MemoryMap} {stop : ℕ} {state next : State} {ending : Ending}

/-- What is executed before. -/
theorem after {trace : List Access} (meets : Meets world code memory stop stack next ending)
    (front : Path (Decided world code.bytes) code.bytes state trace next) :
    Meets world code memory stop stack state ending := by
  cases meets with
  | running path => exact running (front.trans path)
  | stopped path stops => exact stopped (front.trans path) stops

/-- What is executed behind the block. -/
theorem before {target : ℕ} (meets : Meets world code memory stop stack state ending)
    (back : ∀ slots, ∃ trace, Path (Decided world code.bytes) code.bytes
      ⟨stop, stack, slots⟩ trace ⟨target, stack, slots⟩) :
    Meets world code memory target stack state ending := by
  cases meets with
  | @running slots _ path =>
      obtain ⟨trace, more⟩ := back slots
      exact running (path.trans more)
  | stopped path stops => exact stopped path stops

end Meets

/-- The code of a block meets its evaluation. -/
theorem Block.simulates {memory last : MemoryMap} {statements : List Statement}
    (block : Block position memory statements items last) (holds : code.Holds position items)
    (sound : code.Sound) (memory_sound : memory.Sound) (bound : memory.cursor ≤ position)
    (flat : ∀ statement ∈ statements, statement.branchesDeclareNothing) (slots : ℕ → Word) :
    ∃ ending, execAll world (memory.view slots) statements = some ending ∧
      Meets world code last (position + Item.totalSize items) stack ⟨position, stack, slots⟩
        ending := by
  have fits := sound.addressable
  rw [Assembly.Addressable] at fits
  have room := holds.stop_le
  -- on the code of the block; the cursor keeps below the position, so every offset fits a word
  induction block generalizing slots with
  | nil => exact ⟨_, rfl, Meets.running (.refl _)⟩
  | cons head tail ihHead ihTail =>
      rw [List.forall_mem_cons] at flat
      have grown := head.cursor_stop
      obtain ⟨ending, evaluated, meets⟩ :=
        ihHead holds.left memory_sound bound (by simpa using flat.1) slots holds.left.stop_le
      cases meets with
      | @running between _ path =>
          obtain ⟨final, rest, more⟩ := ihTail holds.right (head.sound memory_sound) (by omega)
            flat.2 between holds.right.stop_le
          refine ⟨final, by rw [execAll_cons_of_running evaluated, rest], ?_⟩
          rw [Item.totalSize_append, ← Nat.add_assoc]
          exact more.after path
      | stopped path stops =>
          exact ⟨_, execAll_cons_of_stopped evaluated, Meets.stopped path stops⟩
  | declare value =>
      obtain ⟨word, evaluated, path⟩ := value.path_declare holds sound memory_sound bound stack
      refine ⟨_, by rw [execAll_singleton, exec, evaluated]; rfl, ?_⟩
      rw [← MemoryMap.view_define memory_sound]
      exact Meets.running path.decided
  | assign value found =>
      obtain ⟨word, evaluated, path⟩ :=
        value.path_assign found holds sound memory_sound (by omega) stack
      refine ⟨_, by rw [execAll_singleton, exec, evaluated]; rfl, ?_⟩
      rw [← MemoryMap.view_update memory_sound found]
      exact Meets.running path.decided
  | returnValue value =>
      obtain ⟨word, evaluated, path⟩ := value.path holds.left sound memory_sound (by omega) stack
      refine ⟨_, by rw [execAll_singleton, exec, evaluated]; rfl, ?_⟩
      exact Meets.stopped path.decided (step_plain holds.right rfl sound _)
  | returnNothing =>
      refine ⟨_, by rw [execAll_singleton, exec]; rfl, ?_⟩
      exact Meets.stopped (.refl _) (step_plain holds rfl sound _)
  | expression value =>
      obtain ⟨word, evaluated, path⟩ :=
        value.path_drop holds sound memory_sound (by omega) stack
      refine ⟨_, by rw [execAll_singleton, exec, evaluated]; rfl, ?_⟩
      exact Meets.running path.decided
  | ifThen test start_eq inner stop_eq ih =>
      rw [List.forall_mem_singleton, branchesDeclareNothing, List.isEmpty_iff] at flat
      -- the branch declares nothing, so whether it runs or not, names keep their slots behind it
      obtain rfl := inner.eq_of_declared_eq_nil flat
      subst start_eq stop_eq
      obtain ⟨entry, mark⟩ := holds.ifThen
      simp only [Item.totalSize_append, Item.totalSize_skip, ← Nat.add_assoc]
      obtain ⟨word, _, evaluated, decision⟩ :=
        test.path_decision holds mark sound memory_sound (by omega) stack slots
      rw [execAll_singleton, exec, evaluated]
      cases truth : world.isTrue word with
      | true =>
          obtain ⟨ending, ran, meets⟩ := ih entry memory_sound (by omega)
            (branchesDeclareNothing_of_mem flat) slots entry.stop_le
          rw [truth] at decision
          refine ⟨ending, by simpa [truth] using ran, ?_⟩
          exact (meets.before fun _ => ⟨_, (path_mark mark sound).decided⟩).after decision
      | false =>
          rw [truth] at decision
          refine ⟨_, by simp [truth]; rfl, ?_⟩
          exact Meets.running (decision.trans (path_mark mark sound).decided)
  | ifElse test start_eq inner otherwise_eq outer stop_eq ihInner ihOuter =>
      rw [List.forall_mem_singleton, branchesDeclareNothing, Bool.and_eq_true, List.isEmpty_iff,
        List.isEmpty_iff] at flat
      obtain rfl := inner.eq_of_declared_eq_nil flat.1
      obtain rfl := outer.eq_of_declared_eq_nil flat.2
      subst start_eq otherwise_eq stop_eq
      obtain ⟨entry, leave, mark, other, last⟩ := holds.ifElse
      simp only [Item.totalSize_append, Item.totalSize_cons, Item.totalSize_skip,
        Item.totalSize_leave, ← Nat.add_assoc]
      obtain ⟨word, _, evaluated, decision⟩ :=
        test.path_decision holds mark sound memory_sound (by omega) stack slots
      rw [execAll_singleton, exec, evaluated]
      cases truth : world.isTrue word with
      | true =>
          obtain ⟨ending, ran, meets⟩ := ihInner entry memory_sound (by omega)
            (branchesDeclareNothing_of_mem flat.1) slots entry.stop_le
          rw [truth] at decision
          refine ⟨ending, by simpa [truth] using ran, ?_⟩
          exact (meets.before fun _ =>
            ⟨_, ((path_leave leave last sound).trans (path_mark last sound)).decided⟩).after
              decision
      | false =>
          obtain ⟨ending, ran, meets⟩ := ihOuter other memory_sound (by omega)
            (branchesDeclareNothing_of_mem flat.2) slots other.stop_le
          rw [truth] at decision
          refine ⟨ending, by simpa [truth] using ran, ?_⟩
          have start := decision.trans (path_mark mark sound).decided
          exact (meets.before fun _ => ⟨_, (path_mark last sound).decided⟩).after start

end Statement

/-! ### Functions -/

/-- The code of a function meets its evaluation, wherever it stands. -/
theorem FunctionDecl.Code.simulates {function : FunctionDecl} {memory : MemoryMap}
    (function_code : function.Code position items memory) (holds : code.Holds position items)
    (sound : code.Sound) (flat : function.branchesDeclareNothing) (slots : ℕ → Word) :
    ∃ outcome fuel, function.eval world = some outcome ∧
      run world code.bytes fuel ⟨position, stack, slots⟩ = some outcome := by
  obtain ⟨parameters, start_eq, block⟩ := function_code
  subst start_eq
  have room := parameters.cursor_stop
  rw [MemoryMap.cursor_empty] at room
  have start := parameters.sound MemoryMap.sound_empty
  have entry : Path (Forced world code.bytes) code.bytes ⟨position, stack, slots⟩ []
      ⟨position + 1, stack, slots⟩ := path_mark holds sound
  obtain ⟨arguments, view, copy⟩ := parameters.path holds.tail.left sound MemoryMap.sound_empty
    (Nat.zero_le _) (Nat.zero_le _) world stack slots
  obtain ⟨ending, ran, meets⟩ := block.simulates holds.tail.right.left sound start
    (by omega) (List.all_eq_true.1 flat) arguments
  rw [view] at ran
  cases meets with
  | running path =>
      obtain ⟨fuel, stops⟩ := run_of_path (entry.decided.trans (copy.decided.trans path))
        (step_plain holds.tail.right.right rfl sound _)
      exact ⟨.exited, fuel, by rw [eval, ← MemoryMap.view_empty, ran]; rfl, stops⟩
  | stopped path stop =>
      obtain ⟨fuel, stops⟩ := run_of_path (entry.decided.trans (copy.decided.trans path)) stop
      exact ⟨_, fuel, by rw [eval, ← MemoryMap.view_empty, ran]; rfl, stops⟩

namespace Compilation

/-- **A function that compiles is evaluated, and executing its bytecode stops with the outcome of
the evaluation**, whatever the world and the memory are, if none of its branches holds a
declaration. -/
theorem run_ofFunction_eq_eval {function : FunctionDecl} {compilation : Compilation}
    (compiled : ofFunction function = .ok compilation) (fits : compilation.code.Addressable)
    (flat : function.branchesDeclareNothing) (world : World) (memory : ℕ → Word) :
    ∃ outcome fuel, function.eval world = some outcome ∧
      ∀ more ≥ fuel, run world compilation.code.bytes more ⟨0, [], memory⟩ = some outcome := by
  have sound : compilation.code.Sound := ⟨wellFormed_ofFunction compiled, fits⟩
  obtain ⟨items, map, emitted, rfl⟩ := ofFunction_eq_ok_iff.1 compiled
  have function_code := FunctionDecl.code_of_yields emitted
  obtain ⟨outcome, fuel, evaluated, ran⟩ :=
    function_code.simulates (Assembly.Holds.whole rfl) sound flat memory
  exact ⟨outcome, fuel, evaluated, fun more le => run_mono ran le⟩

/-- `func least(a int, b int) int { if a < b { b = a } return b }` -/
def least : FunctionDecl where
  name := "least"
  parameters := [⟨"a", .int⟩, ⟨"b", .int⟩]
  returns := some .int
  body :=
    [.ifThen (.binary (.identifier "a") .less (.identifier "b")) [.assign "b" (.identifier "a")],
      .return (some (.identifier "b"))]

/-- Executing the bytecode of `least` returns the smaller argument. -/
theorem run_ofFunction_least : ∃ compilation fuel, ofFunction least = .ok compilation ∧
    compilation.code.Addressable ∧ least.branchesDeclareNothing = true ∧
    least.eval (.unsigned [3, 5]) = some (.returned (.ofNat 3)) ∧
    ∀ more ≥ fuel, run (.unsigned [3, 5]) compilation.code.bytes more ⟨0, [], fun _ => .ofNat 9⟩ =
      some (.returned (.ofNat 3)) := by
  obtain ⟨compilation, compiled, fits⟩ : ∃ compilation, ofFunction least = .ok compilation ∧
      compilation.code.position ≤ 2 ^ 64 := ⟨_, rfl, by decide⟩
  have evaluated : least.eval (.unsigned [3, 5]) = some (.returned (.ofNat 3)) := by rfl
  obtain ⟨outcome, fuel, same, ran⟩ :=
    run_ofFunction_eq_eval compiled fits rfl (.unsigned [3, 5]) fun _ => .ofNat 9
  rw [evaluated] at same
  cases same
  exact ⟨compilation, fuel, compiled, fits, rfl, evaluated, ran⟩

end Compilation

end Covenant
