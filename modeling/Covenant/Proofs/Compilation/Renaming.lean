/-
**Names do not show in bytecode.**

Compiling looks at names in two ways only: it asks whether two of them are equal, and it writes them
into notes, faults and remarks.  A contract with other names is therefore compiled exactly if the
contract is, and to the same instructions.  Two emissions are followed side by side, under memory
maps in which a name and its new name stand for the same slot; what they emit has the same
instructions, so that it has the same size and all destinations are the same as well.

Main definitions:

* `Covenant.MemoryMap.Mirrors` — names and their new names stand for the same slots;
* `Covenant.Emission.Mirrors` — two emissions with the same instructions, both of which succeed or
  none of which does.

Main results:

* `Emission.Mirrors.bind` — sequences mirror each other if their steps do;
* `Statement.RenamesAll.mirrors`, `FunctionDecl.Renames.mirrors` — **what is emitted for statements
  and functions with other names has the same instructions**;
* `Compilation.ofContract_renames` — **a contract with other names and types is compiled exactly if
  the contract is, to the same bytecode, labels and sizes of memory**.
-/

import Covenant.Proofs.Compilation.Verdict
import Covenant.Proofs.Contract.Renaming

set_option relaxedAutoImplicit false
set_option autoImplicit false

namespace Covenant

open Machine
open Emission (Item)

/-! ### Memory maps side by side -/

/-- Of some names each stands for the slot that its new name stands for in the other memory map, and
as much memory is taken. -/
structure MemoryMap.Mirrors (name : String → String) (names : List String)
    (memory other : MemoryMap) : Prop where
  cursor : other.cursor = memory.cursor
  slot? : ∀ old ∈ names, other.slot? (name old) = memory.slot? old

namespace MemoryMap.Mirrors

variable {name : String → String} {names : List String} {memory other : MemoryMap} {old : String}

theorem empty (name : String → String) (names : List String) :
    Mirrors name names MemoryMap.empty MemoryMap.empty :=
  ⟨rfl, fun _ _ => rfl⟩

theorem next (mirrors : Mirrors name names memory other) : other.next = memory.next := by
  rw [MemoryMap.next, MemoryMap.next, mirrors.cursor]

theorem isDefined (mirrors : Mirrors name names memory other) (mem : old ∈ names) :
    other.isDefined (name old) = memory.isDefined old := by
  rw [MemoryMap.isDefined, MemoryMap.isDefined, mirrors.slot? old mem]

/-- Different names have different new names, so that a definition hides the same ones. -/
theorem define (mirrors : Mirrors name names memory other)
    (apart : Set.InjOn name {old | old ∈ names}) (mem : old ∈ names) :
    Mirrors name names (memory.define old) (other.define (name old)) where
  cursor := by rw [cursor_define, cursor_define, mirrors.cursor]
  slot? := by
    intro older known
    rw [slot?_define, slot?_define, mirrors.next, mirrors.slot? older known]
    by_cases same : older = old
    · rw [if_pos same, if_pos (congrArg name same)]
    · rw [if_neg same, if_neg fun equal => same (apart known mem equal)]

end MemoryMap.Mirrors

/-! ### Emissions side by side -/

/-- The bytecode is that of the instructions. -/
theorem Assembly.bytes_eq {code other : Assembly} (same : other.instructions = code.instructions) :
    other.bytes = code.bytes := by
  have bytes : ∀ code : Assembly, code.bytes = code.instructions.flatMap Instruction.bytes := by
    intro code
    rw [bytes, instructions, List.flatMap_map]
  rw [bytes, bytes, same]

namespace Emission

/-- Both are results, which are related, or both are faults. -/
inductive Agree {α β : Type} (related : α → β → Prop) :
    Except CompileError α → Except CompileError β → Prop where
  | ok {a : α} {b : β} (both : related a b) : Agree related (.ok a) (.ok b)
  | error (fault other : CompileError) : Agree related (.error fault) (.error other)

/-- Two emissions with the same instructions, the results of which agree. -/
structure Mirrors {α β : Type} (related : α → β → Prop) (first : Emission α)
    (second : Emission β) : Prop where
  instructions : Item.instructions second.items = Item.instructions first.items
  result : Agree related first.result second.result

namespace Mirrors

variable {α β γ δ : Type} {related : α → β → Prop} {behind : γ → δ → Prop}
  {first : Emission α} {second : Emission β}

/-- The same instructions have the same size. -/
theorem size_eq (mirrors : Mirrors related first second) : second.size = first.size := by
  rw [size, size, ← Item.size_instructions, ← Item.size_instructions, mirrors.instructions]

theorem pure {a : α} {b : β} (both : related a b) :
    Mirrors related (Pure.pure a : Emission α) (Pure.pure b : Emission β) :=
  ⟨rfl, .ok both⟩

/-- Sequences mirror each other if their steps do. -/
theorem bind {next : α → Emission γ} {other : β → Emission δ}
    (mirrors : Mirrors related first second)
    (step : ∀ a b, related a b → Mirrors behind (next a) (other b)) :
    Mirrors behind (first >>= next) (second >>= other) := by
  obtain ⟨items, result⟩ := first
  obtain ⟨items', result'⟩ := second
  obtain ⟨same, agree⟩ := mirrors
  cases agree with
  | @ok a b both =>
      obtain ⟨more, last⟩ := step a b both
      refine ⟨?_, last⟩
      simp only [Bind.bind, Item.instructions_append]
      exact congrArg₂ _ same more
  | error fault fault' => exact ⟨same, .error fault fault'⟩

theorem emit {item item' : Item} (same : Item.instructions [item'] = Item.instructions [item]) :
    Mirrors (fun _ _ => True) (Emission.emit item) (Emission.emit item') :=
  ⟨same, .ok trivial⟩

/-- An item that cannot fail, before others. -/
theorem emit_bind {item item' : Item} {next : Unit → Emission γ} {other : Unit → Emission δ}
    (same : Item.instructions [item'] = Item.instructions [item])
    (step : Mirrors behind (next ()) (other ())) :
    Mirrors behind (Emission.emit item >>= next) (Emission.emit item' >>= other) :=
  (emit same).bind fun _ _ _ => step

/-- Of two emissions that mirror each other, one succeeds exactly if the other does. -/
theorem exists_yields_iff (mirrors : Mirrors related first second) :
    (∃ items b, second.Yields items b) ↔ ∃ items a, first.Yields items a := by
  obtain ⟨items, result⟩ := first
  obtain ⟨items', result'⟩ := second
  obtain ⟨-, agree⟩ := mirrors
  cases agree with
  | @ok a b _ => exact ⟨fun _ => ⟨items, a, rfl, rfl⟩, fun _ => ⟨items', b, rfl, rfl⟩⟩
  | error fault fault' => simp [Yields]

/-- What two emissions that mirror each other yield. -/
theorem of_yields {items items' : List Item} {a : α} {b : β}
    (mirrors : Mirrors related first second) (yields : first.Yields items a)
    (yields' : second.Yields items' b) :
    Item.instructions items' = Item.instructions items ∧ related a b := by
  obtain ⟨same, agree⟩ := mirrors
  rw [yields.1, yields'.1] at same
  rw [yields.2, yields'.2] at agree
  cases agree with
  | ok both => exact ⟨same, both⟩

end Mirrors

end Emission

variable {name : String → String} {names : List String} {memory other : MemoryMap}
  {statement renamed : Statement}

/-- The accesses to a slot under two names. -/
theorem Slot.mirrors_emitStore (slot : Slot) (old new : String) :
    Emission.Mirrors (fun _ _ => True) (slot.emitStore old) (slot.emitStore new) :=
  ⟨rfl, .ok trivial⟩

theorem Slot.mirrors_emitLoad (slot : Slot) (old new : String) :
    Emission.Mirrors (fun _ _ => True) (slot.emitLoad old) (slot.emitLoad new) :=
  ⟨rfl, .ok trivial⟩

/-- A name is resolved exactly if its new name is, and to the same slot. -/
theorem MemoryMap.Mirrors.resolve (mirrors : Mirrors name names memory other) {old : String}
    (mem : old ∈ names) :
    Emission.Mirrors Eq (memory.resolve statement old) (other.resolve renamed (name old)) := by
  rw [MemoryMap.resolve, MemoryMap.resolve, find, find, mirrors.slot? old mem]
  cases memory.slot? old with
  | none => exact ⟨rfl, .error _ _⟩
  | some slot => exact .pure rfl

/-! ### Expressions -/

namespace Expression

theorem mirrors_pushLiteral (literal : Operand) : Emission.Mirrors (fun _ _ => True)
    (statement.pushLiteral literal) (renamed.pushLiteral literal) := by
  rw [Statement.pushLiteral, Statement.pushLiteral]
  cases literal.encode with
  | ok word => exact ⟨rfl, .ok trivial⟩
  | error fault => exact ⟨rfl, .error _ _⟩

theorem mirrors_emitOpcodes (opcodes : List Opcode) :
    Emission.Mirrors (fun _ _ => True) (emitOpcodes opcodes) (emitOpcodes opcodes) := by
  refine ⟨rfl, ?_⟩
  rw [result_emitOpcodes]
  exact .ok trivial

/-- **An expression with other names has the same instructions.** -/
theorem mirrors_rename (value : Expression) (statement renamed : Statement)
    (mirrors : memory.Mirrors name names other) (known : value.names ⊆ names) :
    Emission.Mirrors (fun _ _ => True)
      (value.emit memory statement) ((value.rename name).emit other renamed) := by
  induction value with
  | integer value => exact mirrors_pushLiteral _
  | boolean value => exact mirrors_pushLiteral _
  | text value => exact mirrors_pushLiteral _
  | identifier old =>
      rw [rename, emit, emit]
      refine (mirrors.resolve (known (by simp [Expression.names]))).bind ?_
      rintro slot _ rfl
      exact slot.mirrors_emitLoad _ _
  | unary op right ih =>
      have inner := ih known
      cases op with
      | not =>
          rw [rename, emit, emit]
          exact inner.bind fun _ _ _ => .emit rfl
      | minus =>
          rw [rename, emit, emit]
          exact .emit_bind rfl (inner.bind fun _ _ _ => .emit rfl)
  | binary left op right ihLeft ihRight =>
      rw [Expression.names, List.append_subset] at known
      rw [rename, emit, emit]
      exact (ihLeft known.1).bind fun _ _ _ => (ihRight known.2).bind fun _ _ _ =>
        mirrors_emitOpcodes _

end Expression

/-! ### Statements -/

namespace Statement

mutual

/-- A statement with other names has the same instructions, and what is defined behind it is the
same. -/
theorem Renames.mirrors {name : String → String} {names : List String}
    {statement renamed : Statement} {memory mirror : MemoryMap}
    (apart : Set.InjOn name {old | old ∈ names}) (renames : statement.Renames name renamed)
    (position : ℕ) (mirrors : memory.Mirrors name names mirror)
    (known : statement.identifiers ⊆ names) :
    Emission.Mirrors (MemoryMap.Mirrors name names) (statement.emit position memory)
      (renamed.emit position mirror) := by
  cases renames with
  | declare type new old value =>
      rw [identifiers, List.append_subset] at known
      have mem : old ∈ names := known.2 (.head _)
      rw [emit, emit]
      refine (value.mirrors_rename _ _ mirrors known.1).bind fun _ _ _ => ?_
      have store : Emission.Mirrors (MemoryMap.Mirrors name names)
          (memory.next.emitStore old >>= fun _ => Pure.pure (memory.define old))
          (mirror.next.emitStore (name old) >>= fun _ => Pure.pure (mirror.define (name old))) := by
        rw [mirrors.next]
        exact (memory.next.mirrors_emitStore _ _).bind fun _ _ _ =>
          .pure (mirrors.define apart mem)
      rw [mirrors.isDefined mem]
      split
      · exact .emit_bind rfl store
      · exact store
  | assign old value =>
      rw [identifiers, List.append_subset] at known
      rw [emit, emit]
      refine (value.mirrors_rename _ _ mirrors known.1).bind fun _ _ _ => ?_
      refine (mirrors.resolve (known.2 (.head _))).bind ?_
      rintro slot _ rfl
      exact (slot.mirrors_emitStore _ _).bind fun _ _ _ => .pure mirrors
  | returnNothing =>
      rw [emit, emit]
      exact .emit_bind rfl (.pure mirrors)
  | returnValue value =>
      rw [emit, emit]
      exact (value.mirrors_rename _ _ mirrors known).bind fun _ _ _ =>
        .emit_bind rfl (.pure mirrors)
  | expression value =>
      rw [emit, emit]
      exact (value.mirrors_rename _ _ mirrors known).bind fun _ _ _ =>
        .emit_bind rfl (.pure mirrors)
  | @ifThen condition consequence block inner =>
      rw [identifiers, List.append_subset] at known
      have test := condition.mirrors_rename (.ifThen condition consequence)
        (.ifThen (condition.rename name) block) mirrors known.1
      have first := fun start => inner.mirrors apart start mirrors known.2
      rw [emit, emit]
      simp only [test.size_eq, (first _).size_eq]
      refine test.bind fun _ _ _ => .emit_bind rfl (.emit_bind rfl (.emit_bind rfl ?_))
      exact (first _).bind fun _ _ both => .emit_bind rfl (.pure both)
  | @ifElse condition consequence block alternative other inner outer =>
      rw [identifiers, List.append_subset, List.append_subset] at known
      have test := condition.mirrors_rename (.ifElse condition consequence alternative)
        (.ifElse (condition.rename name) block other) mirrors known.1
      have first := fun start => inner.mirrors apart start mirrors known.2.1
      rw [emit, emit]
      simp only [test.size_eq, (first _).size_eq]
      refine test.bind fun _ _ _ => .emit_bind rfl (.emit_bind rfl (.emit_bind rfl ?_))
      refine (first _).bind fun middle middle' both => ?_
      have behind := fun start => outer.mirrors apart start both known.2.2
      simp only [(behind _).size_eq]
      refine .emit_bind rfl (.emit_bind rfl (.emit_bind rfl ?_))
      exact (behind _).bind fun _ _ last => .emit_bind rfl (.pure last)

/-- **Statements with other names have the same instructions**, and what is defined behind them is
the same. -/
theorem RenamesAll.mirrors {name : String → String} {names : List String}
    {statements others : List Statement} {memory mirror : MemoryMap}
    (apart : Set.InjOn name {old | old ∈ names}) (renames : RenamesAll name statements others)
    (position : ℕ) (mirrors : memory.Mirrors name names mirror)
    (known : identifiersAll statements ⊆ names) :
    Emission.Mirrors (MemoryMap.Mirrors name names) (emitAll position memory statements)
      (emitAll position mirror others) := by
  cases renames with
  | nil => exact .pure mirrors
  | cons first more =>
      rw [identifiersAll, List.append_subset] at known
      have head := first.mirrors apart position mirrors known.1
      rw [emitAll, emitAll]
      simp only [head.size_eq]
      exact head.bind fun _ _ both => more.mirrors apart _ both known.2

end

end Statement

/-! ### Functions -/

/-- Parameters with other names are copied by the same instructions, to the same slots. -/
theorem Parameter.mirrors_emitAll {parameters others : List Parameter} (index : ℕ)
    (apart : Set.InjOn name {old | old ∈ names})
    (renames : others.map Parameter.name = parameters.map fun parameter => name parameter.name)
    (mirrors : memory.Mirrors name names other) (known : parameters.map Parameter.name ⊆ names) :
    Emission.Mirrors (MemoryMap.Mirrors name names) (emitAll index memory parameters)
      (emitAll index other others) := by
  induction parameters generalizing others index memory other with
  | nil =>
      obtain rfl := List.map_eq_nil_iff.1 renames
      exact .pure mirrors
  | cons parameter rest ih =>
      obtain ⟨first, more, rfl, same, renames⟩ := List.map_eq_cons_iff.1 renames
      have mem : parameter.name ∈ names := known (.head _)
      have defined := mirrors.define apart mem
      rw [emitAll, emitAll, mirrors.next, same]
      refine .emit_bind rfl (.emit_bind rfl ?_)
      refine (memory.next.mirrors_emitStore _ _).bind fun _ _ _ => ?_
      exact ih (index + 1) renames defined fun old mem => known (.tail _ mem)

namespace FunctionDecl

/-- **A function with other names has the same instructions**, and takes as much memory. -/
theorem Renames.mirrors {function renamed : FunctionDecl}
    (apart : Set.InjOn name {old | old ∈ function.identifiers})
    (renames : function.Renames name renamed) (position : ℕ) :
    Emission.Mirrors (MemoryMap.Mirrors name function.identifiers) (function.emit position)
      (renamed.emit position) := by
  have parameters := Parameter.mirrors_emitAll 0 apart renames.parameters (.empty _ _)
    (List.subset_append_left _ _)
  rw [emit, emit]
  simp only [parameters.size_eq]
  refine .emit_bind rfl (parameters.bind fun _ _ both => ?_)
  refine (renames.body.mirrors apart _ both (List.subset_append_right _ _)).bind ?_
  intro memory other last
  exact .emit_bind rfl (.emit_bind rfl (.pure last))

/-- Functions with other names have the same instructions, begin at the same places and take as much
memory each. -/
theorem mirrors_emitAll {functions others : List FunctionDecl}
    (renames : List.Forall₂ (fun function renamed => ∃ inner,
      Set.InjOn inner {old | old ∈ function.identifiers} ∧ function.Renames inner renamed)
      functions others) (position : ℕ) :
    entries position others = entries position functions ∧
      Emission.Mirrors
        (fun memories mirrors => mirrors.map MemoryMap.cursor = memories.map MemoryMap.cursor)
        (emitAll position functions) (emitAll position others) := by
  induction renames generalizing position with
  | nil => exact ⟨rfl, .pure rfl⟩
  | @cons function renamed rest others first _ ih =>
      obtain ⟨inner, apart, renames⟩ := first
      have head := renames.mirrors apart position
      obtain ⟨places, tail⟩ := ih (position + (function.emit position).size)
      rw [entries, entries, emitAll, emitAll, head.size_eq, places]
      refine ⟨rfl, head.bind fun memory mirror both => tail.bind fun memories mirrors same => ?_⟩
      exact .pure (by rw [List.map_cons, List.map_cons, both.cursor, same])

end FunctionDecl

/-! ### Contracts -/

namespace Contract

/-- A dispatcher that compares the same selectors and jumps to the same entries has the same
instructions. -/
theorem mirrors_emitDispatch {labels others : List (String × ℕ)} (selector : ℕ)
    (same : others.map Prod.snd = labels.map Prod.snd) :
    Emission.Mirrors (fun _ _ => True) (emitDispatch selector labels)
      (emitDispatch selector others) := by
  induction labels generalizing others selector with
  | nil =>
      obtain rfl := List.map_eq_nil_iff.1 same
      exact .emit rfl
  | cons label rest ih =>
      obtain ⟨other, more, rfl, entry, same⟩ := List.map_eq_cons_iff.1 same
      rw [emitDispatch, emitDispatch, entry]
      refine .emit_bind rfl (.emit_bind rfl (.emit_bind rfl (.emit_bind rfl ?_)))
      exact .emit_bind rfl (ih (selector + 1) same)

/-- The names of functions differ from each other exactly if their new names do. -/
theorem Renames.nodup_iff {contract other : Contract} (renames : contract.Renames name other) :
    (other.functions.map FunctionDecl.name).Nodup ↔
      (contract.functions.map FunctionDecl.name).Nodup := by
  have names : other.functions.map FunctionDecl.name =
      (contract.functions.map FunctionDecl.name).map name := by
    rw [List.map_map, eq_comm, ← List.forall₂_eq_eq_eq, List.forall₂_map_left_iff,
      List.forall₂_map_right_iff]
    exact renames.functions.imp fun _ _ both => both.1.symm
  rw [names]
  constructor
  · intro nodup
    exact nodup.of_map
  · intro nodup
    exact nodup.map_on fun old mem new mem' same => renames.apart mem mem' same

/-- **A contract with other names has the same instructions and labels.** -/
theorem Renames.mirrors {contract other : Contract} (renames : contract.Renames name other) :
    other.labels.map Prod.snd = contract.labels.map Prod.snd ∧
      Emission.Mirrors
        (fun memories mirrors => mirrors.map MemoryMap.cursor = memories.map MemoryMap.cursor)
        contract.emit other.emit := by
  have length : other.functions.length = contract.functions.length :=
    renames.functions.length_eq.symm
  have start : other.bodyPosition = contract.bodyPosition := by
    rw [bodyPosition, bodyPosition, length]
  obtain ⟨places, functions⟩ := FunctionDecl.mirrors_emitAll
    (renames.functions.imp fun _ _ both => both.2) contract.bodyPosition
  have labels : other.labels.map Prod.snd = contract.labels.map Prod.snd := by
    rw [labels_snd, labels_snd, start, places]
  refine ⟨labels, ?_⟩
  rw [emit, emit, start]
  refine (mirrors_emitDispatch 0 labels).bind fun _ _ _ => functions.bind fun _ _ same => ?_
  exact .emit_bind rfl (.pure same)

end Contract

/-! ### Compilations -/

namespace Compilation

/-- Two compilations with the same instructions and bytecode, in which functions begin at the same
places and take as much memory. -/
structure SameBytecode (first second : Compilation) : Prop where
  instructions : second.code.instructions = first.code.instructions
  bytes : second.code.bytes = first.code.bytes
  labels : second.labels.map Prod.snd = first.labels.map Prod.snd
  cursors : second.scopes.map (fun scope => scope.memory.cursor) =
    first.scopes.map fun scope => scope.memory.cursor

/-- The scopes of a compiled contract take as much memory as the memory maps that were emitted. -/
theorem cursors_zipWith {names : List String} {memories : List MemoryMap}
    (length : memories.length = names.length) :
    (List.zipWith Scope.mk names memories).map (fun scope => scope.memory.cursor) =
      memories.map MemoryMap.cursor := by
  induction names generalizing memories with
  | nil =>
      obtain rfl := List.eq_nil_of_length_eq_zero length
      rfl
  | cons name rest ih =>
      obtain ⟨memory, more, rfl⟩ := List.exists_cons_of_length_eq_add_one length
      rw [List.zipWith_cons_cons, List.map_cons, List.map_cons, ih (Nat.succ.inj length)]

/-- A compiled contract has a memory map for each function. -/
theorem cursors_ofContract {contract : Contract} {items : List Item} {memories : List MemoryMap}
    (emitted : contract.emit.Yields items memories) :
    (List.zipWith Scope.mk (contract.functions.map FunctionDecl.name) memories).map
      (fun scope => scope.memory.cursor) = memories.map MemoryMap.cursor := by
  obtain ⟨functions, bytes, codes, -⟩ := Contract.codes_of_yields emitted
  exact cursors_zipWith (by rw [codes.length_memories, List.length_map])

/-- A contract compiles if the names of its functions are different, there is a selector for each,
and all its code is emitted. -/
theorem exists_ofContract_iff {contract : Contract} :
    (∃ compilation, ofContract contract = .ok compilation) ↔
      ((contract.functions.map FunctionDecl.name).Nodup ∧
        contract.functions.length ≤ UInt32.size) ∧
          ∃ items memories, contract.emit.Yields items memories := by
  constructor
  · rintro ⟨compilation, compiled⟩
    obtain ⟨selectors, items, memories, -, emitted, -⟩ := ofContract_eq_ok_iff.1 compiled
    exact ⟨⟨(names_ofContract compiled).1, length_ofContract compiled⟩, items, memories, emitted⟩
  · rintro ⟨⟨nodup, few⟩, items, memories, emitted⟩
    obtain ⟨selectors, inserted⟩ :=
      SelectorTable.exists_insertAll nodup (by rwa [List.length_map])
    exact ⟨_, ofContract_eq_ok_iff.2 ⟨selectors, items, memories, inserted, emitted, rfl⟩⟩

/-- **Names and types do not show in bytecode**: a contract with other names and types is compiled
exactly if the contract is, and then to the same instructions, with the same labels and as much
memory for each function. -/
theorem ofContract_renames {contract other : Contract} (renames : contract.Renames name other) :
    ((∃ compilation, ofContract other = .ok compilation) ↔
      ∃ compilation, ofContract contract = .ok compilation) ∧
    ∀ compilation renamed, ofContract contract = .ok compilation →
      ofContract other = .ok renamed → compilation.SameBytecode renamed := by
  obtain ⟨labels, mirrors⟩ := renames.mirrors
  constructor
  · rw [exists_ofContract_iff, exists_ofContract_iff, renames.nodup_iff,
      ← renames.functions.length_eq, mirrors.exists_yields_iff]
  · intro compilation renamed compiled compiled'
    obtain ⟨_, items, memories, -, emitted, rfl⟩ := ofContract_eq_ok_iff.1 compiled
    obtain ⟨_, items', memories', -, emitted', rfl⟩ := ofContract_eq_ok_iff.1 compiled'
    obtain ⟨instructions, cursors⟩ := mirrors.of_yields emitted emitted'
    refine ⟨instructions, Assembly.bytes_eq instructions, labels, ?_⟩
    rw [cursors_ofContract emitted, cursors_ofContract emitted', cursors]

/-- The functions `func first(a int, b bool) int { int c = a if b { int a = c } return a }` and
`func second() { }`. -/
def shading : Contract where
  functions :=
    [{ name := "first"
       parameters := [⟨"a", .int⟩, ⟨"b", .bool⟩]
       returns := some .int
       body :=
        [.declare .int "c" (.identifier "a"),
          .ifThen (.identifier "b") [.declare .int "a" (.identifier "c")],
          .return (some (.identifier "a"))] },
      { name := "second", parameters := [], returns := none, body := [] }]

/-- The contract `shading` with the names of its functions exchanged, and those of the parameters of
the first one. -/
def shadingExchanged : Contract where
  functions :=
    [{ name := "second"
       parameters := [⟨"b", .string⟩, ⟨"a", .string⟩]
       returns := none
       body :=
        [.declare .bool "if" (.identifier "b"),
          .ifThen (.identifier "a") [.declare .string "b" (.identifier "if")],
          .return (some (.identifier "b"))] },
      { name := "first", parameters := [], returns := some .bool, body := [] }]

/-- The name of the other function in `shading`. -/
def exchanged (name : String) : String :=
  if name = "first" then "second" else "first"

/-- The name of a parameter or variable of `shading` in `shadingExchanged`. -/
def exchangedWithin (name : String) : String :=
  if name = "a" then "b" else if name = "b" then "a" else "if"

theorem shading_renames : shading.Renames exchanged shadingExchanged where
  apart := by
    have apart : ∀ old ∈ shading.functions.map FunctionDecl.name,
        ∀ new ∈ shading.functions.map FunctionDecl.name,
          exchanged old = exchanged new → old = new := by
      decide
    exact fun old mem new mem' same => apart old mem new mem' same
  functions := by
    have apart : ∀ function ∈ shading.functions, ∀ old ∈ function.identifiers,
        ∀ new ∈ function.identifiers, exchangedWithin old = exchangedWithin new → old = new := by
      decide
    have within := fun function mem old known new known' same =>
      apart function mem old known new known' same
    refine .cons ⟨rfl, exchangedWithin, within _ (.head _), rfl, ?_⟩
      (.cons ⟨rfl, exchangedWithin, within _ (.tail _ (.head _)), rfl, .nil⟩ .nil)
    exact .cons (.declare _ _ "c" (.identifier "a")) (.cons (.ifThen (.identifier "b")
      (.cons (.declare _ _ "a" (.identifier "c")) .nil))
        (.cons (.returnValue (.identifier "a")) .nil))

/-- Both contracts are compiled, and to the same bytecode. -/
theorem ofContract_renames_shading : ∃ compilation renamed,
    ofContract shading = .ok compilation ∧ shading.Renames exchanged shadingExchanged ∧
      ofContract shadingExchanged = .ok renamed ∧ compilation.SameBytecode renamed := by
  obtain ⟨compilation, compiled⟩ : ∃ compilation, ofContract shading = .ok compilation :=
    ⟨_, rfl⟩
  obtain ⟨succeeds, same⟩ := ofContract_renames shading_renames
  obtain ⟨renamed, compiled'⟩ := succeeds.2 ⟨compilation, compiled⟩
  exact ⟨compilation, renamed, compiled, shading_renames, compiled',
    same compilation renamed compiled compiled'⟩

end Compilation

end Covenant
