/-
**The code of functions and contracts, as a relation.**

`Covenant/Proofs/Emission/Derivation.lean` relates expressions and statements to their code.  This
module continues with parameters, functions and whole contracts, and says what the two ways of
compiling put into a compilation.

Main definitions:

* `Covenant.Parameter.Code`, `Covenant.FunctionDecl.Code`, `Covenant.FunctionDecl.Codes` — the code
  of parameters, of a function, and of functions one after another;
* `Covenant.Contract.dispatch` — the items of the dispatcher.

Main results:

* `FunctionDecl.code_of_yields`, `FunctionDecl.codes_of_yields`, `Contract.codes_of_yields` — **what
  compiling emits obeys the rules**;
* `Compilation.ofFunction_eq_ok_iff`, `Compilation.ofContract_eq_ok_iff` — when compiling succeeds,
  and with what.
-/

import Covenant.Compilation
import Covenant.Proofs.Emission.Derivation

set_option relaxedAutoImplicit false
set_option autoImplicit false

namespace Covenant

open Machine
open Emission (Item)

/-! ### Functions -/

/-- The code that copies call arguments to parameters, the first of which has this index, under one
memory map and before another. -/
inductive Parameter.Code : ℕ → MemoryMap → List Parameter → List Item → MemoryMap → Prop
  | nil {index : ℕ} {memory : MemoryMap} : Parameter.Code index memory [] [] memory
  | cons {index : ℕ} {memory last : MemoryMap} {parameter : Parameter} {rest : List Parameter}
      {more : List Item}
      (tail : Parameter.Code (index + 1) (memory.define parameter.name) rest more last) :
      Parameter.Code index memory (parameter :: rest)
        (.push (.ofNat index) ("argument " ++ Text.Decimal.ofNat index) :: .plain .loadArgs ::
          (memory.next.access .mstore parameter.name ++ more)) last

theorem Parameter.code_of_yieldsAll {index : ℕ} {memory last : MemoryMap}
    {parameters : List Parameter} {items : List Item}
    (h : (Parameter.emitAll index memory parameters).Yields items last) :
    Parameter.Code index memory parameters items last := by
  induction parameters generalizing index memory items with
  | nil =>
      rw [Parameter.emitAll] at h
      obtain ⟨rfl, rfl⟩ := Emission.yields_pure_iff.1 h
      exact Parameter.Code.nil
  | cons parameter rest ih =>
      simp only [Parameter.emitAll, Emission.push, Emission.plain,
        Emission.yields_emit_bind_iff] at h
      obtain ⟨_, ⟨_, h, rfl⟩, rfl⟩ := h
      rw [Emission.yields_bind_iff] at h
      obtain ⟨_, store, more, stored, h, rfl⟩ := h
      rw [Slot.yields_emitStore_iff.1 stored]
      exact Parameter.Code.cons (ih h)

namespace FunctionDecl

/-- The code of a function at a position, and the memory map at its end. -/
inductive Code (position : ℕ) (function : FunctionDecl) : List Item → MemoryMap → Prop
  | intro {start : ℕ} {memory last : MemoryMap} {items body : List Item}
      (parameters : Parameter.Code 0 .empty function.parameters items memory)
      (start_eq : start = position + 1 + Item.totalSize items)
      (block : Statement.Block start memory function.body body last) :
      Code position function
        (.noted .jumpDst ("func " ++ function.name) :: (items ++ (body ++
          [.noted .exit ("end of " ++ function.name),
            .remark (.compiledFunction function.name last.slotCount)]))) last

/-- **The code of a function obeys the rules.** -/
theorem code_of_yields {position : ℕ} {function : FunctionDecl} {items : List Item}
    {last : MemoryMap} (h : (function.emit position).Yields items last) :
    Code position function items last := by
  rw [emit, Emission.noted, Emission.yields_emit_bind_iff] at h
  obtain ⟨_, h, rfl⟩ := h
  rw [Emission.yields_bind_iff] at h
  obtain ⟨memory, parameters, _, copied, h, rfl⟩ := h
  rw [Emission.yields_bind_iff] at h
  obtain ⟨final, body, _, block, h, rfl⟩ := h
  simp only [Emission.noted, Emission.remark, Emission.yields_emit_bind_iff] at h
  obtain ⟨_, ⟨_, ended, rfl⟩, rfl⟩ := h
  obtain ⟨rfl, rfl⟩ := Emission.yields_pure_iff.1 ended
  have size := copied.size_eq
  exact Code.intro (Parameter.code_of_yieldsAll copied) (by rw [size]; rfl)
    (Statement.block_of_yieldsAll _ block)

/-- The code of functions, the first of which stands at a position, with the positions of all of
them and their memory maps. -/
inductive Codes : ℕ → List FunctionDecl → List ℕ → List Item → List MemoryMap → Prop
  | nil {position : ℕ} : Codes position [] [] [] []
  | cons {position : ℕ} {function : FunctionDecl} {rest : List FunctionDecl} {entries : List ℕ}
      {items more : List Item} {memory : MemoryMap} {memories : List MemoryMap}
      (head : function.Code position items memory)
      (tail : Codes (position + Item.totalSize items) rest entries more memories) :
      Codes position (function :: rest) (position :: entries) (items ++ more) (memory :: memories)

/-- **The code of functions obeys the rules.** -/
theorem codes_of_yields {position : ℕ} {functions : List FunctionDecl} {items : List Item}
    {memories : List MemoryMap} (h : (emitAll position functions).Yields items memories) :
    Codes position functions (entries position functions) items memories := by
  induction functions generalizing position items memories with
  | nil =>
      rw [emitAll] at h
      obtain ⟨rfl, rfl⟩ := Emission.yields_pure_iff.1 h
      exact Codes.nil
  | cons function rest ih =>
      rw [emitAll, Emission.yields_bind_iff] at h
      obtain ⟨memory, first, _, code, h, rfl⟩ := h
      rw [Emission.yields_bind_iff] at h
      obtain ⟨others, more, _, tail, ended, rfl⟩ := h
      obtain ⟨rfl, rfl⟩ := Emission.yields_pure_iff.1 ended
      rw [entries, List.append_nil]
      rw [code.size_eq] at tail ⊢
      exact Codes.cons (code_of_yields code) (ih tail)

end FunctionDecl

/-! ### Contracts -/

namespace Contract

/-- The dispatcher for functions given by their names and entries, the first of which has this
selector. -/
def dispatch (selector : ℕ) : List (String × ℕ) → List Item
  | [] => [.noted .exit "no function matched"]
  | (name, entry) :: rest =>
    .push (.ofNat selector) ("selector of " ++ name) :: .plain .loadFunc :: .plain .equal ::
      .forward entry ("entry of " ++ name) :: .plain .jumpi :: dispatch (selector + 1) rest

theorem yields_emitDispatch_iff {selector : ℕ} {labels : List (String × ℕ)} {items : List Item}
    {u : Unit} :
    (emitDispatch selector labels).Yields items u ↔ items = dispatch selector labels := by
  induction labels generalizing selector items with
  | nil => exact Emission.yields_emit_iff
  | cons label rest ih =>
      obtain ⟨name, entry⟩ := label
      simp only [emitDispatch, Emission.push, Emission.plain, Emission.forward,
        Emission.yields_emit_bind_iff, ih]
      constructor
      · rintro ⟨_, ⟨_, ⟨_, ⟨_, ⟨_, rfl, rfl⟩, rfl⟩, rfl⟩, rfl⟩, rfl⟩
        rfl
      · rintro rfl
        exact ⟨_, ⟨_, ⟨_, ⟨_, ⟨_, rfl, rfl⟩, rfl⟩, rfl⟩, rfl⟩, rfl⟩

theorem totalSize_dispatch (selector : ℕ) (labels : List (String × ℕ)) :
    Item.totalSize (dispatch selector labels) =
      labels.length * dispatchSize + Opcode.exit.size := by
  induction labels generalizing selector with
  | nil => rfl
  | cons label rest ih =>
      have more := ih (selector + 1)
      simp only [dispatch, Item.totalSize, List.foldr_cons, List.length_cons] at more ⊢
      rw [more]
      have five : dispatchSize = 21 := rfl
      simp only [five, Item.size, Item.line?, Item.push, Item.plain, Instruction.size,
        Instruction.push, Instruction.plain, Opcode.size, Opcode.arity, Word.size]
      omega

theorem length_entries (position : ℕ) (functions : List FunctionDecl) :
    (FunctionDecl.entries position functions).length = functions.length := by
  induction functions generalizing position with
  | nil => rfl
  | cons function rest ih => rw [FunctionDecl.entries, List.length_cons, ih, List.length_cons]

theorem length_labels (contract : Contract) :
    contract.labels.length = contract.functions.length := by
  rw [labels, List.length_zip, List.length_map, length_entries, Nat.min_self]

/-- The functions begin where the dispatcher ends. -/
theorem totalSize_dispatch_labels (contract : Contract) :
    Item.totalSize (dispatch 0 contract.labels) = contract.bodyPosition := by
  rw [totalSize_dispatch, length_labels]
  rfl

/-- What a contract yields is the dispatcher and what its functions yield. -/
theorem parts_of_yields {contract : Contract} {items : List Item} {memories : List MemoryMap}
    (h : contract.emit.Yields items memories) :
    ∃ functions bytes,
      (FunctionDecl.emitAll contract.bodyPosition contract.functions).Yields functions memories ∧
      items = dispatch 0 contract.labels ++ (functions ++
        [.remark (.compiledContract contract.functions.length bytes)]) := by
  rw [emit, Emission.yields_bind_iff] at h
  obtain ⟨_, front, back, dispatched, h, rfl⟩ := h
  rw [Emission.yields_bind_iff] at h
  obtain ⟨_, functions, back, code, h, rfl⟩ := h
  rw [Emission.remark, Emission.yields_emit_bind_iff] at h
  obtain ⟨back, ended, rfl⟩ := h
  obtain ⟨rfl, rfl⟩ := Emission.yields_pure_iff.1 ended
  rw [yields_emitDispatch_iff] at dispatched
  exact ⟨functions, _, code, by rw [dispatched]⟩

/-- **The code of a contract is the dispatcher and the code of its functions.** -/
theorem codes_of_yields {contract : Contract} {items : List Item} {memories : List MemoryMap}
    (h : contract.emit.Yields items memories) :
    ∃ functions bytes, FunctionDecl.Codes contract.bodyPosition contract.functions
        (FunctionDecl.entries contract.bodyPosition contract.functions) functions memories ∧
      items = dispatch 0 contract.labels ++ (functions ++
        [.remark (.compiledContract contract.functions.length bytes)]) := by
  obtain ⟨functions, bytes, code, rfl⟩ := parts_of_yields h
  exact ⟨functions, bytes, FunctionDecl.codes_of_yields code, rfl⟩

end Contract

/-! ### Compilations -/

namespace Compilation

/-- A function that compiles by itself has code and a memory map, and these are its compilation. -/
theorem ofFunction_eq_ok_iff {function : FunctionDecl} {compilation : Compilation} :
    ofFunction function = .ok compilation ↔
      ∃ items memory, (function.emit 0).Yields items memory ∧ compilation =
        { code := ⟨Item.lines items⟩
          scopes := [⟨function.name, memory⟩]
          labels := [(function.name, 0)]
          selectors := ⟨[(function.name, 0)]⟩ } := by
  rw [ofFunction]
  cases h : (function.emit 0).result with
  | error fault => simp [Emission.Yields, h]
  | ok memory =>
      constructor
      · rintro ⟨⟩
        exact ⟨_, memory, ⟨rfl, h⟩, rfl⟩
      · rintro ⟨_, other, ⟨rfl, same⟩, rfl⟩
        rw [h] at same
        cases same
        rfl

/-- A contract compiles if its function names can all be declared and all its code can be emitted;
these are its compilation. -/
theorem ofContract_eq_ok_iff {contract : Contract} {compilation : Compilation} :
    ofContract contract = .ok compilation ↔
      ∃ selectors items memories,
        SelectorTable.empty.insertAll (contract.functions.map FunctionDecl.name) = .ok selectors ∧
        contract.emit.Yields items memories ∧ compilation =
          { code := ⟨Item.lines items⟩
            scopes := List.zipWith Scope.mk (contract.functions.map FunctionDecl.name) memories
            labels := contract.labels
            selectors } := by
  rw [ofContract]
  cases SelectorTable.empty.insertAll (contract.functions.map FunctionDecl.name) with
  | error name => simp
  | ok selectors =>
      cases h : contract.emit.result with
      | error fault => simp [Emission.Yields, h]
      | ok memories =>
          simp only [h, Except.ok.injEq]
          constructor
          · rintro rfl
            exact ⟨selectors, _, memories, rfl, ⟨rfl, h⟩, rfl⟩
          · rintro ⟨_, _, other, rfl, ⟨rfl, same⟩, rfl⟩
            rw [h] at same
            cases same
            rfl

end Compilation

end Covenant
