/-
**Warnings about hidden definitions.**

The compiler warns where a declaration hides an earlier definition of its name.  Which ones do is
told by the text alone: the memory map is the one behind the definitions so far, and a name has a
slot in it exactly if it is among them.  So the warnings of a function are the declarations of its
body that hide something, in order and once each, and nothing else in the log of a contract is a
warning.

A slot is lost to a name whenever a definition hides another one.  Warnings therefore account for
the slots that no name stands for any more, but for one case: parameters are defined without a
look at the memory map, so a parameter that hides another one hides it silently.

Main definitions:

* `Covenant.MemoryMap.shadows` — the definitions among some that hide an earlier one;
* `Covenant.Event.warnings` — the warnings in a log;
* `Covenant.FunctionDecl.log`, `Covenant.Contract.logs` — the log of compiling a function that
  begins at some byte, and of each function of a contract;
* `Covenant.FunctionDecl.Warned` — what a log warns about.

Main results:

* `MemoryMap.length_shadows_add_size` — every definition takes a name or hides one;
* `Statement.Block.warned`, `FunctionDecl.Code.warned` — the code of each construct warns about the
  declarations that hide something;
* `Contract.logOfContract_eq` — the log of a contract, function by function;
* `Compilation.warnings_ofContract` — **every declaration that hides something is warned about
  once**, and the warnings account for the slots exactly if no parameter is repeated.
-/

import Covenant.Proofs.Compilation.MemoryLayout
import Covenant.Proofs.MemoryMap.Log
import Mathlib.Data.Finset.Card

set_option relaxedAutoImplicit false
set_option autoImplicit false

namespace Covenant

open Emission (Item)

/-! ### Hidden definitions -/

namespace MemoryMap

/-- The names among some whose definition hides an earlier one, in order. -/
def shadows (earlier : List String) : List String → List String
  | [] => []
  | name :: rest =>
    if name ∈ earlier then name :: shadows (earlier ++ [name]) rest
    else shadows (earlier ++ [name]) rest

theorem shadows_append (earlier names more : List String) :
    shadows earlier (names ++ more) = shadows earlier names ++ shadows (earlier ++ names) more := by
  induction names generalizing earlier with
  | nil => simp [shadows]
  | cons name names ih =>
      rw [List.cons_append, shadows, shadows, ih, List.append_assoc, List.singleton_append]
      split <;> rfl

/-- A name that is defined once more stays as it is, and a new one is added. -/
theorem size_ofNames_append_singleton (names : List String) (name : String) :
    (ofNames (names ++ [name])).size =
      if name ∈ names then (ofNames names).size else (ofNames names).size + 1 := by
  simp only [size_ofNames, ← List.card_toFinset, List.toFinset_append, List.toFinset_cons,
    List.toFinset_nil, insert_empty_eq, Finset.union_singleton, Finset.card_insert_eq_ite,
    List.mem_toFinset]

/-- **Every definition takes a name or hides one.** -/
theorem length_shadows_add_size (earlier names : List String) :
    (shadows earlier names).length + (ofNames (earlier ++ names)).size =
      (ofNames earlier).size + names.length := by
  induction names generalizing earlier with
  | nil => simp [shadows]
  | cons name names ih =>
      have tail := ih (earlier ++ [name])
      rw [List.append_assoc, List.singleton_append, size_ofNames_append_singleton] at tail
      rw [shadows]
      split at tail
      · rename_i known
        rw [if_pos known, List.length_cons, List.length_cons]
        omega
      · rename_i fresh
        rw [if_neg fresh, List.length_cons]
        omega

/-- Nothing is hidden exactly if no name is repeated. -/
theorem length_shadows_eq_zero_iff {names : List String} :
    (shadows [] names).length = 0 ↔ names.Nodup := by
  have balance := length_shadows_add_size [] names
  rw [List.nil_append, size_ofNames, size_ofNames, List.dedup_nil, List.length_nil] at balance
  rw [← List.dedup_eq_self]
  constructor
  · intro free
    exact (List.dedup_sublist names).eq_of_length (by omega)
  · intro same
    rw [same] at balance
    omega

theorem slotCount_ofNames (names : List String) : (ofNames names).slotCount = names.length := by
  rw [slotCount, cursor_ofNames]
  exact Nat.mul_div_cancel_left _ (by decide)

end MemoryMap

/-! ### Warnings -/

/-- The warnings in a log. -/
def Event.warnings (log : List Event) : List Event :=
  log.filter fun event => event.level = .warn

namespace Emission.Item

/-- The name that an item warns about. -/
def warned? : Item → Option String
  | remark (.shadowed name) => some name
  | _ => none

/-- The names that items warn about, in order. -/
def warned (items : List Item) : List String :=
  items.filterMap warned?

@[simp] theorem warned_nil : warned [] = [] := rfl

@[simp] theorem warned_push_cons (word : Machine.Word) (note : String) (rest : List Item) :
    warned (push word note :: rest) = warned rest := rfl

@[simp] theorem warned_plain_cons (opcode : Machine.Opcode) (rest : List Item) :
    warned (plain opcode :: rest) = warned rest := rfl

@[simp] theorem warned_noted_cons (opcode : Machine.Opcode) (note : String) (rest : List Item) :
    warned (noted opcode note :: rest) = warned rest := rfl

@[simp] theorem warned_append (items more : List Item) :
    warned (items ++ more) = warned items ++ warned more :=
  List.filterMap_append

@[simp] theorem warned_access (slot : Slot) (opcode : Machine.Opcode) (name : String) :
    warned (slot.access opcode name) = [] := rfl

@[simp] theorem warned_skip (destination : ℕ) (note : String) :
    warned (skip destination note) = [] := rfl

@[simp] theorem warned_leave (destination : ℕ) : warned (leave destination) = [] := rfl

@[simp] theorem warned_map_plain (opcodes : List Machine.Opcode) :
    warned (opcodes.map plain) = [] := by
  induction opcodes with
  | nil => rfl
  | cons opcode opcodes ih => exact ih

/-- Nothing is a warning in the log but what items warn about. -/
theorem warnings_events (position : ℕ) (items : List Item) :
    Event.warnings (events position items) =
      (warned items).map fun name => (Remark.shadowed name).event := by
  induction items generalizing position with
  | nil => rfl
  | cons item items ih =>
      have tail := ih (position + item.size)
      cases item with
      | line _ => exact tail
      | forward _ _ => exact tail
      | remark r =>
          cases r with
          | shadowed name => exact congrArg _ tail
          | compiledFunction _ _ => exact tail
          | compiledContract _ _ => exact tail

end Emission.Item

/-! ### The warnings of code -/

section Code

variable {earlier : List String} {memory last : MemoryMap} {items : List Item}

/-- The warning about a declaration is there if it hides an earlier definition. -/
theorem MemoryMap.warned_shadowing (earlier : List String) (name : String) :
    Item.warned ((ofNames earlier).shadowing name) = shadows earlier [name] := by
  simp only [shadowing, isDefined_ofNames_iff, shadows]
  split <;> rfl

/-- Nothing in the code of an expression is a warning. -/
theorem Expression.Code.warned {value : Expression} (code : Code memory value items) :
    Item.warned items = [] := by
  induction code with
  | literal => rfl
  | identifier => rfl
  | not _ ih => simp [ih]
  | minus _ ih => simp [ih]
  | binary _ _ ihLeft ihRight => simp [ihLeft, ihRight]

/-- **The code of statements warns about the declarations that hide something**, at any depth. -/
theorem Statement.Block.warned {position : ℕ} {statements : List Statement}
    (block : Block position memory statements items last) (known : memory = .ofNames earlier) :
    Item.warned items = MemoryMap.shadows earlier (declaredAll statements) := by
  induction block generalizing earlier with
  | nil => rfl
  | cons head tail ihHead ihTail =>
      obtain ⟨-, middle⟩ := head.performs known
      have first := ihHead known
      simp only [declaredAll, List.append_nil] at first middle
      rw [Item.warned_append, first, ihTail middle, declaredAll, MemoryMap.shadows_append]
  | declare code =>
      subst known
      simp [declaredAll, declared, code.warned, MemoryMap.warned_shadowing]
  | assign code => simp [declaredAll, declared, code.warned, MemoryMap.shadows]
  | returnValue code => simp [declaredAll, declared, code.warned, MemoryMap.shadows]
  | returnNothing => rfl
  | expression code => simp [declaredAll, declared, code.warned, MemoryMap.shadows]
  | ifThen test _ _ _ ih =>
      simp [declaredAll, declared, test.warned, ih known]
  | ifElse test _ inner _ _ _ ihInner ihOuter =>
      -- the alternative hides what the consequence declares
      obtain ⟨-, between⟩ := inner.performs known
      simp [declaredAll, declared, test.warned, ihInner known, ihOuter between,
        MemoryMap.shadows_append]

/-- Nothing in the code of parameters is a warning, whatever they hide. -/
theorem Parameter.Code.warned {index : ℕ} {parameters : List Parameter}
    (code : Code index memory parameters items last) : Item.warned items = [] := by
  induction code with
  | nil => rfl
  | cons _ ih => simpa using ih

/-- **The code of a function warns about the declarations of its body that hide something.** -/
theorem FunctionDecl.Code.warned {position : ℕ} {function : FunctionDecl}
    (code : Code position function items memory) : Item.warned items =
      MemoryMap.shadows (function.parameters.map Parameter.name)
        (Statement.declaredAll function.body) := by
  obtain ⟨parameters, -, block⟩ := code
  obtain ⟨-, -, between⟩ := parameters.copies MemoryMap.ofNames_nil.symm rfl
  have remark : ∀ name slots, Item.warned [.remark (.compiledFunction name slots)] = [] :=
    fun _ _ => rfl
  simp [parameters.warned, block.warned between, remark]

theorem Contract.warned_dispatch (selector : ℕ) (labels : List (String × ℕ)) :
    Item.warned (dispatch selector labels) = [] := by
  induction labels generalizing selector with
  | nil => rfl
  | cons label rest ih => exact ih (selector + 1)

end Code

/-! ### Logs -/

namespace FunctionDecl

/-- The log of compiling a function that begins at a byte. -/
def log (function : FunctionDecl) (entry : ℕ) : List Event :=
  Item.events entry (function.emit entry).items

/-- The log of functions is that of one after another, each from where it begins. -/
theorem events_of_yields {position : ℕ} {functions : List FunctionDecl} {items : List Item}
    {memories : List MemoryMap} (h : (emitAll position functions).Yields items memories) :
    Item.events position items =
      (List.zipWith log functions (entries position functions)).flatten := by
  induction functions generalizing position items memories with
  | nil =>
      rw [emitAll] at h
      obtain ⟨rfl, rfl⟩ := Emission.yields_pure_iff.1 h
      rfl
  | cons function rest ih =>
      rw [emitAll, Emission.yields_bind_iff] at h
      obtain ⟨memory, segment, _, code, h, rfl⟩ := h
      rw [Emission.yields_bind_iff] at h
      obtain ⟨others, more, _, tail, ended, rfl⟩ := h
      obtain ⟨rfl, rfl⟩ := Emission.yields_pure_iff.1 ended
      have own : function.log position = Item.events position segment := by rw [log, code.1]
      rw [code.size_eq] at tail
      rw [entries, code.size_eq, List.zipWith_cons_cons, List.flatten_cons, ← ih tail, own,
        List.append_nil, Item.events_append]

/-- What the log of compiling a function to a memory map warns about. -/
structure Warned (function : FunctionDecl) (log : List Event) (memory : MemoryMap) : Prop where
  /-- Every declaration of the body that hides a parameter or a declaration before it is warned
  about once, in the order of the text, and nothing else is. -/
  warnings : Event.warnings log =
    (MemoryMap.shadows (function.parameters.map Parameter.name)
      (Statement.declaredAll function.body)).map fun name => (Remark.shadowed name).event
  /-- A slot that no name stands for any more was hidden with a warning or by a parameter. -/
  balance : (Event.warnings log).length +
    (MemoryMap.shadows [] (function.parameters.map Parameter.name)).length + memory.size =
      memory.slotCount
  /-- The warnings account for these slots exactly if no parameter is repeated. -/
  complete_iff : (Event.warnings log).length = memory.slotCount - memory.size ↔
    (function.parameters.map Parameter.name).Nodup

theorem warned_of_yields {function : FunctionDecl} {entry : ℕ} {items : List Item}
    {memory : MemoryMap} (h : (function.emit entry).Yields items memory) :
    function.Warned (function.log entry) memory := by
  have code := code_of_yields h
  obtain ⟨-, known⟩ := code.performs
  have warnings : Event.warnings (function.log entry) =
      (MemoryMap.shadows (function.parameters.map Parameter.name)
        (Statement.declaredAll function.body)).map fun name => (Remark.shadowed name).event := by
    rw [log, h.1, Item.warnings_events, code.warned]
  have balance : (Event.warnings (function.log entry)).length +
      (MemoryMap.shadows [] (function.parameters.map Parameter.name)).length + memory.size =
        memory.slotCount := by
    have counted := MemoryMap.length_shadows_add_size [] function.definitions
    have empty : (MemoryMap.ofNames []).size = 0 := rfl
    rw [definitions, MemoryMap.shadows_append, List.length_append, List.nil_append, List.nil_append,
      ← definitions, empty] at counted
    rw [warnings, List.length_map, known, MemoryMap.slotCount_ofNames]
    omega
  refine ⟨warnings, balance, ?_⟩
  rw [← MemoryMap.length_shadows_eq_zero_iff]
  omega

end FunctionDecl

namespace Contract

/-- The log of compiling each function of a contract. -/
def logs (contract : Contract) : List (List Event) :=
  List.zipWith FunctionDecl.log contract.functions
    (FunctionDecl.entries contract.bodyPosition contract.functions)

/-- **The log of a contract is that of the dispatcher and of its functions**, and the summary. -/
theorem logOfContract_eq {contract : Contract} {compilation : Compilation}
    (compiled : Compilation.ofContract contract = .ok compilation) :
    ∃ bytes, Compilation.logOfContract contract =
      Item.events 0 (dispatch 0 contract.labels) ++ (contract.logs.flatten ++
        [(Remark.compiledContract contract.functions.length bytes).event]) := by
  obtain ⟨selectors, items, memories, inserted, emitted, -⟩ :=
    Compilation.ofContract_eq_ok_iff.1 compiled
  obtain ⟨functions, bytes, yields, rfl⟩ := parts_of_yields emitted
  have log : Compilation.logOfContract contract = Item.events 0 contract.emit.items := by
    rw [Compilation.logOfContract, inserted]
  refine ⟨bytes, ?_⟩
  rw [log, emitted.1, Item.events_append, Item.events_append, totalSize_dispatch_labels,
    Nat.zero_add, FunctionDecl.events_of_yields yields]
  rfl

end Contract

/-! ### Compilations -/

namespace Compilation

/-- **Every declaration that hides an earlier definition is warned about once**, and nothing else
is.  Of the slots that a function takes and no name stands for in the end, the warnings account for
all but those of repeated parameters. -/
theorem warnings_ofContract {contract : Contract} {compilation : Compilation}
    (compiled : ofContract contract = .ok compilation) :
    (∃ front back, logOfContract contract = front ++ (contract.logs.flatten ++ back) ∧
      Event.warnings front = [] ∧ Event.warnings back = []) ∧
    ∀ (index : ℕ) (function : FunctionDecl), contract.functions[index]? = some function →
      ∃ log memory, contract.logs[index]? = some log ∧
        compilation.scopes[index]? = some ⟨function.name, memory⟩ ∧
        function.Warned log memory := by
  refine ⟨?_, fun index function member => ?_⟩
  · obtain ⟨bytes, log⟩ := Contract.logOfContract_eq compiled
    refine ⟨_, _, log, ?_, rfl⟩
    rw [Item.warnings_events, Contract.warned_dispatch, List.map_nil]
  · obtain ⟨segments, -, -, stands⟩ := exists_segments compiled
    obtain ⟨segment, memory, entry, -, -, label, scope, yields⟩ := stands index function member
    obtain ⟨-, -, -, -, -, labels⟩ := lines_ofContract compiled
    rw [labels, Contract.labels, List.getElem?_zip_eq_some] at label
    refine ⟨function.log entry, memory, ?_, scope, FunctionDecl.warned_of_yields yields⟩
    exact List.getElem?_zipWith_eq_some.2 ⟨function, entry, member, label.2, rfl⟩

/-- In `redefining` the declaration of `a` is warned about, and the second parameter is not. -/
theorem warnings_ofContract_redefining : ∃ compilation log memory,
    ofContract ⟨[redefining]⟩ = .ok compilation ∧ Contract.logs ⟨[redefining]⟩ = [log] ∧
    compilation.scopes = [⟨"f", memory⟩] ∧ redefining.Warned log memory ∧
    Event.warnings log = [(Remark.shadowed "a").event] ∧
    memory.slotCount = 4 ∧ memory.size = 2 := by
  obtain ⟨compilation, memory, compiled, scopes, slots, size⟩ : ∃ compilation memory,
      ofContract ⟨[redefining]⟩ = .ok compilation ∧ compilation.scopes = [⟨"f", memory⟩] ∧
        memory.slotCount = 4 ∧ memory.size = 2 :=
    ⟨_, _, rfl, rfl, by decide, by decide⟩
  obtain ⟨-, each⟩ := warnings_ofContract compiled
  obtain ⟨log, same, here, scope, warned⟩ := each 0 redefining rfl
  rw [scopes] at scope
  cases scope
  cases here
  exact ⟨compilation, _, memory, compiled, rfl, scopes, warned, warned.warnings, slots, size⟩

/-- The function `func f(a int, a int) { }`. -/
def repeating : FunctionDecl where
  name := "f"
  parameters := [⟨"a", .int⟩, ⟨"a", .int⟩]
  returns := none
  body := []

/-- Warnings do not account for the slots of repeated parameters: the second `a` hides the first
one silently. -/
theorem not_forall_length_warnings :
    ¬ ∀ (contract : Contract) (compilation : Compilation), ofContract contract = .ok compilation →
      ∀ (index : ℕ) (log : List Event) (scope : Scope), contract.logs[index]? = some log →
        compilation.scopes[index]? = some scope →
          (Event.warnings log).length = scope.memory.slotCount - scope.memory.size := by
  intro all
  have lost := all ⟨[repeating]⟩ _ rfl 0 _ _ rfl rfl
  exact absurd lost (by decide)

end Compilation

end Covenant
