/-
**Calls.**

A caller finds the selector of a function in the interface of a contract, and the code of the
contract finds the function of a selector by comparing it with one after another.  Between the two
stand four tables, each filled on its own: the selectors, the labels, the scopes and the methods of
the interface.  All of them follow the order of declaration, and names are declared once, so they
agree; and the comparison that succeeds is the one whose jump leads to the label of the function.

Main definitions:

* `Covenant.Machine.World.ComparesWords` — what `Equal` leaves is true for equal words only;
* `Covenant.Compilation.Listed` — what the tables say of a function;
* `Covenant.Compilation.Dispatches` — where a call with some selector arrives.

Main results:

* `Contract.path_call` — where one comparison leads;
* `Contract.path_dispatch`, `Contract.path_dispatch_of_le` — by induction, where all of them lead;
* `Compilation.dispatch_ofContract` — **every call arrives at the function that the interface
  promises**, or at the closing exit if there is none.
-/

import Covenant.Interface
import Covenant.Proofs.Compilation.Jumps
import Covenant.Proofs.Emission.Execution
import Covenant.Proofs.SelectorTable

set_option relaxedAutoImplicit false
set_option autoImplicit false

namespace Covenant

open Machine
open Emission (Item)

/-! ### The dispatcher -/

/-- What `Equal` leaves on the stack is true if it compared equal words, and false otherwise. -/
def Machine.World.ComparesWords (world : World) : Prop :=
  ∀ left right, world.isTrue (world.binary .equal left right) = true ↔ left = right

/-- A world of unsigned numbers in which a function is called by its selector. -/
def Machine.World.calling (selector : ℕ) : World :=
  { World.unsigned [] with selector := .ofNat selector }

theorem Machine.World.comparesWords_calling (selector : ℕ) : (calling selector).ComparesWords := by
  intro left right
  have one : (Word.ofNat 1).toNat = 1 := Word.toNat_ofNat_of_lt (by decide)
  have zero : (Word.ofNat 0).toNat = 0 := Word.toNat_ofNat_of_lt (by decide)
  by_cases same : left = right
  · subst same
    simp [calling, unsigned, one]
  · have numbers : left.toNat ≠ right.toNat := fun equal => same (Word.eq_of_toNat_eq equal)
    simp [calling, unsigned, numbers, zero, same]

namespace Contract

variable {world : World} {code : Assembly} {position selector : ℕ} {name : String} {entry : ℕ}
variable {rest : List (String × ℕ)} {more : List Item} {stack : List Word} {slots : ℕ → Word}

/-- The comparison of a call, up to the jump that depends on it. -/
theorem path_compare
    (holds : code.Holds position (dispatch selector ((name, entry) :: rest) ++ more))
    (sound : code.Sound) :
    Path (Forced world code.bytes) code.bytes ⟨position, stack, slots⟩ []
      ⟨position + 20, .ofNat entry ::
        world.binary .equal (.ofNat selector) world.selector :: stack, slots⟩ :=
  (path_push holds rfl sound).trans ((path_plain holds.tail rfl sound fun _ => rfl).trans
    ((path_plain holds.tail.tail rfl sound fun _ => rfl).trans
      (path_push holds.tail.tail.tail rfl sound)))

/-- A call goes to the entry if its selector is the caller's, and to the next call otherwise. -/
theorem path_call (holds : code.Holds position (dispatch selector ((name, entry) :: rest) ++ more))
    (sound : code.Sound) (compares : world.ComparesWords) {note : String} {items : List Item}
    (target : code.Holds entry (.noted .jumpDst note :: items)) (stack : List Word)
    (slots : ℕ → Word) : Path (Decided world code.bytes) code.bytes ⟨position, stack, slots⟩ []
      ⟨if .ofNat selector = world.selector then entry else position + 21, stack, slots⟩ := by
  have jump : code.Holds (position + 20)
      (.plain .jumpi :: (dispatch (selector + 1) rest ++ more)) := holds.tail.tail.tail.tail
  have moved : Decided world code.bytes
      ⟨position + 20, .ofNat entry ::
        world.binary .equal (.ofNat selector) world.selector :: stack, slots⟩
      ⟨if .ofNat selector = world.selector then entry else position + 21, stack, slots⟩ := by
    rw [Decided, step_plain jump rfl sound]
    by_cases same : .ofNat selector = world.selector
    · have succeeds := (compares (.ofNat selector) world.selector).2 same
      simp only [perform, succeeds, if_pos, if_pos same, jump_eq target sound]
    · have fails : world.isTrue (world.binary .equal (.ofNat selector) world.selector) = false := by
        rwa [← Bool.not_eq_true, compares]
      simp [perform, fails, same, State.next, Opcode.size, Opcode.arity]
  have last := @Path.single _ code.bytes _ _ moved
  rw [accesses_item jump rfl sound] at last
  exact (path_compare holds sound).decided.trans last

/-- **A selector that is tested leads to its function**, past the tests before it. -/
theorem path_dispatch {labels : List (String × ℕ)}
    (holds : code.Holds position (dispatch selector labels ++ more)) (sound : code.Sound)
    (compares : world.ComparesWords) (bound : selector + labels.length ≤ 2 ^ 32)
    (targets : ∀ label ∈ labels, ∃ note items, code.Holds label.2 (.noted .jumpDst note :: items))
    {index : ℕ} {label : String × ℕ} (member : labels[index]? = some label)
    (called : world.selector.toNat = selector + index) :
    Path (Decided world code.bytes) code.bytes ⟨position, stack, slots⟩ []
      ⟨label.2, stack, slots⟩ := by
  induction labels generalizing position selector index with
  | nil => simp at member
  | cons first rest ih =>
      obtain ⟨name, entry⟩ := first
      rw [List.length_cons] at bound
      rw [List.forall_mem_cons] at targets
      obtain ⟨⟨note, items, target⟩, targets⟩ := targets
      have test := path_call holds sound compares target stack slots
      have decides := @Word.ofNat_eq_iff selector world.selector (by omega)
      -- a test that fails changes nothing but the position, so the tests behind it are a dispatcher
      cases index with
      | zero =>
          cases member
          rwa [if_pos (decides.2 called.symm)] at test
      | succ index =>
          rw [if_neg fun same => by have number := decides.1 same; omega] at test
          have next : code.Holds (position + 21) (dispatch (selector + 1) rest ++ more) :=
            holds.tail.tail.tail.tail.tail
          exact test.trans (ih next (by omega) targets member (by omega))

/-- A selector behind all that are tested leads past all tests. -/
theorem path_dispatch_of_le {labels : List (String × ℕ)}
    (holds : code.Holds position (dispatch selector labels ++ more)) (sound : code.Sound)
    (compares : world.ComparesWords) (bound : selector + labels.length ≤ 2 ^ 32)
    (targets : ∀ label ∈ labels, ∃ note items, code.Holds label.2 (.noted .jumpDst note :: items))
    (behind : selector + labels.length ≤ world.selector.toNat) :
    Path (Decided world code.bytes) code.bytes ⟨position, stack, slots⟩ []
      ⟨position + labels.length * 21, stack, slots⟩ := by
  induction labels generalizing position selector with
  | nil => exact .refl _
  | cons first rest ih =>
      obtain ⟨name, entry⟩ := first
      rw [List.length_cons] at bound behind ⊢
      rw [List.forall_mem_cons] at targets
      obtain ⟨⟨note, items, target⟩, targets⟩ := targets
      have test := path_call holds sound compares target stack slots
      have decides := @Word.ofNat_eq_iff selector world.selector (by omega)
      rw [if_neg fun same => by have number := decides.1 same; omega] at test
      have next : code.Holds (position + 21) (dispatch (selector + 1) rest ++ more) :=
        holds.tail.tail.tail.tail.tail
      have path := test.trans (ih next (by omega) targets (by omega))
      rwa [Nat.succ_mul, Nat.add_comm (rest.length * 21), ← Nat.add_assoc]

/-- Behind all tests the dispatcher exits. -/
theorem holds_exit {labels : List (String × ℕ)}
    (holds : code.Holds position (dispatch selector labels ++ more)) :
    code.Holds (position + labels.length * 21) (.noted .exit "no function matched" :: more) := by
  induction labels generalizing position selector with
  | nil => exact holds
  | cons first rest ih =>
      have next : code.Holds (position + 21) (dispatch (selector + 1) rest ++ more) :=
        holds.tail.tail.tail.tail.tail
      have last := ih next
      rwa [List.length_cons, Nat.succ_mul, Nat.add_comm (rest.length * 21), ← Nat.add_assoc]

end Contract

/-! ### Tables -/

section Keys

variable {α : Type} {key : α → String} {items : List α} {index : ℕ} {a : α}

/-- Where the keys of items are known, so is the key of an item. -/
theorem exists_of_key {keys : List String} {name : String} (same : items.map key = keys)
    (h : keys[index]? = some name) : ∃ a, items[index]? = some a ∧ key a = name := by
  rw [← same, List.getElem?_map] at h
  exact Option.map_eq_some_iff.1 h

/-- Where keys are different, an item is the first one with its key. -/
theorem key_ne_of_lt (nodup : (items.map key).Nodup) (h : items[index]? = some a) :
    ∀ earlier < index, ∀ bound : earlier < items.length, key items[earlier] ≠ key a := by
  intro earlier before bound same
  obtain ⟨last, rfl⟩ := List.getElem?_eq_some_iff.1 h
  have first : earlier < (items.map key).length := by rwa [List.length_map]
  have second : index < (items.map key).length := by rwa [List.length_map]
  have keys : (items.map key)[earlier] = (items.map key)[index] := by
    rwa [List.getElem_map, List.getElem_map]
  rw [nodup.getElem_inj_iff] at keys
  omega

theorem find?_key (nodup : (items.map key).Nodup) (h : items[index]? = some a) :
    (items.find? fun b => key b == key a) = some a := by
  obtain ⟨bound, rfl⟩ := List.getElem?_eq_some_iff.1 h
  refine List.find?_eq_some_iff_getElem.2 ⟨by simp, index, bound, rfl, fun earlier before => ?_⟩
  simpa using key_ne_of_lt nodup h earlier before (by omega)

theorem findIdx?_key (nodup : (items.map key).Nodup) (h : items[index]? = some a) :
    (items.findIdx? fun b => key b == key a) = some index := by
  obtain ⟨bound, rfl⟩ := List.getElem?_eq_some_iff.1 h
  refine List.findIdx?_eq_some_iff_getElem.2 ⟨bound, by simp, fun earlier before => ?_⟩
  simpa using key_ne_of_lt nodup h earlier before (by omega)

end Keys

/-- There is one memory map for each function. -/
theorem FunctionDecl.Codes.length_memories {position : ℕ} {functions : List FunctionDecl}
    {entries : List ℕ} {items : List Item} {memories : List MemoryMap}
    (codes : Codes position functions entries items memories) :
    memories.length = functions.length := by
  induction codes with
  | nil => rfl
  | cons _ _ ih => rw [List.length_cons, List.length_cons, ih]

namespace Compilation

/-- What the tables of a compiled contract and its interface say of a function: in all of them it
has the same index, and by its name it is found there. -/
structure Listed (contract : Contract) (compilation : Compilation) (index : ℕ)
    (function : String) : Prop where
  label : ∃ entry, compilation.labels[index]? = some (function, entry) ∧
    compilation.entryPoint? function = some entry
  scope : ∃ scope, compilation.scopes[index]? = some scope ∧ scope.name = function ∧
    compilation.scope? function = some scope
  method : ∃ method, (Interface.ofContract contract).methods[index]? = some method ∧
    method.name = function
  selector : compilation.selectors.selector? function = some index
  promised : (Interface.ofContract contract).selector? function = some index
  name : compilation.selectors.name? index = some function

/-- The tables of a compiled contract list the names of its functions, which are different. -/
theorem names_ofContract {contract : Contract} {compilation : Compilation}
    (compiled : ofContract contract = .ok compilation) :
    let names := contract.functions.map FunctionDecl.name
    names.Nodup ∧ compilation.selectors.names = names ∧ compilation.labels.map Prod.fst = names ∧
      compilation.scopes.map Scope.name = names ∧
      (Interface.ofContract contract).methods.map Method.name = names := by
  obtain ⟨selectors, items, memories, inserted, emitted, rfl⟩ := ofContract_eq_ok_iff.1 compiled
  obtain ⟨functions, bytes, codes, -⟩ := Contract.codes_of_yields emitted
  obtain ⟨numbered, same⟩ := SelectorTable.numbered_empty.insertAll inserted
  rw [SelectorTable.names_empty, List.nil_append] at same
  have nodup := numbered.nodup
  rw [same] at nodup
  -- labels and scopes are zipped with what was emitted, of which there is as much as of functions
  refine ⟨nodup, same, ?_, ?_, ?_⟩
  · rw [Contract.labels, List.map_fst_zip]
    rw [List.length_map, Contract.length_entries]
  · rw [List.map_zipWith, ← List.map_uncurry_zip_eq_zipWith]
    exact List.map_fst_zip (by rw [List.length_map, codes.length_memories])
  · rw [Interface.ofContract, List.map_map]
    rfl

/-- The selectors of a compiled contract are numbered. -/
theorem numbered_ofContract {contract : Contract} {compilation : Compilation}
    (compiled : ofContract contract = .ok compilation) : compilation.selectors.Numbered := by
  obtain ⟨selectors, items, memories, inserted, -, rfl⟩ := ofContract_eq_ok_iff.1 compiled
  exact (SelectorTable.numbered_empty.insertAll inserted).1

/-- A compiled contract has no more functions than there are selectors. -/
theorem length_ofContract {contract : Contract} {compilation : Compilation}
    (compiled : ofContract contract = .ok compilation) :
    contract.functions.length ≤ UInt32.size := by
  obtain ⟨-, names, -⟩ := names_ofContract compiled
  have most := (numbered_ofContract compiled).size_le
  rwa [← SelectorTable.length_names, names, List.length_map] at most

/-- The tables of a compiled contract know each of its functions. -/
theorem listed_ofContract {contract : Contract} {compilation : Compilation} {index : ℕ}
    {function : FunctionDecl} (compiled : ofContract contract = .ok compilation)
    (member : contract.functions[index]? = some function) :
    Listed contract compilation index function.name := by
  obtain ⟨nodup, selectors, labels, scopes, methods⟩ := names_ofContract compiled
  have named : (contract.functions.map FunctionDecl.name)[index]? = some function.name := by
    rw [List.getElem?_map, member]
    rfl
  obtain ⟨⟨_, entry⟩, label, rfl⟩ := exists_of_key labels named
  obtain ⟨scope, inside, sameScope⟩ := exists_of_key scopes named
  obtain ⟨method, listed, sameMethod⟩ := exists_of_key methods named
  have numbered := numbered_ofContract compiled
  have placed : compilation.selectors.names[index]? = some function.name := by rwa [selectors]
  exact
    { label := ⟨entry, label,
        (lookup_eq_some_iff_mem (by rwa [labels])).2 (List.mem_of_getElem? label)⟩
      scope := ⟨scope, inside, sameScope, by
        rw [scope?, ← sameScope]
        exact find?_key (by rwa [scopes]) inside⟩
      method := ⟨method, listed, sameMethod⟩
      selector := numbered.selector?_eq_some_iff_getElem?.2 placed
      promised := by
        rw [Interface.selector?, ← sameMethod]
        exact findIdx?_key (by rwa [methods]) listed
      name := numbered.name?_eq_some_iff_getElem?.2 placed }

/-- At every label stands the mark of a function. -/
theorem holds_label {contract : Contract} {compilation : Compilation}
    (compiled : ofContract contract = .ok compilation) :
    ∀ label ∈ compilation.labels, ∃ note items,
      compilation.code.Holds label.2 (.noted .jumpDst note :: items) := by
  intro label mem
  obtain ⟨-, -, labels, -⟩ := names_ofContract compiled
  obtain ⟨index, place⟩ := List.mem_iff_getElem?.1 mem
  have named : (contract.functions.map FunctionDecl.name)[index]? = some label.1 := by
    rw [← labels, List.getElem?_map, place]
    rfl
  obtain ⟨function, member, same⟩ := exists_of_key rfl named
  have offers : compilation.Offers function label.2 := .member compiled member (by rwa [same])
  obtain ⟨items, memory, code, holds⟩ := offers.holds
  obtain ⟨-, -, -⟩ := code
  exact ⟨_, _, holds⟩

/-- Where a call arrives, in a world that holds its selector.  On the way there nothing is read from
memory or written to it. -/
structure Dispatches (contract : Contract) (compilation : Compilation) (world : World)
    (memory : ℕ → Word) : Prop where
  /-- A selector with a function leads to the entry of the function. -/
  known : ∀ function, contract.functions[world.selector.toNat]? = some function →
    ∃ entry, compilation.entryPoint? function.name = some entry ∧
      Bytecode.decodeAt compilation.code.bytes entry = .ok (.plain .jumpDst) ∧
      Path (Decided world compilation.code.bytes) compilation.code.bytes ⟨0, [], memory⟩ []
        ⟨entry, [], memory⟩
  /-- A selector without one leads to the exit behind all tests. -/
  unknown : contract.functions.length ≤ world.selector.toNat →
    Bytecode.decodeAt compilation.code.bytes (contract.functions.length * 21) =
        .ok (.plain .exit) ∧
      Path (Decided world compilation.code.bytes) compilation.code.bytes ⟨0, [], memory⟩ []
        ⟨contract.functions.length * 21, [], memory⟩

/-- **Every call arrives at the function that the interface promises**, or at the closing exit if
there is none. -/
theorem dispatch_ofContract {contract : Contract} {compilation : Compilation}
    (compiled : ofContract contract = .ok compilation) (few : contract.functions.length ≤ 2 ^ 32)
    (fits : compilation.code.Addressable) :
    (∀ (index : ℕ) (function : FunctionDecl), contract.functions[index]? = some function →
      Listed contract compilation index function.name) ∧
    ∀ (world : World) (memory : ℕ → Word), world.ComparesWords →
      Dispatches contract compilation world memory := by
  refine ⟨fun index function member => listed_ofContract compiled member, ?_⟩
  intro world memory compares
  have sound : compilation.code.Sound := ⟨wellFormed_ofContract compiled, fits⟩
  obtain ⟨functions, memories, bytes, codes, lines, labels⟩ := lines_ofContract compiled
  have holds := Assembly.Holds.whole lines
  have count := contract.length_labels
  have targets := holds_label compiled
  rw [labels] at targets
  constructor
  · intro function member
    obtain ⟨entry, label, found⟩ := (listed_ofContract compiled member).label
    obtain ⟨note, items, target⟩ := holds_label compiled _ (List.mem_of_getElem? label)
    rw [labels] at label
    refine ⟨entry, found, target.decodeAt sound.wellFormed rfl, ?_⟩
    exact Contract.path_dispatch holds sound compares (by omega) targets label (Nat.zero_add _).symm
  · intro behind
    have exit := Contract.holds_exit holds
    have path := @Contract.path_dispatch_of_le world _ _ _ _ [] memory _ holds sound compares
      (by omega) targets (by omega)
    rw [Nat.zero_add, count] at exit path
    exact ⟨exit.decodeAt sound.wellFormed rfl, path⟩

/-- The functions `func stop() { return }` and `func one() int { return 1 }`. -/
def counting : Contract where
  functions :=
    [{ name := "stop", parameters := [], returns := none, body := [.return none] },
      { name := "one"
        parameters := []
        returns := some .int
        body := [.return (some (.integer 1))] }]

/-- The selector 1 leads to the entry of `one`, and the selector 2 to the exit before it. -/
theorem dispatch_counting : ∃ compilation, ofContract counting = .ok compilation ∧
    counting.functions.length ≤ 2 ^ 32 ∧ compilation.code.Addressable ∧
    Path (Decided (.calling 1) compilation.code.bytes) compilation.code.bytes
      ⟨0, [], fun _ => .ofNat 0⟩ [] ⟨46, [], fun _ => .ofNat 0⟩ ∧
    Path (Decided (.calling 2) compilation.code.bytes) compilation.code.bytes
      ⟨0, [], fun _ => .ofNat 0⟩ [] ⟨42, [], fun _ => .ofNat 0⟩ := by
  obtain ⟨compilation, compiled, fits, entry⟩ : ∃ compilation,
      ofContract counting = .ok compilation ∧ compilation.code.position ≤ 2 ^ 64 ∧
        compilation.entryPoint? "one" = some 46 :=
    ⟨_, rfl, by decide, by decide⟩
  have few : counting.functions.length ≤ 2 ^ 32 := by decide
  obtain ⟨-, dispatches⟩ := dispatch_ofContract compiled few fits
  have selector : ∀ n < 2 ^ 64, (World.calling n).selector.toNat = n := fun n fits =>
    Word.toNat_ofNat_of_lt fits
  have first := (dispatches (.calling 1) (fun _ => .ofNat 0) (World.comparesWords_calling 1)).known
  have second := dispatches (.calling 2) (fun _ => .ofNat 0) (World.comparesWords_calling 2)
  rw [selector 1 (by decide)] at first
  obtain ⟨place, found, -, path⟩ := first _ rfl
  cases entry.symm.trans found
  have missed : counting.functions.length ≤ (World.calling 2).selector.toNat := by
    rw [selector 2 (by decide)]
    decide
  exact ⟨compilation, compiled, few, fits, path, (second.unknown missed).2⟩

end Compilation

end Covenant
