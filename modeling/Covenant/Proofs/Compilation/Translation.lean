/-
**One pass makes the same compilation.**

`Covenant/Proofs/Emission/Translation.lean` compares the translation of a function with what is
emitted for it.  In a contract the functions stand behind a dispatcher, which is written first and
jumps to entries that are found only later.  Until the entry of a function is filled in, the
dispatcher holds zero there, and so it is the dispatcher for other labels: those of the functions
that are translated have their entries, and those of the others have zero.  Translating one more
function moves the border between them by one, and moves nothing in the code, because the size of
the dispatcher does not depend on the entries.

Selectors are counted in thirty-two bits.  The names of a contract are refused before the dispatcher
is written if there are more of them than selectors, so that no selector is pushed twice.

Main definitions:

* `Covenant.Contract.unfilled` — the labels of functions whose entries are not known yet;
* `Covenant.Contract.entryIndices` — where the entries of functions are filled in;
* `Covenant.Draft.file` — a draft with more labels and scopes.

Main results:

* `Contract.on_translateDispatch` — the dispatcher is written with zeros for entries;
* `Contract.exists_dispatch_split` — the entry of one function is one line of the dispatcher;
* `Contract.on_translateFunctions_ok`, `Contract.on_translateFunctions_error` — functions are
  translated to what is emitted for them, and their entries are filled in;
* `Draft.ofContract_eq`, `Draft.ofFunction_eq` — **the translation is the compilation**, with the
  same code, tables, log and fault.
-/

import Covenant.Proofs.Compilation.Verdict
import Covenant.Proofs.Emission.Translation

set_option relaxedAutoImplicit false
set_option autoImplicit false

namespace Covenant

open Machine Translator
open Emission (Item)

/-! ### Functions -/

namespace Draft

/-- The draft with more labels and scopes. -/
def file (draft : Draft) (labels : List (String × ℕ)) (scopes : List Scope) : Draft :=
  { draft with
    labels := draft.labels ++ labels
    scopes := draft.scopes ++ scopes }

theorem file_nil (draft : Draft) : draft.file [] [] = draft := by
  simp only [file, List.append_nil]

theorem file_file (draft : Draft) (labels more : List (String × ℕ)) (scopes others : List Scope) :
    (draft.file labels scopes).file more others =
      draft.file (labels ++ more) (scopes ++ others) := by
  simp only [file, List.append_assoc]

theorem file_write (draft : Draft) (items : List Item) (labels : List (String × ℕ))
    (scopes : List Scope) :
    (draft.write items).file labels scopes = (draft.file labels scopes).write items := rfl

end Draft

namespace FunctionDecl

variable {function : FunctionDecl} {draft : Draft} {position : ℕ}

/-- The label is noted first, which does not move the code. -/
theorem on_translate (here : draft.code.position = position) :
    function.translate.on draft =
      (function.translateCode >>= fun memory => modify fun draft =>
        { draft with scopes := draft.scopes ++ [⟨function.name, memory⟩] }).on
          (draft.file [(function.name, position)] []) := by
  rw [translate, on_bind_ok (on_modify _ draft), here, Draft.file, List.append_nil]

/-- **A function is translated to its code, its label and its scope.** -/
theorem on_translate_ok (here : draft.code.position = position) {memory : MemoryMap}
    (emitted : (function.emit position).result = .ok memory) :
    function.translate.on draft =
      (.ok (), (draft.file [(function.name, position)] [⟨function.name, memory⟩]).write
        (function.emit position).items) := by
  have labelled : (draft.file [(function.name, position)] []).code.position = position := here
  rw [on_translate here, on_bind_ok ((function.writes_translateCode labelled).on_ok emitted),
    on_modify]
  simp only [Draft.write, Draft.file, List.append_nil]

/-- A function that has a fault leaves the log up to the fault. -/
theorem on_translate_error (here : draft.code.position = position) {fault : CompileError}
    (emitted : (function.emit position).result = .error fault) :
    ∃ rest, function.translate.on draft = (.error fault, rest) ∧
      rest.log = (draft.write (function.emit position).items).log := by
  have labelled : (draft.file [(function.name, position)] []).code.position = position := here
  obtain ⟨rest, failed, log⟩ := (function.writes_translateCode labelled).on_error emitted
  refine ⟨rest, ?_, log⟩
  rw [on_translate here, on_bind_error failed]

end FunctionDecl

namespace Contract

/-! ### Names -/

/-- Functions get the selectors that their names are given. -/
theorem on_translateNames_ok {functions : List FunctionDecl} (draft : Draft)
    {selectors : SelectorTable}
    (inserted : draft.selectors.insertAll (functions.map FunctionDecl.name) = .ok selectors) :
    (translateNames functions).on draft = (.ok (), { draft with selectors }) := by
  induction functions generalizing draft with
  | nil =>
      cases inserted
      rfl
  | cons function rest ih =>
      rw [List.map_cons, SelectorTable.insertAll] at inserted
      rw [translateNames, on_get_bind]
      cases step : draft.selectors.insert? function.name with
      | none =>
          simp only [step] at inserted
          cases inserted
      | some larger =>
          simp only [step] at inserted ⊢
          exact ih { draft with selectors := larger } inserted

/-- The first name that is refused is reported, and nothing is in the log. -/
theorem on_translateNames_error {functions : List FunctionDecl} (draft : Draft) {name : String}
    (refused : draft.selectors.insertAll (functions.map FunctionDecl.name) = .error name) :
    ∃ rest, (translateNames functions).on draft = (.error (.duplicateFunction name), rest) ∧
      rest.log = draft.log := by
  induction functions generalizing draft with
  | nil => cases refused
  | cons function rest ih =>
      rw [List.map_cons, SelectorTable.insertAll] at refused
      rw [translateNames, on_get_bind]
      cases step : draft.selectors.insert? function.name with
      | none =>
          simp only [step] at refused ⊢
          cases refused
          exact ⟨draft, rfl, rfl⟩
      | some larger =>
          simp only [step] at refused ⊢
          exact ih { draft with selectors := larger } refused

/-! ### The dispatcher -/

/-- The labels of functions whose entries are not known yet. -/
def unfilled (functions : List FunctionDecl) : List (String × ℕ) :=
  functions.map fun function => (function.name, 0)

/-- Where the entries of functions are filled in, if the call of the first one begins at this
index. -/
def entryIndices (index : ℕ) : List FunctionDecl → List ℕ
  | [] => []
  | _ :: rest => (index + 3) :: entryIndices (index + 5) rest

/-- The push of an entry that is filled in later. -/
theorem on_pushNumber_entry (name : String) (draft : Draft) :
    (pushNumber 0 ("entry of " ++ name)).on draft =
      (.ok draft.code.lines.length, draft.write [.forward 0 ("entry of " ++ name)]) :=
  on_pushNumber 0 (append_ne_empty (by decide) name) draft

/-- **The dispatcher is written with zeros for entries.** -/
theorem on_translateDispatch {functions : List FunctionDecl} {selector : ℕ}
    (few : selector + functions.length ≤ UInt32.size) (draft : Draft) :
    (translateDispatch selector functions).on draft =
      (.ok (entryIndices draft.code.lines.length functions),
        draft.write (dispatch selector (unfilled functions))) := by
  induction functions generalizing selector draft with
  | nil => rfl
  | cons function rest ih =>
      rw [List.length_cons] at few
      have number : (UInt32.ofNat selector).toNat = selector :=
        UInt32.toNat_ofNat_of_lt' (by omega)
      have tail := @ih (selector + 1) (by omega)
      rw [translateDispatch, number, on_bind_ok (on_pushNumber _ (append_ne_empty (by decide) _) _),
        on_bind_ok (on_plain .loadFunc _), on_bind_ok (on_plain .equal _),
        on_bind_ok (on_pushNumber_entry _ _), on_bind_ok (on_plain .jumpi _),
        on_bind_ok (tail _)]
      simp only [Draft.write_write, Draft.lines_write, List.length_append]
      rfl

/-- **The entry of one function is one line of the dispatcher**, and nothing else in it depends on
the entry. -/
theorem exists_dispatch_split (selector : ℕ) (done more : List (String × ℕ)) (name : String) :
    ∃ front back, (Item.lines front).length = done.length * 5 + 3 ∧ ∀ entry,
      dispatch selector (done ++ (name, entry) :: more) =
        front ++ .forward entry ("entry of " ++ name) :: back := by
  induction done generalizing selector with
  | nil =>
      refine ⟨[.push (.ofNat selector) ("selector of " ++ name), .plain .loadFunc, .plain .equal],
        .plain .jumpi :: dispatch (selector + 1) more, rfl, fun entry => rfl⟩
  | cons label done ih =>
      obtain ⟨first, place⟩ := label
      obtain ⟨front, back, length, same⟩ := ih (selector + 1)
      let call : List Item := [.push (.ofNat selector) ("selector of " ++ first), .plain .loadFunc,
        .plain .equal, .forward place ("entry of " ++ first), .plain .jumpi]
      refine ⟨call ++ front, back, ?_, fun entry => ?_⟩
      · rw [Item.lines_append, List.length_append, length, List.length_cons]
        have five : (Item.lines call).length = 5 := rfl
        omega
      · rw [List.cons_append, dispatch, same entry]
        rfl

/-- The entries in a dispatcher are not noticed. -/
theorem alike_dispatch (selector : ℕ) {labels others : List (String × ℕ)}
    (same : labels.map Prod.fst = others.map Prod.fst) :
    Item.Alike (dispatch selector labels) (dispatch selector others) := by
  induction labels generalizing selector others with
  | nil =>
      obtain rfl := List.map_eq_nil_iff.1 same.symm
      exact .refl _
  | cons label rest ih =>
      obtain ⟨other, others, rfl, name, names⟩ := List.map_eq_cons_iff.1 same.symm
      rw [dispatch, dispatch, name]
      exact .cons ⟨rfl, rfl⟩ (.cons ⟨rfl, rfl⟩ (.cons ⟨rfl, rfl⟩ (.cons ⟨rfl, rfl⟩
        (.cons ⟨rfl, rfl⟩ (ih (selector + 1) names.symm)))))

theorem names_unfilled (functions : List FunctionDecl) :
    (unfilled functions).map Prod.fst = functions.map FunctionDecl.name :=
  List.map_map

/-- The entry of the next function is not noticed. -/
theorem alike_next (selector entry : ℕ) (done : List (String × ℕ)) (function : FunctionDecl)
    (rest : List FunctionDecl) (items : List Item) :
    Item.Alike (dispatch selector (done ++ (function.name, entry) :: unfilled rest) ++ items)
      (dispatch selector (done ++ unfilled (function :: rest)) ++ items) := by
  refine (alike_dispatch selector ?_).append (.refl items)
  rw [List.map_append, List.map_append]
  rfl

/-- Filling in the entry of a function moves it to the labels that are known. -/
theorem on_fillDestination_entry {draft : Draft} {index entry selector : ℕ}
    {done more : List (String × ℕ)} {name : String} {items : List Item}
    (place : index = draft.code.lines.length + (done.length * 5 + 3)) :
    (fillDestination index entry ("entry of " ++ name)).on
        (draft.write (dispatch selector (done ++ (name, 0) :: more) ++ items)) =
      (.ok (), draft.write (dispatch selector (done ++ (name, entry) :: more) ++ items)) := by
  obtain ⟨front, back, length, same⟩ := exists_dispatch_split selector done more name
  have place' : index = (draft.write front).code.lines.length := by
    rw [place, Draft.lines_write, List.length_append, length]
  rw [same, same, List.append_assoc, List.append_assoc, List.cons_append, List.cons_append]
  exact on_fillDestination (Item.waits_forward _) place' entry _

/-! ### Functions behind the dispatcher -/

section Functions

variable {draft : Draft} {selector position : ℕ} {done : List (String × ℕ)} {items : List Item}

/-- The labels of functions that are known once they are translated. -/
def filled (position : ℕ) (functions : List FunctionDecl) : List (String × ℕ) :=
  (functions.map FunctionDecl.name).zip (FunctionDecl.entries position functions)

variable {function : FunctionDecl} {rest : List FunctionDecl}
  (here : draft.code.position +
    Item.totalSize (dispatch selector (done ++ unfilled (function :: rest)) ++ items) = position)

include here

/-- The entry of the next function is filled in with the position arrived at, which stays. -/
theorem on_translateFunctions_cons :
    (translateFunctions ((function :: rest).zip
        (entryIndices (draft.code.lines.length + done.length * 5) (function :: rest)))).on
        (draft.write (dispatch selector (done ++ unfilled (function :: rest)) ++ items)) =
      (function.translate >>= fun _ => translateFunctions
        (rest.zip (entryIndices (draft.code.lines.length + done.length * 5 + 5) rest))).on
        (draft.write (dispatch selector (done ++ (function.name, position) :: unfilled rest) ++
          items)) ∧
    (draft.write (dispatch selector (done ++ (function.name, position) :: unfilled rest) ++
      items)).code.position = position := by
  have fills := @on_fillDestination_entry draft _ position selector done (unfilled rest)
    function.name items rfl
  have zips : (function :: rest).zip
      (entryIndices (draft.code.lines.length + done.length * 5) (function :: rest)) =
    (function, draft.code.lines.length + (done.length * 5 + 3)) ::
      rest.zip (entryIndices (draft.code.lines.length + done.length * 5 + 5) rest) := rfl
  constructor
  · rw [zips, translateFunctions, on_get_bind, Draft.position_write, here]
    exact on_bind_ok fills
  · rw [Draft.position_write, (alike_next selector position done function rest items).totalSize_eq,
      here]

/-- **One more function** moves the border between the entries that are known and the others. -/
theorem on_translateFunctions_cons_ok {memory : MemoryMap}
    (code : (function.emit position).result = .ok memory) :
    (translateFunctions ((function :: rest).zip
        (entryIndices (draft.code.lines.length + done.length * 5) (function :: rest)))).on
        (draft.write (dispatch selector (done ++ unfilled (function :: rest)) ++ items)) =
      (translateFunctions (rest.zip (entryIndices ((draft.file [(function.name, position)]
          [⟨function.name, memory⟩]).code.lines.length +
            (done ++ [(function.name, position)]).length * 5) rest))).on
        ((draft.file [(function.name, position)] [⟨function.name, memory⟩]).write
          (dispatch selector (done ++ [(function.name, position)] ++ unfilled rest) ++
            (items ++ (function.emit position).items))) ∧
    (draft.file [(function.name, position)] [⟨function.name, memory⟩]).code.position +
      Item.totalSize
        (dispatch selector (done ++ [(function.name, position)] ++ unfilled rest) ++
          (items ++ (function.emit position).items)) =
      position + (function.emit position).size := by
  obtain ⟨starts, arrived⟩ := on_translateFunctions_cons here
  have moved : done ++ (function.name, position) :: unfilled rest =
      done ++ [(function.name, position)] ++ unfilled rest := by simp
  have index : draft.code.lines.length + done.length * 5 + 5 =
      draft.code.lines.length + (done ++ [(function.name, position)]).length * 5 := by
    rw [List.length_append, List.length_singleton]
    omega
  constructor
  · rw [starts, on_bind_ok (FunctionDecl.on_translate_ok arrived code), index, moved,
      Draft.file_write, Draft.write_write, List.append_assoc]
    rfl
  · rw [Draft.position_write, moved] at arrived
    rw [← List.append_assoc, Item.totalSize_append, ← Nat.add_assoc]
    exact congrArg (· + _) arrived

end Functions

variable {functions : List FunctionDecl}

/-- **Functions are translated to what is emitted for them**, and their entries are filled in. -/
theorem on_translateFunctions_ok (draft : Draft) {selector position : ℕ}
    {done : List (String × ℕ)} {items : List Item} {memories : List MemoryMap}
    (here : draft.code.position +
      Item.totalSize (dispatch selector (done ++ unfilled functions) ++ items) = position)
    (emitted : (FunctionDecl.emitAll position functions).result = .ok memories) :
    (translateFunctions
        (functions.zip (entryIndices (draft.code.lines.length + done.length * 5) functions))).on
        (draft.write (dispatch selector (done ++ unfilled functions) ++ items)) =
      (.ok (), (draft.file (filled position functions)
          (List.zipWith Scope.mk (functions.map FunctionDecl.name) memories)).write
        (dispatch selector (done ++ filled position functions) ++
          (items ++ (FunctionDecl.emitAll position functions).items))) := by
  induction functions generalizing draft position done items memories with
  | nil =>
      cases emitted
      simp only [unfilled, filled, FunctionDecl.emitAll, Emission.items_pure, List.map_nil,
        List.zip_nil_left, List.zipWith_nil_left, List.append_nil, Draft.file_nil]
      rfl
  | cons function rest ih =>
      rw [FunctionDecl.emitAll, Emission.result_bind] at emitted
      cases code : (function.emit position).result with
      | error fault =>
          rw [code] at emitted
          cases emitted
      | ok memory =>
          rw [code, ok_bind, Emission.result_bind] at emitted
          cases others : (FunctionDecl.emitAll (position + (function.emit position).size)
              rest).result with
          | error fault =>
              rw [others] at emitted
              cases emitted
          | ok more =>
              rw [others] at emitted
              cases emitted
              obtain ⟨starts, next⟩ := on_translateFunctions_cons_ok here code
              have written : (FunctionDecl.emitAll position (function :: rest)).items =
                  (function.emit position).items ++ (FunctionDecl.emitAll
                    (position + (function.emit position).size) rest).items := by
                rw [FunctionDecl.emitAll, Emission.items_bind_ok code,
                  Emission.items_bind_ok others, Emission.items_pure, List.append_nil]
              rw [starts, ih _ next others, written]
              simp [filled, FunctionDecl.entries, Draft.file_file]

/-- Where the emission of functions has a fault, so has their translation, and the same log. -/
theorem on_translateFunctions_error (draft : Draft) {selector position : ℕ}
    {done : List (String × ℕ)} {items : List Item} {fault : CompileError}
    (here : draft.code.position +
      Item.totalSize (dispatch selector (done ++ unfilled functions) ++ items) = position)
    (emitted : (FunctionDecl.emitAll position functions).result = .error fault) :
    ∃ rest, (translateFunctions
        (functions.zip (entryIndices (draft.code.lines.length + done.length * 5) functions))).on
        (draft.write (dispatch selector (done ++ unfilled functions) ++ items)) =
      (.error fault, rest) ∧
      rest.log = (draft.write (dispatch selector (done ++ unfilled functions) ++
        (items ++ (FunctionDecl.emitAll position functions).items))).log := by
  induction functions generalizing draft position done items with
  | nil => cases emitted
  | cons function others ih =>
      rw [FunctionDecl.emitAll, Emission.result_bind] at emitted
      cases code : (function.emit position).result with
      | error fault' =>
          rw [code] at emitted
          cases emitted
          obtain ⟨starts, arrived⟩ := on_translateFunctions_cons here
          obtain ⟨rest, failed, log⟩ := FunctionDecl.on_translate_error arrived code
          refine ⟨rest, by rw [starts, on_bind_error failed], ?_⟩
          rw [log, FunctionDecl.emitAll, Emission.items_bind_error code, Draft.write_write,
            List.append_assoc, Draft.log_write, (alike_next _ _ _ _ _ _).events_eq]
          rfl
      | ok memory =>
          rw [code, ok_bind, Emission.result_bind] at emitted
          cases behind : (FunctionDecl.emitAll (position + (function.emit position).size)
              others).result with
          | ok memories =>
              rw [behind] at emitted
              cases emitted
          | error fault' =>
              rw [behind] at emitted
              cases emitted
              obtain ⟨starts, next⟩ := on_translateFunctions_cons_ok here code
              obtain ⟨rest, failed, log⟩ := ih _ next behind
              refine ⟨rest, by rw [starts, failed], ?_⟩
              rw [log, FunctionDecl.emitAll, Emission.items_bind_ok code,
                Emission.items_bind_error behind, Draft.log_write, List.append_assoc done,
                List.singleton_append, List.append_assoc items,
                (alike_next _ _ _ _ _ _).events_eq]
              rfl

/-! ### Contracts -/

theorem items_emitDispatch (selector : ℕ) (labels : List (String × ℕ)) :
    (emitDispatch selector labels).items = dispatch selector labels :=
  yields_emitDispatch_iff.1 ⟨rfl, result_emitDispatch labels selector⟩

/-- What is emitted for a contract whose functions have no fault. -/
theorem items_emit_of_ok {contract : Contract} {memories : List MemoryMap}
    (emitted : (FunctionDecl.emitAll contract.bodyPosition contract.functions).result =
      .ok memories) :
    contract.emit.items = dispatch 0 contract.labels ++
      ((FunctionDecl.emitAll contract.bodyPosition contract.functions).items ++
        [.remark (.compiledContract contract.functions.length
          (Item.totalSize (dispatch 0 contract.labels ++
            (FunctionDecl.emitAll contract.bodyPosition contract.functions).items)))]) := by
  rw [emit, Emission.items_bind_ok (result_emitDispatch contract.labels 0),
    Emission.items_bind_ok emitted, Emission.size, items_emitDispatch, Item.totalSize_append]
  rfl

/-- What is emitted for a contract up to the fault in one of its functions. -/
theorem items_emit_of_error {contract : Contract} {fault : CompileError}
    (emitted : (FunctionDecl.emitAll contract.bodyPosition contract.functions).result =
      .error fault) :
    contract.emit.items = dispatch 0 contract.labels ++
      (FunctionDecl.emitAll contract.bodyPosition contract.functions).items := by
  rw [emit, Emission.items_bind_ok (result_emitDispatch contract.labels 0), items_emitDispatch,
    Emission.items_bind_error emitted]

section Contracts

variable {contract : Contract} {selectors : SelectorTable}
  (inserted : SelectorTable.empty.insertAll (contract.functions.map FunctionDecl.name) =
    .ok selectors)

include inserted

/-- The draft behind the dispatcher, and where the functions begin. -/
theorem on_translate_dispatch :
    contract.translate.on .empty =
      (do
        translateFunctions (contract.functions.zip (entryIndices 0 contract.functions))
        let draft ← get
        remark (.compiledContract contract.functions.length draft.code.position)
        : Translator Unit).on ({ Draft.empty with selectors }.write
          (dispatch 0 ([] ++ unfilled contract.functions) ++ [])) ∧
    Draft.empty.code.position +
        Item.totalSize (dispatch 0 ([] ++ unfilled contract.functions) ++ []) =
      contract.bodyPosition := by
  obtain ⟨numbered, names⟩ := SelectorTable.numbered_empty.insertAll inserted
  have few : 0 + contract.functions.length ≤ UInt32.size := by
    have most := numbered.size_le
    rwa [← SelectorTable.length_names, names, SelectorTable.names_empty, List.nil_append,
      List.length_map, ← Nat.zero_add contract.functions.length] at most
  rw [List.append_nil, List.nil_append]
  constructor
  · rw [translate, on_bind_ok (on_translateNames_ok .empty inserted)]
    exact on_bind_ok (on_translateDispatch few _)
  · rw [totalSize_dispatch, unfilled, List.length_map]
    exact Nat.zero_add _

/-- A contract whose functions have no fault is translated to what is emitted for it, with its
labels and scopes. -/
theorem on_translate_ok {memories : List MemoryMap}
    (emitted : (FunctionDecl.emitAll contract.bodyPosition contract.functions).result =
      .ok memories) :
    contract.translate.on .empty = (.ok (), ({ Draft.empty with selectors }.file contract.labels
      (List.zipWith Scope.mk (contract.functions.map FunctionDecl.name) memories)).write
        contract.emit.items) := by
  obtain ⟨starts, here⟩ := on_translate_dispatch inserted
  have written := on_translateFunctions_ok { Draft.empty with selectors } here emitted
  have zero : ∀ labels scopes,
      ({ Draft.empty with selectors }.file labels scopes).code.position = 0 := fun _ _ => rfl
  refine starts.trans ((on_bind_ok written).trans ?_)
  rw [on_get_bind, on_remark, Draft.write_write, Draft.position_write, items_emit_of_ok emitted,
    List.append_assoc, List.append_assoc, zero, Nat.zero_add]
  rfl

/-- A contract one of whose functions has a fault leaves the log up to the fault. -/
theorem on_translate_error {fault : CompileError}
    (emitted : (FunctionDecl.emitAll contract.bodyPosition contract.functions).result =
      .error fault) :
    ∃ rest, contract.translate.on .empty = (.error fault, rest) ∧
      rest.log = Item.events 0 contract.emit.items := by
  obtain ⟨starts, here⟩ := on_translate_dispatch inserted
  obtain ⟨rest, failed, log⟩ :=
    on_translateFunctions_error { Draft.empty with selectors } here emitted
  refine ⟨rest, starts.trans (on_bind_error failed), ?_⟩
  rw [log, items_emit_of_error emitted, Draft.log_write]
  have names : ([] ++ unfilled contract.functions).map Prod.fst =
      contract.labels.map Prod.fst := by
    rw [List.nil_append, names_unfilled, labels, List.map_fst_zip]
    rw [List.length_map, length_entries]
  exact ((alike_dispatch 0 names).append (.refl _)).events_eq 0

end Contracts

end Contract

/-! ### Compilations -/

namespace Draft

theorem finish_eq (translator : Translator Unit) : finish translator =
    ((translator.on empty).1.map fun _ => (translator.on empty).2.toCompilation,
      (translator.on empty).2.log) := rfl

theorem finish_of_ok {translator : Translator Unit} {draft : Draft}
    (done : translator.on empty = (.ok (), draft)) :
    finish translator = (.ok draft.toCompilation, draft.log) := by
  rw [finish_eq, done]
  rfl

theorem finish_of_error {translator : Translator Unit} {draft : Draft} {fault : CompileError}
    (failed : translator.on empty = (.error fault, draft)) :
    finish translator = (.error fault, draft.log) := by
  rw [finish_eq, failed]
  rfl

/-- **The translation of a contract is its compilation**, with the same log, and with the same fault
if there is one. -/
theorem ofContract_eq (contract : Contract) :
    ofContract contract =
      (Compilation.ofContract contract, Compilation.logOfContract contract) := by
  rw [ofContract, Compilation.ofContract, Compilation.logOfContract]
  cases inserted : SelectorTable.empty.insertAll (contract.functions.map FunctionDecl.name) with
  | error name =>
      obtain ⟨rest, refused, log⟩ := Contract.on_translateNames_error empty inserted
      have failed : contract.translate.on empty = (.error (.duplicateFunction name), rest) :=
        on_bind_error refused
      rw [finish_of_error failed, log]
      rfl
  | ok selectors =>
      have result := contract.result_emit
      cases emitted : (FunctionDecl.emitAll contract.bodyPosition contract.functions).result with
      | error fault =>
          obtain ⟨rest, failed, log⟩ := Contract.on_translate_error inserted emitted
          rw [emitted] at result
          rw [finish_of_error failed, log]
          simp only [result]
      | ok memories =>
          rw [emitted] at result
          rw [finish_of_ok (Contract.on_translate_ok inserted emitted)]
          simp only [result]
          rfl

/-- **The translation of a function by itself is its compilation**, with the same log, and with the
same fault if there is one. -/
theorem ofFunction_eq (function : FunctionDecl) :
    ofFunction function =
      (Compilation.ofFunction function, Compilation.logOfFunction function) := by
  rw [ofFunction, Compilation.ofFunction, Compilation.logOfFunction]
  let named : Draft := { empty with selectors := ⟨[(function.name, 0)]⟩ }
  have names : (modify fun draft => { draft with
      selectors := (draft.selectors.insert? function.name).getD draft.selectors } :
        Translator Unit).on empty = (.ok (), named) := by
    have first : empty.selectors.insert? function.name = some ⟨[(function.name, 0)]⟩ :=
      SelectorTable.insert?_empty function.name
    rw [on_modify, first]
    rfl
  have here : named.code.position = 0 := rfl
  cases emitted : (function.emit 0).result with
  | error fault =>
      obtain ⟨rest, failed, log⟩ := FunctionDecl.on_translate_error here emitted
      rw [finish_of_error ((on_bind_ok names).trans failed), log]
      rfl
  | ok memory =>
      have done := FunctionDecl.on_translate_ok here emitted
      rw [finish_of_ok ((on_bind_ok names).trans done)]
      rfl

end Draft

end Covenant
