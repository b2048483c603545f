/-
**The code of a contract, function by function.**

A contract is compiled as one piece, but its functions do not mix.  Behind the dispatcher each
function has a segment of its own, and this is the code that the function has by itself, relocated
to the place where the segment begins.  What the other functions do shows only in that place.

Main definitions:

* `Covenant.Contract.call`, `Covenant.Contract.noMatch` — the lines of the dispatcher;
* `Covenant.Compilation.Composed` — the code is the dispatcher with segments behind it;
* `Covenant.Compilation.SegmentOf` — what a segment has to do with its function alone.

Main results:

* `Contract.lines_dispatch` — the dispatcher, line by line;
* `FunctionDecl.exists_segments` — the items of functions are cut where the functions begin;
* `Compilation.composed_ofContract` — **a function's code in a contract is its code alone,
  relocated**.
-/

import Covenant.Proofs.Emission.Relocation

set_option relaxedAutoImplicit false
set_option autoImplicit false

namespace Covenant

open Machine
open Emission (Item)

/-! ### The dispatcher -/

namespace Contract

/-- The lines that compare a selector with the one of a function, and jump to the function. -/
def call (selector : ℕ) (label : String × ℕ) : List Assembly.Line :=
  [⟨.push (.ofNat selector), some ("selector of " ++ label.1)⟩, ⟨.plain .loadFunc, none⟩,
    ⟨.plain .equal, none⟩, ⟨.push (.ofNat label.2), some ("entry of " ++ label.1)⟩,
    ⟨.plain .jumpi, none⟩]

/-- The line behind all calls. -/
def noMatch : Assembly.Line :=
  ⟨.plain .exit, some "no function matched"⟩

/-- The dispatcher is one call for each function, in the order of selectors, and an exit. -/
theorem lines_dispatch (selector : ℕ) (labels : List (String × ℕ)) :
    Item.lines (dispatch selector labels) =
      (labels.mapIdx fun index label => call (selector + index) label).flatten ++ [noMatch] := by
  induction labels generalizing selector with
  | nil => rfl
  | cons label rest ih =>
      have shift : ∀ index, selector + 1 + index = selector + (index + 1) := by
        intro index
        omega
      have tail := ih (selector + 1)
      simp only [shift] at tail
      rw [List.mapIdx_cons, List.flatten_cons, List.append_assoc, ← tail]
      rfl

/-- A call has five instructions. -/
theorem length_lines_dispatch (selector : ℕ) (labels : List (String × ℕ)) :
    (Item.lines (dispatch selector labels)).length = labels.length * 5 + 1 := by
  induction labels generalizing selector with
  | nil => rfl
  | cons label rest ih =>
      have tail := ih (selector + 1)
      rw [List.length_cons, Nat.succ_mul, Nat.add_right_comm, ← tail]
      rfl

end Contract

/-! ### Segments -/

namespace FunctionDecl

/-- The items of functions are cut into segments, each emitted where it begins. -/
theorem exists_segments {position : ℕ} {functions : List FunctionDecl} {items : List Item}
    {memories : List MemoryMap} (h : (emitAll position functions).Yields items memories) :
    ∃ segments : List (List Item), items = segments.flatten ∧
      segments.length = functions.length ∧
      ∀ (index : ℕ) (function : FunctionDecl), functions[index]? = some function →
        ∃ segment memory, segments[index]? = some segment ∧ memories[index]? = some memory ∧
          (entries position functions)[index]? =
            some (position + Item.totalSize (segments.take index).flatten) ∧
          (function.emit (position + Item.totalSize (segments.take index).flatten)).Yields
            segment memory := by
  induction functions generalizing position items memories with
  | nil =>
      rw [emitAll] at h
      obtain ⟨rfl, rfl⟩ := Emission.yields_pure_iff.1 h
      exact ⟨[], rfl, rfl, by simp⟩
  | cons first rest ih =>
      rw [emitAll, Emission.yields_bind_iff] at h
      obtain ⟨memory, segment, _, code, h, rfl⟩ := h
      rw [Emission.yields_bind_iff] at h
      obtain ⟨others, more, _, tail, ended, rfl⟩ := h
      obtain ⟨rfl, rfl⟩ := Emission.yields_pure_iff.1 ended
      rw [code.size_eq] at tail
      -- the others are counted from behind the first segment, which is one more to take
      obtain ⟨segments, rfl, length, stands⟩ := ih tail
      refine ⟨segment :: segments, by simp, by simp [length], ?_⟩
      intro index function member
      cases index with
      | zero =>
          cases member
          exact ⟨segment, memory, rfl, rfl, rfl, code⟩
      | succ index =>
          obtain ⟨other, last, here, map, place, yields⟩ := stands index function member
          rw [entries, code.size_eq]
          refine ⟨other, last, here, map, ?_, ?_⟩
          · simpa [Nat.add_assoc] using place
          · simpa [Nat.add_assoc] using yields

end FunctionDecl

namespace Emission.Item

/-- The lines of segments are the segments of the lines. -/
theorem lines_flatten (segments : List (List Item)) :
    lines segments.flatten = (segments.map lines).flatten := by
  rw [lines, List.filterMap_flatten]
  rfl

/-- Where a segment begins and ends among others. -/
theorem totalSize_take_add_le {segments : List (List Item)} {segment : List Item} {index : ℕ}
    (h : segments[index]? = some segment) :
    totalSize (segments.take index).flatten + totalSize segment ≤ totalSize segments.flatten := by
  induction segments generalizing index with
  | nil => simp at h
  | cons first rest ih =>
      cases index with
      | zero =>
          cases h
          simp
      | succ index =>
          have behind := ih h
          simp only [List.take_succ_cons, List.flatten_cons, totalSize_append]
          omega

end Emission.Item

/-! ### Compilations -/

namespace Compilation

/-- The lines of the dispatcher: a call for each function, and an exit. -/
def dispatcher (compilation : Compilation) : List Assembly.Line :=
  (compilation.labels.mapIdx Contract.call).flatten ++ [Contract.noMatch]

theorem dispatcher_eq (compilation : Compilation) :
    compilation.dispatcher = Item.lines (Contract.dispatch 0 compilation.labels) := by
  simp [dispatcher, Contract.lines_dispatch]

/-- What the segment of a function that begins at an entry has to do with the compilation of the
function alone. -/
structure SegmentOf (compilation alone : Compilation) (index entry : ℕ)
    (segment : List Assembly.Line) : Prop where
  /-- The segment is the code of the function alone, relocated to the entry, and nothing else is. -/
  relocated : ∀ lines, Assembly.Relocated entry alone.code.lines lines ↔ lines = segment
  /-- The function has the memory map that it has alone. -/
  scope : ∃ scope, alone.scopes = [scope] ∧ compilation.scopes[index]? = some scope

/-- The code of a contract is the dispatcher with the segments of its functions behind it. -/
structure Composed (contract : Contract) (compilation : Compilation)
    (segments : List (List Assembly.Line)) : Prop where
  lines : compilation.code.lines = compilation.dispatcher ++ segments.flatten
  /-- The dispatcher has five instructions for each function and an exit. -/
  calls : compilation.dispatcher.length = contract.functions.length * 5 + 1
  /-- These take 21 bytes for each function and one for the exit. -/
  bytes : (Assembly.mk compilation.dispatcher).bytes.length = contract.functions.length * 21 + 1
  length : segments.length = contract.functions.length
  /-- Each function compiles by itself, and its segment begins at its label. -/
  member : ∀ index function, contract.functions[index]? = some function →
    ∃ alone segment entry, ofFunction function = .ok alone ∧ segments[index]? = some segment ∧
      compilation.labels[index]? = some (function.name, entry) ∧
      (Assembly.mk (compilation.dispatcher ++ (segments.take index).flatten)).bytes.length = entry ∧
      SegmentOf compilation alone index entry segment

/-- A function whose emission succeeds at an entry compiles by itself, and what was emitted there is
the code that it has by itself, relocated. -/
theorem exists_alone {function : FunctionDecl} {entry : ℕ} {items : List Item} {memory : MemoryMap}
    (h : (function.emit entry).Yields items memory)
    (fits : entry + Item.totalSize items ≤ 2 ^ 64) :
    ∃ alone, ofFunction function = .ok alone ∧ alone.scopes = [⟨function.name, memory⟩] ∧
      Assembly.Relocated entry alone.code.lines (Item.lines items) := by
  -- alone the function is emitted at position zero
  have moved := FunctionDecl.emit_moved 0 entry function
  rw [Nat.zero_add] at moved
  rw [moved, Emission.yields_moved_iff] at h
  obtain ⟨first, yields, rfl⟩ := h
  rw [Item.totalSize_map_moved] at fits
  refine ⟨_, ofFunction_eq_ok_iff.2 ⟨first, memory, yields, rfl⟩, rfl, ?_⟩
  exact (FunctionDecl.code_of_yields yields).relocates (by omega)

/-- Behind the dispatcher stand the lines that the functions emit, each where it begins. -/
theorem exists_segments {contract : Contract} {compilation : Compilation}
    (compiled : ofContract contract = .ok compilation) :
    ∃ segments : List (List Item),
      compilation.code.lines = compilation.dispatcher ++ (segments.map Item.lines).flatten ∧
      segments.length = contract.functions.length ∧
      ∀ (index : ℕ) (function : FunctionDecl), contract.functions[index]? = some function →
        ∃ segment memory entry, segments[index]? = some segment ∧
          contract.bodyPosition + Item.totalSize (segments.take index).flatten = entry ∧
          compilation.labels[index]? = some (function.name, entry) ∧
          compilation.scopes[index]? = some ⟨function.name, memory⟩ ∧
          (function.emit entry).Yields segment memory := by
  obtain ⟨selectors, items, memories, -, emitted, rfl⟩ := ofContract_eq_ok_iff.1 compiled
  obtain ⟨functions, bytes, yields, rfl⟩ := Contract.parts_of_yields emitted
  obtain ⟨segments, rfl, length, stands⟩ := FunctionDecl.exists_segments yields
  refine ⟨segments, ?_, length, fun index function member => ?_⟩
  · simp only [dispatcher_eq, Item.lines_append, Item.lines_flatten]
    exact congrArg _ (List.append_nil _)
  · obtain ⟨segment, memory, here, map, place, code⟩ := stands index function member
    refine ⟨segment, memory, _, here, rfl, ?_, ?_, code⟩
    · simp [Contract.labels, List.getElem?_zip_eq_some, member, place]
    · simp [List.getElem?_zipWith, member, map]

/-- The bytes before a segment are counted by its position. -/
theorem length_bytes_take {compilation : Compilation} (sound : compilation.code.WellFormed)
    {segments : List (List Item)}
    (lines : compilation.code.lines = compilation.dispatcher ++ (segments.map Item.lines).flatten)
    (index : ℕ) :
    (Assembly.mk (compilation.dispatcher ++
      ((segments.map Item.lines).take index).flatten)).bytes.length =
        Item.totalSize (Contract.dispatch 0 compilation.labels) +
          Item.totalSize (segments.take index).flatten := by
  have split : segments.flatten =
      (segments.take index).flatten ++ (segments.drop index).flatten := by
    rw [← List.flatten_append, List.take_append_drop]
  rw [dispatcher_eq, ← Item.lines_flatten, split, Item.lines_append, ← List.append_assoc,
    ← Item.lines_append] at lines
  rw [dispatcher_eq, ← List.map_take, ← Item.lines_flatten, ← Item.lines_append,
    ← Item.totalSize_append, ← Item.position_lines]
  refine Assembly.length_bytes fun line mem => sound line ?_
  rw [lines]
  exact List.mem_append_left _ mem

/-- **A function's code in a contract is its code alone, relocated to where it begins.** -/
theorem composed_ofContract {contract : Contract} {compilation : Compilation}
    (compiled : ofContract contract = .ok compilation) (fits : compilation.code.Addressable) :
    ∃ segments, Composed contract compilation segments := by
  have sound := wellFormed_ofContract compiled
  obtain ⟨-, -, -, -, -, labels⟩ := lines_ofContract compiled
  obtain ⟨segments, lines, length, stands⟩ := exists_segments compiled
  have size : Item.totalSize (Contract.dispatch 0 compilation.labels) = contract.bodyPosition := by
    rw [labels, Contract.totalSize_dispatch_labels]
  have start := length_bytes_take sound lines
  rw [size] at start
  have bound : contract.bodyPosition + Item.totalSize segments.flatten ≤ 2 ^ 64 := by
    rw [← size, ← Item.totalSize_append, ← Item.position_lines, Item.lines_append,
      Item.lines_flatten, ← dispatcher_eq, ← lines]
    exact fits
  refine ⟨segments.map Item.lines, lines, ?_, ?_, by rw [List.length_map, length], ?_⟩
  · rw [dispatcher_eq, Contract.length_lines_dispatch, labels, Contract.length_labels]
  · have front := start 0
    rw [List.take_zero, List.flatten_nil, List.append_nil] at front
    exact front
  · intro index function member
    obtain ⟨segment, memory, entry, here, place, label, scope, yields⟩ :=
      stands index function member
    have inside := Item.totalSize_take_add_le here
    obtain ⟨alone, compiledAlone, scopes, relocated⟩ := exists_alone yields (by omega)
    refine ⟨alone, Item.lines segment, entry, compiledAlone, by simp [here], label,
      (start index).trans place, fun other => ⟨fun relocated' => ?_, ?_⟩, _, scopes, scope⟩
    · exact relocated'.unique relocated
    · rintro rfl
      exact relocated

/-- The functions `func stop() { return }` and
`func clip(c bool) int { if c { return 1 } return 2 }`. -/
def clipping : Contract where
  functions :=
    [{ name := "stop", parameters := [], returns := none, body := [.return none] },
      { name := "clip"
        parameters := [⟨"c", .bool⟩]
        returns := some .int
        body := [.ifThen (.identifier "c") [.return (some (.integer 1))],
          .return (some (.integer 2))] }]

/-- The code of `clip` is relocated by 46 bytes, of which 43 are the dispatcher's. -/
theorem composed_clipping : ∃ compilation segments alone segment,
    ofContract clipping = .ok compilation ∧ compilation.code.Addressable ∧
      Composed clipping compilation segments ∧ segments[1]? = some segment ∧
      SegmentOf compilation alone 1 46 segment := by
  obtain ⟨compilation, compiled, fits, label⟩ : ∃ compilation,
      ofContract clipping = .ok compilation ∧ compilation.code.position ≤ 2 ^ 64 ∧
        compilation.labels[1]? = some ("clip", 46) :=
    ⟨_, rfl, by decide, by decide⟩
  obtain ⟨segments, composed⟩ := composed_ofContract compiled fits
  obtain ⟨alone, segment, entry, -, here, place, -, stands⟩ := composed.member 1 _ rfl
  rw [label] at place
  cases place
  exact ⟨compilation, segments, alone, segment, compiled, fits, composed, here, stands⟩

end Compilation

end Covenant
