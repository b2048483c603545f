/-
**Slots by the order of definitions.**

A memory map is only ever grown by definitions, so it is known as soon as the names are known that
were defined, in order.  The slot of a name is told by the place of its last definition among all
of them, whatever else was defined in between, and the names that stand for a slot are listed by
increasing offset because a definition puts its name at the end.

Main definitions:

* `Covenant.Slot.nth` — the slot that a definition takes by its place among all of them;
* `Covenant.MemoryMap.ofNames` — the map behind definitions of some names, one after another;
* `Covenant.MemoryMap.Latest` — a definition is the last one of its name.

Main results:

* `MemoryMap.slot?_ofNames_eq_some_iff`, `MemoryMap.mem_rows_ofNames_iff` — **a name stands for the
  slot of its last definition**;
* `MemoryMap.pairwise_rows_ofNames`, `MemoryMap.increasing_rows_ofNames`,
  `MemoryMap.nodup_rows_ofNames` — the rows are apart and in order, and have one name each.
-/

import Covenant.Proofs.MemoryMap
import Mathlib.Data.List.Induction
import Mathlib.Data.List.Nodup

set_option relaxedAutoImplicit false
set_option autoImplicit false

namespace Covenant

/-- The slot that the definition at an index takes. -/
def Slot.nth (index : ℕ) : Slot := ⟨8 * index, 8⟩

namespace MemoryMap

/-- The map behind definitions of these names, one after another. -/
def ofNames (names : List String) : MemoryMap :=
  names.foldl define empty

@[simp] theorem ofNames_nil : ofNames [] = empty := rfl

theorem ofNames_append_singleton (names : List String) (name : String) :
    ofNames (names ++ [name]) = (ofNames names).define name := by
  rw [ofNames, List.foldl_append]
  rfl

/-! ### The last definition of a name -/

/-- The definition at an index is the last one of the name. -/
def Latest (names : List String) (name : String) (index : ℕ) : Prop :=
  names[index]? = some name ∧ ∀ later, index < later → names[later]? ≠ some name

theorem Latest.lt_length {names : List String} {name : String} {index : ℕ}
    (latest : Latest names name index) : index < names.length :=
  (List.getElem?_eq_some_iff.1 latest.1).1

/-- A name at an index of a list with a further name behind it. -/
theorem getElem?_append_singleton_eq_some_iff {names : List String} {name last : String}
    {index : ℕ} : (names ++ [last])[index]? = some name ↔
      (index = names.length ∧ name = last) ∨ names[index]? = some name := by
  rcases Nat.lt_trichotomy index names.length with inside | rfl | outside
  · rw [List.getElem?_append_left inside]
    exact ⟨.inr, fun h => h.resolve_left fun ⟨place, _⟩ => absurd place (Nat.ne_of_lt inside)⟩
  · rw [List.getElem?_concat_length, Option.some.injEq, List.getElem?_eq_none (Nat.le_refl _)]
    simp [eq_comm]
  · rw [List.getElem?_eq_none (by simpa using Nat.succ_le_of_lt outside),
      List.getElem?_eq_none (Nat.le_of_lt outside)]
    exact ⟨nofun, fun h => h.elim (fun ⟨place, _⟩ => absurd place (Nat.ne_of_gt outside)) nofun⟩

/-- A further definition is the last one of its own name and leaves the other names alone. -/
theorem latest_append_singleton_iff {names : List String} {name last : String} {index : ℕ} :
    Latest (names ++ [last]) name index ↔
      (name = last ∧ index = names.length) ∨ (name ≠ last ∧ Latest names name index) := by
  simp only [Latest, ne_eq, getElem?_append_singleton_eq_some_iff]
  constructor
  · rintro ⟨⟨rfl, rfl⟩ | here, final⟩
    · exact .inl ⟨rfl, rfl⟩
    · refine .inr ⟨?_, here, fun later follows found => final later follows (.inr found)⟩
      -- a definition of the same name at the end would be a later one
      rintro rfl
      have bound := (List.getElem?_eq_some_iff.1 here).1
      exact final names.length bound (.inl ⟨rfl, rfl⟩)
  · rintro (⟨rfl, rfl⟩ | ⟨other, here, final⟩)
    · refine ⟨.inl ⟨rfl, rfl⟩, ?_⟩
      rintro later follows (⟨rfl, -⟩ | found)
      · exact Nat.lt_irrefl _ follows
      · have bound := (List.getElem?_eq_some_iff.1 found).1
        omega
    · refine ⟨.inr here, ?_⟩
      rintro later follows (⟨-, rfl⟩ | found)
      · exact other rfl
      · exact final later follows found

/-! ### The map behind definitions -/

/-- Every definition takes eight bytes. -/
theorem cursor_ofNames (names : List String) : (ofNames names).cursor = 8 * names.length := by
  induction names using List.reverseRecOn with
  | nil => rfl
  | append_singleton names name ih =>
      have eight : slotSize = 8 := rfl
      rw [ofNames_append_singleton, cursor_define, ih, List.length_append, List.length_singleton,
        eight, Nat.mul_succ]

/-- The next definition takes the slot behind those of all others. -/
theorem next_ofNames (names : List String) : (ofNames names).next = Slot.nth names.length := by
  rw [next, cursor_ofNames]
  rfl

/-- **A name stands for the slot of its last definition.** -/
theorem slot?_ofNames_eq_some_iff {names : List String} {name : String} {slot : Slot} :
    (ofNames names).slot? name = some slot ↔
      ∃ index, Latest names name index ∧ slot = Slot.nth index := by
  induction names using List.reverseRecOn with
  | nil => simp [Latest]
  | append_singleton names last ih =>
      simp only [ofNames_append_singleton, slot?_define, latest_append_singleton_iff]
      by_cases same : name = last
      · simp [same, next_ofNames, eq_comm]
      · simp [same, ih]

/-- **The rows are the distinct names with their last definitions.** -/
theorem mem_rows_ofNames_iff {names : List String} {name : String} {slot : Slot} :
    (name, slot) ∈ (ofNames names).rows ↔
      ∃ index, Latest names name index ∧ slot = Slot.nth index := by
  induction names using List.reverseRecOn with
  | nil => simp [Latest, empty]
  | append_singleton names last ih =>
      simp only [ofNames_append_singleton, define, List.mem_append, List.mem_filter,
        List.mem_singleton, Prod.mk.injEq, latest_append_singleton_iff, next_ofNames, ih]
      by_cases same : name = last
      · simp [same]
      · simp [same]

/-- No slot of a row reaches into that of a later one. -/
theorem pairwise_rows_ofNames (names : List String) :
    (ofNames names).rows.Pairwise fun row other => row.2.stop ≤ other.2.offset := by
  induction names using List.reverseRecOn with
  | nil => exact List.Pairwise.nil
  | append_singleton names last ih =>
      rw [ofNames_append_singleton, define]
      refine List.pairwise_append.2 ⟨ih.filter _, List.pairwise_singleton _ _, ?_⟩
      rintro ⟨name, slot⟩ mem other added
      obtain ⟨index, latest, rfl⟩ := mem_rows_ofNames_iff.1 (List.mem_of_mem_filter mem)
      rw [List.mem_singleton.1 added, next_ofNames]
      exact Nat.mul_le_mul_left 8 latest.lt_length

/-- The rows stand by increasing offset. -/
theorem increasing_rows_ofNames (names : List String) :
    (ofNames names).rows.Pairwise fun row other => row.2.offset < other.2.offset := by
  refine (pairwise_rows_ofNames names).imp_of_mem ?_
  rintro ⟨name, slot⟩ other mem - before
  obtain ⟨index, -, rfl⟩ := mem_rows_ofNames_iff.1 mem
  exact Nat.lt_of_lt_of_le (Nat.lt_add_of_pos_right (Nat.zero_lt_succ 7)) before

/-- No name stands for two slots. -/
theorem nodup_rows_ofNames (names : List String) :
    ((ofNames names).rows.map Prod.fst).Nodup := by
  induction names using List.reverseRecOn with
  | nil => exact List.nodup_nil
  | append_singleton names last ih =>
      rw [ofNames_append_singleton, define, List.map_append]
      refine List.nodup_append.2
        ⟨ih.sublist (List.filter_sublist.map _), List.nodup_singleton _, ?_⟩
      rintro name mem other added rfl
      obtain ⟨row, kept, rfl⟩ := List.mem_map.1 mem
      have differs := (List.mem_filter.1 kept).2
      rw [List.map_singleton, List.mem_singleton] at added
      simp [added] at differs

end MemoryMap

end Covenant
