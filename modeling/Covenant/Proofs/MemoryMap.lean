/-
**Slots keep apart.**

Main definitions:

* `Covenant.MemoryMap.Sound` — every name has a slot of its own, of the size of a word and before
  the next free byte.

Main results:

* `MemoryMap.sound_empty`, `MemoryMap.Sound.define` — the empty map is sound, and definitions keep
  a map sound.
-/

import Covenant.MemoryMap
import Mathlib.Data.Nat.Notation

set_option relaxedAutoImplicit false
set_option autoImplicit false

namespace Covenant.MemoryMap

@[simp] theorem cursor_empty : empty.cursor = 0 := rfl

@[simp] theorem slot?_define_self (memory : MemoryMap) (name : String) :
    (memory.define name).slot? name = some memory.next := by
  rw [slot?_define, if_pos rfl]

theorem slot?_define_of_ne {name other : String} (memory : MemoryMap) (h : other ≠ name) :
    (memory.define name).slot? other = memory.slot? other := by
  rw [slot?_define, if_neg h]

/-- Every name has a slot of its own, of the size of a word and before the next free byte. -/
structure Sound (memory : MemoryMap) : Prop where
  size_eq : ∀ {name slot}, memory.slot? name = some slot → slot.size = slotSize
  offset_lt : ∀ {name slot}, memory.slot? name = some slot → slot.offset < memory.cursor
  apart : ∀ {first second slot other}, memory.slot? first = some slot →
    memory.slot? second = some other → slot.offset = other.offset → first = second

theorem sound_empty : empty.Sound where
  size_eq h := by simp at h
  offset_lt h := by simp at h
  apart h := by simp at h

/-- A definition takes a slot behind all others. -/
theorem Sound.define {memory : MemoryMap} (sound : memory.Sound) (name : String) :
    (memory.define name).Sound where
  size_eq := by
    intro other slot h
    rw [slot?_define] at h
    split at h
    · cases h
      rfl
    · exact sound.size_eq h
  offset_lt := by
    intro other slot h
    have grown : memory.cursor < (memory.define name).cursor := Nat.lt_add_of_pos_right (by decide)
    rw [slot?_define] at h
    split at h
    · cases h
      exact grown
    · exact Nat.lt_trans (sound.offset_lt h) grown
  apart := by
    intro first second slot other h h' same
    rw [slot?_define] at h h'
    split at h <;> split at h'
    · simp_all
    · cases h
      have before := sound.offset_lt h'
      rw [← same] at before
      exact absurd before (Nat.lt_irrefl _)
    · cases h'
      have before := sound.offset_lt h
      rw [same] at before
      exact absurd before (Nat.lt_irrefl _)
    · exact sound.apart h h' same

end Covenant.MemoryMap
