/-
**Where identifiers live.**

Every definition in a function takes the next eight bytes of linear memory.  Defining a name again
takes a new slot, and from then on the name stands for that one; slots are never used twice.

Main definitions:

* `Covenant.Slot`, `Covenant.MemoryMap` — a place in memory, and the names with their places;
* `MemoryMap.define`, `MemoryMap.slot?`, `MemoryMap.find` — defining a name and looking it up;
* `MemoryMap.Undefined` — the fault of a name that has no slot.

Main results:

* `MemoryMap.slot?_define` — a definition is found under its name and hides no other name.
-/

import Covenant.Machine.Word

set_option relaxedAutoImplicit false
set_option autoImplicit false

namespace Covenant

/-- A range of linear memory, by its first byte and its size. -/
structure Slot where
  offset : Nat
  size : Nat
  deriving DecidableEq, Repr

/-- The slot behind the last byte of this one. -/
def Slot.stop (slot : Slot) : Nat :=
  slot.offset + slot.size

/-- The names that stand for a slot, each once and by increasing offset, and the next free byte. -/
structure MemoryMap where
  rows : List (String × Slot)
  cursor : Nat
  deriving DecidableEq

namespace MemoryMap

/-- No definitions. -/
def empty : MemoryMap := ⟨[], 0⟩

/-- The size of every slot: one machine word. -/
def slotSize : Nat := Machine.Word.size

/-- The slot that the next definition takes. -/
def next (memory : MemoryMap) : Slot :=
  ⟨memory.cursor, slotSize⟩

/-- Gives a name the next slot. -/
def define (memory : MemoryMap) (name : String) : MemoryMap where
  rows := memory.rows.filter (fun row => row.1 != name) ++ [(name, memory.next)]
  cursor := memory.cursor + slotSize

/-- The slot that a name stands for, if it has one. -/
def slot? (memory : MemoryMap) (name : String) : Option Slot :=
  memory.rows.lookup name

/-- The name has a slot. -/
def isDefined (memory : MemoryMap) (name : String) : Bool :=
  (memory.slot? name).isSome

/-- A name that has no slot. -/
structure Undefined where
  name : String
  deriving DecidableEq

/-- The report on a name that has no slot. -/
def Undefined.message (fault : Undefined) : String :=
  "`" ++ fault.name ++ "` is not defined"

/-- The slot of a name, which must have one. -/
def find (memory : MemoryMap) (name : String) : Except Undefined Slot :=
  match memory.slot? name with
  | some slot => .ok slot
  | none => .error ⟨name⟩

/-- The number of names that stand for a slot. -/
def size (memory : MemoryMap) : Nat :=
  memory.rows.length

/-- The number of slots taken, whether names still stand for them or not. -/
def slotCount (memory : MemoryMap) : Nat :=
  memory.cursor / slotSize

@[simp] theorem slot?_empty (name : String) : empty.slot? name = none := rfl

@[simp] theorem cursor_define (memory : MemoryMap) (name : String) :
    (memory.define name).cursor = memory.cursor + slotSize := rfl

/-- A definition is found under its name and hides no other name. -/
theorem slot?_define (memory : MemoryMap) (name other : String) :
    (memory.define name).slot? other =
      if other = name then some memory.next else memory.slot? other := by
  obtain ⟨rows, cursor⟩ := memory
  simp only [slot?, define]
  generalize (MemoryMap.mk rows cursor).next = slot
  induction rows with
  | nil =>
    by_cases h : other = name
    · simp [h]
    · simp [List.lookup_cons, beq_false_of_ne h, h]
  | cons row rows ih =>
    obtain ⟨first, place⟩ := row
    by_cases here : first = name
    · subst here
      by_cases h : other = first
      · simpa [h] using ih
      · simpa [List.lookup_cons, beq_false_of_ne h, h] using ih
    · by_cases h : other = first
      · simp [h, here]
      · simpa [List.lookup_cons, beq_false_of_ne h, here] using ih

end MemoryMap

end Covenant
