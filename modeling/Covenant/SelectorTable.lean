/-
**Selectors.**

A caller names the function it wants by a number, its selector.  Selectors are handed out in the
order in which names are declared, so the selector of a name is the number of names before it.  They
have thirty-two bits: behind as many names as there are selectors the count begins again, and since
a table is looked up from both sides, it then refuses every name.

Main definitions:

* `Covenant.SelectorTable` — the declared names with their selectors;
* `SelectorTable.insert?`, `SelectorTable.selector?`, `SelectorTable.name?` — declaring a name, and
  looking up in either direction.

Main results:

* `SelectorTable.insert?_eq_none_iff` — a name is refused exactly if it, or the selector that it
  would get, is in the table.
-/

set_option relaxedAutoImplicit false
set_option autoImplicit false

namespace Covenant

/-- The declared names, in order, with their selectors. -/
structure SelectorTable where
  rows : List (String × UInt32)
  deriving DecidableEq

namespace SelectorTable

/-- No names. -/
def empty : SelectorTable := ⟨[]⟩

/-- The declared names, in order. -/
def names (table : SelectorTable) : List String :=
  table.rows.map Prod.fst

/-- The number of names. -/
def size (table : SelectorTable) : Nat :=
  table.rows.length

@[simp] theorem names_empty : empty.names = [] := rfl

@[simp] theorem size_empty : empty.size = 0 := rfl

/-- The selector that the next name would get: the number of names, in thirty-two bits. -/
def next (table : SelectorTable) : UInt32 :=
  .ofNat table.size

/-- Declares a name, which gets the next selector.  A name that has one is refused, and so is every
name if the next selector has one. -/
def insert? (table : SelectorTable) (name : String) : Option SelectorTable :=
  if name ∈ table.names ∨ table.next ∈ table.rows.map Prod.snd then none
  else some ⟨table.rows ++ [(name, table.next)]⟩

/-- The selector of a name. -/
def selector? (table : SelectorTable) (name : String) : Option Nat :=
  (table.rows.lookup name).map UInt32.toNat

/-- The name of a selector. -/
def name? (table : SelectorTable) (selector : Nat) : Option String :=
  (table.rows.map fun row => (row.2.toNat, row.1)).lookup selector

/-- Declares names in order, up to the first that is refused. -/
def insertAll (table : SelectorTable) : List String → Except String SelectorTable
  | [] => .ok table
  | name :: rest =>
    match table.insert? name with
    | none => .error name
    | some larger => larger.insertAll rest

/-- The first name gets the selector zero. -/
theorem insert?_empty (name : String) : empty.insert? name = some ⟨[(name, 0)]⟩ := by
  simp [insert?, empty, names, next, size]

/-- A name is refused exactly if it, or the selector that it would get, is in the table. -/
theorem insert?_eq_none_iff {table : SelectorTable} {name : String} :
    table.insert? name = none ↔ name ∈ table.names ∨ table.next ∈ table.rows.map Prod.snd := by
  rw [insert?]
  split
  case isTrue taken => exact iff_of_true rfl taken
  case isFalse apart => exact iff_of_false nofun apart

end SelectorTable

end Covenant
