/-
**Tables of memory maps.**

A memory map is shown as a table of two columns, the range of every name at the right of the first
and the name at the left of the second.  Each column is as wide as its widest entry, and lines run
under the head and under the last row.

Main definitions:

* `Covenant.MemoryMap.table` — the table of a memory map under a title.
-/

import Covenant.MemoryMap
import Covenant.Text.Decimal

set_option relaxedAutoImplicit false
set_option autoImplicit false

namespace Covenant

/-- A text with blanks before it, up to a width. -/
def Text.padFront (width : Nat) (text : String) : String :=
  "".pushn ' ' (width - text.length) ++ text

/-- A text with blanks behind it, up to a width. -/
def Text.padEnd (width : Nat) (text : String) : String :=
  text ++ "".pushn ' ' (width - text.length)

/-- A horizontal line under two columns of these widths, with a mark between them. -/
def MemoryMap.rule (left right : Nat) (mark : Char) : String :=
  " " ++ "".pushn '─' (left + 2) ++ String.singleton mark ++ "".pushn '─' (right + 2) ++ " \n"

/-- A memory map as a table: the range of every name, and the name, under the name of the
function. -/
def MemoryMap.table (memory : MemoryMap) (title : String) : String :=
  let rows := memory.rows.map fun (name, slot) =>
    ("[" ++ Text.Decimal.ofNat slot.offset ++ ".." ++ Text.Decimal.ofNat slot.stop ++ ")", name)
  let left := ((("Memory", title) :: rows).map fun row => row.1.length).foldl max 0
  let right := ((("Memory", title) :: rows).map fun row => row.2.length).foldl max 0
  let line := fun (row : String × String) =>
    "  " ++ Text.padFront left row.1 ++ " │ " ++ Text.padEnd right row.2 ++ "  \n"
  line ("Memory", title) ++ rule left right '┼' ++ String.join (rows.map line) ++
    rule left right '┴'

end Covenant
