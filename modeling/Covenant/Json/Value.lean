/-
**JSON text of values.**

Main definitions:

* `Covenant.Json.Value` — the values that are written: strings, arrays and objects;
* `Covenant.Json.Value.compact`, `Covenant.Json.Value.pretty` — their text on one line, and with
  every element and member on a line of its own.
-/

import Covenant.Json.Text

set_option relaxedAutoImplicit false
set_option autoImplicit false

namespace Covenant.Json

/-- A value to be written; the members of an object are in order. -/
inductive Value where
  | string (text : String)
  | array (elements : List Value)
  | object (members : List (String × Value))

namespace Value

/-! ### On one line -/

mutual

/-- The text of a value without blanks. -/
def compact : Value → String
  | string text => Text.write text
  | array elements => "[" ++ ",".intercalate (compactElements elements) ++ "]"
  | object members => "\x7b" ++ ",".intercalate (compactMembers members) ++ "\x7d"

/-- The texts of elements. -/
def compactElements : List Value → List String
  | [] => []
  | element :: rest => element.compact :: compactElements rest

/-- The texts of members. -/
def compactMembers : List (String × Value) → List String
  | [] => []
  | (name, value) :: rest => (Text.write name ++ ":" ++ value.compact) :: compactMembers rest

end

/-! ### On many lines -/

/-- The beginning of a line at a depth. -/
def indent (depth : Nat) : String :=
  "".pushn ' ' (2 * depth)

/-- Elements or members on lines of their own, in brackets; without any, the brackets alone. -/
def bracketed (opening closing : String) (depth : Nat) (parts : List String) : String :=
  match parts with
  | [] => opening ++ closing
  | parts =>
    opening ++ "\n" ++ ",\n".intercalate (parts.map fun part => indent (depth + 1) ++ part) ++
      "\n" ++ indent depth ++ closing

mutual

/-- The text of a value whose first line stands at a depth. -/
def prettyAt (depth : Nat) : Value → String
  | string text => Text.write text
  | array elements => bracketed "[" "]" depth (prettyElements (depth + 1) elements)
  | object members => bracketed "\x7b" "\x7d" depth (prettyMembers (depth + 1) members)

/-- The texts of elements at a depth. -/
def prettyElements (depth : Nat) : List Value → List String
  | [] => []
  | element :: rest => element.prettyAt depth :: prettyElements depth rest

/-- The texts of members at a depth. -/
def prettyMembers (depth : Nat) : List (String × Value) → List String
  | [] => []
  | (name, value) :: rest =>
    (Text.write name ++ ": " ++ value.prettyAt depth) :: prettyMembers depth rest

end

/-- The text of a value on many lines. -/
def pretty (value : Value) : String :=
  value.prettyAt 0

end Value

end Covenant.Json
