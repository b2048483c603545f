/-
**Faults of JSON text.**

A reader of JSON text knows the type of the value it reads, and stops at the first fault, reading
from left to right.  This module holds the classes of faults, the blanks of JSON, and the rule for
a value of another type than the one asked for.

Main definitions:

* `Covenant.Json.Fault` — the text ends early, is no JSON, or is JSON of another type;
* `Covenant.Json.skipSpace` — what is left behind the blanks at the front of a text;
* `Covenant.Json.Reader` — a reader of values of a type.
-/

import Covenant.Front

set_option relaxedAutoImplicit false
set_option autoImplicit false

namespace Covenant.Json

/-- Why a text holds no value of the type asked for. -/
inductive Fault where
  /-- The text ends where more must follow. -/
  | endOfText
  /-- The text is no JSON, or more follows than the value asked for. -/
  | malformed
  /-- The text is JSON, but of another type. -/
  | wrongType
  deriving DecidableEq, Repr

/-- The blanks between the tokens of JSON. -/
def isSpace (c : Char) : Bool :=
  c == ' ' || c == '\n' || c == '\t' || c == '\r'

/-- What is left behind the blanks at the front of a text. -/
def skipSpace (cs : List Char) : List Char :=
  cs.dropWhile isSpace

theorem length_skipSpace_le (cs : List Char) : (skipSpace cs).length ≤ cs.length :=
  (List.dropWhile_sublist isSpace).length_le

theorem length_lt_of_skipSpace {c : Char} {cs rest : List Char} (h : skipSpace cs = c :: rest) :
    rest.length < cs.length := by
  have := length_skipSpace_le cs
  simp only [h, List.length_cons] at this
  omega

/-- Reads a value off the front of a text, blanks before it included. -/
def Reader (α : Type) : Type :=
  (cs : List Char) → Except Fault (Front Char α cs.length)

/-- Reads a value and changes it. -/
def Reader.map {α β : Type} (f : α → β) (reader : Reader α) : Reader β :=
  fun cs => (reader cs).map (Front.map f)

end Covenant.Json
