/-
**Strings in JSON text.**

A string stands between double quotes.  A quote, a backslash and the control characters are
escaped; reading knows every character by its sixteen-bit units too, of which those above `U+FFFF`
need two.

Main definitions:

* `Covenant.Json.Text.write` — a string as JSON text;
* `Covenant.Json.Text.readBehindQuote` — the characters of a string and its closing quote, read
  behind the opening one.
-/

import Covenant.Json.Fault
import Covenant.Text.Hex
import Covenant.Text.Utf8

set_option relaxedAutoImplicit false
set_option autoImplicit false

namespace Covenant.Json.Text

/-! ### Writing -/

/-- How a character is written. -/
def escape (c : Char) : List Char :=
  if c = '"' ∨ c = '\\' then ['\\', c]
  else if c = '\x08' then ['\\', 'b']
  else if c = '\x0c' then ['\\', 'f']
  else if c = '\n' then ['\\', 'n']
  else if c = '\r' then ['\\', 'r']
  else if c = '\t' then ['\\', 't']
  else if c.toNat < 0x20 then ['\\', 'u', '0', '0'] ++ Text.Hex.byteDigits (UInt8.ofNat c.toNat)
  else [c]

/-- A string as JSON text. -/
def write (s : String) : String :=
  String.ofList ('"' :: s.toList.flatMap escape ++ ['"'])

/-! ### Reading -/

/-- Reads a unit of sixteen bits from four hexadecimal digits.  The text ends early if fewer than
four bytes are left, whatever they are. -/
def readUnit (cs : List Char) : Except Fault (Front Char Nat cs.length) :=
  if Text.Utf8.size (cs.take 4) < 4 then .error .endOfText
  else
    match cs with
    | a :: b :: c :: d :: rest =>
      if [a, b, c, d].all Text.Hex.isDigit then
        .ok ⟨Text.Hex.value [a, b, c, d], rest, by simp only [List.length_cons]; omega⟩
      else .error .malformed
    | _ => .error .malformed

/-- The first of two units that stand for one character. -/
def isHighUnit (unit : Nat) : Bool :=
  0xD800 ≤ unit && unit ≤ 0xDBFF

/-- The second of two units that stand for one character. -/
def isLowUnit (unit : Nat) : Bool :=
  0xDC00 ≤ unit && unit ≤ 0xDFFF

/-- The character of two units. -/
def ofUnits (high low : Nat) : Char :=
  Char.ofNat (0x10000 + (high - 0xD800) * 0x400 + (low - 0xDC00))

/-- Reads what follows the first of two units: a backslash, a `u` and the second one. -/
def readLowUnit (cs : List Char) : Except Fault (Front Char Nat cs.length) :=
  match cs with
  | [] => .error .endOfText
  | ['\\'] => .error .endOfText
  | '\\' :: 'u' :: rest =>
    match readUnit rest with
    | .error fault => .error fault
    | .ok front =>
      if isLowUnit front.value then .ok (front.widen (by simp only [List.length_cons]; omega))
      else .error .malformed
  | _ => .error .malformed

/-- Reads an escaped character behind its backslash. -/
def readEscape (cs : List Char) : Except Fault (Front Char Char cs.length) :=
  match cs with
  | [] => .error .endOfText
  | '"' :: rest => .ok ⟨'"', rest, Nat.lt_succ_self _⟩
  | '\\' :: rest => .ok ⟨'\\', rest, Nat.lt_succ_self _⟩
  | '/' :: rest => .ok ⟨'/', rest, Nat.lt_succ_self _⟩
  | 'b' :: rest => .ok ⟨'\x08', rest, Nat.lt_succ_self _⟩
  | 'f' :: rest => .ok ⟨'\x0c', rest, Nat.lt_succ_self _⟩
  | 'n' :: rest => .ok ⟨'\n', rest, Nat.lt_succ_self _⟩
  | 'r' :: rest => .ok ⟨'\r', rest, Nat.lt_succ_self _⟩
  | 't' :: rest => .ok ⟨'\t', rest, Nat.lt_succ_self _⟩
  | 'u' :: rest =>
    match readUnit rest with
    | .error fault => .error fault
    | .ok ⟨unit, rest, _⟩ =>
      if isLowUnit unit then .error .malformed
      else if isHighUnit unit then
        match readLowUnit rest with
        | .error fault => .error fault
        | .ok ⟨low, rest, _⟩ =>
          .ok ⟨ofUnits unit low, rest, by simp only [List.length_cons]; omega⟩
      else .ok ⟨Char.ofNat unit, rest, by simp only [List.length_cons]; omega⟩
  | _ => .error .malformed

/-- Reads the characters of a string up to its closing quote. -/
def readChars (cs : List Char) : Except Fault (Front Char (List Char) cs.length) :=
  match cs with
  | [] => .error .endOfText
  | '"' :: rest => .ok ⟨[], rest, Nat.lt_succ_self _⟩
  | '\\' :: rest =>
    match readEscape rest with
    | .error fault => .error fault
    | .ok ⟨c, behind, _⟩ =>
      match readChars behind with
      | .error fault => .error fault
      | .ok front => .ok ((front.map (c :: ·)).widen (by simp only [List.length_cons]; omega))
  | c :: rest =>
    if c.toNat < 0x20 then .error .malformed
    else
      match readChars rest with
      | .error fault => .error fault
      | .ok front => .ok ((front.map (c :: ·)).widen (by simp only [List.length_cons]; omega))
termination_by cs.length

/-- Reads a string behind its opening quote. -/
def readBehindQuote (cs : List Char) : Except Fault (Front Char String cs.length) :=
  (readChars cs).map (Front.map String.ofList)

end Covenant.Json.Text
