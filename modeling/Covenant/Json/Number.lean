/-
**Numbers in JSON text.**

No value that is read here is a number, but a number may stand where another type is asked for.
It must be complete before it counts as one of the wrong type, and its magnitude must not exceed
what a binary floating-point number of sixty-four bits holds.

Main definitions:

* `Covenant.Json.Number.roundToDouble` — the floating-point number nearest to a natural number;
* `Covenant.Json.Number.overflows` — a product with a power of ten is out of range;
* `Covenant.Json.Number.fault` — why a number is not what was asked for.
-/

import Covenant.Json.Fault
import Covenant.Text.Decimal

set_option relaxedAutoImplicit false
set_option autoImplicit false

namespace Covenant.Json.Number

/-! ### Magnitudes -/

/-- The nearest natural number of fifty-three significant bits, the even one of two. -/
def roundToDouble (n : Nat) : Nat :=
  let unit := 1 <<< (n.log2 - 52)
  let q := n / unit
  let r := n % unit
  if 2 * r > unit ∨ (2 * r = unit ∧ q % 2 = 1) then (q + 1) * unit else q * unit

/-- The least number that is rounded beyond the range of floating-point numbers. -/
def firstBeyond : Nat :=
  (1 <<< 1024) - (1 <<< 970)

/-- `significand * 10 ^ exponent` is out of range, where the significand and the power are rounded
before they are multiplied. -/
def overflows (significand : Nat) (exponent : Int) : Bool :=
  significand != 0 &&
    (exponent > 308 ||
      (exponent ≥ 0 &&
        firstBeyond ≤ roundToDouble significand * roundToDouble (Nat.pow 10 exponent.toNat)))

/-! ### Digits -/

/-- The digits at the front of a text. -/
def digits (cs : List Char) : List Char :=
  cs.takeWhile Char.isDigit

/-- The text behind the digits at its front. -/
def behindDigits (cs : List Char) : List Char :=
  cs.dropWhile Char.isDigit

/-- Takes digits into a significand of sixty-four bits, and gives those that do not fit. -/
def accumulate (significand : Nat) : List Char → Nat × List Char
  | [] => (significand, [])
  | c :: cs =>
    let next := 10 * significand + (c.toNat - '0'.toNat)
    if next < UInt64.size then accumulate next cs else (significand, c :: cs)

/-! ### Parts of a number -/

/-- The fault of a complete number. -/
def complete (significand : Nat) (exponent : Int) : Fault :=
  if overflows significand exponent then .malformed else .wrongType

/-- The fault of a number from the digits of its exponent on. -/
def exponentDigits (significand : Nat) (exponent : Int) (negative : Bool) (cs : List Char) :
    Fault :=
  match cs with
  | [] => .endOfText
  | c :: _ =>
    if c.isDigit then
      let shift : Int := Text.Decimal.value (digits cs)
      complete significand (if negative then exponent - shift else exponent + shift)
    else .malformed

/-- The fault of a number from what may be its exponent on. -/
def exponentPart (significand : Nat) (exponent : Int) (cs : List Char) : Fault :=
  match cs with
  | 'e' :: '+' :: rest | 'E' :: '+' :: rest => exponentDigits significand exponent false rest
  | 'e' :: '-' :: rest | 'E' :: '-' :: rest => exponentDigits significand exponent true rest
  | 'e' :: rest | 'E' :: rest => exponentDigits significand exponent false rest
  | _ => complete significand exponent

/-- The fault of a number from what may be its decimal point on.  Without point and exponent, a
number that fits sixty-four bits is in range. -/
def fractionPart (significand : Nat) (exponent : Int) (cs : List Char) : Fault :=
  match cs with
  | '.' :: rest =>
    match digits rest, rest with
    | [], [] => .endOfText
    | [], _ => .malformed
    | fraction, _ =>
      let (larger, unused) := accumulate significand fraction
      let taken : Int := fraction.length - unused.length
      exponentPart larger (exponent - taken) (behindDigits rest)
  | _ => exponentPart significand exponent cs

/-- Why a number, given from behind its minus sign on, is not what was asked for. -/
def fault (cs : List Char) : Fault :=
  match cs with
  | [] => .endOfText
  | '0' :: rest =>
    if (digits rest).isEmpty then fractionPart 0 0 rest else .malformed
  | c :: _ =>
    if c.isDigit then
      let (significand, unused) := accumulate 0 (digits cs)
      fractionPart significand unused.length (behindDigits cs)
    else .malformed

end Covenant.Json.Number
