/-
**Decimal numerals.**

Main definitions:

* `Covenant.Text.Decimal.ofNat`, `Covenant.Text.Decimal.ofInt` — the numeral of a number;
* `Covenant.Text.Decimal.value` — the number of a run of digits;
* `Covenant.Text.Decimal.int64?` — a signed numeral within sixty-four bits.

Main results:

* `Covenant.Text.Decimal.value_toDigits` — the digits of a number denote it.
-/

set_option relaxedAutoImplicit false
set_option autoImplicit false

namespace Covenant.Text.Decimal

/-- The numeral of a natural number, without leading zeros. -/
def ofNat (n : Nat) : String :=
  String.ofList (Nat.toDigits 10 n)

/-- The numeral of an integer, with a minus sign before a negative one. -/
def ofInt (i : Int) : String :=
  if i < 0 then "-" ++ ofNat i.natAbs else ofNat i.natAbs

@[simp] theorem toList_ofNat (n : Nat) : (ofNat n).toList = Nat.toDigits 10 n := by
  simp [ofNat]

/-- The number that a run of decimal digits denotes. -/
def value (digits : List Char) : Nat :=
  Nat.ofDigitChars 10 digits 0

theorem value_toDigits (n : Nat) : value (Nat.toDigits 10 n) = n :=
  Nat.ofDigitChars_toDigits (by decide) (by decide)

/-- A nonempty run of decimal digits. -/
def isNumeral (cs : List Char) : Bool :=
  !cs.isEmpty && cs.all Char.isDigit

/-- The magnitude of the least signed integer of sixty-four bits, one more than the greatest. -/
def minMagnitude : Nat := 0x8000000000000000

/-- The integer of a numeral, which may have a minus sign and leading zeros, if it fits sixty-four
bits in two's complement. -/
def int64? : List Char → Option Int64
  | '-' :: digits =>
    if isNumeral digits ∧ value digits ≤ minMagnitude then
      some (Int64.ofInt (-(value digits : Int)))
    else none
  | digits =>
    if isNumeral digits ∧ value digits < minMagnitude then some (Int64.ofInt (value digits))
    else none

end Covenant.Text.Decimal
