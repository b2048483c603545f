/-
**Machine words.**

The machine computes on words of eight bytes, written with the most significant byte first.

Main definitions:

* `Covenant.Machine.Word` — eight bytes;
* `Covenant.Machine.Word.ofNat`, `Covenant.Machine.Word.toNat` — a word as a number below `2 ^ 64`;
* `Covenant.Machine.Word.ofInt64`, `Covenant.Machine.Word.toInt64` — a word as a signed integer in
  two's complement;
* `Covenant.Machine.Word.leftJustified`, `Covenant.Machine.Word.rightJustified` — a word holding at
  most eight bytes, filled with zeros at the other side.
-/

import Covenant.Text.Hex

set_option relaxedAutoImplicit false
set_option autoImplicit false

namespace Covenant.Machine

/-- Eight bytes, the most significant one first. -/
structure Word where
  bytes : List UInt8
  length_bytes : bytes.length = 8
  deriving DecidableEq

namespace Word

/-- The number of bytes of a word. -/
def size : Nat := 8

theorem ext_bytes {v w : Word} (h : v.bytes = w.bytes) : v = w := by
  cases v; cases w; cases h; rfl

/-! ### Numbers -/

/-- The word whose value is `n` modulo `2 ^ 64`. -/
def ofNat (n : Nat) : Word where
  bytes := [7, 6, 5, 4, 3, 2, 1, 0].map fun k => UInt8.ofNat (n >>> (8 * k))
  length_bytes := rfl

/-- The value of a word as an unsigned number. -/
def toNat (w : Word) : Nat :=
  w.bytes.foldl (fun n b => 256 * n + b.toNat) 0

/-- The word of a signed integer, in two's complement. -/
def ofInt64 (i : Int64) : Word :=
  ofNat i.toUInt64.toNat

/-- The signed integer that a word is in two's complement. -/
def toInt64 (w : Word) : Int64 :=
  (UInt64.ofNat w.toNat).toInt64

/-! ### Bytes -/

/-- At most eight bytes at the front of a word, zeros behind them. -/
def leftJustified (bytes : List UInt8) (h : bytes.length ≤ size) : Word where
  bytes := bytes ++ List.replicate (size - bytes.length) 0
  length_bytes := by
    simp only [List.length_append, List.length_replicate, size] at *
    omega

/-- At most eight bytes at the end of a word, zeros before them. -/
def rightJustified (bytes : List UInt8) (h : bytes.length ≤ size) : Word where
  bytes := List.replicate (size - bytes.length) 0 ++ bytes
  length_bytes := by
    simp only [List.length_append, List.length_replicate, size] at *
    omega

/-- The bytes of a word without the zeros at its end. -/
def withoutTrailingZeros (w : Word) : List UInt8 :=
  (w.bytes.reverse.dropWhile (· == 0)).reverse

/-- The bytes of a word without the zeros at its front. -/
def withoutLeadingZeros (w : Word) : List UInt8 :=
  w.bytes.dropWhile (· == 0)

/-- The word as sixteen hexadecimal digits. -/
def hex (w : Word) : String :=
  Text.Hex.encode w.bytes

end Word

end Covenant.Machine
