/-
**Hexadecimal text of bytes.**

A byte is written as two digits, the high half first, in lower case; both cases are read.

Main definitions:

* `Covenant.Text.Hex.encode` — the text of a list of bytes;
* `Covenant.Text.Hex.decode` — the bytes of a text, or the first fault in it.

Main results:

* `Covenant.Text.Hex.decodePairs_digits` — reading what was written gives the bytes back.
-/

set_option relaxedAutoImplicit false
set_option autoImplicit false

namespace Covenant.Text.Hex

/-! ### Writing -/

/-- The two digits of a byte. -/
def byteDigits (b : UInt8) : List Char :=
  [Nat.digitChar (b.toNat / 16), Nat.digitChar (b.toNat % 16)]

/-- The digits of a list of bytes. -/
def digits (bytes : List UInt8) : List Char :=
  bytes.flatMap byteDigits

/-- The text of a list of bytes. -/
def encode (bytes : List UInt8) : String :=
  String.ofList (digits bytes)

@[simp] theorem digits_nil : digits [] = [] := rfl

@[simp] theorem digits_cons (b : UInt8) (bytes : List UInt8) :
    digits (b :: bytes) =
      Nat.digitChar (b.toNat / 16) :: Nat.digitChar (b.toNat % 16) :: digits bytes := rfl

@[simp] theorem toList_encode (bytes : List UInt8) : (encode bytes).toList = digits bytes := by
  simp [encode]

/-! ### Reading -/

/-- The value of a digit of either case. -/
def digitValue? (c : Char) : Option Nat :=
  if '0' ≤ c ∧ c ≤ '9' then some (c.toNat - '0'.toNat)
  else if 'a' ≤ c ∧ c ≤ 'f' then some (c.toNat - 'a'.toNat + 10)
  else if 'A' ≤ c ∧ c ≤ 'F' then some (c.toNat - 'A'.toNat + 10)
  else none

/-- A character that `digitValue?` reads. -/
def isDigit (c : Char) : Bool :=
  (digitValue? c).isSome

/-- The number that a run of digits denotes; what is no digit counts as zero. -/
def value (cs : List Char) : Nat :=
  cs.foldl (fun n c => 16 * n + (digitValue? c).getD 0) 0

/-- Why a text is not the text of bytes. -/
inductive Fault where
  /-- The text has an odd number of bytes. -/
  | oddLength
  /-- The byte at `position` of the text is no digit. -/
  | invalidDigit (byte : UInt8) (position : Nat)
  deriving DecidableEq, Repr

/-- Reads pairs of digits, the first of which stands at `position`. -/
def decodePairs (position : Nat) : List UInt8 → Except Fault (List UInt8)
  | [] => .ok []
  | [_] => .error .oddLength
  | high :: low :: rest =>
    match digitValue? (Char.ofUInt8 high), digitValue? (Char.ofUInt8 low) with
    | none, _ => .error (.invalidDigit high position)
    | some _, none => .error (.invalidDigit low (position + 1))
    | some h, some l => (decodePairs (position + 2) rest).map (UInt8.ofNat (16 * h + l) :: ·)

/-- The bytes that a text, given by its own bytes, is the hexadecimal text of.  An odd length is
found before a character that is no digit. -/
def decode (text : List UInt8) : Except Fault (List UInt8) :=
  if text.length % 2 = 1 then .error .oddLength else decodePairs 0 text

theorem digitValue?_digitChar {n : Nat} (h : n < 16) : digitValue? (Nat.digitChar n) = some n := by
  have all : ∀ m : Fin 16, digitValue? (Nat.digitChar m.val) = some m.val := by decide
  exact all ⟨n, h⟩

/-- Reading the digits of a byte list gives the list back. -/
theorem decodePairs_digits (bytes : List UInt8) (position : Nat) :
    decodePairs position ((digits bytes).map fun c => UInt8.ofNat c.toNat) = .ok bytes := by
  induction bytes generalizing position with
  | nil => rfl
  | cons b bytes ih =>
    have digit : ∀ m : Fin 16,
        digitValue? (Char.ofUInt8 (UInt8.ofNat (Nat.digitChar m.val).toNat)) = some m.val := by
      decide
    have high := digit ⟨b.toNat / 16, by have := b.toNat_lt; omega⟩
    have low := digit ⟨b.toNat % 16, Nat.mod_lt _ (by decide)⟩
    simp only at high low
    simp [decodePairs, high, low, ih, Except.map, Nat.div_add_mod]

end Covenant.Text.Hex
