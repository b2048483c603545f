/-
**Reading hexadecimal text that was written.**

Main results:

* `Text.Hex.exists_of_mem_digits` — the text of bytes consists of hexadecimal digits;
* `Text.Hex.value_digits` — the digits of bytes denote the number that the bytes do;
* `Text.Hex.decode_encode` — **bytes are read back from their text**.
-/

import Covenant.Text.Hex
import Covenant.Text.Utf8
import Mathlib.Data.List.Basic

set_option relaxedAutoImplicit false
set_option autoImplicit false

namespace Covenant.Text.Hex

theorem length_digits (bytes : List UInt8) : (digits bytes).length = 2 * bytes.length := by
  induction bytes with
  | nil => rfl
  | cons b bytes ih =>
      rw [digits_cons, List.length_cons, List.length_cons, ih, List.length_cons]
      omega

/-- The digits of bytes are hexadecimal digits. -/
theorem exists_of_mem_digits {c : Char} {bytes : List UInt8} (h : c ∈ digits bytes) :
    ∃ n < 16, c = Nat.digitChar n := by
  obtain ⟨b, -, mem⟩ := List.mem_flatMap.1 h
  have bound := b.toNat_lt
  simp only [byteDigits, List.mem_cons, List.not_mem_nil, or_false] at mem
  rcases mem with rfl | rfl
  · exact ⟨_, by omega, rfl⟩
  · exact ⟨_, by omega, rfl⟩

theorem isDigit_of_mem_digits {c : Char} {bytes : List UInt8} (h : c ∈ digits bytes) :
    isDigit c = true := by
  obtain ⟨n, small, rfl⟩ := exists_of_mem_digits h
  rw [isDigit, digitValue?_digitChar small]
  rfl

theorem isAlphanum_of_mem_digits {c : Char} {bytes : List UInt8} (h : c ∈ digits bytes) :
    c.isAlphanum = true := by
  obtain ⟨n, small, rfl⟩ := exists_of_mem_digits h
  have all : ∀ m : Fin 16, (Nat.digitChar m.val).isAlphanum = true := by decide
  exact all ⟨n, small⟩

/-- The digits of bytes denote the number that the bytes do. -/
theorem value_digits (bytes : List UInt8) :
    value (digits bytes) = bytes.foldl (fun n b => 256 * n + b.toNat) 0 := by
  suffices step : ∀ start, (digits bytes).foldl
      (fun n c => 16 * n + (digitValue? c).getD 0) start =
        bytes.foldl (fun n b => 256 * n + b.toNat) start from step 0
  intro start
  induction bytes generalizing start with
  | nil => rfl
  | cons b bytes ih =>
      have bound := b.toNat_lt
      have high : b.toNat / 16 < 16 := by omega
      have low : b.toNat % 16 < 16 := by omega
      rw [digits_cons, List.foldl_cons, List.foldl_cons, List.foldl_cons, ih,
        digitValue?_digitChar high, digitValue?_digitChar low]
      have number : 16 * (16 * start + b.toNat / 16) + b.toNat % 16 = 256 * start + b.toNat := by
        omega
      rw [Option.getD_some, Option.getD_some, number]

/-- **Bytes are read back from their text.** -/
theorem decode_encode (bytes : List UInt8) : decode (Utf8.encode (encode bytes)) = .ok bytes := by
  -- a digit is one byte of the text
  have text : Utf8.encode (encode bytes) = (digits bytes).map fun c => UInt8.ofNat c.toNat := by
    rw [Utf8.encode, toList_encode, List.map_eq_flatMap]
    refine List.flatMap_congr fun c mem => ?_
    obtain ⟨n, small, rfl⟩ := exists_of_mem_digits mem
    have all : ∀ m : Fin 16, String.utf8EncodeChar (Nat.digitChar m.val) =
        [UInt8.ofNat (Nat.digitChar m.val).toNat] := by decide
    exact all ⟨n, small⟩
  rw [decode, text, if_neg, decodePairs_digits]
  rw [List.length_map, length_digits]
  omega

end Covenant.Text.Hex
