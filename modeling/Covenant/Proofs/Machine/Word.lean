/-
**Words and numbers.**

A word holds every number below `2 ^ 64`, and no two words hold the same one.

Main results:

* `Machine.Word.toNat_ofNat` — a word keeps its number modulo `2 ^ 64`;
* `Machine.Word.ofNat_toNat`, `Machine.Word.eq_of_toNat_eq` — a word is known by its number;
* `Machine.Word.toInt64_ofInt64`, `Machine.Word.ofInt64_toInt64` — words are the signed integers in
  two's complement.
-/

import Covenant.Machine.Word
import Mathlib.Data.Nat.Notation
import Mathlib.Tactic.NormNum

set_option relaxedAutoImplicit false
set_option autoImplicit false

namespace Covenant.Machine.Word

/-- A word keeps its number modulo `2 ^ 64`. -/
theorem toNat_ofNat (n : ℕ) : (ofNat n).toNat = n % 2 ^ 64 := by
  simp only [ofNat, toNat, List.map_cons, List.map_nil, List.foldl_cons, List.foldl_nil,
    UInt8.toNat_ofNat', Nat.shiftRight_eq_div_pow]
  norm_num
  omega

/-- A word keeps every number that fits it. -/
theorem toNat_ofNat_of_lt {n : ℕ} (h : n < 2 ^ 64) : (ofNat n).toNat = n := by
  rw [toNat_ofNat, Nat.mod_eq_of_lt h]

/-- Different numbers that fit a word give different words. -/
theorem ofNat_ne {m n : ℕ} (hm : m < 2 ^ 64) (hn : n < 2 ^ 64) (h : m ≠ n) :
    ofNat m ≠ ofNat n := by
  intro same
  have numbers := congrArg toNat same
  rw [toNat_ofNat_of_lt hm, toNat_ofNat_of_lt hn] at numbers
  exact h numbers

/-- A word is the word of its number. -/
theorem ofNat_toNat (w : Word) : ofNat w.toNat = w := by
  obtain ⟨a, b, c, d, e, f, g, h, bytes⟩ :
      ∃ a b c d e f g h : UInt8, w.bytes = [a, b, c, d, e, f, g, h] := by
    obtain ⟨bytes, eight⟩ := w
    match bytes, eight with
    | [a, b, c, d, e, f, g, h], _ => exact ⟨a, b, c, d, e, f, g, h, rfl⟩
  apply ext_bytes
  have bound : ∀ x : UInt8, x.toNat < 2 ^ 8 := UInt8.toNat_lt
  have boundA := bound a
  have boundB := bound b
  have boundC := bound c
  have boundD := bound d
  have boundE := bound e
  have boundF := bound f
  have boundG := bound g
  have boundH := bound h
  simp only [ofNat, toNat, bytes, List.foldl_cons, List.foldl_nil, List.map_cons, List.map_nil,
    List.cons.injEq, and_true, Nat.shiftRight_eq_div_pow, ← UInt8.toNat_inj, UInt8.toNat_ofNat']
  norm_num
  omega

/-- A word is known by its number. -/
theorem eq_of_toNat_eq {v w : Word} (same : v.toNat = w.toNat) : v = w := by
  rw [← ofNat_toNat v, same, ofNat_toNat]

/-- A number that fits a word gives the word with that number. -/
theorem ofNat_eq_iff {n : ℕ} {w : Word} (h : n < 2 ^ 64) : ofNat n = w ↔ n = w.toNat := by
  constructor
  · rintro rfl
    exact (toNat_ofNat_of_lt h).symm
  · rintro rfl
    exact ofNat_toNat w

/-- A signed integer is read back from its word. -/
theorem toInt64_ofInt64 (i : Int64) : (ofInt64 i).toInt64 = i := by
  rw [toInt64, ofInt64, toNat_ofNat_of_lt i.toUInt64.toNat_lt, UInt64.ofNat_toNat,
    Int64.toInt64_toUInt64]

/-- A word is the word of its signed integer. -/
theorem ofInt64_toInt64 (w : Word) : ofInt64 w.toInt64 = w := by
  have bound : w.toNat < 2 ^ 64 := by
    rw [← ofNat_toNat w, toNat_ofNat]
    exact Nat.mod_lt _ (by decide)
  rw [ofInt64, toInt64, UInt64.toUInt64_toInt64, UInt64.toNat_ofNat_of_lt' bound, ofNat_toNat]

end Covenant.Machine.Word
