/-
**What numerals denote.**

The readers of numerals go through a run of digits from the left and fold it up.  What a numeral
denotes can be said without them: every character is the digit of a number below the base, and the
numeral is the sum of these by their places.  Nothing bounds the length of a run, so zeros may lead
it, and a reader that keeps sixty-four bits has to refuse what is too large.

Main definitions:

* `Covenant.Text.IsDigit` — a character is the digit of a number in a base;
* `Covenant.Text.Numeral` — a text is a run of digits and denotes a number;
* `Covenant.Text.Signed` — a text is a decimal numeral, perhaps with a minus sign, and denotes an
  integer.

Main results:

* `Text.Hex.digitValue?_eq_some_iff` — the digits of either case, and no others, are read;
* `Text.numeral_iff_foldl` — a numeral is read by a fold from the left;
* `Text.numeral_sixteen_iff`, `Text.numeral_ten_iff` — the two readers of digits find the numerals;
* `Text.Decimal.int64?_eq_some_iff` — **the reader of signed integers is exact**: it finds the
  signed numerals of all integers that fit, and of no others.
-/

import Covenant.Text.Decimal
import Covenant.Text.Hex
import Mathlib.Data.Int.Notation
import Mathlib.Data.List.Forall2
import Mathlib.Data.Nat.Digits.Lemmas

set_option relaxedAutoImplicit false
set_option autoImplicit false

namespace Covenant.Text

/-! ### Digits -/

/-- The character is the digit of a number in a base.  A letter may be of either case. -/
def IsDigit (base : ℕ) (c : Char) (n : ℕ) : Prop :=
  n < base ∧ (c = n.digitChar ∨ c = n.digitChar.toUpper)

instance (base : ℕ) (c : Char) (n : ℕ) : Decidable (IsDigit base c n) :=
  inferInstanceAs (Decidable (_ ∧ _))

/-- **The hexadecimal digits of either case are read, and no others.** -/
theorem Hex.digitValue?_eq_some_iff {c : Char} {n : ℕ} :
    digitValue? c = some n ↔ IsDigit 16 c n := by
  constructor
  · intro reads
    -- what is read is an ASCII character, and of these there are few enough to look at each
    have small : c.toNat < 128 := by
      have bound : ∀ {last : Char}, last.toNat < 128 → c ≤ last → c.toNat < 128 :=
        fun low below => Nat.lt_of_le_of_lt (UInt32.le_iff_toNat_le.1 (Char.le_def.1 below)) low
      rw [digitValue?] at reads
      split at reads
      case isTrue range => exact bound (by decide) range.2
      case isFalse =>
        split at reads
        case isTrue range => exact bound (by decide) range.2
        case isFalse =>
          split at reads
          case isTrue range => exact bound (by decide) range.2
          case isFalse => cases reads
    have all : ∀ m : Fin 128, ∀ k ∈ digitValue? (Char.ofNat m.val),
        IsDigit 16 (Char.ofNat m.val) k := by decide
    have read := all ⟨c.toNat, small⟩
    simp only [Char.ofNat_toNat] at read
    exact read n reads
  · rintro ⟨small, same⟩
    have all : ∀ m : Fin 16, digitValue? (Nat.digitChar m.val) = some m.val ∧
        digitValue? (Nat.digitChar m.val).toUpper = some m.val := by decide
    rcases same with rfl | rfl
    · exact (all ⟨n, small⟩).1
    · exact (all ⟨n, small⟩).2

/-- The decimal digits stand one after another. -/
theorem isDigit_ten_iff {c : Char} {n : ℕ} :
    IsDigit 10 c n ↔ c.isDigit = true ∧ c.toNat - '0'.toNat = n := by
  constructor
  · rintro ⟨small, same⟩
    have all : ∀ m : Fin 10, (Nat.digitChar m.val).isDigit = true ∧
        (Nat.digitChar m.val).toNat - '0'.toNat = m.val ∧
        (Nat.digitChar m.val).toUpper = Nat.digitChar m.val := by decide
    obtain ⟨digit, value, upper⟩ := all ⟨n, small⟩
    have one : c = n.digitChar := same.elim id fun h => h.trans upper
    rw [one]
    exact ⟨digit, value⟩
  · rintro ⟨digit, rfl⟩
    obtain ⟨low, high⟩ := Char.isDigit_iff_toNat.1 digit
    have zero : '0'.toNat = 48 := rfl
    have nine : '9'.toNat = 57 := rfl
    have small : c.toNat - 48 < 10 := by omega
    refine ⟨small, .inl (Char.toNat_inj.1 ?_)⟩
    rw [zero, Nat.toNat_digitChar_of_lt_ten small]
    omega

/-! ### Runs of digits -/

/-- The text is a run of digits in a base, the highest place first, and denotes this number. -/
def Numeral (base : ℕ) (text : List Char) (value : ℕ) : Prop :=
  text ≠ [] ∧ ∃ digits, List.Forall₂ (IsDigit base) text digits ∧
    value = Nat.ofDigits base digits.reverse

/-- A numeral with few digits denotes a small number. -/
theorem Numeral.lt_pow_length {base n : ℕ} {text : List Char} (large : 1 < base)
    (numeral : Numeral base text n) : n < base ^ text.length := by
  obtain ⟨-, digits, places, rfl⟩ := numeral
  have bound : ∀ d ∈ digits, d < base := by
    induction places with
    | nil => simp
    | cons digit _ ih => exact List.forall_mem_cons.2 ⟨digit.1, ih⟩
  have small := Nat.ofDigits_lt_base_pow_length large fun d mem =>
    bound d (List.mem_reverse.1 mem)
  rwa [List.length_reverse, ← places.length_eq] at small

/-- Sixteen hexadecimal digits fit sixty-four bits. -/
theorem Numeral.lt_two_pow {n : ℕ} {digits : List Char} (numeral : Numeral 16 digits n)
    (short : digits.length ≤ 16) : n < 2 ^ 64 :=
  Nat.lt_of_lt_of_le (numeral.lt_pow_length (by decide))
    (Nat.pow_le_pow_right (Nat.zero_lt_succ 15) short)

section Fold

variable {base : ℕ} {isDigit : Char → Bool} {value : Char → ℕ}

/-- Where the digits are told by a test and a value, a text has at most one list of digits. -/
theorem forall₂_isDigit_iff (tells : ∀ c n, IsDigit base c n ↔ isDigit c = true ∧ value c = n)
    {text : List Char} {digits : List ℕ} : List.Forall₂ (IsDigit base) text digits ↔
      (∀ c ∈ text, isDigit c = true) ∧ digits = text.map value := by
  induction text generalizing digits with
  | nil => simp
  | cons c text ih =>
      simp only [List.forall₂_cons_left_iff, ih, tells, List.forall_mem_cons, List.map_cons]
      constructor
      · rintro ⟨_, _, ⟨digit, rfl⟩, ⟨others, rfl⟩, rfl⟩
        exact ⟨⟨digit, others⟩, rfl⟩
      · rintro ⟨⟨digit, others⟩, rfl⟩
        exact ⟨_, _, ⟨digit, rfl⟩, ⟨others, rfl⟩, rfl⟩

/-- **A numeral is read by a fold from the left**, which moves what was read one place up for every
digit. -/
theorem numeral_iff_foldl (tells : ∀ c n, IsDigit base c n ↔ isDigit c = true ∧ value c = n)
    {text : List Char} {n : ℕ} : Numeral base text n ↔
      text ≠ [] ∧ (∀ c ∈ text, isDigit c = true) ∧
        text.foldl (fun m c => base * m + value c) 0 = n := by
  have folds : Nat.ofDigits base (text.map value).reverse =
      text.foldl (fun m c => base * m + value c) 0 := by
    rw [Nat.ofDigits_eq_foldr, List.foldr_reverse, List.foldl_map]
    simp only [Nat.cast_id, Nat.add_comm]
  simp only [Numeral, forall₂_isDigit_iff tells]
  refine and_congr_right fun _ => ⟨?_, ?_⟩
  · rintro ⟨_, ⟨digits, rfl⟩, rfl⟩
    exact ⟨digits, folds.symm⟩
  · rintro ⟨digits, rfl⟩
    exact ⟨_, ⟨digits, rfl⟩, folds.symm⟩

end Fold

/-- The hexadecimal numerals. -/
theorem numeral_sixteen_iff {text : List Char} {n : ℕ} :
    Numeral 16 text n ↔ text ≠ [] ∧ text.all Hex.isDigit = true ∧ Hex.value text = n := by
  rw [List.all_eq_true]
  refine numeral_iff_foldl fun c n => ?_
  rw [← Hex.digitValue?_eq_some_iff, Hex.isDigit]
  cases Hex.digitValue? c <;> simp

/-- The decimal numerals. -/
theorem numeral_ten_iff {text : List Char} {n : ℕ} :
    Numeral 10 text n ↔ Decimal.isNumeral text = true ∧ Decimal.value text = n := by
  rw [Decimal.isNumeral, Bool.and_eq_true, Bool.not_eq_true', List.isEmpty_eq_false_iff,
    List.all_eq_true, and_assoc]
  exact numeral_iff_foldl fun c n => isDigit_ten_iff

/-- A decimal numeral has no sign. -/
theorem not_numeral_ten_minus {digits : List Char} {n : ℕ} : ¬ Numeral 10 ('-' :: digits) n := by
  intro numeral
  obtain ⟨valid, -⟩ := numeral_ten_iff.1 numeral
  simp [Decimal.isNumeral] at valid

/-! ### Signed numerals -/

/-- The text is a decimal numeral, perhaps with a minus sign before it, and denotes this integer. -/
inductive Signed : List Char → ℤ → Prop
  | plain {digits : List Char} {n : ℕ} (numeral : Numeral 10 digits n) : Signed digits n
  | minus {digits : List Char} {n : ℕ} (numeral : Numeral 10 digits n) :
      Signed ('-' :: digits) (-n)

theorem signed_minus_iff {digits : List Char} {value : ℤ} :
    Signed ('-' :: digits) value ↔
      Decimal.isNumeral digits = true ∧ value = -(Decimal.value digits : ℤ) := by
  constructor
  · intro signed
    cases signed with
    | plain numeral => exact absurd numeral not_numeral_ten_minus
    | minus numeral =>
        obtain ⟨valid, rfl⟩ := numeral_ten_iff.1 numeral
        exact ⟨valid, rfl⟩
  · rintro ⟨valid, rfl⟩
    exact .minus (numeral_ten_iff.2 ⟨valid, rfl⟩)

theorem signed_iff_of_ne {text : List Char} {value : ℤ} (bare : ∀ digits, text ≠ '-' :: digits) :
    Signed text value ↔ Decimal.isNumeral text = true ∧ value = Decimal.value text := by
  constructor
  · intro signed
    cases signed with
    | plain numeral =>
        obtain ⟨valid, rfl⟩ := numeral_ten_iff.1 numeral
        exact ⟨valid, rfl⟩
    | minus numeral => exact absurd rfl (bare _)
  · rintro ⟨valid, rfl⟩
    exact .plain (numeral_ten_iff.2 ⟨valid, rfl⟩)

namespace Decimal

/-- An integer that fits sixty-four bits is known by its value. -/
theorem ofInt_eq_iff {value : ℤ} {i : Int64} (low : -2 ^ 63 ≤ value) (high : value < 2 ^ 63) :
    Int64.ofInt value = i ↔ i.toInt = value := by
  constructor
  · rintro rfl
    exact Int64.toInt_ofInt_of_le low high
  · rintro rfl
    exact Int64.ofInt_toInt i

/-- **The reader of signed integers is exact.** -/
theorem int64?_eq_some_iff {text : List Char} {i : Int64} :
    int64? text = some i ↔ Signed text i.toInt := by
  have magnitude : minMagnitude = 2 ^ 63 := rfl
  have least := Int64.le_toInt i
  have greatest := Int64.toInt_lt i
  unfold int64?
  split
  case h_1 digits =>
    rw [signed_minus_iff, Option.ite_none_right_eq_some, Option.some_inj, and_assoc]
    refine and_congr_right fun _ => ⟨?_, ?_⟩
    · rintro ⟨fits, same⟩
      exact (ofInt_eq_iff (by omega) (by omega)).1 same
    · intro same
      exact ⟨by omega, (ofInt_eq_iff (by omega) (by omega)).2 same⟩
  case h_2 text bare =>
    rw [signed_iff_of_ne bare, Option.ite_none_right_eq_some, Option.some_inj, and_assoc]
    refine and_congr_right fun _ => ⟨?_, ?_⟩
    · rintro ⟨fits, same⟩
      exact (ofInt_eq_iff (by omega) (by omega)).1 same
    · intro same
      exact ⟨by omega, (ofInt_eq_iff (by omega) (by omega)).2 same⟩

end Decimal

end Covenant.Text
