/-
**The operands of assembly text.**

Two readers are tried on an operand in order, and each takes what it can from the front of the text:
the one no more than sixteen hexadecimal digits behind `0x`, the other all the decimal digits that
stand there.  So a numeral may be read in part, and `0x` without digits even as a decimal zero.  A
line refuses such operands by what they leave over: where an operand has no gaps, it has to be read
*whole*.  The operands that are read whole are those that denote an integer, and the number of their
word is the one that was written, modulo `2 ^ 64`; integers below zero are thereby in two's
complement.

Main definitions:

* `Covenant.Machine.Word.Holds` — a word holds an integer in two's complement;
* `Covenant.Assembly.wholeOperand?` — the operand that is a whole text;
* `Covenant.Assembly.Denotes` — the text of an operand denotes an integer.

Main results:

* `Machine.Word.holds_ofInt64` — a signed integer is held by its word;
* `Assembly.hexOperand?_eq_some_nil_iff`, `Assembly.decimalOperand?_eq_some_nil_iff` — what each of
  the two readers reads whole;
* `Assembly.wholeOperand?_eq_some_iff` — the words of operands are those that hold what they denote;
* `Assembly.readInstruction?_operand` — an operand without gaps has to be read whole;
* `Assembly.ofText_push_operand` — **a push is read exactly if its operand denotes an integer**, and
  then its word holds this integer.
-/

import Covenant.Proofs.Assembly
import Covenant.Proofs.Text.Numeral
import Mathlib.Data.Bool.AllAny

set_option relaxedAutoImplicit false
set_option autoImplicit false

namespace Covenant

open Machine

/-! ### Integers in words -/

namespace Machine.Word

/-- The word holds an integer in two's complement. -/
def Holds (word : Word) (value : ℤ) : Prop :=
  (word.toNat : ℤ) = value % 2 ^ 64

instance (word : Word) (value : ℤ) : Decidable (word.Holds value) :=
  inferInstanceAs (Decidable (_ = _))

/-- An integer is held by one word alone. -/
theorem Holds.unique {word other : Word} {value : ℤ} (holds : word.Holds value)
    (holds' : other.Holds value) : word = other :=
  eq_of_toNat_eq (Int.ofNat_inj.1 (Eq.trans holds (Eq.symm holds')))

/-- Every integer is held by a word. -/
theorem exists_holds (value : ℤ) : ∃ word : Word, word.Holds value := by
  have positive : 0 ≤ value % 2 ^ 64 := Int.emod_nonneg _ (by decide)
  have small : value % 2 ^ 64 < 2 ^ 64 := Int.emod_lt_of_pos _ (by decide)
  refine ⟨ofNat (value % 2 ^ 64).toNat, ?_⟩
  rw [Holds, toNat_ofNat_of_lt (by omega), Int.toNat_of_nonneg positive]

/-- A number that fits a word is held by its word. -/
theorem holds_ofNat {n : ℕ} (fits : n < 2 ^ 64) : (ofNat n).Holds n := by
  rw [Holds, toNat_ofNat_of_lt fits]
  omega

/-- **A signed integer is held by its word.** -/
theorem holds_ofInt64 (i : Int64) : (ofInt64 i).Holds i.toInt := by
  have signed : i.toInt = (i.toUInt64.toNat : ℤ).bmod (2 ^ 64) :=
    BitVec.toInt_eq_toNat_bmod i.toBitVec
  have bound : i.toUInt64.toNat < 2 ^ 64 := i.toUInt64.toNat_lt
  have residue := @Int.bmod_emod i.toUInt64.toNat (2 ^ 64)
  rw [← signed, Int.emod_eq_of_lt (Int.natCast_nonneg _) (by omega)] at residue
  rw [Holds, ofInt64, toNat_ofNat_of_lt bound]
  exact residue.symm

end Machine.Word

namespace Assembly

/-! ### The text of an operand -/

/-- The text of an operand denotes this integer: it is `0x` with at most sixteen hexadecimal digits
of either case, or a decimal numeral, perhaps with a minus sign, of a signed integer of sixty-four
bits. -/
inductive Denotes : List Char → ℤ → Prop
  | hexadecimal {digits : List Char} {n : ℕ} (numeral : Text.Numeral 16 digits n)
      (short : digits.length ≤ 16) : Denotes ('0' :: 'x' :: digits) n
  | decimal {text : List Char} {value : ℤ} (numeral : Text.Signed text value)
      (low : -2 ^ 63 ≤ value) (high : value < 2 ^ 63) : Denotes text value

/-- The word of the operand that is the whole text. -/
def wholeOperand? (text : List Char) : Option Word :=
  match readOperand? text with
  | some (word, []) => some word
  | _ => none

theorem wholeOperand?_eq_some_iff_readOperand? {text : List Char} {word : Word} :
    wholeOperand? text = some word ↔ readOperand? text = some (word, []) := by
  rw [wholeOperand?]
  split
  case h_1 word' reads => simp [reads]
  case h_2 other =>
    refine ⟨nofun, fun reads => ?_⟩
    exact absurd reads (other word)

/-- Up to sixteen hexadecimal digits are read whole. -/
theorem hexOperand?_eq_some_nil_iff {text : List Char} {word : Word} :
    hexOperand? text = some (word, []) ↔ ∃ digits n, text = '0' :: 'x' :: digits ∧
      Text.Numeral 16 digits n ∧ digits.length ≤ 16 ∧ .ofNat n = word := by
  constructor
  · intro reads
    unfold hexOperand? at reads
    split at reads
    case h_1 text =>
      obtain ⟨some, pair⟩ := Option.ite_none_left_eq_some.1 reads
      obtain ⟨rfl, left⟩ := Prod.mk.inj (Option.some.inj pair)
      -- the digits that are taken stand in front, and so are all that there is
      have front : (text.take 16).takeWhile Text.Hex.isDigit <+: text :=
        (List.takeWhile_prefix _).trans (List.take_prefix 16 text)
      have all := front.eq_of_length_le (List.drop_eq_nil_iff.1 left)
      have short := (List.takeWhile_prefix (p := Text.Hex.isDigit) (l := text.take 16)).length_le
      rw [List.length_take] at short
      have digits : ((text.take 16).takeWhile Text.Hex.isDigit).all Text.Hex.isDigit = true :=
        List.all_takeWhile
      rw [all] at some digits short ⊢
      exact ⟨text, _, rfl, Text.numeral_sixteen_iff.2 ⟨some, digits, rfl⟩, by omega, rfl⟩
    case h_2 => cases reads
  · rintro ⟨digits, n, rfl, numeral, short, rfl⟩
    obtain ⟨some, valid, rfl⟩ := Text.numeral_sixteen_iff.1 numeral
    have all : (digits.take 16).takeWhile Text.Hex.isDigit = digits := by
      rw [List.take_of_length_le short, List.takeWhile_eq_self_iff]
      exact List.all_eq_true.1 valid
    simp only [hexOperand?, all, if_neg some, List.drop_length]

/-- A run of digits, with something before it, is read whole if it is all digits. -/
theorem map_takeWhile_isDigit_eq_some_nil_iff {front text : List Char} {word : Word}
    (digits : ∀ i, Text.Decimal.int64? (front ++ text) = some i → Text.Decimal.isNumeral text) :
    ((Text.Decimal.int64? (front ++ text.takeWhile Char.isDigit)).map fun value =>
        (Word.ofInt64 value, text.dropWhile Char.isDigit)) = some (word, []) ↔
      ∃ i, Text.Decimal.int64? (front ++ text) = some i ∧ .ofInt64 i = word := by
  rw [Option.map_eq_some_iff]
  constructor
  · rintro ⟨i, found, pair⟩
    obtain ⟨rfl, left⟩ := Prod.mk.inj pair
    rw [List.takeWhile_eq_self_iff.2 (List.dropWhile_eq_nil_iff.1 left)] at found
    exact ⟨i, found, rfl⟩
  · rintro ⟨i, found, rfl⟩
    have all := digits i found
    rw [Text.Decimal.isNumeral, Bool.and_eq_true, List.all_eq_true] at all
    rw [List.takeWhile_eq_self_iff.2 all.2, List.dropWhile_eq_nil_iff.2 all.2]
    exact ⟨i, found, rfl⟩

/-- The signed integers of sixty-four bits are read whole. -/
theorem decimalOperand?_eq_some_nil_iff {text : List Char} {word : Word} :
    decimalOperand? text = some (word, []) ↔
      ∃ i, Text.Decimal.int64? text = some i ∧ .ofInt64 i = word := by
  unfold decimalOperand?
  split
  case h_1 text =>
    refine @map_takeWhile_isDigit_eq_some_nil_iff ['-'] text word fun i found => ?_
    exact (Text.signed_minus_iff.1 (Text.Decimal.int64?_eq_some_iff.1 found)).1
  case h_2 bare =>
    refine @map_takeWhile_isDigit_eq_some_nil_iff [] text word fun i found => ?_
    exact ((Text.signed_iff_of_ne bare).1 (Text.Decimal.int64?_eq_some_iff.1 found)).1

/-- No signed numeral begins like a hexadecimal operand. -/
theorem hexOperand?_of_signed {text : List Char} {value : ℤ} (signed : Text.Signed text value) :
    hexOperand? text = none := by
  unfold hexOperand?
  split
  case h_1 digits =>
    rw [Text.signed_iff_of_ne (by simp)] at signed
    simp [Text.Decimal.isNumeral] at signed
  case h_2 => rfl

/-- **The words of operands are those that hold what the operands denote.** -/
theorem wholeOperand?_eq_some_iff {text : List Char} {word : Word} :
    wholeOperand? text = some word ↔ ∃ value, Denotes text value ∧ word.Holds value := by
  rw [wholeOperand?_eq_some_iff_readOperand?, readOperand?, Option.or_eq_some_iff]
  constructor
  · rintro (reads | ⟨-, reads⟩)
    · obtain ⟨digits, n, rfl, numeral, short, rfl⟩ := hexOperand?_eq_some_nil_iff.1 reads
      exact ⟨n, .hexadecimal numeral short, Word.holds_ofNat (numeral.lt_two_pow short)⟩
    · obtain ⟨i, found, rfl⟩ := decimalOperand?_eq_some_nil_iff.1 reads
      exact ⟨_, .decimal (Text.Decimal.int64?_eq_some_iff.1 found) (Int64.le_toInt i)
        (Int64.toInt_lt i), Word.holds_ofInt64 i⟩
  · rintro ⟨value, denotes, holds⟩
    cases denotes with
    | hexadecimal numeral short =>
        have same := (Word.holds_ofNat (numeral.lt_two_pow short)).unique holds
        exact .inl (hexOperand?_eq_some_nil_iff.2 ⟨_, _, rfl, numeral, short, same⟩)
    | decimal numeral low high =>
        have same := Int64.toInt_ofInt_of_le low high
        have found : Text.Decimal.int64? text = some (Int64.ofInt value) :=
          Text.Decimal.int64?_eq_some_iff.2 (by rwa [same])
        have number := Word.holds_ofInt64 (Int64.ofInt value)
        rw [same] at number
        exact .inr ⟨hexOperand?_of_signed numeral,
          decimalOperand?_eq_some_nil_iff.2 ⟨_, found, number.unique holds⟩⟩

/-- A text that has no word denotes nothing. -/
theorem wholeOperand?_eq_none_iff {text : List Char} :
    wholeOperand? text = none ↔ ∀ value, ¬ Denotes text value := by
  rw [Option.eq_none_iff_forall_ne_some]
  constructor
  · intro none value denotes
    obtain ⟨word, holds⟩ := Word.exists_holds value
    exact none word (wholeOperand?_eq_some_iff.2 ⟨value, denotes, holds⟩)
  · intro senseless word found
    obtain ⟨value, denotes, -⟩ := wholeOperand?_eq_some_iff.1 found
    exact senseless value denotes

/-! ### Lines with an operand -/

/-- What an operand leaves is the end of its text. -/
theorem readOperand?_suffix {text rest : List Char} {word : Word}
    (reads : readOperand? text = some (word, rest)) : rest <:+ text := by
  rw [readOperand?, Option.or_eq_some_iff] at reads
  rcases reads with reads | ⟨-, reads⟩
  · unfold hexOperand? at reads
    split at reads
    case h_1 text =>
      obtain ⟨-, pair⟩ := Option.ite_none_left_eq_some.1 reads
      obtain ⟨-, rfl⟩ := Prod.mk.inj (Option.some.inj pair)
      exact (List.drop_suffix _ text).trans ((List.suffix_cons _ _).trans (List.suffix_cons _ _))
    case h_2 => cases reads
  · unfold decimalOperand? at reads
    split at reads
    case h_1 text =>
      obtain ⟨i, -, pair⟩ := Option.map_eq_some_iff.1 reads
      obtain ⟨-, rfl⟩ := Prod.mk.inj pair
      exact (List.dropWhile_suffix _).trans (List.suffix_cons _ _)
    case h_2 text _ =>
      obtain ⟨i, -, pair⟩ := Option.map_eq_some_iff.1 reads
      obtain ⟨-, rfl⟩ := Prod.mk.inj pair
      exact List.dropWhile_suffix _

/-- **An operand without gaps has to be read whole** behind a name. -/
theorem readInstruction?_operand {name operand : List Char} (nonempty : name ≠ [])
    (letters : ∀ c ∈ name, c.isAlpha = true) (some : operand ≠ [])
    (solid : ∀ c ∈ operand, isGap c = false) :
    readInstruction? (name ++ ' ' :: operand) =
      (wholeOperand? operand).map fun word => (String.ofList name, .some word) := by
  have gapless : operand.dropWhile isGap = operand :=
    Text.dropWhile_eq_self_iff_head.2 fun c mem => solid c (List.mem_of_mem_head? mem)
  have argument : readArgument? (' ' :: operand) = readOperand? operand := by
    have space : isGap ' ' = true := rfl
    rw [readArgument?, if_pos space, gapless]
  -- no end of the operand consists of gaps, but for the empty one
  have left : ∀ {rest : List Char}, rest <:+ operand → (rest.all isGap = true ↔ rest = []) := by
    intro rest suffix
    refine ⟨fun gaps => ?_, fun empty => by rw [empty]; rfl⟩
    cases rest with
    | nil => rfl
    | cons c rest =>
        have gap := List.all_eq_true.1 gaps c (.head _)
        rw [solid c (suffix.subset (.head _))] at gap
        cases gap
  rw [readInstruction?_append nonempty letters (by rintro c ⟨⟩; rfl), argument, wholeOperand?]
  cases reads : readOperand? operand with
  | none =>
      have gaps : (' ' :: operand).all isGap = false := by
        rw [Bool.eq_false_iff, ne_eq, List.all_cons, Bool.and_eq_true,
          left (List.suffix_refl operand)]
        exact fun gaps => some gaps.2
      simp only [gaps, Bool.false_eq_true, if_false, Option.map_none]
  | some pair =>
      obtain ⟨word, rest⟩ := pair
      have suffix := readOperand?_suffix reads
      cases rest with
      | nil => rfl
      | cons c rest =>
          simp only [left suffix, reduceCtorEq, if_false, Option.map_none]

/-- The line of a push whose operand has no gaps holds the word of the operand, or is malformed. -/
theorem readLine_push {operand : List Char} (some : operand ≠ [])
    (solid : ∀ c ∈ operand, isGap c = false) (plain : '%' ∉ operand) (number : ℕ) :
    readLine number ("Push ".toList ++ operand) =
      match wholeOperand? operand with
      | .some word => .ok (.some ⟨.push word, none⟩)
      | none =>
        .error (.malformed number (String.ofList (Text.trim ("Push ".toList ++ operand)))) := by
  have clear : ∀ c ∈ "Push ".toList ++ operand, (c != '%') = true := by
    intro c mem
    rw [bne_iff_ne]
    rintro rfl
    simp [plain] at mem
  have code : codePart ("Push ".toList ++ operand) = "Push ".toList ++ operand :=
    List.takeWhile_eq_self_iff.2 clear
  have note : notePart ("Push ".toList ++ operand) = none := by
    rw [notePart, List.dropWhile_eq_nil_iff.2 clear]
    rfl
  have visible : Text.trim ("Push ".toList ++ operand) ≠ [] :=
    Text.trim_ne_nil (c := 'P') (by simp) rfl
  have instruction : readInstruction? ("Push ".toList ++ operand) =
      (wholeOperand? operand).map fun word => (Opcode.push.name, .some word) :=
    readInstruction?_operand Opcode.push.name_ne_nil (fun c mem => Opcode.isAlpha_of_mem_name mem)
      some solid
  simp only [readLine, code, if_neg visible, instruction, note]
  cases wholeOperand? operand with
  | none => rfl
  | some word => rfl

variable {operand : String}

/-- A text that is a push with an operand without gaps. -/
theorem ofText_push (nonempty : operand ≠ "")
    (solid : ∀ c ∈ operand.toList, c ≠ '%' ∧ c ≠ ' ' ∧ c ≠ '\t' ∧ c ≠ '\n') :
    ofText ("Push " ++ operand) =
      match wholeOperand? operand.toList with
      | some word => .ok ⟨[⟨.push word, none⟩]⟩
      | none =>
        .error (.malformed 1 (String.ofList (Text.trim ("Push " ++ operand).toList))) := by
  have nonempty' : operand.toList ≠ [] := by simpa using nonempty
  have gapless : ∀ c ∈ operand.toList, isGap c = false := by
    intro c mem
    obtain ⟨-, space, tab, -⟩ := solid c mem
    simp [isGap, space, tab]
  have whole : '\n' ∉ ("Push " ++ operand).toList := by
    rw [String.toList_append, List.mem_append, not_or]
    exact ⟨by decide, fun mem => (solid _ mem).2.2.2 rfl⟩
  have line := readLine_push nonempty' gapless (fun mem => (solid _ mem).1 rfl) 1
  rw [← String.toList_append] at line
  rw [ofText, Text.lines_eq_singleton (by simp) whole, readLines, line]
  cases wholeOperand? operand.toList with
  | none => rfl
  | some word => rfl

/-- **A push is read exactly if its operand denotes an integer**, whatever its length.  Its word
then holds this integer, and is that of the integer as an operand if the operand is decimal.  Every
other operand makes the line malformed. -/
theorem ofText_push_operand (nonempty : operand ≠ "")
    (solid : ∀ c ∈ operand.toList, c ≠ '%' ∧ c ≠ ' ' ∧ c ≠ '\t' ∧ c ≠ '\n') :
    ((∃ code, ofText ("Push " ++ operand) = .ok code) ↔ ∃ value, Denotes operand.toList value) ∧
    (∀ value, Denotes operand.toList value → ∃ word, word.Holds value ∧
      ofText ("Push " ++ operand) = .ok ⟨[⟨.push word, none⟩]⟩) ∧
    (∀ value : Int64, Text.Signed operand.toList value.toInt → ∃ word,
      Operand.encode (.integer value) = .ok word ∧
        ofText ("Push " ++ operand) = .ok ⟨[⟨.push word, none⟩]⟩) ∧
    ((∀ value, ¬ Denotes operand.toList value) → ofText ("Push " ++ operand) =
      .error (.malformed 1 (String.ofList (Text.trim ("Push " ++ operand).toList)))) := by
  rw [ofText_push nonempty solid]
  cases found : wholeOperand? operand.toList with
  | none =>
      have senseless := wholeOperand?_eq_none_iff.1 found
      refine ⟨⟨nofun, fun ⟨value, denotes⟩ => absurd denotes (senseless value)⟩,
        fun value denotes => absurd denotes (senseless value), fun value signed => ?_, fun _ => rfl⟩
      exact absurd (.decimal signed (Int64.le_toInt value) (Int64.toInt_lt value))
        (senseless value.toInt)
  | some word =>
      obtain ⟨number, denotes, -⟩ := wholeOperand?_eq_some_iff.1 found
      -- an operand has one word, which is that of everything that it denotes
      have one : ∀ {value word'}, Denotes operand.toList value → word'.Holds value →
          word = word' := by
        intro value word' denotes holds
        have same := wholeOperand?_eq_some_iff.2 ⟨value, denotes, holds⟩
        rwa [found, Option.some_inj] at same
      refine ⟨⟨fun _ => ⟨number, denotes⟩, fun _ => ⟨_, rfl⟩⟩, fun value other => ?_,
        fun value signed => ?_, fun senseless => absurd denotes (senseless number)⟩
      · obtain ⟨word', holds⟩ := Word.exists_holds value
        obtain rfl := one other holds
        exact ⟨word, holds, rfl⟩
      · obtain rfl := one (.decimal signed (Int64.le_toInt value) (Int64.toInt_lt value))
          (Word.holds_ofInt64 value)
        exact ⟨_, rfl, rfl⟩

/-- The least signed integer with a zero before it is read, and so are hexadecimal digits of either
case; sixteen of them with a zero before them are too many, and `0x` alone has too few. -/
theorem ofText_push_operand_limits :
    ofText ("Push " ++ "-09223372036854775808") =
      .ok ⟨[⟨.push ⟨[0x80, 0, 0, 0, 0, 0, 0, 0], rfl⟩, none⟩]⟩ ∧
    ofText ("Push " ++ "0xFfffffffffffffff") =
      .ok ⟨[⟨.push ⟨[255, 255, 255, 255, 255, 255, 255, 255], rfl⟩, none⟩]⟩ ∧
    ofText ("Push " ++ "0x01234567890abcdef") =
      .error (.malformed 1 "Push 0x01234567890abcdef") ∧
    ofText ("Push " ++ "0x") = .error (.malformed 1 "Push 0x") := by
  refine ⟨?_, ?_, ?_, ?_⟩
  · have digits : Text.Numeral 10 "09223372036854775808".toList 9223372036854775808 :=
      Text.numeral_ten_iff.2 ⟨by decide, by decide⟩
    have least : Text.Signed "-09223372036854775808".toList Int64.minValue.toInt := .minus digits
    obtain ⟨word, encoded, reads⟩ :=
      (ofText_push_operand (by decide) (List.all_iff_forall_prop.1 rfl)).2.2.1 Int64.minValue least
    cases encoded
    exact reads
  · have ones : Denotes "0xFfffffffffffffff".toList (2 ^ 64 - 1 : ℕ) :=
      .hexadecimal (Text.numeral_sixteen_iff.2 ⟨by decide, by decide, by decide⟩) (by decide)
    obtain ⟨word, holds, reads⟩ :=
      (ofText_push_operand (by decide) (List.all_iff_forall_prop.1 rfl)).2.1 _ ones
    have same : Word.mk [255, 255, 255, 255, 255, 255, 255, 255] rfl = word :=
      Word.Holds.unique (by decide) holds
    rw [same]
    exact reads
  · exact (ofText_push_operand (by decide) (List.all_iff_forall_prop.1 rfl)).2.2.2
      (wholeOperand?_eq_none_iff.1 (by decide))
  · exact (ofText_push_operand (by decide) (List.all_iff_forall_prop.1 rfl)).2.2.2
      (wholeOperand?_eq_none_iff.1 (by decide))

end Assembly

end Covenant
