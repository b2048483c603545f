/-
**Operands and the words that carry them.**

A word keeps all of a boolean and of an integer.  Of a text it keeps the bytes up to the last one
that is not zero, and of raw bytes those from the first one that is not zero on; what lies beyond
cannot be told from the zeros that fill the word.  So a word gives back an operand without its
padding, and every word that can be read is the word of what it gives.

Main definitions:

* `Covenant.Text.withoutTrailingNuls` — a text up to its last character that is not NUL;
* `Covenant.Machine.Operand.TooLong` — more bytes than a word has;
* `Covenant.Machine.Operand.unpadded`, `Covenant.Machine.Operand.Padded` — an operand without the
  zeros that its word does not keep, and whether it has any.

Main results:

* `Text.Utf8.encode_withoutTrailingNuls` — the zeros at the end of a text's bytes are its last NULs;
* `Machine.Operand.exists_encode` — the word of an operand gives it back without its padding;
* `Machine.Operand.encode_of_decode` — a word is the word of the operand that it gives;
* `Machine.Operand.codec_exact` — **both at once, with the operands that have no word and the words
  that give no operand**.
-/

import Covenant.Machine.Operand
import Covenant.Proofs.Machine.Word
import Mathlib.Data.List.DropRight
import Mathlib.Data.List.Infix

set_option relaxedAutoImplicit false
set_option autoImplicit false

namespace Covenant

/-! ### Zeros -/

/-- Nothing is dropped from the end of a list that does not end in what is dropped. -/
theorem rdropWhile_beq_eq_self_iff {α : Type} [BEq α] [LawfulBEq α] {a : α} {items : List α} :
    items.rdropWhile (· == a) = items ↔ items.getLast? ≠ some a := by
  cases items using List.reverseRecOn with
  | nil => simp
  | append_singleton items b => simp [List.rdropWhile_eq_self_iff]

namespace Machine.Word

theorem rdropWhile_append_zeros (bytes : List UInt8) (n : ℕ) :
    (bytes ++ List.replicate n 0).rdropWhile (· == 0) = bytes.rdropWhile (· == 0) := by
  induction n with
  | zero => rw [List.replicate_zero, List.append_nil]
  | succ n ih =>
      rw [List.replicate_succ', ← List.append_assoc, List.rdropWhile_concat_pos _ _ _ rfl, ih]

theorem dropWhile_zeros_append (bytes : List UInt8) (n : ℕ) :
    (List.replicate n 0 ++ bytes).dropWhile (· == 0) = bytes.dropWhile (· == 0) := by
  induction n with
  | zero => rw [List.replicate_zero, List.nil_append]
  | succ n ih => rw [List.replicate_succ, List.cons_append, List.dropWhile_cons_of_pos rfl, ih]

/-- Before the bytes that are left of some bytes without the zeros at their front stand zeros. -/
theorem exists_eq_zeros_append (bytes : List UInt8) :
    ∃ n, bytes = List.replicate n 0 ++ bytes.dropWhile (· == 0) := by
  refine ⟨(bytes.takeWhile (· == 0)).length, ?_⟩
  have zeros : bytes.takeWhile (· == 0) =
      List.replicate (bytes.takeWhile (· == 0)).length 0 := by
    rw [List.eq_replicate_iff]
    refine ⟨rfl, ?_⟩
    intro b mem
    have zero : (b == 0) = true := List.mem_takeWhile_imp (p := (· == 0)) mem
    exact beq_iff_eq.1 zero
  rw [← zeros, List.takeWhile_append_dropWhile]

/-- Behind the bytes that are left of some bytes without the zeros at their end stand zeros. -/
theorem exists_eq_append_zeros (bytes : List UInt8) :
    ∃ n, bytes = bytes.rdropWhile (· == 0) ++ List.replicate n 0 := by
  obtain ⟨n, same⟩ := exists_eq_zeros_append bytes.reverse
  refine ⟨n, ?_⟩
  have reversed := congrArg List.reverse same
  rw [List.reverse_reverse, List.reverse_append, List.reverse_replicate] at reversed
  exact reversed

theorem withoutTrailingZeros_leftJustified {bytes : List UInt8} (short : bytes.length ≤ size) :
    (leftJustified bytes short).withoutTrailingZeros = bytes.rdropWhile (· == 0) :=
  rdropWhile_append_zeros bytes _

theorem withoutLeadingZeros_rightJustified {bytes : List UInt8} (short : bytes.length ≤ size) :
    (rightJustified bytes short).withoutLeadingZeros = bytes.dropWhile (· == 0) :=
  dropWhile_zeros_append bytes _

/-- What is left of a word without the zeros at its end does not end in a zero, and is known by
that. -/
theorem eq_withoutTrailingZeros_iff {w : Word} {front : List UInt8} :
    front = w.withoutTrailingZeros ↔
      front.getLast? ≠ some 0 ∧ ∃ n, w.bytes = front ++ List.replicate n 0 := by
  constructor
  · rintro rfl
    refine ⟨rdropWhile_beq_eq_self_iff.1 ?_, exists_eq_append_zeros w.bytes⟩
    exact List.rdropWhile_idempotent (· == 0) w.bytes
  · rintro ⟨complete, n, same⟩
    change front = w.bytes.rdropWhile (· == 0)
    rw [same, rdropWhile_append_zeros, rdropWhile_beq_eq_self_iff.2 complete]

/-- A word is its bytes up to the last one that is not zero, filled with zeros. -/
theorem eq_leftJustified (w : Word) :
    ∃ short, leftJustified w.withoutTrailingZeros short = w := by
  obtain ⟨n, same⟩ := exists_eq_append_zeros w.bytes
  change w.bytes = w.withoutTrailingZeros ++ List.replicate n 0 at same
  have eight := w.length_bytes
  rw [same, List.length_append, List.length_replicate] at eight
  have fill : size - w.withoutTrailingZeros.length = n := by
    rw [size]
    omega
  refine ⟨by rw [size]; omega, ext_bytes ?_⟩
  change w.withoutTrailingZeros ++ List.replicate (size - w.withoutTrailingZeros.length) 0 = w.bytes
  rw [fill, ← same]

/-- A word is its bytes from the first one that is not zero on, with zeros before them. -/
theorem eq_rightJustified (w : Word) :
    ∃ short, rightJustified w.withoutLeadingZeros short = w := by
  obtain ⟨n, same⟩ := exists_eq_zeros_append w.bytes
  change w.bytes = List.replicate n 0 ++ w.withoutLeadingZeros at same
  have eight := w.length_bytes
  rw [same, List.length_append, List.length_replicate] at eight
  have fill : size - w.withoutLeadingZeros.length = n := by
    rw [size]
    omega
  refine ⟨by rw [size]; omega, ext_bytes ?_⟩
  change List.replicate (size - w.withoutLeadingZeros.length) 0 ++ w.withoutLeadingZeros = w.bytes
  rw [fill, ← same]

end Machine.Word

/-! ### Texts -/

namespace Text

/-- A text up to its last character that is not NUL. -/
def withoutTrailingNuls (s : String) : String :=
  String.ofList (s.toList.rdropWhile (· == '\x00'))

namespace Utf8

/-- No character but NUL has a zero at the end of its bytes. -/
theorem exists_utf8EncodeChar {c : Char} (noNul : c ≠ '\x00') :
    ∃ front last, String.utf8EncodeChar c = front ++ [last] ∧ last ≠ 0 := by
  have positive : c.val.toNat ≠ 0 := by
    intro zero
    exact noNul (Char.ext (UInt32.toNat_inj.1 zero))
  -- the last byte is the number of an ASCII character, or has its highest bit set
  have nonzero : ∀ n : ℕ, n % 256 ≠ 0 → UInt8.ofNat n ≠ 0 := by
    intro n positive zero
    have number := congrArg UInt8.toNat zero
    rw [UInt8.toNat_ofNat'] at number
    exact positive number
  unfold String.utf8EncodeChar
  simp only
  split
  · exact ⟨[], _, rfl, nonzero _ (by omega)⟩
  · split
    · exact ⟨[_], _, rfl, nonzero _ (by omega)⟩
    · split
      · exact ⟨[_, _], _, rfl, nonzero _ (by omega)⟩
      · exact ⟨[_, _, _], _, rfl, nonzero _ (by omega)⟩

theorem decode?_eq_none_iff {bytes : List UInt8} :
    decode? bytes = none ↔ ∀ s, encode s ≠ bytes := by
  constructor
  · rintro none s rfl
    rw [decode?_encode] at none
    cases none
  · intro unencoded
    cases found : decode? bytes with
    | none => rfl
    | some s => exact absurd (eq_encode_of_decode? found).symm (unencoded s)

theorem encode_ofList (cs : List Char) :
    encode (String.ofList cs) = cs.flatMap String.utf8EncodeChar := by
  rw [encode, String.toList_ofList]

/-- The zeros at the end of a text's bytes are its last NULs. -/
theorem encode_withoutTrailingNuls (s : String) :
    encode (withoutTrailingNuls s) = (encode s).rdropWhile (· == 0) := by
  rw [withoutTrailingNuls, encode_ofList, encode]
  induction s.toList using List.reverseRecOn with
  | nil => rfl
  | append_singleton cs c ih =>
      rw [List.flatMap_append, List.flatMap_singleton]
      by_cases nul : c = '\x00'
      · subst nul
        have zero : String.utf8EncodeChar '\x00' = [0] := rfl
        rw [List.rdropWhile_concat_pos _ _ _ rfl, ih, zero, List.rdropWhile_concat_pos _ _ _ rfl]
      · obtain ⟨front, last, bytes, nonzero⟩ := exists_utf8EncodeChar nul
        rw [List.rdropWhile_concat_neg _ _ _ (by simpa using nul), List.flatMap_append,
          List.flatMap_singleton, bytes, ← List.append_assoc,
          List.rdropWhile_concat_neg _ _ _ (by simpa using nonzero)]

end Utf8

end Text

/-! ### Operands -/

namespace Machine.Operand

/-- The number of bytes that an operand takes.  A boolean and an integer take the whole word. -/
def length : Operand → ℕ
  | text value => (Text.Utf8.encode value).length
  | bytes value => value.length
  | boolean _ | integer _ => 8

/-- A text or raw bytes that no word holds. -/
def TooLong (v : Operand) : Prop :=
  8 < v.length

instance (v : Operand) : Decidable v.TooLong :=
  inferInstanceAs (Decidable (_ < _))

/-- An operand without the padding that its word does not keep. -/
def unpadded : Operand → Operand
  | text value => text (Text.withoutTrailingNuls value)
  | bytes value => bytes (value.dropWhile (· == 0))
  | boolean value => boolean value
  | integer value => integer value

/-- A text that ends in NUL, or raw bytes that begin with a zero. -/
def Padded : Operand → Prop
  | text value => value.toList.getLast? = some '\x00'
  | bytes value => value.head? = some 0
  | boolean _ | integer _ => False

theorem unpadded_eq_self_iff (v : Operand) : v.unpadded = v ↔ ¬ v.Padded := by
  cases v with
  | boolean value => simp [unpadded, Padded]
  | integer value => simp [unpadded, Padded]
  | text value =>
      have same : (text value).unpadded = text value ↔
          value.toList.rdropWhile (· == '\x00') = value.toList := by
        rw [unpadded, Text.withoutTrailingNuls, text.injEq, ← String.toList_inj,
          String.toList_ofList]
      rw [same, rdropWhile_beq_eq_self_iff, Padded]
  | bytes value =>
      rw [unpadded, bytes.injEq, List.dropWhile_eq_self_iff, Padded]
      cases value with
      | nil => simp
      | cons b rest => simp

/-! ### Encoding and decoding -/

/-- An operand that is too long, and no other, has no word. -/
theorem encode_of_tooLong {v : Operand} (long : v.TooLong) :
    encode v = .error ⟨v.kind, v.length, v⟩ := by
  cases v with
  | boolean value => exact absurd long (Nat.lt_irrefl 8)
  | integer value => exact absurd long (Nat.lt_irrefl 8)
  | text value => exact dif_neg (Nat.not_le.2 long)
  | bytes value => exact dif_neg (Nat.not_le.2 long)

/-- The word of an operand that is not too long gives it back without its padding. -/
theorem exists_encode {v : Operand} (short : ¬ v.TooLong) :
    ∃ w, encode v = .ok w ∧ decode w v.kind = .ok v.unpadded := by
  rw [TooLong, Nat.not_lt] at short
  cases v with
  | boolean value => cases value <;> exact ⟨_, rfl, rfl⟩
  | integer value =>
      refine ⟨_, rfl, ?_⟩
      rw [kind, decode, Word.toInt64_ofInt64, unpadded]
  | text value =>
      have fits : (Text.Utf8.encode value).length ≤ Word.size := short
      refine ⟨_, dif_pos fits, ?_⟩
      rw [kind, decode, Word.withoutTrailingZeros_leftJustified,
        ← Text.Utf8.encode_withoutTrailingNuls, Text.Utf8.decode?_encode, unpadded]
  | bytes value =>
      have fits : value.length ≤ Word.size := short
      refine ⟨_, dif_pos fits, ?_⟩
      rw [kind, decode, Word.withoutLeadingZeros_rightJustified, unpadded]

/-- A word is the word of the operand that it gives. -/
theorem encode_of_decode {w : Word} {kind : Kind} {v : Operand} (h : decode w kind = .ok v) :
    v.kind = kind ∧ encode v = .ok w := by
  cases kind with
  | boolean =>
      rw [decode] at h
      split at h
      case isTrue zero =>
        cases h
        exact ⟨rfl, congrArg _ ((Word.ofNat_eq_iff (by decide)).2 zero.symm)⟩
      case isFalse =>
        split at h <;> cases h
        case isTrue one =>
          exact ⟨rfl, congrArg _ ((Word.ofNat_eq_iff (by decide)).2 one.symm)⟩
  | integer =>
      cases h
      exact ⟨rfl, congrArg _ w.ofInt64_toInt64⟩
  | text =>
      rw [decode] at h
      split at h <;> cases h
      case h_1 value found =>
        obtain ⟨short, same⟩ := w.eq_leftJustified
        have bytes := Text.Utf8.eq_encode_of_decode? found
        refine ⟨rfl, ?_⟩
        simp only [bytes] at short same
        rw [encode]
        simp only [short, dif_pos, same]
  | bytes =>
      cases h
      obtain ⟨short, same⟩ := w.eq_rightJustified
      refine ⟨rfl, ?_⟩
      rw [encode, dif_pos short, same]

/-- The words that give no operand are those that are neither zero nor one, read as booleans, and
those whose bytes before the last zeros are no text, read as texts. -/
theorem decode_eq_error_iff {w : Word} {kind : Kind} {fault : Unreadable} :
    decode w kind = .error fault ↔
      (kind = .boolean ∧ w ≠ .ofNat 0 ∧ w ≠ .ofNat 1 ∧ fault = .notBoolean w) ∨
      (kind = .text ∧ fault = .invalidText w ∧ ∃ front zeros,
        w.bytes = front ++ List.replicate zeros 0 ∧ front.getLast? ≠ some 0 ∧
          ∀ value, Text.Utf8.encode value ≠ front) := by
  have number : ∀ n, n < 2 ^ 64 → (w ≠ .ofNat n ↔ w.toNat ≠ n) := by
    intro n bound
    rw [ne_comm, ne_comm (a := w.toNat), Ne, Ne, Word.ofNat_eq_iff bound]
  cases kind with
  | boolean =>
      rw [number 0 (by decide), number 1 (by decide), decode]
      by_cases zero : w.toNat = 0
      · simp [zero]
      · by_cases one : w.toNat = 1
        · simp [one]
        · simp [zero, one, eq_comm]
  | integer => simp [decode]
  | bytes => simp [decode]
  | text =>
      have unread : decode w .text = .error fault ↔
          Text.Utf8.decode? w.withoutTrailingZeros = none ∧ fault = .invalidText w := by
        rw [decode]
        cases Text.Utf8.decode? w.withoutTrailingZeros with
        | none => simp [eq_comm]
        | some value => simp
      rw [unread, Text.Utf8.decode?_eq_none_iff]
      constructor
      · rintro ⟨none, rfl⟩
        obtain ⟨complete, zeros, same⟩ := Word.eq_withoutTrailingZeros_iff.1 rfl
        exact .inr ⟨rfl, rfl, _, zeros, same, complete, none⟩
      · rintro (⟨⟨⟩, -⟩ | ⟨-, rfl, front, zeros, same, complete, none⟩)
        rw [← Word.eq_withoutTrailingZeros_iff.2 ⟨complete, zeros, same⟩]
        exact ⟨none, rfl⟩

/-- Two operands of one kind that are not too long have one word if they differ in their padding
only. -/
theorem encode_eq_encode_iff {v v' : Operand} (same : v.kind = v'.kind) (short : ¬ v.TooLong)
    (short' : ¬ v'.TooLong) : encode v = encode v' ↔ v.unpadded = v'.unpadded := by
  obtain ⟨w, word, back⟩ := exists_encode short
  obtain ⟨w', word', back'⟩ := exists_encode short'
  rw [word, word']
  constructor
  · intro shared
    cases shared
    rw [← same, back] at back'
    exact Except.ok.inj back'
  · intro equal
    have first := (encode_of_decode back).2
    have second := (encode_of_decode back').2
    rw [← first, ← second, equal]

/-- **The codec is a retraction.**  Exactly what is too long has no word; every other operand is
given back by its word without its padding, and so as it was if it has none.  A word is the word of
what it gives, and it gives nothing only if it is read as a boolean and is neither zero nor one, or
as a text and its bytes before the last zeros are none.  So operands share a word exactly if they
differ in their padding only. -/
theorem codec_exact :
    (∀ (v : Operand) (fault : Oversize),
      encode v = .error fault ↔ v.TooLong ∧ fault = ⟨v.kind, v.length, v⟩) ∧
    (∀ v : Operand, ¬ v.TooLong → ∃ w, encode v = .ok w ∧ decode w v.kind = .ok v.unpadded ∧
      (decode w v.kind = .ok v ↔ ¬ v.Padded)) ∧
    (∀ (w : Word) (kind : Kind) (v : Operand), decode w kind = .ok v →
      v.kind = kind ∧ encode v = .ok w) ∧
    (∀ (w : Word) (kind : Kind) (fault : Unreadable), decode w kind = .error fault ↔
      (kind = .boolean ∧ w ≠ .ofNat 0 ∧ w ≠ .ofNat 1 ∧ fault = .notBoolean w) ∨
      (kind = .text ∧ fault = .invalidText w ∧ ∃ front zeros,
        w.bytes = front ++ List.replicate zeros 0 ∧ front.getLast? ≠ some 0 ∧
          ∀ value, Text.Utf8.encode value ≠ front)) ∧
    ∀ v v' : Operand, v.kind = v'.kind → ¬ v.TooLong → ¬ v'.TooLong →
      (encode v = encode v' ↔ v.unpadded = v'.unpadded) := by
  refine ⟨?_, ?_, fun w kind v h => encode_of_decode h, fun w kind fault => decode_eq_error_iff,
    fun v v' same short short' => encode_eq_encode_iff same short short'⟩
  · intro v fault
    by_cases long : v.TooLong
    · rw [encode_of_tooLong long]
      simp [long, eq_comm]
    · obtain ⟨w, word, -⟩ := exists_encode long
      simp [long, word]
  · intro v short
    obtain ⟨w, word, back⟩ := exists_encode short
    refine ⟨w, word, back, ?_⟩
    rw [back, Except.ok.injEq, unpadded_eq_self_iff]

/-- A text of eight bytes that ends in NUL shares its word with the text before the NUL, nine bytes
have no word, and two is no boolean. -/
theorem codec_exact_corner :
    (∃ w, encode (.text "日éab\x00") = .ok w ∧ decode w .text = .ok (.text "日éab") ∧
      encode (.text "日éab") = .ok w) ∧
    encode (.bytes (List.replicate 9 0)) = .error ⟨.bytes, 9, .bytes (List.replicate 9 0)⟩ ∧
    decode (.ofNat 2) .boolean = .error (.notBoolean (.ofNat 2)) := by
  obtain ⟨tooLong, short, back, unreadable, -⟩ := codec_exact
  refine ⟨?_, (tooLong _ _).2 ⟨by decide, rfl⟩, (unreadable _ _ _).2 (.inl (by decide))⟩
  obtain ⟨w, word, read, -⟩ := short (.text "日éab\x00") (by decide)
  have stripped : unpadded (.text "日éab\x00") = .text "日éab" := by decide
  rw [stripped] at read
  exact ⟨w, word, read, (back w .text _ read).2⟩

end Machine.Operand

end Covenant
