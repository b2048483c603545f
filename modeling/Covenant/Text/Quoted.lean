/-
**Quoted text.**

A text is shown between two delimiters on one line.  The null character, tab, line feed, carriage
return, backslash and the delimiter have short escapes; every other character that is not graphic
is given by its code point.

Main definitions:

* `Covenant.Text.Quoted.escape` — how one character is shown;
* `Covenant.Text.Quoted.text`, `Covenant.Text.Quoted.character` — a text between double quotes, a
  character between single ones.

Main results:

* `Covenant.Text.Quoted.lineFeed_not_mem_escape` — no character is shown as a line feed.
-/

import Covenant.Text.Graphic

set_option relaxedAutoImplicit false
set_option autoImplicit false

namespace Covenant.Text.Quoted

/-- How a character is shown between two `delimiter`s. -/
def escape (delimiter c : Char) : List Char :=
  if c = '\x00' then ['\\', '0']
  else if c = '\t' then ['\\', 't']
  else if c = '\n' then ['\\', 'n']
  else if c = '\r' then ['\\', 'r']
  else if c = '\\' ∨ c = delimiter then ['\\', c]
  else if isGraphic c then [c]
  else ['\\', 'u', '\x7b'] ++ Nat.toDigits 16 c.toNat ++ ['\x7d']

/-- A text between double quotes. -/
def text (s : String) : String :=
  String.ofList ('"' :: s.toList.flatMap (escape '"') ++ ['"'])

/-- A character between single quotes. -/
def character (c : Char) : String :=
  String.ofList ('\'' :: escape '\'' c ++ ['\''])

@[simp] theorem toList_text (s : String) :
    (text s).toList = '"' :: s.toList.flatMap (escape '"') ++ ['"'] := by
  simp [text]

/-! ### Line feeds -/

/-- The hexadecimal numeral of a number consists of digits. -/
theorem exists_of_mem_toDigits {c : Char} {n : Nat} (h : c ∈ Nat.toDigits 16 n) :
    ∃ m, m < 16 ∧ c = Nat.digitChar m := by
  induction n using Nat.strongRecOn with
  | ind n ih =>
    rw [Nat.toDigits_eq_if (by decide)] at h
    split at h
    · exact ⟨n, ‹_›, by simpa using h⟩
    · rcases List.mem_append.1 h with h | h
      · exact ih (n / 16) (by omega) h
      · exact ⟨n % 16, by omega, by simpa using h⟩

theorem lineFeed_not_mem_toDigits (n : Nat) : '\n' ∉ Nat.toDigits 16 n := by
  intro h
  obtain ⟨m, bound, same⟩ := exists_of_mem_toDigits h
  have digit : ∀ k : Fin 16, '\n' ≠ Nat.digitChar k.val := by decide
  exact digit ⟨m, bound⟩ same

/-- No character is shown as a line feed. -/
theorem lineFeed_not_mem_escape (delimiter c : Char) : '\n' ∉ escape delimiter c := by
  unfold escape
  split
  · decide
  split
  · decide
  split
  · decide
  split
  · decide
  rename_i notLineFeed _
  split
  · rintro (_ | ⟨_, _ | ⟨_, ⟨⟩⟩⟩)
    simp_all
  split
  · simpa using Ne.symm notLineFeed
  · simp [lineFeed_not_mem_toDigits]

end Covenant.Text.Quoted
