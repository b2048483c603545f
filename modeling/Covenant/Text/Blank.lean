/-
**Blanks, words and lines of a text.**

A text is handled as its list of characters.  This module says which characters count as blank,
and cuts a text at blanks and at line ends.

Main definitions:

* `Covenant.Text.isBlank` — the characters of the Unicode property `White_Space`;
* `Covenant.Text.trim`, `Covenant.Text.firstWord` — cutting at blanks;
* `Covenant.Text.lines` — cutting at line feeds, a carriage return before one being part of the
  line end.
-/

set_option relaxedAutoImplicit false
set_option autoImplicit false

namespace Covenant.Text

/-! ### Blanks -/

/-- The characters of the Unicode property `White_Space`. -/
def isBlank (c : Char) : Bool :=
  let n := c.toNat
  (0x09 ≤ n && n ≤ 0x0D) || n == 0x20 || n == 0x85 || n == 0xA0 || n == 0x1680 ||
    (0x2000 ≤ n && n ≤ 0x200A) || n == 0x2028 || n == 0x2029 || n == 0x202F || n == 0x205F ||
    n == 0x3000

/-- Every blank of the ASCII range that core knows is a blank here. -/
theorem isBlank_of_isWhitespace {c : Char} (h : c.isWhitespace = true) : isBlank c = true := by
  simp only [Char.isWhitespace, Bool.or_eq_true, decide_eq_true_eq] at h
  rcases h with ((rfl | rfl) | rfl) | rfl <;> decide

/-- The text without the blanks at its front. -/
def trimFront (cs : List Char) : List Char :=
  cs.dropWhile isBlank

/-- The text without the blanks at its end. -/
def trimEnd (cs : List Char) : List Char :=
  (cs.reverse.dropWhile isBlank).reverse

/-- The text without the blanks at either side. -/
def trim (cs : List Char) : List Char :=
  trimEnd (trimFront cs)

/-- The first run of characters that are not blank; empty where all are. -/
def firstWord (cs : List Char) : List Char :=
  (trimFront cs).takeWhile fun c => !isBlank c

@[simp] theorem trim_nil : trim [] = [] := rfl

/-! ### Lines -/

/-- The lines of a text.  A line feed ends a line, together with a carriage return before it; the
last line may lack its line feed, and then it keeps a carriage return at its end.  Nothing after
the last line feed is no line. -/
def lines : List Char → List (List Char)
  | [] => []
  | '\n' :: cs => [] :: lines cs
  | '\r' :: '\n' :: cs => [] :: lines cs
  | c :: cs =>
    match lines cs with
    | [] => [[c]]
    | line :: rest => (c :: line) :: rest

@[simp] theorem lines_nil : lines [] = [] := rfl

@[simp] theorem lines_lineFeed (cs : List Char) : lines ('\n' :: cs) = [] :: lines cs := by
  rw [lines]

end Covenant.Text
