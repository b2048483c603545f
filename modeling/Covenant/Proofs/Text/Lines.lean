/-
**Cutting texts that were put together.**

A text that begins and ends with no blank is what trimming leaves of it, and a text on one line is
read as that line if a line feed follows.  Nothing else can be said about what follows, so this is
said for whatever does.

A text that ends its last line is cut apart from whatever follows, and it does not matter whether a
carriage return stands before each of its line feeds.

Main definitions:

* `Covenant.Text.Terminated` — a text ends its last line;
* `Covenant.Text.withReturns` — a text with a carriage return before every line feed;
* `Covenant.Text.insertLines` — lines with further ones among them.

Main results:

* `Text.trim_eq_self_iff` — which texts trimming leaves alone;
* `Text.lines_cons`, `Text.lines_append_lineFeed` — the first line of a text;
* `Text.lines_append_of_terminated` — **the lines of two texts, one behind the other**, if the first
  ends its last line;
* `Text.lines_withReturns` — carriage returns before the line feeds do not change the lines.
-/

import Covenant.Text.Blank
import Mathlib.Data.List.TakeWhile

set_option relaxedAutoImplicit false
set_option autoImplicit false

namespace Covenant.Text

theorem toList_pushn (s : String) (c : Char) (n : ℕ) :
    (s.pushn c n).toList = s.toList ++ List.replicate n c := by
  rw [String.pushn_eq_repeat_push]
  induction n with
  | zero => simp [Nat.repeat]
  | succ n ih =>
      rw [Nat.repeat, String.toList_push, ih, List.append_assoc, List.replicate_succ']

/-! ### Blanks at the ends -/

/-- The visible characters of the ASCII range are not blank. -/
theorem isBlank_of_visible {c : Char} (low : 0x21 ≤ c.toNat) (high : c.toNat ≤ 0x7E) :
    isBlank c = false := by
  simp only [isBlank, Bool.or_eq_false_iff, Bool.and_eq_false_iff, decide_eq_false_iff_not,
    beq_eq_false_iff_ne]
  omega

theorem isBlank_of_isAlphanum {c : Char} (h : c.isAlphanum = true) : isBlank c = false := by
  rcases Bool.or_eq_true_iff.1 h with letter | digit
  · rcases Bool.or_eq_true_iff.1 letter with upper | lower
    · have range : 'A'.val ≤ c.val ∧ c.val ≤ 'Z'.val := of_decide_eq_true upper
      exact isBlank_of_visible (Nat.le_trans (by decide) (UInt32.le_iff_toNat_le.1 range.1))
        (Nat.le_trans (UInt32.le_iff_toNat_le.1 range.2) (by decide))
    · have range : (decide ('a'.val ≤ c.val) && decide (c.val ≤ 'z'.val)) = true := lower
      have first := of_decide_eq_true (Bool.and_eq_true_iff.1 range).1
      have last := of_decide_eq_true (Bool.and_eq_true_iff.1 range).2
      exact isBlank_of_visible (Nat.le_trans (by decide) (UInt32.le_iff_toNat_le.1 first))
        (Nat.le_trans (UInt32.le_iff_toNat_le.1 last) (by decide))
  · have range := Char.isDigit_iff_toNat.1 digit
    exact isBlank_of_visible (Nat.le_trans (by decide) range.1)
      (Nat.le_trans range.2 (by decide))

/-- Nothing is dropped from a list exactly if its first member stays. -/
theorem dropWhile_eq_self_iff_head {p : Char → Bool} {cs : List Char} :
    cs.dropWhile p = cs ↔ ∀ c ∈ cs.head?, p c = false := by
  cases cs with
  | nil => simp
  | cons c rest => simp [List.dropWhile_eq_self_iff]

theorem trimFront_eq_self_iff {cs : List Char} :
    trimFront cs = cs ↔ ∀ c ∈ cs.head?, isBlank c = false :=
  dropWhile_eq_self_iff_head

theorem trimEnd_eq_self_iff {cs : List Char} :
    trimEnd cs = cs ↔ ∀ c ∈ cs.getLast?, isBlank c = false := by
  rw [trimEnd, List.reverse_eq_iff, dropWhile_eq_self_iff_head, List.head?_reverse]

theorem length_trimEnd_le (cs : List Char) : (trimEnd cs).length ≤ cs.length := by
  have shorter := (List.dropWhile_suffix isBlank (l := cs.reverse)).length_le
  rw [trimEnd, List.length_reverse]
  rwa [List.length_reverse] at shorter

/-- Trimming leaves a text alone exactly if neither its first character nor its last is blank. -/
theorem trim_eq_self_iff {cs : List Char} : trim cs = cs ↔
    (∀ c ∈ cs.head?, isBlank c = false) ∧ ∀ c ∈ cs.getLast?, isBlank c = false := by
  rw [← trimFront_eq_self_iff, ← trimEnd_eq_self_iff]
  constructor
  · intro same
    -- neither end can get shorter if both together do not
    have first : trimFront cs = cs := by
      refine (List.dropWhile_suffix isBlank).eq_of_length_le ?_
      have both := length_trimEnd_le (trimFront cs)
      rwa [← trim, same] at both
    rw [trim, first] at same
    exact ⟨first, same⟩
  · rintro ⟨first, last⟩
    rw [trim, first, last]

/-- A blank in front does not count. -/
theorem trim_cons {c : Char} (blank : isBlank c = true) (cs : List Char) :
    trim (c :: cs) = trim cs := by
  rw [trim, trimFront, List.dropWhile_cons_of_pos blank]
  rfl

/-- A text that holds something else than blanks is not trimmed to nothing. -/
theorem trim_ne_nil {c : Char} {cs : List Char} (mem : c ∈ cs) (solid : isBlank c = false) :
    trim cs ≠ [] := by
  intro empty
  rw [trim, trimEnd, List.reverse_eq_nil_iff, List.dropWhile_eq_nil_iff] at empty
  -- what is left in front begins with a character that is not blank
  have stays : trimFront cs ≠ [] := fun none =>
    absurd (List.dropWhile_eq_nil_iff.1 none c mem) (by simp [solid])
  obtain ⟨first, rest, same⟩ := List.exists_cons_of_ne_nil stays
  have blank := empty first (by simp [same])
  have head := List.head?_dropWhile_not isBlank cs
  rw [← trimFront, same] at head
  exact absurd blank (by simpa using head)

/-- Trimming takes characters away and adds none. -/
theorem mem_of_mem_trim {c : Char} {cs : List Char} (mem : c ∈ trim cs) : c ∈ cs := by
  rw [trim, trimEnd, List.mem_reverse] at mem
  have inner := List.dropWhile_sublist isBlank |>.subset mem
  rw [List.mem_reverse] at inner
  exact List.dropWhile_sublist isBlank |>.subset inner

/-- What trimming leaves it leaves alone. -/
theorem trim_trim (cs : List Char) : trim (trim cs) = trim cs := by
  rw [trim_eq_self_iff]
  have front := List.head?_dropWhile_not isBlank cs
  have back := List.head?_dropWhile_not isBlank (trimFront cs).reverse
  constructor
  · intro c first
    -- what trimming leaves is a beginning of the text without the blanks at its front
    have start : trim cs <+: trimFront cs := by
      have ends := List.reverse_prefix.2
        (List.dropWhile_suffix isBlank (l := (trimFront cs).reverse))
      rwa [List.reverse_reverse] at ends
    obtain ⟨rest, same⟩ := start
    have head : (trimFront cs).head? = some c := by
      rw [← same, List.head?_append, first]
      rfl
    rw [trimFront] at head
    rw [head] at front
    simpa using front
  · intro c last
    rw [trim, trimEnd, List.getLast?_reverse] at last
    rw [last] at back
    simpa using back

/-! ### Lines -/

/-- A character belongs to the line that follows, unless it ends a line. -/
theorem lines_cons {c : Char} {cs line : List Char} {rest : List (List Char)} (other : c ≠ '\n')
    (bare : c = '\r' → cs.head? ≠ some '\n') (h : lines cs = line :: rest) :
    lines (c :: cs) = (c :: line) :: rest := by
  rw [lines, h]
  · exact other
  · rintro tail rfl rfl
    exact bare rfl rfl

/-- A line feed ends the line before it, and takes nothing away from it unless that ends in a
carriage return. -/
theorem lines_append_lineFeed {line : List Char} (whole : '\n' ∉ line)
    (bare : line.getLast? ≠ some '\r') (rest : List Char) :
    lines (line ++ '\n' :: rest) = line :: lines rest := by
  induction line with
  | nil => exact lines_lineFeed rest
  | cons c line ih =>
      rw [List.mem_cons, not_or] at whole
      cases line with
      | nil =>
          have apart : c ≠ '\r' := fun same => bare (by rw [same]; rfl)
          exact lines_cons (Ne.symm whole.1) (fun same => absurd same apart) (lines_lineFeed rest)
      | cons d line =>
          have next : d ≠ '\n' := fun same => whole.2 (by simp [same])
          rw [List.getLast?_cons_cons] at bare
          exact lines_cons (Ne.symm whole.1) (fun _ => by simpa using next) (ih whole.2 bare)

/-- Characters that end no line belong to the line that follows. -/
theorem lines_append {front cs line : List Char} {rest : List (List Char)}
    (inner : ∀ c ∈ front, c ≠ '\n' ∧ c ≠ '\r') (h : lines cs = line :: rest) :
    lines (front ++ cs) = (front ++ line) :: rest := by
  induction front with
  | nil => exact h
  | cons c front ih =>
      rw [List.forall_mem_cons] at inner
      exact lines_cons inner.1.1 (fun same => absurd same inner.1.2) (ih inner.2)

/-- A text without a line feed is one line. -/
theorem lines_eq_singleton {cs : List Char} (nonempty : cs ≠ []) (whole : '\n' ∉ cs) :
    lines cs = [cs] := by
  induction cs with
  | nil => exact absurd rfl nonempty
  | cons c cs ih =>
      rw [List.mem_cons, not_or] at whole
      cases cs with
      | nil =>
          rw [lines, lines_nil]
          · exact Ne.symm whole.1
          · rintro tail rfl ⟨⟩
      | cons d cs =>
          have next : d ≠ '\n' := fun same => whole.2 (by simp [same])
          exact lines_cons (Ne.symm whole.1) (fun _ => by simpa using next)
            (ih (List.cons_ne_nil d cs) whole.2)

/-- A text that is not empty has a first line. -/
theorem exists_lines_eq_cons {cs : List Char} (nonempty : cs ≠ []) :
    ∃ line rest, lines cs = line :: rest := by
  fun_cases lines cs with
  | case1 => exact absurd rfl nonempty
  | case2 => exact ⟨_, _, rfl⟩
  | case3 => exact ⟨_, _, rfl⟩
  | case4 => exact ⟨_, _, rfl⟩
  | case5 => exact ⟨_, _, rfl⟩

/-- No line holds a line feed. -/
theorem lineFeed_not_mem_of_mem_lines {cs : List Char} : ∀ line ∈ lines cs, '\n' ∉ line := by
  fun_induction lines cs with
  | case1 => simp
  | case2 cs ih => exact List.forall_mem_cons.2 ⟨by simp, ih⟩
  | case3 cs ih => exact List.forall_mem_cons.2 ⟨by simp, ih⟩
  | case4 c cs other _ none ih =>
      intro line mem
      obtain rfl := List.mem_singleton.1 mem
      simpa using Ne.symm other
  | case5 c cs other _ line rest same ih =>
      rw [same, List.forall_mem_cons] at ih
      refine List.forall_mem_cons.2 ⟨?_, ih.2⟩
      rw [List.mem_cons, not_or]
      exact ⟨Ne.symm other, ih.1⟩

/-! ### Texts that end their last line -/

/-- The text is empty or ends with a line feed. -/
def Terminated (cs : List Char) : Prop :=
  ∀ c ∈ cs.getLast?, c = '\n'

instance (cs : List Char) : Decidable (Terminated cs) :=
  Option.decidableForallMem cs.getLast?

variable {c : Char} {cs : List Char}

theorem Terminated.of_cons (ends : Terminated (c :: cs)) : Terminated cs := by
  intro last mem
  cases cs with
  | nil => cases mem
  | cons d cs => exact ends last (by rwa [List.getLast?_cons_cons])

/-- A text that ends its last line goes on behind a character that is no line feed. -/
theorem Terminated.ne_nil (ends : Terminated (c :: cs)) (other : c ≠ '\n') : cs ≠ [] := by
  rintro rfl
  exact other (ends c rfl)

@[simp] theorem lines_carriageReturn (cs : List Char) :
    lines ('\r' :: '\n' :: cs) = [] :: lines cs := by
  rw [lines]

theorem lines_ne_nil (nonempty : cs ≠ []) : lines cs ≠ [] := by
  obtain ⟨line, rest, same⟩ := exists_lines_eq_cons nonempty
  simp [same]

/-- **The lines of two texts, one behind the other**, are those of each, if the first text ends its
last line. -/
theorem lines_append_of_terminated (ends : Terminated cs) (back : List Char) :
    lines (cs ++ back) = lines cs ++ lines back := by
  fun_induction lines cs with
  | case1 => rfl
  | case2 cs ih => rw [List.cons_append, lines_lineFeed, ih ends.of_cons, List.cons_append]
  | case3 cs ih =>
      rw [List.cons_append, List.cons_append, lines_carriageReturn, ih ends.of_cons.of_cons,
        List.cons_append]
  | case4 c cs other _ none =>
      exact absurd none (lines_ne_nil (ends.ne_nil other))
  | case5 c cs other bare line rest same ih =>
      have more := ih ends.of_cons
      rw [same, List.cons_append] at more
      rw [List.cons_append, List.cons_append]
      refine lines_cons other ?_ more
      rintro rfl next
      -- the line feed behind the carriage return would be one of the first text
      obtain ⟨d, behind, rfl⟩ := List.exists_cons_of_ne_nil (ends.ne_nil other)
      cases next
      exact bare behind rfl rfl

/-- A text that ends its last line has as many lines as line feeds. -/
theorem length_lines (ends : Terminated cs) : (lines cs).length = cs.count '\n' := by
  fun_induction lines cs with
  | case1 => rfl
  | case2 cs ih => rw [List.length_cons, ih ends.of_cons, List.count_cons_self]
  | case3 cs ih =>
      rw [List.length_cons, ih ends.of_cons.of_cons, List.count_cons_of_ne (by decide),
        List.count_cons_self]
  | case4 c cs other _ none => exact absurd none (lines_ne_nil (ends.ne_nil other))
  | case5 c cs other _ line rest same ih =>
      rw [List.length_cons, List.count_cons_of_ne other, ← ih ends.of_cons, same, List.length_cons]

/-! ### Carriage returns -/

/-- The text with a carriage return before every line feed. -/
def withReturns (cs : List Char) : List Char :=
  cs.flatMap fun c => if c = '\n' then ['\r', '\n'] else [c]

/-- The lines of a text without carriage returns stay the same with one before every line feed. -/
theorem lines_withReturns (bare : '\r' ∉ cs) : lines (withReturns cs) = lines cs := by
  induction cs with
  | nil => rfl
  | cons c cs ih =>
      rw [List.mem_cons, not_or] at bare
      have more : lines (cs.flatMap fun c => if c = '\n' then ['\r', '\n'] else [c]) = lines cs :=
        ih bare.2
      rw [withReturns, List.flatMap_cons]
      by_cases feed : c = '\n'
      · subst feed
        rw [if_pos rfl, lines_lineFeed]
        exact (lines_carriageReturn _).trans (congrArg _ more)
      · rw [if_neg feed, List.singleton_append, lines, lines, more]
        all_goals first
          | exact feed
          | (rintro tail same; exact absurd same.symm bare.1)

/-! ### Lines among others -/

/-- The lines with further ones before each of them, as far as there are any, and with those that
remain behind the last one. -/
def insertLines : List (List (List Char)) → List (List Char) → List (List Char)
  | gap :: gaps, line :: lines => gap ++ line :: insertLines gaps lines
  | gaps, [] => gaps.flatten
  | [], lines => lines

/-- How many lines were inserted before the line that has this number, which is counted from one. -/
def insertedBefore (gaps : List (List (List Char))) (number : ℕ) : ℕ :=
  (gaps.take number).flatten.length

theorem insertedBefore_succ (gap : List (List Char)) (gaps : List (List (List Char)))
    (number : ℕ) : insertedBefore (gap :: gaps) (number + 1) =
      gap.length + insertedBefore gaps number := by
  rw [insertedBefore, List.take_succ_cons, List.flatten_cons, List.length_append]
  rfl

end Covenant.Text
