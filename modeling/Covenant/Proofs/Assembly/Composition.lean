/-
**Assembling one text behind another.**

A line of assembly is read without regard to the lines around it; all that it is told is its number,
and all that it does with the number is to name it in a fault.  So the lines of two texts are read
as those of each, where the faults of the second text lie as many lines further down as the first
one has.  The same holds of blank lines and of lines with nothing but a note.  They are read as
nothing, but they count.

Main definitions:

* `Covenant.Assembly.Fault.line`, `Covenant.Assembly.Fault.shift` — the line of a fault, and the
  same fault some lines further down;
* `Covenant.Assembly.Idle` — a line is blank or holds nothing but a note.

Main results:

* `Assembly.readLine_add`, `Assembly.readLines_add` — the number of a line matters for faults alone;
* `Assembly.readLines_append`, `Assembly.readLines_insertLines` — lines behind others, and idle
  lines among them;
* `Assembly.ofText_composed` — **assembling is compositional, with exact lines of faults**.
-/

import Covenant.Assembly.Reader
import Covenant.Proofs.Text.Lines

set_option relaxedAutoImplicit false
set_option autoImplicit false

namespace Covenant.Assembly

/-! ### Lines of faults -/

/-- The line that a fault is on. -/
def Fault.line : Fault → ℕ
  | notAnOperation line _ => line
  | wrongArity line _ _ => line
  | malformed line _ => line

/-- The same fault, some lines further down. -/
def Fault.shift (count : ℕ) : Fault → Fault
  | notAnOperation line name => notAnOperation (line + count) name
  | wrongArity line opcode operands => wrongArity (line + count) opcode operands
  | malformed line text => malformed (line + count) text

@[simp] theorem Fault.line_shift (count : ℕ) (fault : Fault) :
    (fault.shift count).line = fault.line + count := by
  cases fault <;> rfl

@[simp] theorem Fault.shift_zero (fault : Fault) : fault.shift 0 = fault := by
  cases fault <;> rfl

@[simp] theorem Fault.shift_shift (first second : ℕ) (fault : Fault) :
    (fault.shift first).shift second = fault.shift (first + second) := by
  cases fault <;> simp [shift, Nat.add_assoc]

/-! ### Numbers of lines -/

/-- **The number of a line matters for its fault alone.** -/
theorem readLine_add (number count : ℕ) (text : List Char) :
    readLine (number + count) text = (readLine number text).mapError (Fault.shift count) := by
  simp only [readLine]
  split
  case isTrue => rfl
  case isFalse =>
    split
    case h_1 => rfl
    case h_2 name operand _ =>
      split
      case h_1 => rfl
      case h_2 opcode _ =>
        by_cases arity : opcode.arity = if operand.isSome then 1 else 0
        · rw [if_pos arity, if_pos arity]
          rfl
        · rw [if_neg arity, if_neg arity]
          rfl

/-- A fault of a line is on this line. -/
theorem line_of_readLine {number : ℕ} {text : List Char} {fault : Fault}
    (fails : readLine number text = .error fault) : fault.line = number := by
  simp only [readLine] at fails
  split at fails
  case isTrue => cases fails
  case isFalse =>
    split at fails
    case h_1 =>
      cases fails
      rfl
    case h_2 name operand _ =>
      split at fails
      case h_1 =>
        cases fails
        rfl
      case h_2 opcode _ =>
        by_cases arity : opcode.arity = if operand.isSome then 1 else 0
        · rw [if_pos arity] at fails
          cases fails
        · rw [if_neg arity] at fails
          cases fails
          rfl

/-- The number of the first line matters for faults alone. -/
theorem readLines_add (number count : ℕ) (lines : List (List Char)) :
    readLines (number + count) lines = (readLines number lines).mapError (Fault.shift count) := by
  induction lines generalizing number with
  | nil => rfl
  | cons text rest ih =>
      have more := ih (number + 1)
      rw [Nat.add_right_comm] at more
      rw [readLines, readLines, readLine_add, more]
      cases readLine number text with
      | error fault => rfl
      | ok first =>
          cases first with
          | none => rfl
          | some line => cases readLines (number + 1) rest <;> rfl

/-! ### Lines behind others -/

variable {front back : List (List Char)} {lines : List Line} {fault : Fault} {number : ℕ}

/-- A fault comes before all lines behind it. -/
theorem readLines_append_of_error (fails : readLines number front = .error fault)
    (back : List (List Char)) : readLines number (front ++ back) = .error fault := by
  induction front generalizing number with
  | nil => cases fails
  | cons text rest ih =>
      rw [List.cons_append]
      rw [readLines] at fails ⊢
      cases first : readLine number text with
      | error fault =>
          rw [first] at fails
          exact fails
      | ok line =>
          simp only [first] at fails
          cases line with
          | none => exact ih fails
          | some line =>
              cases more : readLines (number + 1) rest with
              | ok _ =>
                  rw [more] at fails
                  cases fails
              | error fault =>
                  rw [more] at fails
                  cases fails
                  simp only [ih more]
                  rfl

/-- **Behind lines that are read, others are read as by themselves**, except for the numbers. -/
theorem readLines_append (reads : readLines number front = .ok lines) (back : List (List Char)) :
    readLines number (front ++ back) =
      (readLines (number + front.length) back).map (lines ++ ·) := by
  induction front generalizing number lines with
  | nil =>
      cases reads
      rw [List.length_nil, Nat.add_zero, List.nil_append]
      cases readLines number back <;> rfl
  | cons text rest ih =>
      rw [List.cons_append, List.length_cons, Nat.add_comm rest.length, ← Nat.add_assoc]
      rw [readLines] at reads ⊢
      cases first : readLine number text with
      | error fault =>
          rw [first] at reads
          cases reads
      | ok line =>
          simp only [first] at reads
          cases line with
          | none => exact ih reads
          | some line =>
              cases more : readLines (number + 1) rest with
              | error _ =>
                  rw [more] at reads
                  cases reads
              | ok others =>
                  rw [more] at reads
                  cases reads
                  simp only [ih more]
                  cases readLines (number + 1 + rest.length) back <;> rfl

/-! ### Idle lines -/

/-- The line is blank, or blank up to a percent sign, behind which a note may stand. -/
def Idle (text : List Char) : Prop :=
  ∃ blanks note, (∀ c ∈ blanks, Text.isBlank c = true) ∧
    (text = blanks ∨ text = blanks ++ '%' :: note)

/-- Nothing is read of an idle line. -/
theorem Idle.readLine {text : List Char} (idle : Idle text) (number : ℕ) :
    readLine number text = .ok none := by
  obtain ⟨blanks, note, blank, same⟩ := idle
  have code : codePart text = blanks := by
    have stays : ∀ c ∈ blanks, (c != '%') = true := by
      intro c mem
      rw [bne_iff_ne]
      rintro rfl
      cases blank _ mem
    rcases same with rfl | rfl
    · exact List.takeWhile_eq_self_iff.2 stays
    · rw [codePart, List.takeWhile_append_of_pos stays]
      exact List.append_nil _
  have nothing : Text.trim blanks = [] := by
    rw [Text.trim, Text.trimFront, List.dropWhile_eq_nil_iff.2 blank]
    rfl
  simp only [Assembly.readLine, code, if_pos nothing]

/-- Nothing is read of idle lines, but they count. -/
theorem readLines_idle {gap : List (List Char)} (idle : ∀ text ∈ gap, Idle text) (number : ℕ) :
    readLines number gap = .ok [] := by
  induction gap generalizing number with
  | nil => rfl
  | cons text gap ih =>
      rw [List.forall_mem_cons] at idle
      rw [readLines, idle.1.readLine]
      exact ih idle.2 (number + 1)

theorem readLines_idle_append {gap : List (List Char)} (idle : ∀ text ∈ gap, Idle text)
    (number : ℕ) (back : List (List Char)) :
    readLines number (gap ++ back) = readLines (number + gap.length) back := by
  rw [readLines_append (readLines_idle idle number)]
  cases readLines (number + gap.length) back <;> rfl

/-- The first of some lines, and those behind it, whose faults are one line further down. -/
theorem readLines_one_cons (text : List Char) (rest : List (List Char)) :
    readLines 1 (text :: rest) =
      match readLine 1 text with
      | .error fault => .error fault
      | .ok line => ((readLines 1 rest).map (line.toList ++ ·)).mapError (Fault.shift 1) := by
  rw [readLines, readLines_add]
  cases readLine 1 text with
  | error fault => rfl
  | ok line => cases line <;> cases readLines 1 rest <;> rfl

/-- **Idle lines among others move the faults behind them down**, and do nothing else. -/
theorem readLines_insertLines {gaps : List (List (List Char))}
    (idle : ∀ gap ∈ gaps, ∀ text ∈ gap, Idle text) (texts : List (List Char)) :
    readLines 1 (Text.insertLines gaps texts) = (readLines 1 texts).mapError fun fault =>
      fault.shift (Text.insertedBefore gaps fault.line) := by
  fun_induction Text.insertLines gaps texts with
  | case1 gap gaps text texts ih =>
      rw [List.forall_mem_cons] at idle
      rw [readLines_idle_append idle.1, readLines_add, readLines_one_cons, readLines_one_cons,
        ih idle.2]
      cases first : readLine 1 text with
      | error fault =>
          -- only the lines of the first gap are before this one
          have moved : Text.insertedBefore (gap :: gaps) fault.line = gap.length := by
            rw [line_of_readLine first, Text.insertedBefore_succ]
            rfl
          simp only [Except.mapError, moved]
      | ok line =>
          cases readLines 1 texts with
          | ok others => rfl
          | error fault =>
              simp only [Except.map, Except.mapError, Fault.shift_shift, Fault.line_shift,
                Text.insertedBefore_succ]
              congr 2
              omega
  | case2 gaps =>
      refine readLines_idle ?_ 1
      intro text mem
      obtain ⟨gap, within, inner⟩ := List.mem_flatten.1 mem
      exact idle gap within text inner
  | case3 texts =>
      cases readLines 1 texts <;> simp [Except.mapError, Text.insertedBefore]

/-! ### Whole texts -/

variable {text more padded : String} {code rest : Assembly}

/-- A text with a fault has the same one whatever follows, if it ends its last line. -/
theorem ofText_append_of_error (ends : Text.Terminated text.toList)
    (fails : ofText text = .error fault) (more : String) :
    ofText (text ++ more) = .error fault := by
  rw [ofText] at fails ⊢
  rw [String.toList_append, Text.lines_append_of_terminated ends]
  cases inner : readLines 1 (Text.lines text.toList) with
  | ok _ =>
      rw [inner] at fails
      cases fails
  | error _ =>
      rw [inner] at fails
      cases fails
      rw [readLines_append_of_error inner]
      rfl

/-- Behind a text that is read, and that ends its last line, another one is read as by itself, but
further down. -/
theorem ofText_append (ends : Text.Terminated text.toList) (reads : ofText text = .ok code)
    (more : String) : ofText (text ++ more) =
      ((ofText more).map code.append).mapError (Fault.shift (text.toList.count '\n')) := by
  rw [ofText] at reads ⊢
  rw [String.toList_append, Text.lines_append_of_terminated ends]
  cases inner : readLines 1 (Text.lines text.toList) with
  | error _ =>
      rw [inner] at reads
      cases reads
  | ok lines =>
      rw [inner] at reads
      cases reads
      rw [readLines_append inner, readLines_add, Text.length_lines ends, ofText]
      cases readLines 1 (Text.lines more.toList) <;> rfl

/-- Only the lines of a text matter. -/
theorem ofText_of_lines (same : Text.lines text.toList = Text.lines more.toList) :
    ofText text = ofText more := by
  rw [ofText, ofText, same]

/-- Idle lines that are put into a text move the faults behind them down. -/
theorem ofText_insertLines {gaps : List (List (List Char))}
    (idle : ∀ gap ∈ gaps, ∀ line ∈ gap, Idle line)
    (inserted : Text.lines padded.toList = Text.insertLines gaps (Text.lines text.toList)) :
    ofText padded = (ofText text).mapError fun fault =>
      fault.shift (Text.insertedBefore gaps fault.line) := by
  rw [ofText, ofText, inserted, readLines_insertLines idle]
  cases readLines 1 (Text.lines text.toList) <;> rfl

/-- **Assembling is compositional, with exact lines of faults.**  A text that ends its last line is
read before another one as it is read alone.  The other text is then read as it is alone, with
faults as many lines further down as there are line feeds before it.  Carriage returns before the
line feeds do not matter, and idle lines only move the faults behind them. -/
theorem ofText_composed :
    (∀ text more : String, Text.Terminated text.toList →
      (∀ fault, ofText text = .error fault → ofText (text ++ more) = .error fault) ∧
      ∀ code, ofText text = .ok code →
        (∀ fault, ofText more = .error fault →
          ofText (text ++ more) = .error (fault.shift (text.toList.count '\n'))) ∧
        ∀ rest, ofText more = .ok rest →
          ofText (text ++ more) = .ok ⟨code.lines ++ rest.lines⟩ ∧
            (Assembly.mk (code.lines ++ rest.lines)).position = code.position + rest.position) ∧
    (∀ text : String, '\r' ∉ text.toList →
      ofText (String.ofList (Text.withReturns text.toList)) = ofText text) ∧
    ∀ (text padded : String) (gaps : List (List (List Char))),
      (∀ gap ∈ gaps, ∀ line ∈ gap, Idle line) →
      Text.lines padded.toList = Text.insertLines gaps (Text.lines text.toList) →
      (∀ code, ofText text = .ok code → ofText padded = .ok code) ∧
        ∀ fault, ofText text = .error fault →
          ofText padded = .error (fault.shift (Text.insertedBefore gaps fault.line)) := by
  refine ⟨?_, ?_, ?_⟩
  · intro text more ends
    refine ⟨fun fault fails => ofText_append_of_error ends fails more, fun code reads => ⟨?_, ?_⟩⟩
    · intro fault fails
      rw [ofText_append ends reads, fails]
      rfl
    · intro rest others
      rw [ofText_append ends reads, others]
      exact ⟨rfl, position_append code rest⟩
  · intro text bare
    refine ofText_of_lines ?_
    rw [String.toList_ofList, Text.lines_withReturns bare]
  · intro text padded gaps idle inserted
    rw [ofText_insertLines idle inserted]
    constructor
    · intro code reads
      rw [reads]
      rfl
    · intro fault fails
      rw [fails]
      rfl

/-- A fault in the second line of a text is in the fourth one behind two lines, of which one holds
nothing but a note, and a fault in the second line is in the fifth one behind three idle lines. -/
theorem ofText_composed_down :
    ofText ("Push 1\n% one\n" ++ "Pop\nMload 2") = .error (.wrongArity 4 .mload ⟨0, 1⟩) ∧
    ofText "Push 1\r\nPop" = ofText "Push 1\nPop" ∧
    ofText "\nPop\n \t% Pop\n\nRobert" = .error (.notAnOperation 5 "Robert") := by
  obtain ⟨composed, returns, inserted⟩ := ofText_composed
  refine ⟨?_, ?_, ?_⟩
  · have first : ofText "Push 1\n% one\n" = .ok ⟨[⟨.push (.ofNat 1), none⟩]⟩ := by rfl
    have second : ofText "Pop\nMload 2" = .error (.wrongArity 2 .mload ⟨0, 1⟩) := by rfl
    exact ((composed _ _ (by decide)).2 _ first).1 _ second
  · exact returns "Push 1\nPop" (by decide)
  · have fails : ofText "Pop\nRobert" = .error (.notAnOperation 2 "Robert") := by rfl
    have idle : ∀ gap ∈ [["".toList], [" \t% Pop".toList, "".toList]], ∀ line ∈ gap, Idle line := by
      have blank : Idle "".toList := ⟨[], [], by simp, .inl rfl⟩
      have blanks : ∀ c ∈ [' ', '\t'], Text.isBlank c = true :=
        List.forall_mem_cons.2 ⟨rfl, List.forall_mem_singleton.2 rfl⟩
      have note : Idle " \t% Pop".toList := ⟨[' ', '\t'], " Pop".toList, blanks, .inr rfl⟩
      simpa using ⟨blank, note, blank⟩
    exact (inserted _ _ _ idle (by decide)).2 _ fails

end Covenant.Assembly
