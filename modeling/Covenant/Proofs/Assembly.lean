/-
**Reading assembly that was written.**

Assembly is written with an instruction on each line, and its note behind a percent sign.  A note
is read back if it does not disappear when it is trimmed and does not end its line, and an
instruction is read back if it is well formed.  Such lines are *legible*.

Main definitions:

* `Covenant.Assembly.IsNote` — the texts that are read back as notes;
* `Covenant.Assembly.Line.Legible` — the lines that are read back.

Main results:

* `Assembly.readOperand?_digits` — a word is read from its digits, whatever follows them;
* `Assembly.readInstruction?_append` — a name ends where something else than a letter stands;
* `Assembly.readInstruction?_render` — an instruction is read from its text, up to blanks;
* `Assembly.Line.Legible.readLine_text` — a legible line is read back from its text;
* `Assembly.ofText_render` — **legible assembly is read back from its text**.
-/

import Covenant.Assembly.Reader
import Covenant.Proofs.Machine.Word
import Covenant.Proofs.Text.Hex
import Covenant.Proofs.Text.Lines
import Mathlib.Data.List.Basic

set_option relaxedAutoImplicit false
set_option autoImplicit false

namespace Covenant

open Machine

/-! ### Operands -/

namespace Assembly

/-- A word is read from its digits.  There are sixteen, so that no digit behind them is taken. -/
theorem readOperand?_digits (word : Word) (rest : List Char) :
    readOperand? ('0' :: 'x' :: (Text.Hex.digits word.bytes ++ rest)) = some (word, rest) := by
  have length : (Text.Hex.digits word.bytes).length = 16 := by
    rw [Text.Hex.length_digits, word.length_bytes]
  have taken : ((Text.Hex.digits word.bytes ++ rest).take 16).takeWhile Text.Hex.isDigit =
      Text.Hex.digits word.bytes := by
    rw [List.take_left' length, List.takeWhile_eq_self_iff]
    exact fun c mem => Text.Hex.isDigit_of_mem_digits mem
  have some : Text.Hex.digits word.bytes ≠ [] := List.ne_nil_of_length_pos (by omega)
  have number : Word.ofNat (Text.Hex.value (Text.Hex.digits word.bytes)) = word := by
    rw [Text.Hex.value_digits]
    exact Word.ofNat_toNat word
  simp only [readOperand?, hexOperand?, taken, if_neg some, List.drop_left, number, Option.some_or]

/-! ### The text of an instruction -/

/-- Gaps hold no operand. -/
theorem readArgument?_of_gaps {gaps : List Char} (blank : ∀ c ∈ gaps, isGap c = true) :
    readArgument? gaps = none := by
  cases gaps with
  | nil => rfl
  | cons c gaps =>
      rw [List.forall_mem_cons] at blank
      rw [readArgument?, if_pos blank.1, List.dropWhile_eq_nil_iff.2 blank.2]
      rfl

/-- **A name ends where something else than a letter stands**, and an operand is looked for
there. -/
theorem readInstruction?_append {name behind : List Char} (nonempty : name ≠ [])
    (letters : ∀ c ∈ name, c.isAlpha = true) (stop : ∀ c ∈ behind.head?, c.isAlpha = false) :
    readInstruction? (name ++ behind) =
      match readArgument? behind with
      | some (word, rest) => if rest.all isGap then some (String.ofList name, some word) else none
      | none => if behind.all isGap then some (String.ofList name, none) else none := by
  have first : (name ++ behind).dropWhile isGap = name ++ behind := by
    rw [Text.dropWhile_eq_self_iff_head, List.head?_append_of_ne_nil _ nonempty]
    intro c mem
    have letter := letters c (List.mem_of_mem_head? mem)
    by_contra gap
    simp only [isGap, Bool.not_eq_false, Bool.or_eq_true, beq_iff_eq] at gap
    rcases gap with rfl | rfl
    · cases letter
    · cases letter
  have rest : behind.dropWhile Char.isAlpha = behind :=
    Text.dropWhile_eq_self_iff_head.2 stop
  have none : behind.takeWhile Char.isAlpha = [] := by
    have whole := List.takeWhile_append_dropWhile (p := Char.isAlpha) (l := behind)
    rwa [rest, List.append_left_eq_self] at whole
  cases argument : readArgument? behind <;>
    simp only [readInstruction?, first, List.takeWhile_append_of_pos letters, none,
      List.append_nil, List.dropWhile_append_of_pos letters, rest, if_neg nonempty, argument]

end Assembly

namespace Machine

theorem Opcode.isAlpha_of_mem_name {opcode : Opcode} {c : Char} (h : c ∈ opcode.name.toList) :
    c.isAlpha = true := by
  have all : opcode.name.toList.all Char.isAlpha = true := by
    cases opcode <;> decide
  exact List.all_eq_true.1 all c h

theorem Opcode.name_ne_nil (opcode : Opcode) : opcode.name.toList ≠ [] := by
  cases opcode <;> decide

namespace Instruction

/-- The operand of an instruction behind its name. -/
def operandText (instruction : Instruction) : List Char :=
  match instruction.operand with
  | some word => ' ' :: '0' :: 'x' :: Text.Hex.digits word.bytes
  | none => []

theorem toList_render (instruction : Instruction) :
    instruction.render.toList = instruction.opcode.name.toList ++ instruction.operandText := by
  obtain ⟨opcode, operand⟩ := instruction
  cases operand with
  | none => simp [render, operandText]
  | some word => simp [render, operandText, Word.hex]

/-- An instruction is written with letters, digits and a space. -/
theorem eq_or_isAlphanum_of_mem_render {instruction : Instruction} {c : Char}
    (h : c ∈ instruction.render.toList) : c = ' ' ∨ c.isAlphanum = true := by
  rw [toList_render, List.mem_append] at h
  rcases h with name | operand
  · exact .inr (by simp [Char.isAlphanum, Opcode.isAlpha_of_mem_name name])
  · obtain ⟨opcode, operand'⟩ := instruction
    cases operand' with
    | none => cases operand
    | some word =>
        simp only [operandText, List.mem_cons] at operand
        rcases operand with rfl | rfl | rfl | digit
        · exact .inl rfl
        · exact .inr rfl
        · exact .inr rfl
        · exact .inr (Text.Hex.isAlphanum_of_mem_digits digit)

/-- No other character stands in the text of an instruction. -/
theorem not_mem_render (instruction : Instruction) {c : Char} (space : (c == ' ') = false)
    (letter : c.isAlphanum = false) : c ∉ instruction.render.toList := by
  intro mem
  rcases eq_or_isAlphanum_of_mem_render mem with rfl | other
  · cases space
  · rw [letter] at other
    cases other

/-- An instruction begins with a letter. -/
theorem isAlpha_head (instruction : Instruction) :
    ∀ c ∈ instruction.render.toList.head?, c.isAlpha = true := by
  intro c mem
  obtain ⟨first, rest, name⟩ := List.exists_cons_of_ne_nil instruction.opcode.name_ne_nil
  rw [toList_render, name, List.cons_append, List.head?_cons] at mem
  cases mem
  exact @Opcode.isAlpha_of_mem_name instruction.opcode c (by simp [name])

/-- An instruction ends with a letter or a digit. -/
theorem isAlphanum_last (instruction : Instruction) :
    ∀ c ∈ instruction.render.toList.getLast?, c.isAlphanum = true := by
  intro c mem
  obtain ⟨opcode, operand⟩ := instruction
  cases operand with
  | none =>
      rw [toList_render, operandText, List.append_nil] at mem
      have letter := Opcode.isAlpha_of_mem_name (List.mem_of_mem_getLast? mem)
      rw [Char.isAlphanum, letter, Bool.true_or]
  | some word =>
      have digits : Text.Hex.digits word.bytes ≠ [] := by
        intro none
        have length := Text.Hex.length_digits word.bytes
        rw [none, word.length_bytes] at length
        cases length
      have split : opcode.name.toList ++ ' ' :: '0' :: 'x' :: Text.Hex.digits word.bytes =
          (opcode.name.toList ++ [' ', '0', 'x']) ++ Text.Hex.digits word.bytes := by simp
      rw [toList_render, operandText, split, List.getLast?_append_of_ne_nil _ digits] at mem
      exact Text.Hex.isAlphanum_of_mem_digits (List.mem_of_mem_getLast? mem)

theorem render_ne_nil (instruction : Instruction) : instruction.render.toList ≠ [] := by
  rw [toList_render]
  exact List.append_ne_nil_of_left_ne_nil instruction.opcode.name_ne_nil _

end Instruction

end Machine

namespace Assembly

/-- The text of an instruction, before gaps, has its name and its operand. -/
theorem readInstruction?_render (instruction : Instruction) {gaps : List Char}
    (blank : ∀ c ∈ gaps, isGap c = true) :
    readInstruction? (instruction.render.toList ++ gaps) =
      some (instruction.opcode.name, instruction.operand) := by
  have letters : ∀ c ∈ instruction.opcode.name.toList, c.isAlpha = true :=
    fun c mem => Opcode.isAlpha_of_mem_name mem
  have apart : ∀ c, isGap c = true → c.isAlpha = false := by
    intro c gap
    rw [isGap, Bool.or_eq_true, beq_iff_eq, beq_iff_eq] at gap
    rcases gap with rfl | rfl
    · rfl
    · rfl
  -- whether there is an operand or not, a space or a gap stands behind the name
  have stop : ∀ c ∈ (instruction.operandText ++ gaps).head?, c.isAlpha = false := by
    intro c mem
    rw [Instruction.operandText] at mem
    split at mem
    · cases mem
      rfl
    · exact apart c (blank c (List.mem_of_mem_head? mem))
  rw [Instruction.toList_render, List.append_assoc,
    readInstruction?_append instruction.opcode.name_ne_nil letters stop, String.ofList_toList]
  have all : gaps.all isGap = true := List.all_eq_true.2 blank
  obtain ⟨opcode, operand⟩ := instruction
  cases operand with
  | none =>
      simp only [Instruction.operandText, List.nil_append, readArgument?_of_gaps blank, all,
        if_pos]
  | some word =>
      have argument : readArgument?
          (' ' :: '0' :: 'x' :: (Text.Hex.digits word.bytes ++ gaps)) = some (word, gaps) :=
        readOperand?_digits word gaps
      simp only [Instruction.operandText, List.cons_append, argument, all, if_pos]

/-! ### Lines -/

/-- The texts that are read back as notes: neither empty nor changed by trimming, and on one
line. -/
structure IsNote (note : String) : Prop where
  nonempty : note.toList ≠ []
  trimmed : Text.trim note.toList = note.toList
  whole : '\n' ∉ note.toList

namespace Line

/-- A line that is read back: its instruction is well formed, and its note is one. -/
structure Legible (line : Line) : Prop where
  wellFormed : line.instruction.WellFormed
  note : ∀ note ∈ line.note, IsNote note

/-- The text of a line without the line feed at its end. -/
def text (line : Line) : List Char :=
  match line.note with
  | some note =>
    line.instruction.render.toList ++
      List.replicate (noteColumn - line.instruction.render.length) ' ' ++ '%' :: ' ' :: note.toList
  | none => line.instruction.render.toList

theorem toList_render (line : Line) : line.render.toList = line.text ++ ['\n'] := by
  obtain ⟨instruction, note⟩ := line
  cases note with
  | none => simp [render, text]
  | some note => simp [render, text, Text.toList_pushn]

variable {line : Line}

/-- No line feed stands in a legible line, nor does a carriage return end it. -/
theorem Legible.text_ends (legible : line.Legible) :
    '\n' ∉ line.text ∧ line.text.getLast? ≠ some '\r' := by
  obtain ⟨instruction, note⟩ := line
  have whole : '\n' ∉ instruction.render.toList := instruction.not_mem_render rfl rfl
  cases note with
  | none =>
      refine ⟨whole, fun last => ?_⟩
      cases instruction.isAlphanum_last _ last
  | some note =>
      have good := legible.note note rfl
      refine ⟨?_, fun last => ?_⟩
      · simp [text, whole, good.whole]
      · have nonempty : '%' :: ' ' :: note.toList ≠ [] := List.cons_ne_nil _ _
        have split : '%' :: ' ' :: note.toList = ['%', ' '] ++ note.toList := rfl
        rw [text, List.getLast?_append_of_ne_nil _ nonempty, split,
          List.getLast?_append_of_ne_nil _ good.nonempty] at last
        cases (Text.trim_eq_self_iff.1 good.trimmed).2 _ last

theorem percent_not_mem (instruction : Instruction) (n : ℕ) :
    ∀ c ∈ instruction.render.toList ++ List.replicate n ' ', (c != '%') = true := by
  intro c mem
  rw [bne_iff_ne]
  rintro rfl
  rcases List.mem_append.1 mem with mem | mem
  · exact instruction.not_mem_render rfl rfl mem
  · cases (List.mem_replicate.1 mem).2

/-- In front of its note a line has its instruction. -/
theorem exists_codePart_text (line : Line) : ∃ gaps, (∀ c ∈ gaps, isGap c = true) ∧
    codePart line.text = line.instruction.render.toList ++ gaps := by
  obtain ⟨instruction, note⟩ := line
  cases note with
  | none =>
      refine ⟨[], by simp, ?_⟩
      have clear := percent_not_mem instruction 0
      rw [List.replicate_zero] at clear
      rw [codePart, text, List.takeWhile_eq_self_iff.2 fun c mem => clear c (by simpa using mem),
        List.append_nil]
  | some note =>
      refine ⟨List.replicate (noteColumn - instruction.render.length) ' ', fun c mem => ?_, ?_⟩
      · rw [(List.mem_replicate.1 mem).2]
        rfl
      · rw [codePart, text, List.takeWhile_append_of_pos (percent_not_mem instruction _)]
        exact List.append_nil _

/-- Behind its instruction a legible line has its note. -/
theorem Legible.notePart_text (legible : line.Legible) : notePart line.text = line.note := by
  obtain ⟨instruction, note⟩ := line
  cases note with
  | none =>
      have clear := percent_not_mem instruction 0
      rw [List.replicate_zero, List.append_nil] at clear
      rw [notePart, text, List.dropWhile_eq_nil_iff.2 clear]
      rfl
  | some note =>
      have good := legible.note note rfl
      have behind : ('%' :: ' ' :: note.toList).dropWhile (· != '%') = '%' :: ' ' :: note.toList :=
        rfl
      obtain ⟨c, rest, same⟩ := List.exists_cons_of_ne_nil good.nonempty
      rw [notePart, text, List.dropWhile_append_of_pos (percent_not_mem instruction _), behind,
        List.drop_one, List.tail_cons, Text.trim_cons rfl, good.trimmed, same]
      exact congrArg some (by rw [← same, String.ofList_toList])

/-- What is read of a line that has an instruction in front of its note: the instruction if it is
well formed, and the note whatever it is. -/
theorem readLine_of_codePart {instruction : Instruction} {text gaps : List Char}
    (blank : ∀ c ∈ gaps, isGap c = true)
    (code : codePart text = instruction.render.toList ++ gaps) (number : ℕ) :
    readLine number text =
      if instruction.WellFormed then .ok (some ⟨instruction, notePart text⟩)
      else .error (.wrongArity number instruction.opcode
        ⟨instruction.opcode.arity, if instruction.operand.isSome then 1 else 0⟩) := by
  obtain ⟨opcode, operand⟩ := instruction
  obtain ⟨c, rest, same⟩ :=
    List.exists_cons_of_ne_nil (Instruction.render_ne_nil ⟨opcode, operand⟩)
  have solid : Text.trim ((Instruction.mk opcode operand).render.toList ++ gaps) ≠ [] := by
    have letter := Instruction.isAlpha_head ⟨opcode, operand⟩ c (by rw [same]; rfl)
    refine Text.trim_ne_nil (List.mem_append_left _ (by rw [same]; exact .head _))
      (Text.isBlank_of_isAlphanum ?_)
    rw [Char.isAlphanum, letter, Bool.true_or]
  have arity : opcode.arity = (if operand.isSome then 1 else 0) ↔
      (Instruction.mk opcode operand).WellFormed := by
    cases operand <;> cases opcode <;> simp [Instruction.WellFormed, Opcode.arity]
  simp only [readLine, code, if_neg solid, readInstruction?_render _ blank, Opcode.ofName?_name,
    arity]

/-- **A legible line is read back from its text.** -/
theorem Legible.readLine_text (legible : line.Legible) (number : ℕ) :
    readLine number line.text = .ok (some line) := by
  obtain ⟨gaps, blank, code⟩ := exists_codePart_text line
  rw [readLine_of_codePart blank code, if_pos legible.wellFormed, legible.notePart_text]

end Line

/-- The text of legible assembly is cut into the texts of its lines. -/
theorem lines_render {lines : List Line} (legible : ∀ line ∈ lines, line.Legible) :
    Text.lines (render ⟨lines⟩).toList = lines.map Line.text := by
  rw [render, String.toList_join, List.flatMap_map]
  induction lines with
  | nil => rfl
  | cons line rest ih =>
      rw [List.forall_mem_cons] at legible
      obtain ⟨whole, bare⟩ := legible.1.text_ends
      rw [List.flatMap_cons, Line.toList_render, List.append_assoc, List.singleton_append,
        Text.lines_append_lineFeed whole bare, ih legible.2, List.map_cons]

theorem readLines_text {lines : List Line} (legible : ∀ line ∈ lines, line.Legible)
    (number : ℕ) : readLines number (lines.map Line.text) = .ok lines := by
  induction lines generalizing number with
  | nil => rfl
  | cons line rest ih =>
      rw [List.forall_mem_cons] at legible
      rw [List.map_cons, readLines, legible.1.readLine_text]
      simp only [ih legible.2]
      rfl

/-- **Legible assembly is read back from its text.** -/
theorem ofText_render {code : Assembly} (legible : ∀ line ∈ code.lines, line.Legible) :
    ofText code.render = .ok code := by
  rw [ofText, lines_render legible, readLines_text legible]
  rfl

end Assembly

end Covenant
