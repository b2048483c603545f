/-
**Which assembly is read back from its text.**

`Covenant/Proofs/Assembly.lean` shows that legible assembly is read back.  This module shows the
converse, so that being legible is not only enough but needed.  The converse is not about single
lines: a note may hold line feeds, and then what is written as one line is read as several.  But the
first of these lines always holds the whole instruction, and its note is trimmed and on one line.
So if the code comes back, the note was like that before, and then nothing of it was left for
another line.

Assembly is built by appending instructions and by filling in operands of earlier ones, and what is
said here holds after any number of such steps, whatever the instructions and notes.

Main definitions:

* `Covenant.Assembly.Edit`, `Covenant.Assembly.ofEdits` — the steps of building, and what they
  build.

Main results:

* `Assembly.position_ofEdits` — the position counts the instructions that were appended;
* `Assembly.legible_of_readLines` — by induction, what is read back is legible;
* `Assembly.text_codec` — **exactly legible assembly is read back from its text**.
-/

import Covenant.Proofs.Assembly
import Covenant.Proofs.Machine.Decoding

set_option relaxedAutoImplicit false
set_option autoImplicit false

namespace Covenant

open Machine

namespace Assembly

/-! ### Building -/

/-- One step of building. -/
inductive Edit where
  /-- An instruction is appended. -/
  | emit (instruction : Instruction) (note : Option String)
  /-- The operand and the note of the instruction at an index are replaced, if it has an operand. -/
  | patch (index : ℕ) (word : Word) (note : Option String)

/-- What a step makes of some code. -/
def Edit.apply (code : Assembly) : Edit → Assembly
  | emit instruction note => code.emit instruction note
  | patch index word note => (code.patch? index word note).getD code

/-- The bytes that a step adds.  Replacing an operand adds none. -/
def Edit.size : Edit → ℕ
  | emit instruction _ => instruction.size
  | patch _ _ _ => 0

/-- The assembly that some steps build. -/
def ofEdits (edits : List Edit) : Assembly :=
  edits.foldl Edit.apply empty

theorem position_eq_sum (code : Assembly) :
    code.position = (code.lines.map fun line => line.instruction.size).sum := by
  obtain ⟨lines⟩ := code
  induction lines with
  | nil => rfl
  | cons line lines ih =>
      rw [List.map_cons, List.sum_cons, ← ih]
      rfl

/-- Replacing an operand moves no instruction. -/
theorem position_patch? {code patched : Assembly} {index : ℕ} {word : Word} {note : Option String}
    (h : code.patch? index word note = some patched) : patched.position = code.position := by
  rw [patch?] at h
  split at h
  case h_1 opcode old oldNote here =>
    cases h
    obtain ⟨inside, same⟩ := List.getElem?_eq_some_iff.1 here
    have sizes : (code.lines.map fun line => line.instruction.size)[index]? = some opcode.size := by
      rw [List.getElem?_map, here]
      rfl
    obtain ⟨bound, size⟩ := List.getElem?_eq_some_iff.1 sizes
    rw [position_eq_sum, position_eq_sum, List.map_set]
    have kept := List.set_getElem_self bound
    rw [size] at kept
    exact congrArg List.sum kept
  case h_2 => cases h

theorem Edit.position_apply (code : Assembly) (edit : Edit) :
    (edit.apply code).position = code.position + edit.size := by
  cases edit with
  | emit instruction note => exact position_emit code instruction note
  | patch index word note =>
      rw [Edit.apply, Edit.size, Nat.add_zero]
      cases h : code.patch? index word note with
      | none => rfl
      | some patched => exact position_patch? h

/-- **The position counts the instructions that were appended**, whatever was replaced. -/
theorem position_ofEdits (edits : List Edit) :
    (ofEdits edits).position = (edits.map Edit.size).sum := by
  have general : ∀ code : Assembly, (edits.foldl Edit.apply code).position =
      code.position + (edits.map Edit.size).sum := by
    induction edits with
    | nil => exact fun _ => rfl
    | cons edit edits ih =>
        intro code
        rw [List.foldl_cons, ih, Edit.position_apply, List.map_cons, List.sum_cons, Nat.add_assoc]
  rw [ofEdits, general, position_empty, Nat.zero_add]

/-! ### Reading what was written -/

/-- What follows the percent sign of a line is read as a note that is one. -/
theorem isNote_of_notePart {text : List Char} {note : String} (whole : '\n' ∉ text)
    (h : notePart text = some note) : IsNote note := by
  have behind : ∀ c ∈ Text.trim ((text.dropWhile (· != '%')).drop 1), c ∈ text := by
    intro c mem
    exact (List.dropWhile_sublist _).subset (List.mem_of_mem_drop (Text.mem_of_mem_trim mem))
  have trimmed := Text.trim_trim ((text.dropWhile (· != '%')).drop 1)
  rw [notePart] at h
  generalize Text.trim ((text.dropWhile (· != '%')).drop 1) = content at h behind trimmed
  split at h
  case h_1 => cases h
  case h_2 nonempty =>
    cases h
    refine ⟨?_, ?_, ?_⟩
    · rw [String.toList_ofList]
      exact nonempty
    · rw [String.toList_ofList]
      exact trimmed
    · rw [String.toList_ofList]
      intro mem
      exact whole (behind _ mem)

namespace Line

/-- What a line is written as begins with a line that holds its instruction, and perhaps a part of
its note. -/
theorem exists_first (line : Line) (rest : List Char) : ∃ first more gaps,
    Text.lines (line.text ++ '\n' :: rest) = first :: more ∧
      (∀ c ∈ gaps, isGap c = true) ∧
      codePart first = line.instruction.render.toList ++ gaps := by
  obtain ⟨instruction, note⟩ := line
  have feed : '\n' ∉ instruction.render.toList := instruction.not_mem_render rfl rfl
  have carriage : '\r' ∉ instruction.render.toList := instruction.not_mem_render rfl rfl
  cases note with
  | none =>
      have inner : ∀ c ∈ instruction.render.toList, c ≠ '\n' ∧ c ≠ '\r' := by
        intro c mem
        exact ⟨ne_of_mem_of_not_mem mem feed, ne_of_mem_of_not_mem mem carriage⟩
      have cut := Text.lines_append inner (Text.lines_lineFeed rest)
      rw [List.append_nil] at cut
      obtain ⟨gaps, blank, code⟩ := exists_codePart_text ⟨instruction, none⟩
      exact ⟨_, _, gaps, cut, blank, code⟩
  | some note =>
      -- the line feeds of the note come behind the percent sign
      obtain ⟨begun, more, cut⟩ :=
        @Text.exists_lines_eq_cons (note.toList ++ '\n' :: rest) (by simp)
      have inner : ∀ c ∈ instruction.render.toList ++
          List.replicate (noteColumn - instruction.render.length) ' ' ++ ['%', ' '],
          c ≠ '\n' ∧ c ≠ '\r' := by
        intro c mem
        simp only [List.mem_append, List.mem_replicate, List.mem_cons, List.not_mem_nil,
          or_false] at mem
        rcases mem with (mem | ⟨-, rfl⟩) | rfl | rfl
        · exact ⟨ne_of_mem_of_not_mem mem feed, ne_of_mem_of_not_mem mem carriage⟩
        all_goals decide
      have first := Text.lines_append inner cut
      refine ⟨_, more, List.replicate (noteColumn - instruction.render.length) ' ',
        Eq.trans ?_ first, ?_, ?_⟩
      · simp [text]
      · intro c mem
        rw [(List.mem_replicate.1 mem).2]
        rfl
      · rw [codePart, List.append_assoc,
          List.takeWhile_append_of_pos (percent_not_mem instruction _)]
        exact List.append_nil _

/-- What is read first of a line is its instruction, which is well formed, and no note or one that
can be read back. -/
theorem legible_of_readLine {line read : Line} {rest first : List Char} {more : List (List Char)}
    {number : ℕ} (cut : Text.lines (line.text ++ '\n' :: rest) = first :: more)
    (h : readLine number first = .ok (some read)) : read.Legible := by
  obtain ⟨_, _, gaps, same, blank, code⟩ := line.exists_first rest
  rw [cut] at same
  cases same
  rw [readLine_of_codePart blank code] at h
  split at h
  case isFalse => cases h
  case isTrue wellFormed =>
    cases h
    refine ⟨wellFormed, fun note noted => ?_⟩
    have whole := Text.lineFeed_not_mem_of_mem_lines first (by rw [cut]; exact .head _)
    exact isNote_of_notePart whole noted

/-- Something is read of the first line, or it is a fault. -/
theorem readLine_ne_none {line : Line} {rest first : List Char} {more : List (List Char)}
    (cut : Text.lines (line.text ++ '\n' :: rest) = first :: more) (number : ℕ) :
    readLine number first ≠ .ok none := by
  obtain ⟨_, _, gaps, same, blank, code⟩ := line.exists_first rest
  rw [cut] at same
  cases same
  rw [readLine_of_codePart blank code]
  split <;> simp

end Line

/-- Code that is read back from its text is legible. -/
theorem legible_of_readLines {lines : List Line} {number : ℕ}
    (h : readLines number (Text.lines (render ⟨lines⟩).toList) = .ok lines) :
    ∀ line ∈ lines, line.Legible := by
  induction lines generalizing number with
  | nil => simp
  | cons line rest ih =>
      have written : (render ⟨line :: rest⟩).toList =
          line.text ++ '\n' :: (render ⟨rest⟩).toList := by
        simp [render, Line.toList_render]
      rw [written] at h
      obtain ⟨first, more, gaps, cut, -⟩ := line.exists_first (render ⟨rest⟩).toList
      rw [cut, readLines] at h
      split at h
      case h_1 => cases h
      case h_2 skipped => exact absurd skipped (Line.readLine_ne_none cut number)
      case h_3 read found =>
        have legible := Line.legible_of_readLine cut found
        cases behind : readLines (number + 1) more with
        | error fault =>
            rw [behind] at h
            cases h
        | ok others =>
            rw [behind] at h
            cases h
            -- the note is trimmed and on one line, so nothing of it is left for another line
            obtain ⟨whole, bare⟩ := legible.text_ends
            rw [Text.lines_append_lineFeed whole bare] at cut
            cases cut
            exact List.forall_mem_cons.2 ⟨legible, ih behind⟩

/-- **Exactly legible assembly is read back from its text.** -/
theorem ofText_render_iff {code : Assembly} :
    ofText code.render = .ok code ↔ ∀ line ∈ code.lines, line.Legible := by
  constructor
  · intro h
    rw [ofText] at h
    cases read : readLines 1 (Text.lines code.render.toList) with
    | error fault =>
        rw [read] at h
        cases h
    | ok lines =>
        rw [read] at h
        cases h
        exact legible_of_readLines read
  · exact ofText_render

/-- Assembly that was made from bytecode is legible, since it has no notes. -/
theorem legible_of_ofBytecode {bytes : List UInt8} {code : Assembly}
    (h : ofBytecode bytes = .ok code) :
    (∀ line ∈ code.lines, line.Legible) ∧ code.bytes = bytes := by
  rw [ofBytecode] at h
  cases read : Bytecode.decode bytes with
  | error fault =>
      rw [read] at h
      cases h
  | ok instructions =>
      rw [read] at h
      cases h
      obtain ⟨wellFormed, same⟩ := Bytecode.decode_eq_ok_iff.1 read
      refine ⟨?_, (bytes_bare instructions).trans same⟩
      intro line mem
      refine ⟨wellFormed_bare wellFormed line mem, ?_⟩
      obtain ⟨instruction, -, rfl⟩ := List.mem_map.1 mem
      rintro note ⟨⟩

/-- **Exactly legible assembly is read back from its text**, however it was built, and the text of
disassembled bytecode always is. -/
theorem text_codec :
    (∀ edits : List Edit,
      (ofEdits edits).position = (edits.map Edit.size).sum ∧
      (ofText (ofEdits edits).render = .ok (ofEdits edits) ↔
        ∀ line ∈ (ofEdits edits).lines, line.Legible)) ∧
    ∀ (bytes : List UInt8) (code : Assembly), ofBytecode bytes = .ok code →
      ofText code.render = .ok code ∧ code.bytes = bytes := by
  refine ⟨fun edits => ⟨position_ofEdits edits, ofText_render_iff⟩, ?_⟩
  intro bytes code disassembled
  obtain ⟨legible, same⟩ := legible_of_ofBytecode disassembled
  exact ⟨ofText_render legible, same⟩

/-- The bytecode of a push and an exit is read back from the text that it is disassembled to.  A
note of two lines, the second of which is an instruction, is not. -/
theorem text_codec_push :
    (∃ code, ofBytecode [0x21, 0, 0, 0, 0, 0, 0, 0, 5, 0x30] = .ok code ∧
      ofText code.render = .ok code ∧ code.bytes = [0x21, 0, 0, 0, 0, 0, 0, 0, 5, 0x30]) ∧
    ofText (ofEdits [.emit (.plain .pop) (some "one\nPop")]).render ≠
      .ok (ofEdits [.emit (.plain .pop) (some "one\nPop")]) := by
  have read : ofBytecode [0x21, 0, 0, 0, 0, 0, 0, 0, 5, 0x30] =
      .ok (bare [.push (.ofNat 5), .plain .exit]) := by cbv
  refine ⟨⟨_, read, text_codec.2 _ _ read⟩, ?_⟩
  rw [Ne, (text_codec.1 _).2]
  intro legible
  have note := (legible ⟨.plain .pop, some "one\nPop"⟩ (.head _)).note "one\nPop" rfl
  exact note.whole (by decide)

end Assembly

end Covenant
