/-
**Positions stay where they are.**

Assembly is counted in two ways, by instructions and by bytes.  An instruction is known by its
index, and a destination is a byte, so that whoever fills in a destination later on relies on both
counts going together.  What a step of building does is said here by the opcodes alone: appending an
instruction puts its opcode behind the others, and replacing an operand keeps all of them.  The byte
at which an instruction begins depends on the opcodes before it and on nothing else, so no step
moves an instruction that was there before.

That the bytes themselves follow this count needs every instruction to have the operand that its
opcode asks for.

Main definitions:

* `Covenant.Assembly.start` — the byte at which the instruction at an index begins;
* `Covenant.Assembly.Occupies` — the bytes of an instruction stand in the code from a byte on;
* `Covenant.Assembly.Patched` — one operand and its note were replaced, and nothing else.

Main results:

* `Assembly.patch?_eq_some_iff` — what replacing an operand can do;
* `Assembly.Edit.opcodes_apply`, `Assembly.opcodes_ofEdits` — a step, and any number of them, keep
  the opcodes that are there;
* `Assembly.positions_ofEdits` — **positions are exact and stay so**, however often instructions are
  appended and operands replaced.
-/

import Covenant.Proofs.Assembly.Legibility
import Mathlib.Data.List.Induction

set_option relaxedAutoImplicit false
set_option autoImplicit false

namespace Covenant

open Machine

namespace Assembly

/-! ### Opcodes and where they begin -/

/-- The opcodes in order. -/
def opcodes (code : Assembly) : List Opcode :=
  code.lines.map fun line => line.instruction.opcode

/-- The byte at which the instruction at an index begins: the position before it was appended. -/
def start (code : Assembly) (index : ℕ) : ℕ :=
  (Assembly.mk (code.lines.take index)).position

/-- The instruction at an index stands in the bytes of the code from an offset on. -/
def Occupies (code : Assembly) (index offset : ℕ) : Prop :=
  ∃ line, code.lines[index]? = some line ∧ line.instruction.bytes <+: code.bytes.drop offset

variable {code patched : Assembly} {index : ℕ} {word : Word} {note : Option String}

theorem length_opcodes (code : Assembly) : code.opcodes.length = code.lines.length := by
  rw [opcodes, List.length_map]

/-- The position is known from the opcodes. -/
theorem position_eq_sum_opcodes (code : Assembly) :
    code.position = (code.opcodes.map Opcode.size).sum := by
  rw [position_eq_sum, opcodes, List.map_map]
  rfl

/-- The beginning of an instruction is known from the opcodes before it. -/
theorem start_eq_sum (code : Assembly) (index : ℕ) :
    code.start index = ((code.opcodes.take index).map Opcode.size).sum := by
  rw [start, position_eq_sum_opcodes, opcodes, opcodes, List.map_take]

/-- The bytes of code that was put together. -/
theorem bytes_mk_append (front back : List Line) :
    (Assembly.mk (front ++ back)).bytes = (Assembly.mk front).bytes ++ (Assembly.mk back).bytes :=
  List.flatMap_append

theorem bytes_mk_cons (line : Line) (back : List Line) :
    (Assembly.mk (line :: back)).bytes = line.instruction.bytes ++ (Assembly.mk back).bytes :=
  List.flatMap_cons

/-- Before an instruction of well-formed code there are as many bytes as its beginning says. -/
theorem length_bytes_front {front back : List Line} (sound : WellFormed ⟨front ++ back⟩) :
    (Assembly.mk front).bytes.length = (Assembly.mk (front ++ back)).start front.length := by
  have inner : WellFormed ⟨front⟩ := fun line mem => sound line (List.mem_append_left _ mem)
  rw [length_bytes inner, start, List.take_left]

/-- In well-formed code every instruction stands where it begins. -/
theorem WellFormed.occupies (sound : code.WellFormed) (within : index < code.lines.length) :
    code.Occupies index (code.start index) := by
  obtain ⟨lines⟩ := code
  have split : lines = lines.take index ++ lines[index] :: lines.drop (index + 1) := by simp
  have begun : (lines.take index).length = index := List.length_take_of_le (Nat.le_of_lt within)
  refine ⟨lines[index], List.getElem?_eq_getElem within, ?_⟩
  rw [split] at sound
  have before := length_bytes_front sound
  rw [← split, begun] at before
  have bytes : (Assembly.mk lines).bytes = (Assembly.mk (lines.take index)).bytes ++
      (lines[index].instruction.bytes ++ (Assembly.mk (lines.drop (index + 1))).bytes) := by
    rw [← bytes_mk_cons, ← bytes_mk_append, ← split]
  rw [bytes, ← before, List.drop_left]
  exact List.prefix_append _ _

/-! ### Replacing an operand -/

/-- **What replacing an operand can do**: the instruction at the index has an operand, and a new
operand and a new note stand there afterwards. -/
theorem patch?_eq_some_iff : code.patch? index word note = some patched ↔
    ∃ front opcode old oldNote back, front.length = index ∧
      code = ⟨front ++ ⟨⟨opcode, some old⟩, oldNote⟩ :: back⟩ ∧
      patched = ⟨front ++ ⟨⟨opcode, some word⟩, note⟩ :: back⟩ := by
  constructor
  · intro h
    rw [patch?] at h
    split at h
    case h_2 => cases h
    case h_1 opcode old oldNote here =>
      cases h
      obtain ⟨within, same⟩ := List.getElem?_eq_some_iff.1 here
      refine ⟨code.lines.take index, opcode, old, oldNote, code.lines.drop (index + 1),
        List.length_take_of_le (Nat.le_of_lt within), ?_, ?_⟩
      · rw [← same, List.getElem_cons_drop, List.take_append_drop]
      · rw [List.set_eq_take_append_cons_drop, if_pos within]
  · rintro ⟨front, opcode, old, oldNote, back, rfl, rfl, rfl⟩
    simp [patch?]

/-- An operand is replaced if and only if the instruction at the index has one. -/
theorem isSome_patch?_iff : (code.patch? index word note).isSome = true ↔
    ∃ line, code.lines[index]? = some line ∧ line.instruction.operand.isSome = true := by
  constructor
  · intro h
    obtain ⟨patched, same⟩ := Option.isSome_iff_exists.1 h
    obtain ⟨front, opcode, old, oldNote, back, rfl, rfl, -⟩ := patch?_eq_some_iff.1 same
    exact ⟨⟨⟨opcode, some old⟩, oldNote⟩, by simp, rfl⟩
  · rintro ⟨⟨⟨opcode, operand⟩, oldNote⟩, here, given⟩
    obtain ⟨old, rfl⟩ := Option.isSome_iff_exists.1 given
    rw [patch?, here]
    rfl

/-- The operand and the note of the instruction at an index were replaced, and nothing else. -/
structure Patched (code : Assembly) (index : ℕ) (word : Word) (note : Option String)
    (patched : Assembly) : Prop where
  /-- The opcode stays, the operand and the note are the new ones. -/
  line : ∃ opcode old oldNote, code.lines[index]? = some ⟨⟨opcode, some old⟩, oldNote⟩ ∧
    patched.lines[index]? = some ⟨⟨opcode, some word⟩, note⟩
  /-- The lines at other indices stay as they are. -/
  others : ∀ other, other ≠ index → patched.lines[other]? = code.lines[other]?
  length : patched.lines.length = code.lines.length
  /-- The bytes behind the opcode are those of the word. -/
  operand : (patched.bytes.drop (code.start index + 1)).take Word.size = word.bytes
  /-- The bytes up to the opcode stay as they are. -/
  before : patched.bytes.take (code.start index + 1) = code.bytes.take (code.start index + 1)
  /-- The bytes behind the operand stay as they are. -/
  behind : patched.bytes.drop (code.start index + 1 + Word.size) =
    code.bytes.drop (code.start index + 1 + Word.size)
  /-- Every instruction begins where it began. -/
  starts : ∀ other, patched.start other = code.start other
  position : patched.position = code.position

/-- Replacing an operand keeps the opcodes. -/
theorem opcodes_patch? (h : code.patch? index word note = some patched) :
    patched.opcodes = code.opcodes := by
  obtain ⟨front, opcode, old, oldNote, back, -, rfl, rfl⟩ := patch?_eq_some_iff.1 h
  simp [opcodes]

/-- Around the bytes of an operand stand those up to the opcode and those of the lines behind. -/
theorem bytes_mk_operand (front back : List Line) (opcode : Opcode) (operand : Word)
    (remark : Option String) :
    (Assembly.mk (front ++ ⟨⟨opcode, some operand⟩, remark⟩ :: back)).bytes =
      ((Assembly.mk front).bytes ++ [opcode.code]) ++
        (operand.bytes ++ (Assembly.mk back).bytes) := by
  rw [bytes_mk_append, bytes_mk_cons, List.append_assoc]
  rfl

/-- Another line in place of one leaves the lines before it and behind it where they are. -/
theorem getElem?_append_cons_of_ne {front back : List Line} {other : ℕ} (old new : Line)
    (apart : other ≠ front.length) :
    (front ++ new :: back)[other]? = (front ++ old :: back)[other]? := by
  have set : front ++ new :: back = (front ++ old :: back).set front.length new := by simp
  rw [set, List.getElem?_set_ne (Ne.symm apart)]

/-- In well-formed code replacing an operand does nothing else. -/
theorem WellFormed.patches (sound : code.WellFormed)
    (h : code.patch? index word note = some patched) : code.Patched index word note patched := by
  have kept := opcodes_patch? h
  obtain ⟨front, opcode, old, oldNote, back, rfl, rfl, rfl⟩ := patch?_eq_some_iff.1 h
  have opened : ((Assembly.mk front).bytes ++ [opcode.code]).length =
      (Assembly.mk (front ++ ⟨⟨opcode, some old⟩, oldNote⟩ :: back)).start front.length + 1 := by
    rw [List.length_append, List.length_singleton, length_bytes_front sound]
  have closed : ∀ operand : Word,
      ((Assembly.mk front).bytes ++ [opcode.code] ++ operand.bytes).length =
        (Assembly.mk (front ++ ⟨⟨opcode, some old⟩, oldNote⟩ :: back)).start front.length + 1 +
          Word.size := by
    intro operand
    rw [List.length_append, opened, operand.length_bytes, Word.size]
  constructor
  case line => exact ⟨opcode, old, oldNote, by simp, by simp⟩
  case others => exact fun other apart => getElem?_append_cons_of_ne _ _ apart
  case length => simp
  case operand =>
    rw [bytes_mk_operand, ← opened, List.drop_left]
    exact List.take_left' word.length_bytes
  case before => rw [bytes_mk_operand, bytes_mk_operand, ← opened, List.take_left, List.take_left]
  case behind =>
    rw [bytes_mk_operand, bytes_mk_operand, ← List.append_assoc, ← List.append_assoc,
      List.drop_left' (closed word), List.drop_left' (closed old)]
  case starts =>
    intro other
    rw [start_eq_sum, start_eq_sum, kept]
  case position => rw [position_eq_sum_opcodes, position_eq_sum_opcodes, kept]

/-! ### Steps of building -/

/-- An instruction that is appended has an operand exactly when its opcode takes one. -/
def Edit.WellFormed : Edit → Prop
  | emit instruction _ => instruction.WellFormed
  | patch _ _ _ => True

instance : (edit : Edit) → Decidable edit.WellFormed
  | .emit instruction _ => inferInstanceAs (Decidable instruction.WellFormed)
  | .patch _ _ _ => inferInstanceAs (Decidable True)

/-- The opcodes that a step adds. -/
def Edit.opcodes : Edit → List Opcode
  | emit instruction _ => [instruction.opcode]
  | patch _ _ _ => []

/-- **A step keeps the opcodes that are there**, and puts its own behind them. -/
theorem Edit.opcodes_apply (code : Assembly) (edit : Edit) :
    (edit.apply code).opcodes = code.opcodes ++ edit.opcodes := by
  cases edit with
  | emit instruction note => simp [apply, Assembly.emit, Assembly.opcodes, Edit.opcodes]
  | patch index word note =>
      rw [apply, opcodes, List.append_nil]
      cases h : code.patch? index word note with
      | none => rfl
      | some patched => exact opcodes_patch? h

/-- A step keeps code well formed. -/
theorem Edit.wellFormed_apply {edit : Edit} (step : edit.WellFormed) (sound : code.WellFormed) :
    (edit.apply code).WellFormed := by
  cases edit with
  | emit instruction note =>
      exact List.forall_mem_append.2 ⟨sound, List.forall_mem_singleton.2 step⟩
  | patch index word note =>
      rw [apply]
      cases h : code.patch? index word note with
      | none => exact sound
      | some patched =>
          obtain ⟨front, opcode, old, oldNote, back, -, rfl, rfl⟩ := patch?_eq_some_iff.1 h
          rw [Assembly.WellFormed, List.forall_mem_append, List.forall_mem_cons] at sound
          -- the opcode took an operand before, and takes one now
          have here : Instruction.WellFormed ⟨opcode, some word⟩ := sound.2.1
          exact List.forall_mem_append.2 ⟨sound.1, List.forall_mem_cons.2 ⟨here, sound.2.2⟩⟩

/-! ### Any number of steps -/

variable {edits before after : List Edit}

theorem ofEdits_concat (edits : List Edit) (edit : Edit) :
    ofEdits (edits ++ [edit]) = edit.apply (ofEdits edits) := by
  rw [ofEdits, ofEdits, List.foldl_concat]

/-- **The opcodes are those of the instructions that were appended**, whatever was replaced. -/
theorem opcodes_ofEdits (edits : List Edit) :
    (ofEdits edits).opcodes = edits.flatMap Edit.opcodes := by
  induction edits using List.reverseRecOn with
  | nil => rfl
  | append_singleton edits edit ih =>
      rw [ofEdits_concat, Edit.opcodes_apply, ih, List.flatMap_append, List.flatMap_singleton]

theorem wellFormed_ofEdits (sound : ∀ edit ∈ edits, edit.WellFormed) :
    (ofEdits edits).WellFormed := by
  induction edits using List.reverseRecOn with
  | nil => exact List.forall_mem_nil _
  | append_singleton edits edit ih =>
      rw [List.forall_mem_append, List.forall_mem_singleton] at sound
      rw [ofEdits_concat]
      exact Edit.wellFormed_apply sound.2 (ih sound.1)

/-- Further steps leave the beginnings of the instructions that are there. -/
theorem start_ofEdits_append (before after : List Edit)
    (within : index ≤ (ofEdits before).lines.length) :
    (ofEdits (before ++ after)).start index = (ofEdits before).start index := by
  rw [← length_opcodes, opcodes_ofEdits] at within
  rw [start_eq_sum, start_eq_sum, opcodes_ofEdits, opcodes_ofEdits, List.flatMap_append,
    List.take_append_of_le_length within]

/-- The next instruction begins at the position, and there it stays. -/
theorem start_ofEdits (before after : List Edit) :
    (ofEdits (before ++ after)).start (ofEdits before).lines.length =
      (ofEdits before).position := by
  rw [start_ofEdits_append before after (Nat.le_refl _), start, List.take_length]

/-- Behind the instructions that are there, the next one is that which is appended next. -/
theorem opcodes_ofEdits_emit (before : List Edit) (instruction : Instruction)
    (note : Option String) (after : List Edit) :
    (ofEdits (before ++ .emit instruction note :: after)).opcodes[(ofEdits before).lines.length]? =
      some instruction.opcode := by
  rw [← length_opcodes, opcodes_ofEdits, opcodes_ofEdits, List.flatMap_append, List.flatMap_cons,
    List.getElem?_append_right (Nat.le_refl _), Nat.sub_self]
  rfl

/-- Every instruction that is there was appended by one of the steps. -/
theorem exists_emit (within : index < (ofEdits edits).lines.length) :
    ∃ before instruction note after, edits = before ++ .emit instruction note :: after ∧
      (ofEdits before).lines.length = index := by
  induction edits using List.reverseRecOn with
  | nil => exact absurd within (Nat.not_lt_zero _)
  | append_singleton edits edit ih =>
      by_cases early : index < (ofEdits edits).lines.length
      · obtain ⟨before, instruction, note, after, rfl, same⟩ := ih early
        exact ⟨before, instruction, note, after ++ [edit], by simp, same⟩
      · rw [← length_opcodes, ofEdits_concat, Edit.opcodes_apply, List.length_append,
          length_opcodes] at within
        cases edit with
        | emit instruction note =>
            rw [Edit.opcodes, List.length_singleton] at within
            exact ⟨edits, instruction, note, [], rfl, by omega⟩
        | patch => exact absurd within early

/-- **Positions are exact and stay so**, however often instructions are appended and operands
replaced.  The position is the number of bytes.  Every instruction was appended by some step, and
stands from the byte on which the position was before that step.  Replacing succeeds exactly if the
instruction at the index has an operand.  Then it replaces this operand and its note, and otherwise
it changes nothing. -/
theorem positions_ofEdits (sound : ∀ edit ∈ edits, edit.WellFormed) :
    (ofEdits edits).position = (ofEdits edits).bytes.length ∧
    (∀ before instruction note after, edits = before ++ .emit instruction note :: after →
      (ofEdits edits).opcodes[(ofEdits before).lines.length]? = some instruction.opcode ∧
      (ofEdits edits).Occupies (ofEdits before).lines.length (ofEdits before).position) ∧
    (∀ index, index < (ofEdits edits).lines.length → ∃ before instruction note after,
      edits = before ++ .emit instruction note :: after ∧ (ofEdits before).lines.length = index) ∧
    ∀ index word note,
      (((ofEdits edits).patch? index word note).isSome = true ↔
        ∃ line, (ofEdits edits).lines[index]? = some line ∧
          line.instruction.operand.isSome = true) ∧
      if ((ofEdits edits).patch? index word note).isSome then
        (ofEdits edits).Patched index word note (ofEdits (edits ++ [.patch index word note]))
      else ofEdits (edits ++ [.patch index word note]) = ofEdits edits := by
  have built := wellFormed_ofEdits sound
  refine ⟨(length_bytes built).symm, ?_, fun index => exists_emit, ?_⟩
  · rintro before instruction note after rfl
    have here := opcodes_ofEdits_emit before instruction note after
    obtain ⟨within, -⟩ := List.getElem?_eq_some_iff.1 here
    rw [length_opcodes] at within
    have stands := built.occupies within
    rw [start_ofEdits] at stands
    exact ⟨here, stands⟩
  · intro index word note
    refine ⟨isSome_patch?_iff, ?_⟩
    rw [ofEdits_concat, Edit.apply]
    cases h : (ofEdits edits).patch? index word note with
    | none => rfl
    | some patched => exact built.patches h

/-- A jump whose destination is filled in twice, and an attempt to give its mark an operand. -/
def twice : List Edit :=
  [.emit (.push (.ofNat 0)) none, .emit (.plain .jump) none, .patch 0 (.ofNat 1) (some "start"),
    .emit (.plain .jumpDst) (some "end"), .patch 2 (.ofNat 7) none, .patch 0 (.ofNat 10) none]

/-- The mark stands at byte ten, the second destination replaces the first, and the mark takes no
operand. -/
theorem positions_ofEdits_twice : (∀ edit ∈ twice, edit.WellFormed) ∧
    (ofEdits twice).position = (ofEdits twice).bytes.length ∧
    (ofEdits twice).Occupies 2 10 ∧
    (ofEdits twice).Patched 0 (.ofNat 7) none (ofEdits (twice ++ [.patch 0 (.ofNat 7) none])) ∧
    ofEdits (twice ++ [.patch 2 (.ofNat 7) none]) = ofEdits twice := by
  have sound : ∀ edit ∈ twice, edit.WellFormed := by decide
  obtain ⟨exact, emitted, -, replaced⟩ := positions_ofEdits sound
  exact ⟨sound, exact, (emitted (twice.take 3) _ _ (twice.drop 4) rfl).2,
    (replaced 0 (.ofNat 7) none).2, (replaced 2 (.ofNat 7) none).2⟩

end Assembly

end Covenant
