/-
**The notes on emitted code.**

The notes on compiled code name what an instruction is there for, and some repeat names and literals
of the contract.  A name that was read from a text has no blank in it, and a literal is shown on one
line between delimiters, so every note is read back with its line, whatever characters the literals
hold.

Main definitions:

* `Covenant.Assembly.Leads` — the texts that may stand in front of a note;
* `Covenant.Emission.Item.Noted` — the note of an item, if it has one, is read back.

Main results:

* `Assembly.isNote_append`, `Assembly.isNote_render` — notes that repeat a name or a literal;
* `Expression.Code.noted`, `Statement.Block.noted`, `FunctionDecl.Code.noted` — the notes of each
  construct;
* `Compilation.legible_ofContract` — **the code of a well-formed contract is legible**.
-/

import Covenant.Proofs.Assembly
import Covenant.Proofs.Contract.WellFormed
import Covenant.Proofs.Emission.Layout

set_option relaxedAutoImplicit false
set_option autoImplicit false

namespace Covenant

open Machine
open Emission (Item)

/-! ### Notes -/

namespace Assembly

instance (note : String) : Decidable (IsNote note) :=
  decidable_of_iff (note.toList ≠ [] ∧ Text.trim note.toList = note.toList ∧ '\n' ∉ note.toList)
    ⟨fun ⟨nonempty, trimmed, whole⟩ => ⟨nonempty, trimmed, whole⟩,
      fun h => ⟨h.nonempty, h.trimmed, h.whole⟩⟩

/-- The texts that may stand in front of a note: they are on one line and do not begin with a
blank. -/
def Leads (front : String) : Prop :=
  front.toList.head?.any Text.isBlank = false ∧ '\n' ∉ front.toList

instance (front : String) : Decidable (Leads front) :=
  inferInstanceAs (Decidable (_ ∧ _))

/-- A text in front of characters that are not blank. -/
theorem isNote_append {front back : String} (leads : Leads front) (nonempty : back.toList ≠ [])
    (solid : ∀ c ∈ back.toList, Text.isBlank c = false) : IsNote (front ++ back) := by
  obtain ⟨begins, whole⟩ := leads
  refine ⟨?_, Text.trim_eq_self_iff.2 ⟨?_, ?_⟩, ?_⟩
  · rw [String.toList_append]
    exact List.append_ne_nil_of_right_ne_nil _ nonempty
  · intro c mem
    rw [String.toList_append, List.head?_append] at mem
    cases h : front.toList.head? with
    | none =>
        rw [h, Option.none_or] at mem
        exact solid c (List.mem_of_mem_head? mem)
    | some first =>
        rw [h, Option.some_or] at mem
        rw [h] at begins
        cases mem
        exact begins
  · intro c mem
    rw [String.toList_append, List.getLast?_append_of_ne_nil _ nonempty] at mem
    exact solid c (List.mem_of_mem_getLast? mem)
  · rw [String.toList_append, List.mem_append, not_or]
    refine ⟨whole, fun mem => ?_⟩
    cases solid _ mem

/-- A text in front of a name. -/
theorem isNote_name {front name : String} (named : IsName name) (leads : Leads front) :
    IsNote (front ++ name) := by
  obtain ⟨-, head, chars⟩ := named
  refine isNote_append leads ?_ fun c mem => ?_
  · intro none
    rw [none] at head
    cases head
  · have word := chars c mem
    rw [Token.isWordChar, Bool.or_eq_true, beq_iff_eq] at word
    rcases word with letter | rfl
    · exact Text.isBlank_of_isAlphanum letter
    · rfl

/-- A text in front of a number. -/
theorem isNote_number {front : String} (n : ℕ) (leads : Leads front) :
    IsNote (front ++ Text.Decimal.ofNat n) := by
  refine isNote_append leads ?_ fun c mem => ?_
  · rw [Text.Decimal.toList_ofNat]
    exact Nat.toDigits_ne_nil
  · rw [Text.Decimal.toList_ofNat] at mem
    have digit := Nat.isDigit_of_mem_toDigits (by decide) (by decide) mem
    exact Text.isBlank_of_isAlphanum (by rw [Char.isAlphanum, digit, Bool.or_true])

/-- Every literal is a note, whatever characters it holds. -/
theorem isNote_render (literal : Operand) : IsNote literal.render := by
  cases literal with
  | boolean value => cases value <;> decide
  | integer value =>
      rw [Operand.render, Text.Decimal.ofInt]
      split
      · exact isNote_number _ (by decide)
      · rw [← String.empty_append (s := Text.Decimal.ofNat _)]
        exact isNote_number _ (by decide)
  | text value =>
      -- the delimiters are at the ends, and no line feed is left between them
      have quoted := Text.Quoted.toList_text value
      refine ⟨by simp [Operand.render, quoted], Text.trim_eq_self_iff.2 ⟨?_, ?_⟩, ?_⟩
      · rw [Operand.render, quoted]
        rintro c ⟨⟩
        rfl
      · rw [Operand.render, quoted, List.getLast?_append_of_ne_nil _ (List.cons_ne_nil _ _)]
        rintro c ⟨⟩
        rfl
      · rw [Operand.render, quoted, List.cons_append, List.mem_cons, List.mem_append,
          List.mem_flatMap, not_or, not_or]
        refine ⟨by decide, ?_, by decide⟩
        rintro ⟨c, -, mem⟩
        exact Text.Quoted.lineFeed_not_mem_escape _ c mem
  | bytes value =>
      rw [Operand.render]
      cases value with
      | nil => decide
      | cons b rest =>
          refine isNote_append (by decide) (by simp) fun c mem => ?_
          rw [Text.Hex.toList_encode] at mem
          exact Text.isBlank_of_isAlphanum (Text.Hex.isAlphanum_of_mem_digits mem)

end Assembly

open Assembly (isNote_name isNote_number isNote_render)

/-! ### Items -/

namespace Emission.Item

/-- The note of an item, if it has one, is read back. -/
def Noted (item : Item) : Prop :=
  ∀ line ∈ item.line?, ∀ note ∈ line.note, Assembly.IsNote note

theorem noted_plain (opcode : Opcode) : (plain opcode).Noted := by
  rintro line ⟨⟩ note ⟨⟩

theorem noted_remark (r : Remark) : (Item.remark r).Noted := by
  rintro line ⟨⟩

theorem noted_push (word : Word) {note : String} (h : Assembly.IsNote note) :
    (push word note).Noted := by
  rintro line ⟨⟩ note ⟨⟩
  exact h

theorem noted_noted (opcode : Opcode) {note : String} (h : Assembly.IsNote note) :
    (noted opcode note).Noted := by
  rintro line ⟨⟩ note ⟨⟩
  exact h

theorem noted_forward (destination : ℕ) {note : String} (h : Assembly.IsNote note) :
    (forward destination note).Noted := by
  rintro line ⟨⟩ note ⟨⟩
  exact h

theorem noted_skip (destination : ℕ) {note : String} (h : Assembly.IsNote note) :
    ∀ item ∈ skip destination note, item.Noted := by
  simp only [skip, List.forall_mem_cons]
  exact ⟨noted_plain _, noted_forward _ h, noted_plain _, by simp⟩

theorem noted_leave (destination : ℕ) : ∀ item ∈ leave destination, item.Noted := by
  simp only [leave, List.forall_mem_cons]
  exact ⟨noted_forward _ (by decide), noted_plain _, by simp⟩

theorem noted_mark {note : String} (h : Assembly.IsNote note) :
    ∀ item ∈ [noted .jumpDst note], item.Noted := by
  simpa using noted_noted .jumpDst h

end Emission.Item

open Emission.Item (noted_plain noted_remark noted_push noted_noted noted_forward noted_skip
  noted_leave noted_mark)

/-! ### The notes of each construct -/

theorem Slot.noted_access (slot : Slot) (opcode : Opcode) {name : String} (named : IsName name) :
    ∀ item ∈ slot.access opcode name, item.Noted := by
  simp only [access, List.forall_mem_cons]
  exact ⟨noted_push _ (isNote_name named (by decide)),
    noted_push _ (isNote_name named (by decide)), noted_plain _, by simp⟩

theorem MemoryMap.noted_shadowing (memory : MemoryMap) (name : String) :
    ∀ item ∈ memory.shadowing name, item.Noted := by
  unfold shadowing
  split
  · simpa using noted_remark _
  · simp

/-- The notes of an expression repeat its names and literals. -/
theorem Expression.Code.noted {memory : MemoryMap} {value : Expression} {items : List Item}
    (code : Code memory value items) (valid : value.WellFormed) : ∀ item ∈ items, item.Noted := by
  induction code with
  | literal => simpa using noted_push _ (isNote_render _)
  | identifier => exact Slot.noted_access _ _ valid
  | not _ ih => exact List.forall_mem_append.2 ⟨ih valid, by simpa using noted_plain _⟩
  | minus _ ih =>
      refine List.forall_mem_cons.2 ⟨noted_push _ (by decide), ?_⟩
      exact List.forall_mem_append.2 ⟨ih valid, by simpa using noted_plain _⟩
  | binary _ _ ihLeft ihRight =>
      refine List.forall_mem_append.2 ⟨ihLeft valid.1, ?_⟩
      refine List.forall_mem_append.2 ⟨ihRight valid.2, fun item mem => ?_⟩
      obtain ⟨opcode, -, rfl⟩ := List.mem_map.1 mem
      exact noted_plain opcode

/-- The notes of statements repeat names and literals, or say where jumps go. -/
theorem Statement.Block.noted {position : ℕ} {memory last : MemoryMap}
    {statements : List Statement} {items : List Item}
    (block : Block position memory statements items last)
    (valid : Statement.WellFormedAll statements) : ∀ item ∈ items, item.Noted := by
  induction block with
  | nil => simp
  | cons _ _ ihHead ihTail =>
      exact List.forall_mem_append.2 ⟨ihHead ⟨valid.1, trivial⟩, ihTail valid.2⟩
  | declare code =>
      obtain ⟨⟨named, good⟩, -⟩ := valid
      exact List.forall_mem_append.2 ⟨code.noted good, List.forall_mem_append.2
        ⟨MemoryMap.noted_shadowing _ _, Slot.noted_access _ _ named⟩⟩
  | assign code =>
      obtain ⟨⟨named, good⟩, -⟩ := valid
      exact List.forall_mem_append.2 ⟨code.noted good, Slot.noted_access _ _ named⟩
  | returnValue code | expression code =>
      exact List.forall_mem_append.2 ⟨code.noted valid.1, by simpa using noted_plain _⟩
  | returnNothing => simpa using noted_noted .exit (by decide)
  | ifThen test _ _ _ ih =>
      obtain ⟨⟨condition, consequence⟩, -⟩ := valid
      simp only [List.forall_mem_append]
      exact ⟨test.noted condition, noted_skip _ (by decide), ih consequence,
        noted_mark (by decide)⟩
  | ifElse test _ _ _ _ _ ihInner ihOuter =>
      obtain ⟨⟨condition, consequence, alternative⟩, -⟩ := valid
      simp only [List.forall_mem_append, List.forall_mem_cons]
      exact ⟨test.noted condition, noted_skip _ (by decide), ihInner consequence, noted_leave _,
        noted_noted _ (by decide), ihOuter alternative, noted_noted _ (by decide), by simp⟩

/-- The notes of parameters number the arguments. -/
theorem Parameter.Code.noted {index : ℕ} {memory last : MemoryMap} {parameters : List Parameter}
    {items : List Item} (code : Parameter.Code index memory parameters items last)
    (valid : ∀ parameter ∈ parameters, parameter.WellFormed) : ∀ item ∈ items, item.Noted := by
  induction code with
  | nil => simp
  | cons _ ih =>
      rw [List.forall_mem_cons] at valid
      simp only [List.forall_mem_cons, List.forall_mem_append]
      exact ⟨noted_push _ (isNote_number _ (by decide)), noted_plain _,
        Slot.noted_access _ _ valid.1, ih valid.2⟩

theorem FunctionDecl.Code.noted {position : ℕ} {function : FunctionDecl} {items : List Item}
    {memory : MemoryMap} (code : function.Code position items memory)
    (valid : function.WellFormed) : ∀ item ∈ items, item.Noted := by
  obtain ⟨parameters, -, block⟩ := code
  simp only [List.forall_mem_append, List.forall_mem_cons]
  exact ⟨noted_noted _ (isNote_name valid.name (by decide)),
    parameters.noted valid.parameters, block.noted valid.body,
    noted_noted _ (isNote_name valid.name (by decide)), noted_remark _, by simp⟩

theorem FunctionDecl.Codes.noted {position : ℕ} {functions : List FunctionDecl}
    {entries : List ℕ} {items : List Item} {memories : List MemoryMap}
    (codes : Codes position functions entries items memories)
    (valid : ∀ function ∈ functions, function.WellFormed) : ∀ item ∈ items, item.Noted := by
  induction codes with
  | nil => simp
  | cons head _ ih =>
      rw [List.forall_mem_cons] at valid
      exact List.forall_mem_append.2 ⟨head.noted valid.1, ih valid.2⟩

/-- The notes of the dispatcher repeat the names of functions. -/
theorem Contract.noted_dispatch {selector : ℕ} {labels : List (String × ℕ)}
    (valid : ∀ label ∈ labels, IsName label.1) : ∀ item ∈ dispatch selector labels, item.Noted := by
  induction labels generalizing selector with
  | nil => simpa [dispatch] using noted_noted .exit (by decide)
  | cons label rest ih =>
      rw [List.forall_mem_cons] at valid
      simp only [dispatch, List.forall_mem_cons]
      exact ⟨noted_push _ (isNote_name valid.1 (by decide)), noted_plain _,
        noted_plain _, noted_forward _ (isNote_name valid.1 (by decide)),
        noted_plain _, ih valid.2⟩

/-! ### Contracts -/

/-- The labels of a well-formed contract are names. -/
theorem Contract.isName_of_mem_labels {contract : Contract} (valid : contract.WellFormed) :
    ∀ label ∈ contract.labels, IsName label.1 := by
  intro label mem
  obtain ⟨function, inside, same⟩ := List.mem_map.1 (List.of_mem_zip mem).1
  rw [← same]
  exact (valid function inside).name

/-- **The code of a well-formed contract is legible.** -/
theorem Compilation.legible_ofContract {contract : Contract} {compilation : Compilation}
    (valid : contract.WellFormed) (compiled : ofContract contract = .ok compilation) :
    ∀ line ∈ compilation.code.lines, line.Legible := by
  intro line mem
  refine ⟨wellFormed_ofContract compiled line mem, ?_⟩
  obtain ⟨functions, memories, bytes, codes, lines, -⟩ := lines_ofContract compiled
  rw [lines] at mem
  obtain ⟨item, itemMem, same⟩ := List.mem_filterMap.1 mem
  suffices noted : item.Noted from noted line same
  simp only [List.mem_append, List.mem_singleton] at itemMem
  rcases itemMem with call | body | rfl
  · exact Contract.noted_dispatch (Contract.isName_of_mem_labels valid) item call
  · exact codes.noted valid item body
  · exact noted_remark _

end Covenant
