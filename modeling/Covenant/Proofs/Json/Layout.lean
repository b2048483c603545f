/-
**How a value is laid out as JSON text.**

A value is written on one line or on many, and both are texts of it: between its tokens there may
be any blanks.  What a text of a value is, is said here once, so that a reader need not know in
which of the two ways a text was written.

Main definitions:

* `Covenant.Json.Items`, `Covenant.Json.Enclosed` — items with commas between them, in brackets;
* `Covenant.Json.Written` — a text of a value.

Main results:

* `Json.written_compact`, `Json.written_pretty` — **the text of a value on one line, and that on many
  lines, are texts of it**.
-/

import Covenant.Json.Value
import Covenant.Proofs.Text.Lines
import Mathlib.Data.List.Forall2

set_option relaxedAutoImplicit false
set_option autoImplicit false

namespace Covenant.Json

/-! ### Texts of values -/

/-- Nothing but blanks. -/
def Blank (gap : List Char) : Prop :=
  ∀ c ∈ gap, isSpace c = true

/-- What stands behind an item in brackets: a comma before every further item, and the closing
bracket.  What the texts of an item are is left open. -/
inductive Items {α : Type} (R : α → List Char → Prop) (closing : Char) :
    List α → List Char → Prop where
  | close {gap : List Char} (blank : Blank gap) : Items R closing [] (gap ++ [closing])
  | more {gap gap' text rest : List Char} {item : α} {items : List α} (before : Blank gap)
      (behind : Blank gap') (first : R item text) (others : Items R closing items rest) :
      Items R closing (item :: items) (gap ++ ',' :: (gap' ++ (text ++ rest)))

/-- Items in brackets. -/
inductive Enclosed {α : Type} (R : α → List Char → Prop) (opening closing : Char) :
    List α → List Char → Prop where
  | empty {gap : List Char} (blank : Blank gap) :
      Enclosed R opening closing [] (opening :: (gap ++ [closing]))
  | nonempty {gap text rest : List Char} {item : α} {items : List α} (blank : Blank gap)
      (first : R item text) (others : Items R closing items rest) :
      Enclosed R opening closing (item :: items) (opening :: (gap ++ (text ++ rest)))

/-- A member of an object: its name, a colon and its value. -/
inductive Member (R : Value → List Char → Prop) : String × Value → List Char → Prop where
  | member {gap gap' text : List Char} {value : Value} (name : String) (before : Blank gap)
      (behind : Blank gap') (named : R value text) :
      Member R (name, value) ((Text.write name).toList ++ (gap ++ ':' :: (gap' ++ text)))

/-- A text of a value, with blanks between its tokens but none before and behind them. -/
inductive Written : Value → List Char → Prop where
  | string (text : String) : Written (.string text) (Text.write text).toList
  | array {elements : List Value} {text : List Char}
      (enclosed : Enclosed Written '[' ']' elements text) : Written (.array elements) text
  | object {members : List (String × Value)} {text : List Char}
      (enclosed : Enclosed (Member Written) '\x7b' '\x7d' members text) :
      Written (.object members) text

/-! ### Texts that are written -/

theorem blank_nil : Blank [] := by
  simp [Blank]

theorem blank_indent (depth : ℕ) : Blank (Value.indent depth).toList := by
  intro c mem
  rw [Value.indent, Text.toList_pushn, String.toList_empty, List.nil_append] at mem
  rw [List.eq_of_mem_replicate mem]
  rfl

/-- A text of an item, perhaps with blanks before it. -/
def Indented {α : Type} (R : α → List Char → Prop) (item : α) (part : List Char) : Prop :=
  ∃ gap text, Blank gap ∧ R item text ∧ part = gap ++ text

variable {α : Type} {R : α → List Char → Prop} {closing : Char} {pad last : List Char}

/-- Texts of items with commas between them, and then the closing bracket. -/
theorem exists_items_intercalate {item : α} {part : List Char} {items : List α}
    {parts : List (List Char)} (blank : Blank pad) (blankLast : Blank last)
    (first : Indented R item part) (others : List.Forall₂ (Indented R) items parts) :
    ∃ gap text rest, Blank gap ∧ R item text ∧ Items R closing items rest ∧
      List.intercalate (',' :: pad) (part :: parts) ++ (last ++ [closing]) =
        gap ++ (text ++ rest) := by
  induction others generalizing item part with
  | nil =>
      obtain ⟨gap, text, before, written, rfl⟩ := first
      exact ⟨gap, text, _, before, written, .close blankLast, by simp⟩
  | @cons next nextPart items parts second _ ih =>
      obtain ⟨gap, text, before, written, rfl⟩ := first
      obtain ⟨gap', text', rest, before', written', more, same⟩ := ih second
      have padded : Blank (pad ++ gap') := List.forall_mem_append.2 ⟨blank, before'⟩
      refine ⟨gap, text, _, before, written, .more blank_nil padded written' more, ?_⟩
      rw [List.intercalate_cons_cons, List.append_assoc, same]
      simp

theorem enclosed_intercalate {opening : Char} {items : List α} {parts : List (List Char)}
    (blank : Blank pad) (blankLast : Blank last) (each : List.Forall₂ (Indented R) items parts)
    (nonempty : parts ≠ []) :
    Enclosed R opening closing items
      (opening :: (pad ++ (List.intercalate (',' :: pad) parts ++ (last ++ [closing])))) := by
  cases each with
  | nil => exact absurd rfl nonempty
  | cons first others =>
      obtain ⟨gap, text, rest, before, written, more, same⟩ :=
        exists_items_intercalate blank blankLast first others
      rw [same, ← List.append_assoc]
      exact .nonempty (List.forall_mem_append.2 ⟨blank, before⟩) written more

/-- Texts with the same blanks before each. -/
theorem forall₂_indented {items : List α} {texts : List String} {gap : String}
    (blank : Blank gap.toList)
    (each : List.Forall₂ (fun item text => R item text.toList) items texts) :
    List.Forall₂ (Indented R) items ((texts.map fun text => gap ++ text).map String.toList) := by
  rw [List.map_map, List.forall₂_map_right_iff]
  refine each.imp ?_
  intro item text written
  exact ⟨_, _, blank, written, String.toList_append⟩

/-- Items on one line. -/
theorem enclosed_compact {items : List α} {texts : List String} {opening closing : Char}
    (each : List.Forall₂ (fun item text => R item text.toList) items texts) :
    Enclosed R opening closing items
      (String.singleton opening ++ ",".intercalate texts ++ String.singleton closing).toList := by
  cases each with
  | nil =>
      have nothing : Enclosed R opening closing [] _ := .empty blank_nil
      simpa using nothing
  | cons first others =>
      have none : Blank "".toList := blank_nil
      have parts := forall₂_indented none (.cons first others)
      have whole : Enclosed R opening closing _ _ :=
        enclosed_intercalate blank_nil blank_nil parts (by simp)
      simpa [String.toList_intercalate] using whole

/-- Items on lines of their own. -/
theorem enclosed_bracketed {items : List α} {texts : List String} {opening closing : Char}
    (depth : ℕ) (each : List.Forall₂ (fun item text => R item text.toList) items texts) :
    Enclosed R opening closing items
      (Value.bracketed (String.singleton opening) (String.singleton closing) depth texts).toList := by
  cases each with
  | nil =>
      have nothing : Enclosed R opening closing [] _ := .empty blank_nil
      simpa [Value.bracketed] using nothing
  | cons first others =>
      have line : Blank ['\n'] := by simp [Blank, isSpace]
      have last : Blank ('\n' :: (Value.indent depth).toList) :=
        List.forall_mem_cons.2 ⟨rfl, blank_indent depth⟩
      have parts := forall₂_indented (blank_indent (depth + 1)) (.cons first others)
      have whole : Enclosed R opening closing _ _ :=
        enclosed_intercalate line last parts (by simp)
      simp only [Value.bracketed, String.toList_append, String.toList_intercalate,
        String.toList_singleton, List.append_assoc]
      exact whole

mutual

/-- The text of a value on one line is a text of it. -/
theorem written_compact : (value : Value) → Written value value.compact.toList
  | .string text => .string text
  | .array elements => .array (enclosed_compact (written_compactElements elements))
  | .object members => .object (enclosed_compact (written_compactMembers members))

theorem written_compactElements : (elements : List Value) →
    List.Forall₂ (fun element text => Written element text.toList) elements
      (Value.compactElements elements)
  | [] => .nil
  | element :: rest => .cons (written_compact element) (written_compactElements rest)

theorem written_compactMembers : (members : List (String × Value)) →
    List.Forall₂ (fun member text => Member Written member text.toList) members
      (Value.compactMembers members)
  | [] => .nil
  | (name, value) :: rest => by
      refine .cons ?_ (written_compactMembers rest)
      have member := Member.member name blank_nil blank_nil (written_compact value)
      simpa using member

end

mutual

/-- The text of a value on many lines is a text of it, at every depth. -/
theorem written_prettyAt : (depth : ℕ) → (value : Value) →
    Written value (value.prettyAt depth).toList
  | _, .string text => .string text
  | depth, .array elements =>
      .array (enclosed_bracketed depth (written_prettyElements (depth + 1) elements))
  | depth, .object members =>
      .object (enclosed_bracketed depth (written_prettyMembers (depth + 1) members))

theorem written_prettyElements : (depth : ℕ) → (elements : List Value) →
    List.Forall₂ (fun element text => Written element text.toList) elements
      (Value.prettyElements depth elements)
  | _, [] => .nil
  | depth, element :: rest =>
      .cons (written_prettyAt depth element) (written_prettyElements depth rest)

theorem written_prettyMembers : (depth : ℕ) → (members : List (String × Value)) →
    List.Forall₂ (fun member text => Member Written member text.toList) members
      (Value.prettyMembers depth members)
  | _, [] => .nil
  | depth, (name, value) :: rest => by
      refine .cons ?_ (written_prettyMembers depth rest)
      have space : Blank [' '] := by simp [Blank, isSpace]
      have member := Member.member name blank_nil space (written_prettyAt depth value)
      simpa using member

end

/-- The text of a value on many lines is a text of it. -/
theorem written_pretty (value : Value) : Written value value.pretty.toList :=
  written_prettyAt 0 value

end Covenant.Json
