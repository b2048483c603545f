/-
**Filling in destinations when they are reached.**

A translator works on a draft and knows a destination only when it arrives there, while an emission
writes it at once.  The two are compared from any draft on, whatever was written in it before: a
translator *writes* an emission if it has the same result and adds the items of the emission to the
draft.

Between the push of a destination and its filling in, the draft is not the one that the emission
would leave.  It holds a *hole*, a push of zero, in place of the destination.  A hole takes as many
bytes as the destination will, and looks the same in the log, so that nothing that is written in the
meantime notices.  Hence two lists of items are kept: those that are *pending* in the draft, and
those that are *settled* in the emission.  They differ by holes, each construct adds the same items
to both, and an arrival fills a hole.  Where a fault comes before that, the draft keeps its holes,
but then only its log is looked at.

Main definitions:

* `Covenant.Draft.write` — a draft with items written behind what it holds;
* `Covenant.Emission.Item.hole`, `Covenant.Emission.Item.Alike` — a push that waits for its
  destination, and items that take the same bytes and look the same in the log;
* `Covenant.Translator.Settles`, `Covenant.Translator.Writes` — a translator does what an emission
  says.

Main results:

* `Translator.Settles.emit`, `Translator.Settles.bind` — the rules for one step and for a sequence;
* `Translator.on_placeDestination` — an arrival fills the hole that waits for it;
* `Expression.writes_translate`, `Statement.writes_translate`, `FunctionDecl.writes_translateCode` —
  **expressions, statements and functions are translated to what is emitted for them**.
-/

import Covenant.Proofs.Assembly.Positions
import Covenant.Proofs.Emission.Layout
import Covenant.Translation
import Mathlib.Data.List.Forall2

set_option relaxedAutoImplicit false
set_option autoImplicit false

namespace Covenant

open Machine
open Emission (Item)

/-! ### Items that wait -/

namespace Emission.Item

/-- A push that waits for its destination. -/
def hole : Item :=
  .line ⟨.push (.ofNat 0), none⟩

/-- Items that take the same bytes and look the same in the log. -/
def Alike (items others : List Item) : Prop :=
  List.Forall₂ (fun item other => item.size = other.size ∧ item.event = other.event) items others

namespace Alike

variable {items others : List Item}

theorem refl (items : List Item) : Alike items items :=
  List.forall₂_same.2 fun _ _ => ⟨rfl, rfl⟩

theorem append (alike : Alike items others) {more rest : List Item}
    (alike' : Alike more rest) : Alike (items ++ more) (others ++ rest) :=
  List.rel_append alike alike'

theorem totalSize_eq (alike : Alike items others) : totalSize items = totalSize others := by
  induction alike with
  | nil => rfl
  | cons same _ ih => rw [totalSize_cons, totalSize_cons, same.1, ih]

theorem events_eq (alike : Alike items others) (position : ℕ) :
    events position items = events position others := by
  induction alike generalizing position with
  | nil => rfl
  | cons same _ ih => rw [events, events, same.1, same.2, ih]

end Alike

/-- The item is a push of zero, which waits for a destination. -/
structure Waits (item : Item) : Prop where
  line : ∃ note, item.line? = some ⟨.push (.ofNat 0), note⟩
  event : item.event = (forward 0 "").event

theorem waits_hole : hole.Waits :=
  ⟨⟨none, rfl⟩, rfl⟩

theorem waits_forward (note : String) : (forward 0 note).Waits :=
  ⟨⟨some note, rfl⟩, rfl⟩

/-- What is in place of a destination is not noticed. -/
theorem Waits.alike {item : Item} (waits : item.Waits) (front back : List Item)
    (destination : ℕ) (note : String) :
    Alike (front ++ item :: back) (front ++ .forward destination note :: back) := by
  obtain ⟨⟨waiting, line⟩, event⟩ := waits
  refine (Alike.refl front).append (.cons ⟨?_, event⟩ (Alike.refl back))
  rw [size, line]
  rfl

end Emission.Item

/-! ### Drafts that are written to -/

namespace Draft

/-- The draft with items written behind its code, and with their events in the log. -/
def write (draft : Draft) (items : List Item) : Draft :=
  { draft with
    code := draft.code.append ⟨Item.lines items⟩
    log := draft.log ++ Item.events draft.code.position items }

variable (draft : Draft) (items more : List Item)

@[simp] theorem write_nil : draft.write [] = draft := by
  obtain ⟨⟨⟨lines⟩, _, _, _⟩, log⟩ := draft
  simp [write, Assembly.append, Item.lines, Item.events]

@[simp] theorem position_write :
    (draft.write items).code.position = draft.code.position + Item.totalSize items := by
  rw [write, Assembly.position_append, Item.position_lines]

@[simp] theorem log_write :
    (draft.write items).log = draft.log ++ Item.events draft.code.position items := rfl

@[simp] theorem lines_write :
    (draft.write items).code.lines = draft.code.lines ++ Item.lines items := rfl

/-- Items are written one after another. -/
@[simp] theorem write_write : (draft.write items).write more = draft.write (items ++ more) := by
  rw [write, position_write]
  simp only [write, Assembly.append, Item.lines_append, Item.events_append, List.append_assoc]

end Draft

/-! ### What a translator does -/

namespace Translator

variable {α β : Type}

/-- What a translator makes of a draft: its result, and the draft behind it. -/
def on (translator : Translator α) (draft : Draft) : Except CompileError α × Draft :=
  translator.run.run draft

theorem on_bind_ok {first : Translator α} {next : α → Translator β} {draft behind : Draft} {a : α}
    (done : first.on draft = (.ok a, behind)) : (first >>= next).on draft = (next a).on behind := by
  simp only [on] at done ⊢
  simp only [ExceptT.run_bind, StateT.run_bind, done]
  rfl

theorem on_bind_error {first : Translator α} {next : α → Translator β} {draft behind : Draft}
    {fault : CompileError} (failed : first.on draft = (.error fault, behind)) :
    (first >>= next).on draft = (.error fault, behind) := by
  simp only [on] at failed ⊢
  simp only [ExceptT.run_bind, StateT.run_bind, failed]
  rfl

theorem on_get_bind (next : Draft → Translator α) (draft : Draft) :
    (get >>= next).on draft = (next draft).on draft := rfl

theorem on_modify (change : Draft → Draft) (draft : Draft) :
    (modify change : Translator Unit).on draft = (.ok (), change draft) := rfl

/-- From a draft in which items are pending, the translator has the result of the emission, and
leaves the settled items and those of the emission behind them.  At a fault only the log is that of
these. -/
structure Settles (draft : Draft) (pending settled : List Item) (translator : Translator α)
    (emission : Emission α) : Prop where
  result : (translator.on (draft.write pending)).1 = emission.result
  log : (translator.on (draft.write pending)).2.log =
    (draft.write (settled ++ emission.items)).log
  final : ∀ a, emission.result = .ok a →
    (translator.on (draft.write pending)).2 = draft.write (settled ++ emission.items)

/-- From this draft on, the translator does what the emission says. -/
def Writes (translator : Translator α) (draft : Draft) (emission : Emission α) : Prop :=
  Settles draft [] [] translator emission

variable {draft : Draft} {pending settled : List Item}

/-- What is done from a draft is done behind settled items. -/
theorem Writes.settles {translator : Translator α} {emission : Emission α}
    (writes : translator.Writes (draft.write settled) emission) :
    Settles draft settled settled translator emission := by
  obtain ⟨result, log, final⟩ := writes
  simp only [Draft.write_nil, List.nil_append, Draft.write_write] at result log final
  exact ⟨result, log, final⟩

/-- Where the emission has a result, its items are written. -/
theorem Writes.on_ok {translator : Translator α} {emission : Emission α}
    (writes : translator.Writes draft emission) {a : α}
    (same : emission.result = .ok a) :
    translator.on draft = (.ok a, draft.write emission.items) := by
  have result := writes.result
  have final := writes.final a same
  rw [Draft.write_nil] at result final
  exact Prod.ext (result.trans same) final

/-- Where the emission has a fault, so has the translator, and the same log. -/
theorem Writes.on_error {translator : Translator α} {emission : Emission α}
    (writes : translator.Writes draft emission) {fault : CompileError}
    (same : emission.result = .error fault) :
    ∃ rest, translator.on draft = (.error fault, rest) ∧
      rest.log = (draft.write emission.items).log := by
  have result := writes.result
  have log := writes.log
  rw [Draft.write_nil] at result log
  exact ⟨_, Prod.ext (result.trans same) rfl, log⟩

namespace Settles

theorem pure (draft : Draft) (settled : List Item) (a : α) :
    Settles draft settled settled (Pure.pure a) (Pure.pure a) where
  result := rfl
  log := by rw [Emission.items_pure, List.append_nil]; rfl
  final _ _ := by rw [Emission.items_pure, List.append_nil]; rfl

/-- Nothing more is done once what is pending is settled. -/
theorem pure_of_eq (same : pending = settled) (a : α) :
    Settles draft pending settled (Pure.pure a) (Pure.pure a) := by
  rw [same]
  exact pure draft settled a

theorem fail (draft : Draft) (settled : List Item) (fault : CompileError) :
    Settles (α := α) draft settled settled (throw fault) (Emission.fail fault) where
  result := rfl
  log := by rw [Emission.fail, List.append_nil]; rfl
  final := nofun

/-- **One step**, which cannot fail. -/
theorem emit {a : α} {item : Item} {filled : List Item} {first : Translator α}
    {next : α → Translator β} {emission : Emission β}
    (done : first.on (draft.write pending) = (.ok a, draft.write filled))
    (settles : Settles draft filled (settled ++ [item]) (next a) emission) :
    Settles draft pending settled (first >>= next)
      (Emission.emit item >>= fun _ => emission) := by
  have items : (Emission.emit item >>= fun _ => emission).items = [item] ++ emission.items := rfl
  obtain ⟨result, log, final⟩ := settles
  rw [List.append_assoc, ← items] at log final
  constructor
  · rw [on_bind_ok done, result]
    rfl
  · rw [on_bind_ok done, log]
  · intro b ok
    rw [on_bind_ok done, final b ok]

/-- One step that adds an item to the draft, in place of which another one may be settled. -/
theorem step {a : α} {item other : Item} {first : Translator α} {next : α → Translator β}
    {emission : Emission β}
    (done : first.on (draft.write pending) = (.ok a, (draft.write pending).write [other]))
    (settles : Settles draft (pending ++ [other]) (settled ++ [item]) (next a) emission) :
    Settles draft pending settled (first >>= next) (Emission.emit item >>= fun _ => emission) :=
  emit (done.trans (by rw [Draft.write_write])) settles

/-- **A sequence.**  What comes first takes no notice of the holes in the draft. -/
theorem bind {first : Translator α} {next : α → Translator β} {emission : Emission α}
    {others : α → Emission β} (alike : Item.Alike pending settled)
    (writes : first.Writes (draft.write pending) emission)
    (settles : ∀ a, emission.result = .ok a →
      Settles draft (pending ++ emission.items) (settled ++ emission.items) (next a) (others a)) :
    Settles draft pending settled (first >>= next) (emission >>= others) := by
  cases same : emission.result with
  | error fault =>
      obtain ⟨rest, failed, log⟩ := writes.on_error same
      have front := alike.append (Item.Alike.refl emission.items)
      constructor
      · rw [on_bind_error failed, Emission.result_bind, same]
        rfl
      · rw [on_bind_error failed, Emission.items_bind_error same, Draft.log_write,
          ← front.events_eq, ← Draft.log_write, ← Draft.write_write]
        exact log
      · intro b ok
        rw [Emission.result_bind, same] at ok
        cases ok
  | ok a =>
      have done := writes.on_ok same
      rw [Draft.write_write] at done
      obtain ⟨result, log, final⟩ := settles a same
      rw [List.append_assoc, ← Emission.items_bind_ok same] at log final
      constructor
      · rw [on_bind_ok done, result, Emission.result_bind, same]
        rfl
      · rw [on_bind_ok done, log]
      · intro b ok
        rw [Emission.result_bind, same] at ok
        rw [on_bind_ok done, final b ok]

end Settles

/-- What is done one after another. -/
theorem Writes.bind {first : Translator α} {next : α → Translator β} {emission : Emission α}
    {others : α → Emission β} (writes : first.Writes draft emission)
    (more : ∀ a, emission.result = .ok a →
      (next a).Writes (draft.write emission.items) (others a)) :
    (first >>= next).Writes draft (emission >>= others) :=
  Settles.bind (.refl []) (by rwa [Draft.write_nil]) fun a same => (more a same).settles

/-! ### Steps -/

theorem on_emit (instruction : Instruction) (note : Option String) (draft : Draft) :
    (emit instruction note).on draft =
      (.ok draft.code.lines.length, draft.write [.line ⟨instruction, note⟩]) := rfl

theorem on_plain (opcode : Opcode) (draft : Draft) :
    (plain opcode).on draft = (.ok (), draft.write [.plain opcode]) := rfl

theorem on_noted (opcode : Opcode) (note : String) (draft : Draft) :
    (noted opcode note).on draft = (.ok (), draft.write [.noted opcode note]) := rfl

/-- A number with a note is pushed like a word. -/
theorem on_pushNumber (n : ℕ) {note : String} (some : note ≠ "") (draft : Draft) :
    (pushNumber n note).on draft =
      (.ok draft.code.lines.length, draft.write [.push (.ofNat n) note]) := by
  rw [pushNumber, if_neg some, on_emit]
  rfl

/-- The push of a destination that lies ahead leaves a hole. -/
theorem on_pushNumber_hole (draft : Draft) :
    (pushNumber 0 "").on draft = (.ok draft.code.lines.length, draft.write [.hole]) := rfl

theorem on_remark (r : Remark) (draft : Draft) :
    (remark r).on draft = (.ok (), draft.write [.remark r]) := by
  have code : draft.code.append ⟨Item.lines [.remark r]⟩ = draft.code :=
    congrArg Assembly.mk (List.append_nil _)
  rw [Draft.write, code]
  rfl

/-- Filling in a destination puts it in the place of what waits for it. -/
theorem on_fillDestination {front back : List Item} {item : Item} {index : ℕ} (waits : item.Waits)
    (place : index = (draft.write front).code.lines.length) (destination : ℕ) (note : String) :
    (fillDestination index destination note).on (draft.write (front ++ item :: back)) =
      (.ok (), draft.write (front ++ .forward destination note :: back)) := by
  obtain ⟨waiting, line⟩ := waits.line
  have patched : (draft.write (front ++ item :: back)).code.patch? index (.ofNat destination)
      (some note) = some (draft.write (front ++ .forward destination note :: back)).code := by
    refine Assembly.patch?_eq_some_iff.2 ⟨draft.code.lines ++ Item.lines front, .push, .ofNat 0,
      waiting, Item.lines back, place.symm, ?_, ?_⟩
    · simp [Draft.write, Assembly.append, Item.lines, line, Instruction.push]
    · simp [Draft.write, Assembly.append, Item.lines, Item.line?, Instruction.push]
  rw [fillDestination, on_modify, patched, Option.getD_some]
  simp only [Draft.write, (waits.alike front back destination note).events_eq]

/-- **An arrival fills the hole that waits for it**, and is marked. -/
theorem on_placeDestination (front : List Item) {back : List Item} {item : Item}
    {index destination : ℕ} {label note : String} (waits : item.Waits)
    (place : index = (draft.write front).code.lines.length)
    (arrived : draft.code.position + Item.totalSize (front ++ item :: back) = destination)
    (named : "to " ++ label = note) :
    (placeDestination index label).on (draft.write (front ++ item :: back)) =
      (.ok (), draft.write (front ++ .forward destination note ::
        (back ++ [.noted .jumpDst label]))) := by
  rw [placeDestination, on_get_bind, on_bind_ok (on_fillDestination waits place _ _), on_noted,
    Draft.position_write, arrived, named, Draft.write_write, List.append_assoc, List.cons_append]

/-! ### Access to memory, and literals -/

/-- A step alone. -/
theorem Writes.last {item : Item} {translator : Translator Unit}
    (done : translator.on draft = (.ok (), draft.write [item])) :
    translator.Writes draft (Emission.emit item) := by
  constructor
  · rw [Draft.write_nil, done]
    rfl
  · rw [Draft.write_nil, done]
    rfl
  · intro _ _
    rw [Draft.write_nil, done]
    rfl

/-- A step and what is done behind it. -/
theorem Writes.emit {a : α} {item : Item} {first : Translator α} {next : α → Translator β}
    {emission : Emission β} (done : first.on draft = (.ok a, draft.write [item]))
    (more : (next a).Writes (draft.write [item]) emission) :
    (first >>= next).Writes draft (Emission.emit item >>= fun _ => emission) :=
  Settles.emit (by rwa [Draft.write_nil]) more.settles

/-- The notes of the compiler say something. -/
theorem append_ne_empty {front : String} (some : front ≠ "") (name : String) :
    front ++ name ≠ "" := by
  intro none
  rw [String.append_eq_empty_iff] at none
  exact some none.1

theorem writes_pushAddress (slot : Slot) (name : String) (draft : Draft) :
    (pushAddress slot name).Writes draft (slot.pushAddress name) := by
  refine .emit (on_pushNumber _ (append_ne_empty (by decide) name) draft) (.last ?_)
  rw [on_bind_ok (on_pushNumber _ (append_ne_empty (by decide) name) _)]
  rfl

theorem writes_store (slot : Slot) (name : String) (draft : Draft) :
    (store slot name).Writes draft (slot.emitStore name) :=
  (writes_pushAddress slot name draft).bind fun _ _ => .last (on_plain _ _)

theorem writes_load (slot : Slot) (name : String) (draft : Draft) :
    (load slot name).Writes draft (slot.emitLoad name) :=
  (writes_pushAddress slot name draft).bind fun _ _ => .last (on_plain _ _)

theorem writes_resolve (memory : MemoryMap) (statement : Statement) (name : String)
    (draft : Draft) :
    (resolve memory statement name).Writes draft (memory.resolve statement name) := by
  rw [resolve, MemoryMap.resolve]
  cases memory.find name with
  | ok slot => exact .pure draft [] slot
  | error fault => exact .fail draft [] _

theorem writes_pushLiteral (statement : Statement) (literal : Operand) (draft : Draft) :
    (pushLiteral statement literal).Writes draft (statement.pushLiteral literal) := by
  rw [pushLiteral, Statement.pushLiteral]
  cases literal.encode with
  | ok word => exact .last rfl
  | error fault => exact .fail draft [] _

theorem writes_operations (opcodes : List Opcode) (draft : Draft) :
    (operations opcodes).Writes draft (emitOpcodes opcodes) := by
  induction opcodes generalizing draft with
  | nil => exact .pure draft [] ()
  | cons opcode rest ih => exact .emit (on_plain opcode draft) (ih _)

end Translator

open Translator

/-! ### Expressions -/

/-- **An expression is translated to what is emitted for it.** -/
theorem Expression.writes_translate (memory : MemoryMap) (statement : Statement)
    (value : Expression) (draft : Draft) :
    (value.translate memory statement).Writes draft (value.emit memory statement) := by
  induction value generalizing draft with
  | integer value => exact writes_pushLiteral statement _ draft
  | boolean value => exact writes_pushLiteral statement _ draft
  | text value => exact writes_pushLiteral statement _ draft
  | identifier name =>
      exact (writes_resolve memory statement name draft).bind fun slot _ => writes_load slot name _
  | unary op right ih =>
      cases op with
      | not => exact (ih draft).bind fun _ _ => .last (on_plain .not _)
      | minus =>
          refine .emit (on_pushNumber 0 (by decide) draft) ?_
          exact (ih _).bind fun _ _ => .last (on_plain .sub _)
  | binary left op right ihLeft ihRight =>
      refine (ihLeft draft).bind fun _ _ => ?_
      exact (ihRight _).bind fun _ _ => writes_operations op.opcodes _

/-! ### Statements -/

namespace Translator

/-- What stands in front of a block that may be skipped, until its end is reached. -/
def waiting : List Item :=
  [.plain .not, .hole, .plain .jumpi]

theorem alike_waiting (destination : ℕ) (note : String) :
    Item.Alike waiting (Item.skip destination note) :=
  Item.waits_hole.alike [.plain .not] [.plain .jumpi] destination note

/-- The block begins behind the test and the jump. -/
theorem position_waiting {α : Type} {draft : Draft} {position : ℕ}
    (here : draft.code.position = position) (test : Emission α) :
    ((draft.write test.items).write waiting).code.position =
      position + test.size + Opcode.not.size + Opcode.push.size + Opcode.jumpi.size := by
  rw [Draft.position_write, Draft.position_write, here]
  rfl

section Blocks

variable {α β : Type} {draft : Draft} {start : ℕ} {block : Translator α} {emission : Emission α}

/-- **An arrival behind a block** fills the hole in front of it. -/
theorem settles_arrival (front back : List Item) {item : Item} {index destination : ℕ}
    {label note : String} (waits : item.Waits)
    (place : index = (draft.write front).code.lines.length)
    (writes : block.Writes (draft.write (front ++ item :: back)) emission)
    (arrived : (draft.write (front ++ item :: back)).code.position + emission.size = destination)
    (named : "to " ++ label = note) :
    Settles draft (front ++ item :: back) (front ++ .forward destination note :: back) (do
        let a ← block
        placeDestination index label
        return a)
      (do
        let a ← emission
        Emission.noted .jumpDst label
        return a) := by
  refine .bind (waits.alike front back destination note) writes fun a _ => ?_
  have behind : front ++ item :: back ++ emission.items =
      front ++ item :: (back ++ emission.items) := by simp
  have arrived' : draft.code.position +
      Item.totalSize (front ++ item :: (back ++ emission.items)) = destination := by
    rw [← behind, Item.totalSize_append, ← Nat.add_assoc, ← Draft.position_write]
    exact arrived
  rw [behind]
  refine .emit (on_placeDestination front waits place arrived' named) (.pure_of_eq ?_ a)
  simp [Item.noted]

/-- **A block that may be skipped.**  The destination of the jump over it is filled in at its
end. -/
theorem writes_skip (begun : (draft.write waiting).code.position = start)
    (writes : block.Writes (draft.write waiting) emission) :
    Writes (do
        plain .not
        let skip ← pushNumber 0 ""
        plain .jumpi
        let a ← block
        placeDestination skip "end if"
        return a) draft
      (do
        Emission.plain .not
        Emission.forward (start + emission.size) "to end if"
        Emission.plain .jumpi
        let a ← emission
        Emission.noted .jumpDst "end if"
        return a) := by
  refine .step (on_plain .not _) (.step (on_pushNumber_hole _) (.step (on_plain .jumpi _) ?_))
  exact settles_arrival [.plain .not] [.plain .jumpi] Item.waits_hole rfl writes
    (congrArg (· + emission.size) begun) rfl

/-- The second of two blocks.  The hole in front of the first one is filled, while the hole behind
it is there still. -/
theorem settles_otherwise {other : Translator β} {others : Emission β} {items : List Item}
    {otherwise : ℕ}
    (between : draft.code.position +
      Item.totalSize (waiting ++ items ++ [.hole] ++ [.plain .jump]) = otherwise)
    (more : ∀ behind, behind.code.position = otherwise + Opcode.jumpDst.size →
      other.Writes behind others) :
    Settles draft
      (Item.skip otherwise "to else" ++ items ++ [.hole] ++ [.plain .jump] ++
        [.noted .jumpDst "else"])
      (Item.skip otherwise "to else" ++ items ++
        [.forward (otherwise + Opcode.jumpDst.size + others.size) "to end if"] ++ [.plain .jump] ++
        [.noted .jumpDst "else"])
      (do
        let b ← other
        placeDestination (draft.write (waiting ++ items)).code.lines.length "end if"
        return b)
      (do
        let b ← others
        Emission.noted .jumpDst "end if"
        return b) := by
  have same := ((alike_waiting otherwise "to else").append (.refl items)).totalSize_eq
  have place : (draft.write (waiting ++ items)).code.lines.length =
      (draft.write (Item.skip otherwise "to else" ++ items)).code.lines.length := by
    simp [waiting, Item.lines, Item.skip, Item.line?, Item.plain, Item.hole]
  generalize Item.skip otherwise "to else" ++ items = front at same place ⊢
  have here : (draft.write
      (front ++ .hole :: [.plain .jump, .noted .jumpDst "else"])).code.position =
        otherwise + Opcode.jumpDst.size := by
    rw [← between, Draft.position_write]
    simp only [Item.totalSize_append, same, Nat.add_assoc]
    rfl
  have joined : ∀ item : Item, front ++ [item] ++ [.plain .jump] ++ [.noted .jumpDst "else"] =
      front ++ item :: [.plain .jump, .noted .jumpDst "else"] := by
    intro item
    simp only [List.append_assoc, List.cons_append, List.nil_append]
  rw [joined, joined]
  exact settles_arrival front _ Item.waits_hole place (more _ here)
    (congrArg (· + others.size) here) rfl

/-- **Two blocks of which one is skipped.**  The hole in front of the first one is filled in between
them, and the hole behind it at the end. -/
theorem writes_choose {other : α → Translator β} {others : α → Emission β}
    (begun : (draft.write waiting).code.position = start)
    (writes : block.Writes (draft.write waiting) emission)
    (more : ∀ a behind, behind.code.position =
        start + emission.size + Opcode.push.size + Opcode.jump.size + Opcode.jumpDst.size →
      (other a).Writes behind (others a)) :
    Writes (do
        plain .not
        let skip ← pushNumber 0 ""
        plain .jumpi
        let a ← block
        let leave ← pushNumber 0 ""
        plain .jump
        placeDestination skip "else"
        let b ← other a
        placeDestination leave "end if"
        return b) draft
      (do
        Emission.plain .not
        Emission.forward (start + emission.size + Opcode.push.size + Opcode.jump.size) "to else"
        Emission.plain .jumpi
        let a ← emission
        Emission.forward (start + emission.size + Opcode.push.size + Opcode.jump.size +
          Opcode.jumpDst.size + (others a).size) "to end if"
        Emission.plain .jump
        Emission.noted .jumpDst "else"
        let b ← others a
        Emission.noted .jumpDst "end if"
        return b) := by
  refine .step (on_plain .not _) (.step (on_pushNumber_hole _) (.step (on_plain .jumpi _) ?_))
  refine .bind (alike_waiting _ _) writes fun a _ => ?_
  refine .step (on_pushNumber_hole _) (.step (on_plain .jump _) ?_)
  have between : draft.code.position +
      Item.totalSize (waiting ++ emission.items ++ [.hole] ++ [.plain .jump]) =
        start + emission.size + Opcode.push.size + Opcode.jump.size := by
    rw [← begun, Draft.position_write]
    simp only [Item.totalSize_append, Nat.add_assoc]
    rfl
  refine .emit (on_placeDestination [.plain .not] Item.waits_hole rfl between rfl) ?_
  -- one hole is left, behind the first block
  exact settles_otherwise between (more a)

end Blocks

end Translator

namespace Statement

mutual

/-- **A statement is translated to what is emitted for it** at the position of the draft. -/
theorem writes_translate : (statement : Statement) → (memory : MemoryMap) → {position : ℕ} →
    {draft : Draft} → (here : draft.code.position = position) →
    (statement.translate memory).Writes draft (statement.emit position memory)
  | declare type name value, memory, position, draft, here => by
      rw [translate, emit]
      refine (value.writes_translate memory _ draft).bind fun _ _ => ?_
      cases memory.isDefined name with
      | false =>
          exact (writes_store memory.next name _).bind fun _ _ => .pure _ [] _
      | true =>
          refine .emit (on_remark (.shadowed name) _) ?_
          exact (writes_store memory.next name _).bind fun _ _ => .pure _ [] _
  | assign name value, memory, position, draft, here => by
      rw [translate, emit]
      refine (value.writes_translate memory _ draft).bind fun _ _ => ?_
      refine (writes_resolve memory _ name _).bind fun slot _ => ?_
      exact (writes_store slot name _).bind fun _ _ => .pure _ [] _
  | .return none, memory, position, draft, here => by
      rw [translate, emit]
      exact .emit (on_noted .exit "return" draft) (.pure _ [] _)
  | .return (some value), memory, position, draft, here => by
      rw [translate, emit]
      refine (value.writes_translate memory _ draft).bind fun _ _ => ?_
      exact .emit (on_plain .returning _) (.pure _ [] _)
  | ifThen condition consequence, memory, position, draft, here => by
      rw [translate, emit]
      refine (condition.writes_translate memory _ draft).bind fun _ _ => ?_
      have begun := position_waiting here (condition.emit memory (.ifThen condition consequence))
      exact writes_skip begun (writes_translateAll consequence memory begun)
  | ifElse condition consequence alternative, memory, position, draft, here => by
      rw [translate, emit]
      refine (condition.writes_translate memory _ draft).bind fun _ _ => ?_
      have begun := position_waiting here
        (condition.emit memory (.ifElse condition consequence alternative))
      exact writes_choose begun (writes_translateAll consequence memory begun)
        fun memory behind here => writes_translateAll alternative memory here
  | expression value, memory, position, draft, here => by
      rw [translate, emit]
      refine (value.writes_translate memory _ draft).bind fun _ _ => ?_
      exact .emit (on_plain .pop _) (.pure _ [] _)

/-- Statements are translated to what is emitted for them. -/
theorem writes_translateAll : (statements : List Statement) → (memory : MemoryMap) →
    {position : ℕ} → {draft : Draft} → (here : draft.code.position = position) →
    (translateAll memory statements).Writes draft (emitAll position memory statements)
  | [], memory, position, draft, here => .pure draft [] memory
  | statement :: rest, memory, position, draft, here => by
      rw [translateAll, emitAll]
      refine (writes_translate statement memory here).bind fun behind _ => ?_
      exact writes_translateAll rest behind (by rw [Draft.position_write, here]; rfl)

end

end Statement

/-! ### Functions -/

/-- Parameters are copied as is emitted for them. -/
theorem Parameter.writes_translateAll (parameters : List Parameter) (index : ℕ)
    (memory : MemoryMap) (draft : Draft) :
    (Parameter.translateAll index memory parameters).Writes draft
      (Parameter.emitAll index memory parameters) := by
  induction parameters generalizing index memory draft with
  | nil => exact .pure draft [] memory
  | cons parameter rest ih =>
      refine .emit (on_pushNumber index (append_ne_empty (by decide) _) draft) ?_
      refine .emit (on_plain .loadArgs _) ?_
      exact (writes_store memory.next parameter.name _).bind fun _ _ => ih _ _ _

/-- **The code of a function is translated to what is emitted for it** at the position of the
draft. -/
theorem FunctionDecl.writes_translateCode (function : FunctionDecl) {position : ℕ} {draft : Draft}
    (here : draft.code.position = position) :
    function.translateCode.Writes draft (function.emit position) := by
  refine .emit (on_noted .jumpDst _ draft) ?_
  refine (Parameter.writes_translateAll function.parameters 0 .empty _).bind fun memory _ => ?_
  have start : ((draft.write [.noted .jumpDst ("func " ++ function.name)]).write
      (Parameter.emitAll 0 .empty function.parameters).items).code.position =
        position + Opcode.jumpDst.size +
          (Parameter.emitAll 0 MemoryMap.empty function.parameters).size := by
    rw [Draft.position_write, Draft.position_write, here]
    rfl
  refine (Statement.writes_translateAll function.body memory start).bind fun last _ => ?_
  exact .emit (on_noted .exit _ _) (.emit (on_remark _ _) (.pure _ [] last))

end Covenant
