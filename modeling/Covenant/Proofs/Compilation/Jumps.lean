/-
**Where emitted jumps lead.**

Destinations are written into the code before it is known what stands there: a jump over a block is
emitted with the position at which the block will end, and the dispatcher with the positions at
which functions will begin.  Each of them is right.  A block answers its own jumps, a function
leaves only its first mark unanswered, and the dispatcher leads to just these marks.

Main definitions:

* `Covenant.Emission.Item.instructions` — the instructions among some items;
* `Covenant.Emission.Item.Routed` — every jump in some items leads ahead to a mark in them, and to
  every mark but some entries leads one jump;
* `Covenant.Compilation.extent?` — where a function begins and ends;
* `Covenant.Compilation.Integrity` — where the jumps of a compiled contract lead.

Main results:

* `Statement.Block.routed` — the jumps of a block lead to its marks;
* `FunctionDecl.Codes.routed`, `Contract.routed` — those of functions lead to marks in the same
  function, and those of the dispatcher to the marks that are left;
* `Compilation.integrity_ofContract` — **in a compiled contract every jump leads ahead to a mark of
  its own, and no path is infinite**.
-/

import Covenant.Proofs.Emission.Layout
import Covenant.Proofs.Machine.ControlFlow

set_option relaxedAutoImplicit false
set_option autoImplicit false

namespace Covenant

open Machine
open Emission (Item)

namespace Emission.Item

/-! ### Instructions among items -/

/-- The instructions among some items. -/
def instructions (items : List Item) : List Instruction :=
  (lines items).map Assembly.Line.instruction

@[simp] theorem instructions_append (items more : List Item) :
    instructions (items ++ more) = instructions items ++ instructions more := by
  simp [instructions]

@[simp] theorem size_instructions (items : List Item) :
    Bytecode.size (instructions items) = totalSize items := by
  rw [← position_lines]
  exact Assembly.size_instructions ⟨lines items⟩

/-! ### Routed items -/

/-- Every jump in some items at a position leads ahead to a mark in them.  The entries are marks
that none of these jumps leads to, and to every other mark leads one. -/
structure Routed (position : ℕ) (items : List Item) (entries : List ℕ)
    (links : List (ℕ × ℕ)) : Prop where
  linked : ∃ marks, Bytecode.Linked position (instructions items) links marks ∧
    marks.Perm (entries ++ links.map Prod.snd)
  forward : ∀ link ∈ links, link.1 < link.2

namespace Routed

variable {position : ℕ} {items more : List Item} {entries others : List ℕ}
variable {links further : List (ℕ × ℕ)}

theorem append (front : Routed position items entries links)
    (back : Routed (position + totalSize items) more others further) :
    Routed position (items ++ more) (entries ++ others) (links ++ further) := by
  obtain ⟨⟨marks, linked, answered⟩, forward⟩ := front
  obtain ⟨⟨last, linked', answered'⟩, forward'⟩ := back
  refine ⟨⟨marks ++ last, ?_, ?_⟩, List.forall_mem_append.2 ⟨forward, forward'⟩⟩
  · rw [instructions_append]
    exact linked.append (by rwa [size_instructions])
  · rw [List.map_append]
    refine (answered.append answered').trans (List.perm_iff_count.2 fun place => ?_)
    simp only [List.count_append]
    omega

/-- The jumps stand among the items. -/
theorem le_of_mem (routed : Routed position items entries links) {link : ℕ × ℕ}
    (mem : link ∈ links) : position ≤ link.1 ∧ link.1 < position + totalSize items := by
  obtain ⟨⟨marks, linked, -⟩, -⟩ := routed
  have bounds := linked.le_of_mem_links link mem
  rwa [size_instructions] at bounds

/-- The entries and what the jumps lead to are among the items. -/
theorem lt_of_mem (routed : Routed position items entries links) {place : ℕ}
    (mem : place ∈ entries ++ links.map Prod.snd) : place < position + totalSize items := by
  obtain ⟨⟨marks, linked, answered⟩, -⟩ := routed
  have bounds := linked.le_of_mem_marks place (answered.mem_iff.2 mem)
  rw [size_instructions] at bounds
  exact bounds.2

theorem destination_lt (routed : Routed position items entries links) {link : ℕ × ℕ}
    (mem : link ∈ links) : link.2 < position + totalSize items :=
  routed.lt_of_mem (List.mem_append_right _ (List.mem_map_of_mem mem))

theorem linked_simple {opcode : Opcode} {code : List Instruction} {marks : List ℕ}
    (simple : opcode.isSimple = true) (tail : Bytecode.Linked
      (position + (Instruction.plain opcode).size) code links marks) :
    Bytecode.Linked position (.plain opcode :: code) links marks := by
  refine .other ?_ ?_ tail
  · cases opcode <;> first | rfl | cases simple
  · rintro ⟨⟩
    cases simple

/-- Items without jumps and marks have none to answer. -/
theorem of_straight (straight : ∀ item ∈ items, item.Straight) : Routed position items [] [] := by
  refine ⟨⟨[], ?_, List.Perm.nil⟩, by simp⟩
  induction items generalizing position with
  | nil => exact .nil
  | cons item rest ih =>
      rw [List.forall_mem_cons] at straight
      have tail := fun position => @ih position straight.2
      rw [instructions, lines]
      cases straight.1 with
      | push word note => exact .other rfl (by rintro ⟨⟩) (tail _)
      | plain simple => exact linked_simple simple (tail _)
      | noted simple note => exact linked_simple simple (tail _)
      | remark r => exact tail position

/-- A jump behind the push of a number that fits a word. -/
theorem linked_jump {destination : ℕ} {opcode : Opcode} {rest : List Instruction}
    {marks : List ℕ} (jumps : opcode.isJump = true) (arity : opcode.arity = 0)
    (fits : destination < 2 ^ 64) (tail : Bytecode.Linked (position + 10) rest links marks) :
    Bytecode.Linked position (.push (.ofNat destination) :: .plain opcode :: rest)
      ((position + 9, destination) :: links) marks := by
  have one : (Instruction.plain opcode).size = 1 := by
    simp [Instruction.size, Instruction.plain, Opcode.size, arity]
  have link : Bytecode.Linked position (.push (.ofNat destination) :: .plain opcode :: rest)
      ((position + 9, (Word.ofNat destination).toNat) :: links) marks :=
    .link jumps (by rwa [one])
  rwa [Word.toNat_ofNat_of_lt fits] at link

/-- A mark at the end. -/
theorem linked_mark (place : ℕ) :
    Bytecode.Linked place [.plain .jumpDst] [] [place] :=
  .mark .nil

/-- The jump over a block leads behind it. -/
theorem ifThen {stop : ℕ} {note mark : String} (inner : Routed (position + 11) items [] links)
    (stop_eq : stop = position + 11 + totalSize items) (fits : stop < 2 ^ 64) :
    Routed position (skip stop note ++ (items ++ [.noted .jumpDst mark])) []
      ((position + 10, stop) :: links) := by
  obtain ⟨⟨marks, linked, answered⟩, forward⟩ := inner
  refine ⟨⟨marks ++ [stop], ?_, ?_⟩, List.forall_mem_cons.2 ⟨by simp only; omega, forward⟩⟩
  · have behind := linked_mark (position + 11 + Bytecode.size (instructions items))
    have code := linked.append behind
    rw [List.append_nil, size_instructions, ← stop_eq] at code
    rw [instructions_append, instructions_append]
    exact .other rfl (by rintro ⟨⟩) (linked_jump rfl rfl fits code)
  · simp only [List.nil_append, List.map_cons] at answered ⊢
    exact (List.perm_append_singleton _ _).trans (answered.cons _)

/-- The jump to the second block leads there, and the jump behind the first leads behind the
second. -/
theorem ifElse {otherwise stop : ℕ} {note mark behind : String}
    (inner : Routed (position + 11) items [] links)
    (otherwise_eq : otherwise = position + 11 + totalSize items + 10)
    (outer : Routed (otherwise + 1) more [] further)
    (stop_eq : stop = otherwise + 1 + totalSize more) (fits : stop < 2 ^ 64) :
    Routed position (skip otherwise note ++ (items ++ (leave stop ++
        (.noted .jumpDst mark :: (more ++ [.noted .jumpDst behind]))))) []
      ((position + 10, otherwise) ::
        (links ++ (position + 11 + totalSize items + 9, stop) :: further)) := by
  obtain ⟨⟨marks, linked, answered⟩, forward⟩ := inner
  obtain ⟨⟨last, linked', answered'⟩, forward'⟩ := outer
  refine ⟨⟨marks ++ otherwise :: (last ++ [stop]), ?_, ?_⟩, ?_⟩
  · have code := linked'.append (linked_mark _)
    rw [List.append_nil, size_instructions, ← stop_eq] at code
    -- behind the first block: the jump over the second, its mark, and the second block
    have back : Bytecode.Linked (position + 11 + totalSize items)
        (.push (.ofNat stop) :: .plain .jump :: .plain .jumpDst ::
          (instructions more ++ [.plain .jumpDst]))
        ((position + 11 + totalSize items + 9, stop) :: further)
        (otherwise :: (last ++ [stop])) :=
      linked_jump rfl rfl fits (by rw [← otherwise_eq]; exact .mark code)
    have tail : instructions (.noted .jumpDst mark :: (more ++ [.noted .jumpDst behind])) =
        .plain .jumpDst :: (instructions more ++ [.plain .jumpDst]) := by
      rw [← List.singleton_append, instructions_append, instructions_append]
      rfl
    rw [instructions_append, instructions_append, instructions_append, tail]
    exact .other rfl (by rintro ⟨⟩) (linked_jump rfl rfl (by omega)
      (linked.append (by rwa [size_instructions])))
  · simp only [List.nil_append, List.map_cons, List.map_append] at answered answered' ⊢
    -- the marks stand in the order of the code and the links in that of the jumps, so count them
    refine List.perm_iff_count.2 fun place => ?_
    have first := List.perm_iff_count.1 answered place
    have second := List.perm_iff_count.1 answered' place
    simp only [List.count_append, List.count_cons, List.count_nil] at first second ⊢
    omega
  · refine List.forall_mem_cons.2 ⟨by simp only; omega, List.forall_mem_append.2 ⟨forward, ?_⟩⟩
    exact List.forall_mem_cons.2 ⟨by simp only; omega, forward'⟩

end Routed

end Emission.Item

/-! ### Expressions and statements -/

/-- The jumps of a block lead to its marks. -/
theorem Statement.Block.routed {position : ℕ} {memory last : MemoryMap}
    {statements : List Statement} {items : List Item}
    (block : Block position memory statements items last)
    (fits : position + Item.totalSize items ≤ 2 ^ 64) :
    ∃ links, Item.Routed position items [] links := by
  induction block with
  | nil => exact ⟨[], .of_straight (by simp)⟩
  | cons _ _ ihHead ihTail =>
      rw [Item.totalSize_append] at fits
      obtain ⟨links, front⟩ := ihHead (by omega)
      obtain ⟨further, back⟩ := ihTail (by omega)
      exact ⟨_, front.append back⟩
  | ifThen test start_eq inner stop_eq ih =>
      subst start_eq stop_eq
      simp only [Item.totalSize_append, Item.totalSize_skip, Item.totalSize_cons,
        Item.size_mark] at fits
      obtain ⟨links, inside⟩ := ih (by omega)
      exact ⟨_, (Item.Routed.of_straight test.straight).append (inside.ifThen rfl (by omega))⟩
  | ifElse test start_eq inner otherwise_eq outer stop_eq ihInner ihOuter =>
      subst start_eq otherwise_eq stop_eq
      simp only [Item.totalSize_append, Item.totalSize_skip, Item.totalSize_cons,
        Item.totalSize_leave, Item.size_mark] at fits
      obtain ⟨links, inside⟩ := ihInner (by omega)
      obtain ⟨further, beside⟩ := ihOuter (by omega)
      exact ⟨_, (Item.Routed.of_straight test.straight).append
        (inside.ifElse rfl beside rfl (by omega))⟩
  | declare value => exact ⟨[], .of_straight (value.straight_declare _)⟩
  | assign value => exact ⟨[], .of_straight (value.straight_assign _ _)⟩
  | returnValue value => exact ⟨[], .of_straight (value.straight_plain rfl)⟩
  | returnNothing => exact ⟨[], .of_straight (by simpa using Item.Straight.noted rfl _)⟩
  | expression value => exact ⟨[], .of_straight (value.straight_plain rfl)⟩

/-! ### Functions -/

/-- The jumps of a function lead to its marks, except for the first one, where it begins. -/
theorem FunctionDecl.Code.routed {position : ℕ} {function : FunctionDecl} {items : List Item}
    {memory : MemoryMap} (code : function.Code position items memory)
    (fits : position + Item.totalSize items ≤ 2 ^ 64) :
    ∃ links, Item.Routed position items [position] links := by
  obtain ⟨parameters, rfl, block⟩ := code
  simp only [Item.totalSize_cons, Item.totalSize_append, Item.size_mark] at fits
  obtain ⟨links, body⟩ := block.routed (by omega)
  have entry : Item.Routed position [.noted .jumpDst ("func " ++ function.name)] [position] [] :=
    ⟨⟨[position], Item.Routed.linked_mark position, List.Perm.refl _⟩, by simp⟩
  have copies : Item.Routed (position + 1) _ [] [] := .of_straight parameters.straight
  have stop : ∀ start slots, Item.Routed start [.noted .exit ("end of " ++ function.name),
      .remark (.compiledFunction function.name slots)] [] [] := by
    intro start slots
    refine .of_straight (List.forall_mem_cons.2 ⟨.noted rfl _, ?_⟩)
    simpa using Item.Straight.remark _
  refine ⟨links, ?_⟩
  simpa using entry.append (copies.append (body.append (stop _ _)))

namespace FunctionDecl.Codes

variable {position : ℕ} {functions : List FunctionDecl} {entries : List ℕ} {items : List Item}
variable {memories : List MemoryMap}

/-- No function begins before the first. -/
theorem le_entry (codes : Codes position functions entries items memories) :
    ∀ entry ∈ entries, position ≤ entry := by
  induction codes with
  | nil => simp
  | cons _ _ ih =>
      refine List.forall_mem_cons.2 ⟨Nat.le_refl _, fun entry mem => ?_⟩
      have behind := ih entry mem
      omega

/-- The first function begins at the position of all of them, and so does what follows if there is
none. -/
theorem getD_entry (codes : Codes position functions entries items memories) :
    entries[0]?.getD (position + Item.totalSize items) = position := by
  cases codes <;> simp

/-- The jumps of functions lead to marks in the same function, and only the first mark of each
function is left. -/
theorem routed (codes : Codes position functions entries items memories)
    (fits : position + Item.totalSize items ≤ 2 ^ 64) :
    ∃ links, Item.Routed position items entries links ∧
      ∀ index start, entries[index]? = some start → ∀ link ∈ links, start ≤ link.1 →
        link.1 < entries[index + 1]?.getD (position + Item.totalSize items) →
        link.2 < entries[index + 1]?.getD (position + Item.totalSize items) := by
  induction codes with
  | nil => exact ⟨[], .of_straight (by simp), by simp⟩
  | @cons position _ _ entries items more _ _ head tail ih =>
      rw [Item.totalSize_append, ← Nat.add_assoc] at fits ⊢
      obtain ⟨links, front⟩ := head.routed (by omega)
      obtain ⟨further, back, kept⟩ := ih fits
      refine ⟨links ++ further, front.append back, fun index start place link mem low high => ?_⟩
      -- a jump of this function stands before the next, and a jump of the rest behind this one
      cases index with
      | zero =>
          rw [List.getElem?_cons_succ, tail.getD_entry] at high ⊢
          rcases List.mem_append.1 mem with mem | mem
          · exact front.destination_lt mem
          · have bounds := back.le_of_mem mem
            omega
      | succ index =>
          rw [List.getElem?_cons_succ] at place high ⊢
          rcases List.mem_append.1 mem with mem | mem
          · have bounds := front.le_of_mem mem
            have behind := tail.le_entry start (List.mem_of_getElem? place)
            omega
          · exact kept index start place link mem low high

end FunctionDecl.Codes

/-! ### The dispatcher -/

/-- The dispatcher has one jump for each function, which leads to its entry, and no marks. -/
theorem Contract.linked_dispatch {position selector : ℕ} {labels : List (String × ℕ)}
    (fits : ∀ entry ∈ labels.map Prod.snd, entry < 2 ^ 64) :
    ∃ links, Bytecode.Linked position (Item.instructions (dispatch selector labels)) links [] ∧
      links.map Prod.snd = labels.map Prod.snd := by
  induction labels generalizing position selector with
  | nil => exact ⟨[], .other rfl (by rintro ⟨⟩) .nil, rfl⟩
  | cons label rest ih =>
      obtain ⟨name, entry⟩ := label
      rw [List.map_cons, List.forall_mem_cons] at fits
      obtain ⟨links, tail, same⟩ := @ih (position + 21) (selector + 1) fits.2
      refine ⟨(position + 20, entry) :: links, ?_, by rw [List.map_cons, List.map_cons, same]⟩
      have jump : Bytecode.Linked (position + 11) (.push (.ofNat entry) :: .plain .jumpi ::
          Item.instructions (dispatch (selector + 1) rest)) ((position + 20, entry) :: links) [] :=
        Item.Routed.linked_jump rfl rfl fits.1 tail
      exact .other rfl (by rintro ⟨⟩) (.other rfl (by rintro ⟨⟩) (.other rfl (by rintro ⟨⟩) jump))

theorem Contract.labels_snd (contract : Contract) : contract.labels.map Prod.snd =
    FunctionDecl.entries contract.bodyPosition contract.functions := by
  rw [labels, List.map_snd_zip]
  rw [List.length_map, length_entries]

/-- The jumps of the dispatcher lead to all marks that the functions leave. -/
theorem Contract.routed {contract : Contract} {entries : List ℕ} {items : List Item}
    {links : List (ℕ × ℕ)} (routed : Item.Routed contract.bodyPosition items entries links)
    (entries_eq : entries = contract.labels.map Prod.snd)
    (low : ∀ entry ∈ entries, contract.bodyPosition ≤ entry)
    (fits : contract.bodyPosition + Item.totalSize items ≤ 2 ^ 64) :
    ∃ calls, Item.Routed 0 (dispatch 0 contract.labels ++ items) [] (calls ++ links) ∧
      ∀ call ∈ calls, call.1 < contract.bodyPosition ∧ call.2 ∈ entries := by
  have bound : ∀ entry ∈ entries, entry < 2 ^ 64 := by
    intro entry mem
    have inside := routed.lt_of_mem (List.mem_append_left _ mem)
    omega
  obtain ⟨calls, dispatcher, same⟩ :=
    @linked_dispatch 0 0 contract.labels (by rwa [← entries_eq])
  have size : Bytecode.size (Item.instructions (dispatch 0 contract.labels)) =
      contract.bodyPosition := by
    rw [Item.size_instructions, totalSize_dispatch_labels]
  have called : ∀ call ∈ calls, call.1 < contract.bodyPosition ∧ call.2 ∈ entries := by
    intro call mem
    have bounds := dispatcher.le_of_mem_links call mem
    rw [size] at bounds
    refine ⟨by omega, ?_⟩
    rw [entries_eq, ← same]
    exact List.mem_map_of_mem mem
  obtain ⟨⟨marks, linked, answered⟩, forward⟩ := routed
  refine ⟨calls, ⟨⟨marks, ?_, ?_⟩, List.forall_mem_append.2 ⟨?_, forward⟩⟩, called⟩
  · rw [Item.instructions_append]
    exact dispatcher.append (by rwa [size, Nat.zero_add])
  · rwa [List.nil_append, List.map_append, same, ← entries_eq]
  · intro call mem
    have behind := low _ (called call mem).2
    exact Nat.lt_of_lt_of_le (called call mem).1 behind

/-! ### Contracts -/

namespace Compilation

/-- The bytes where functions begin, in the order of declaration. -/
def entries (compilation : Compilation) : List ℕ :=
  compilation.labels.map Prod.snd

/-- Where a function begins and where its code ends: where the next one begins, or with the code. -/
def extent? (compilation : Compilation) (index : ℕ) : Option (ℕ × ℕ) :=
  compilation.entries[index]?.map fun start =>
    (start, compilation.entries[index + 1]?.getD compilation.code.position)

/-- Where the jumps of a compiled contract lead.  That the code is resolved says that each of them
stands behind the push of its destination, that this lies ahead, and that jumps and marks correspond
one to one. -/
structure Integrity (contract : Contract) (compilation : Compilation)
    (instructions : List Instruction) (destination : ℕ → ℕ) : Prop
    extends Bytecode.Resolved instructions destination where
  /-- No destination was left open. -/
  filled : ∀ position ∈ Bytecode.jumps instructions, destination position ≠ 0
  /-- A jump of the dispatcher leads to the entry of a function. -/
  dispatched : ∀ position ∈ Bytecode.jumps instructions, position < contract.bodyPosition →
    destination position ∈ compilation.entries
  /-- A jump of a function stays in the function. -/
  contained : ∀ index start stop, compilation.extent? index = some (start, stop) →
    ∀ position ∈ Bytecode.jumps instructions, start ≤ position → position < stop →
      destination position < stop

/-- **In a compiled contract every jump leads ahead to a mark of its own**, which is an entry if the
dispatcher jumps and in the same function if a function does; **and no path is infinite**. -/
theorem integrity_ofContract {contract : Contract} {compilation : Compilation}
    (compiled : ofContract contract = .ok compilation) (fits : compilation.code.Addressable) :
    ∃ instructions destination, Bytecode.decode compilation.code.bytes = .ok instructions ∧
      Integrity contract compilation instructions destination ∧
      ∀ (world : World) (length : ℕ) (states : ℕ → State),
        Bytecode.Entrance instructions (states 0).position →
        (∀ index < length,
          Free world compilation.code.bytes (states index) (states (index + 1))) →
        length ≤ compilation.code.position := by
  have sound := wellFormed_ofContract compiled
  obtain ⟨functions, memories, bytes, codes, lines, labels⟩ := lines_ofContract compiled
  have code : compilation.code.instructions =
      Item.instructions (Contract.dispatch 0 contract.labels ++ functions) := by
    rw [Assembly.instructions, lines, ← List.append_assoc, Item.lines_append]
    exact congrArg _ (List.append_nil _)
  have size : contract.bodyPosition + Item.totalSize functions = compilation.code.position := by
    rw [← Assembly.size_instructions, code, Item.size_instructions, Item.totalSize_append,
      Contract.totalSize_dispatch_labels]
  have entries_eq : compilation.entries =
      FunctionDecl.entries contract.bodyPosition contract.functions := by
    rw [entries, labels, Contract.labels_snd]
  rw [← entries_eq] at codes
  obtain ⟨links, routed, kept⟩ := codes.routed (by rwa [size])
  obtain ⟨calls, ⟨⟨marks, linked, answered⟩, forward⟩, called⟩ :=
    Contract.routed routed (by rw [entries, labels]) codes.le_entry (by rwa [size])
  obtain ⟨destination, resolved, agrees⟩ := linked.resolved answered forward
  rw [← code] at linked resolved
  refine ⟨_, destination, Assembly.decode_bytes sound, ⟨resolved, ?_, ?_, ?_⟩, ?_⟩
  · intro position mem
    have ahead := resolved.forward position mem
    omega
  · intro position mem low
    obtain ⟨target, mem⟩ := linked.exists_link mem
    rw [agrees _ mem]
    rcases List.mem_append.1 mem with mem | mem
    · exact (called _ mem).2
    · have bounds := routed.le_of_mem mem
      omega
  · intro index start stop extent position mem low high
    obtain ⟨entry, place, same⟩ := Option.map_eq_some_iff.1 extent
    cases same
    obtain ⟨target, mem⟩ := linked.exists_link mem
    rw [agrees _ mem]
    rcases List.mem_append.1 mem with mem | mem
    · have behind := codes.le_entry start (List.mem_of_getElem? place)
      have before := (called _ mem).1
      omega
    · rw [← size] at high ⊢
      exact kept index start place _ mem low high
  · intro world length states entrance moves
    exact Assembly.length_le sound resolved entrance moves

/-- The functions `func pick(c bool) int { if c { return 1 } else { return 2 } }` and
`func stop() { return }`. -/
def picking : Contract where
  functions :=
    [{ name := "pick"
       parameters := [⟨"c", .bool⟩]
       returns := some .int
       body := [.ifElse (.identifier "c") [.return (some (.integer 1))]
         [.return (some (.integer 2))]] },
      { name := "stop", parameters := [], returns := none, body := [.return none] }]

/-- The jumps of `pick` stay in its code, which ends where `stop` begins. -/
theorem integrity_picking : ∃ compilation instructions destination,
    ofContract picking = .ok compilation ∧ compilation.code.Addressable ∧
      Bytecode.decode compilation.code.bytes = .ok instructions ∧
      Integrity picking compilation instructions destination ∧
      compilation.extent? 0 = some (43, 136) ∧
      ∀ position ∈ Bytecode.jumps instructions, 43 ≤ position → position < 136 →
        destination position < 136 := by
  obtain ⟨compilation, compiled, fits, extent⟩ : ∃ compilation,
      ofContract picking = .ok compilation ∧ compilation.code.position ≤ 2 ^ 64 ∧
        compilation.extent? 0 = some (43, 136) :=
    ⟨_, rfl, by decide, by decide⟩
  obtain ⟨instructions, destination, decoded, integrity, -⟩ := integrity_ofContract compiled fits
  exact ⟨compilation, instructions, destination, compiled, fits, decoded, integrity, extent,
    integrity.contained 0 43 136 extent⟩

end Compilation

end Covenant
