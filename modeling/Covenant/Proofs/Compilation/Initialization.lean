/-
**When only written memory is read.**

A function reads only memory that it has written, on every path through its code, exactly if its
text reads assured names only.

In one direction, the slots of assured names were written on every path that comes to a place, so no
path reads anything else.  In the other, a name that is not assured has a path to the place on which
its slot was not written, and the load at the end of that path finds memory as the caller left it.

Main definitions:

* `Covenant.Flow.Keeps` — the slots of assured names were written;
* `Covenant.Machine.Arrives` — a path that comes to a place;
* `Covenant.Flow.Realized` — every name that is not assured has a path on which its slot was not
  written.

Main results:

* `Statement.Block.safe` — statements that read assured names only are safe;
* `Statement.Block.realized`, `Statement.Block.unguarded` — every flow is realized by paths, and
  where another name is read, one of them is not guarded;
* `Compilation.loadsStored_iff_readsAssured` — **a compiled function reads only what it has written
  exactly if it reads assured names only**.
-/

import Covenant.Proofs.Contract.Flow
import Covenant.Proofs.Emission.Execution
import Covenant.Proofs.Machine.Storage

set_option relaxedAutoImplicit false
set_option autoImplicit false

namespace Covenant

open Machine
open Emission (Item)

variable {world : World} {code : Assembly} {position : ℕ} {items : List Item}
variable {stack : List Word} {slots : ℕ → Word} {stored : List Word}
variable {memory last : MemoryMap} {flow other : Flow}

/-! ### Traces of loads -/

theorem Machine.record_loads (memory : MemoryMap) (stored : List Word) (names : List String) :
    record stored (memory.loads names) = stored := by
  induction names with
  | nil => rfl
  | cons name rest ih =>
      rw [MemoryMap.loads, List.filterMap_cons]
      cases memory.slot? name with
      | none => exact ih
      | some slot => exact ih

/-- Loads are guarded exactly if the slots of the names were written. -/
theorem Machine.guarded_loads_iff {names : List String} : Guarded stored (memory.loads names) ↔
    ∀ name ∈ names, ∀ slot, memory.slot? name = some slot → Word.ofNat slot.offset ∈ stored := by
  induction names with
  | nil => simp [MemoryMap.loads, Guarded]
  | cons name rest ih =>
      rw [MemoryMap.loads] at ih ⊢
      rw [List.filterMap_cons, List.forall_mem_cons]
      cases memory.slot? name with
      | none => simpa using ih
      | some slot => simpa [Guarded, Slot.load] using and_congr_right fun _ => ih

/-- The names that an expression reads have slots. -/
theorem Expression.Code.exists_slot {value : Expression} (code_of : Code memory value items) :
    ∀ name ∈ value.names, ∃ slot, memory.slot? name = some slot := by
  induction code_of with
  | literal shape => simp [names_of_literal? shape]
  | identifier found => simpa [names] using ⟨_, found⟩
  | not _ ih => exact ih
  | minus _ ih => exact ih
  | binary _ _ ihLeft ihRight => exact List.forall_mem_append.2 ⟨ihLeft, ihRight⟩

/-! ### Assured names were written -/

namespace Flow

/-- Some path comes here, and the slots of assured names were written. -/
def Keeps (memory : MemoryMap) (stored : List Word) : Flow → Prop
  | unreached => False
  | reached assured => ∀ name ∈ assured, ∀ slot, memory.slot? name = some slot →
    Word.ofNat slot.offset ∈ stored

/-- Reading assured names is guarded. -/
theorem Keeps.guarded {names : List String} (keeps : flow.Keeps memory stored)
    (assures : flow.assures names) : Guarded stored (memory.loads names) := by
  cases flow with
  | unreached => cases keeps
  | reached assured =>
      refine guarded_loads_iff.2 fun name mem => keeps name ?_
      simpa using List.all_eq_true.1 assures name mem

theorem Keeps.assure_define (keeps : flow.Keeps memory stored) (name : String) :
    (flow.assure name).Keeps (memory.define name) (.ofNat memory.cursor :: stored) := by
  cases flow with
  | unreached => exact keeps
  | reached assured =>
      intro other mem slot found
      by_cases same : other = name
      · rw [same, MemoryMap.slot?_define_self] at found
        cases found
        exact .head _
      · rw [MemoryMap.slot?_define_of_ne _ same] at found
        exact .tail _ (keeps other ((List.mem_cons.1 mem).resolve_left same) slot found)

theorem Keeps.assure {name : String} {slot : Slot} (keeps : flow.Keeps memory stored)
    (found : memory.slot? name = some slot) :
    (flow.assure name).Keeps memory (.ofNat slot.offset :: stored) := by
  cases flow with
  | unreached => exact keeps
  | reached assured =>
      intro other mem place here
      rcases List.mem_cons.1 mem with rfl | mem
      · rw [found] at here
        cases here
        exact .head _
      · exact .tail _ (keeps other mem place here)

theorem Keeps.forget {names : List String} (keeps : flow.Keeps memory stored)
    (same : ∀ name ∉ names, last.slot? name = memory.slot? name) :
    (flow.forget names).Keeps last stored := by
  cases flow with
  | unreached => exact keeps
  | reached assured =>
      intro name mem slot found
      obtain ⟨mem, kept⟩ := List.mem_filter.1 mem
      rw [same name (by simpa using kept)] at found
      exact keeps name mem slot found

theorem Keeps.merge_left (keeps : flow.Keeps memory stored) :
    (flow.merge other).Keeps memory stored := by
  cases flow with
  | unreached => cases keeps
  | reached assured =>
      cases other with
      | unreached => exact keeps
      | reached others => exact fun name mem => keeps name (List.mem_filter.1 mem).1

theorem Keeps.merge_right (keeps : other.Keeps memory stored) :
    (flow.merge other).Keeps memory stored := by
  cases flow with
  | unreached => exact keeps
  | reached assured =>
      cases other with
      | unreached => cases keeps
      | reached others =>
          exact fun name mem => keeps name (by simpa using (List.mem_filter.1 mem).2)

end Flow

/-- Reading assured names and nothing else before a safe state. -/
theorem Machine.safe_of_reading {names : List String} {state next : State}
    (path : Path (Forced world code.bytes) code.bytes state (memory.loads names) next)
    (keeps : flow.Keeps memory stored) (assures : flow.assures names)
    (safe : Safe world code.bytes stored next) : Safe world code.bytes stored state := by
  refine safe_of_forced path (keeps.guarded assures) ?_
  rwa [record_loads]

/-- Reading assured names and writing a slot before a safe state. -/
theorem Machine.safe_of_writing {names : List String} {slot : Slot} {state next : State}
    (path : Path (Forced world code.bytes) code.bytes state
      (memory.loads names ++ [slot.store]) next)
    (keeps : flow.Keeps memory stored) (assures : flow.assures names)
    (safe : Safe world code.bytes (.ofNat slot.offset :: stored) next) :
    Safe world code.bytes stored state := by
  refine safe_of_forced path (guarded_append.2 ⟨keeps.guarded assures, trivial⟩) ?_
  rwa [record_append, record_loads]

/-- A condition over assured names is safe if both ways behind it are. -/
theorem Expression.Code.safe_of_test {value : Expression} {destination : ℕ} {note mark : String}
    {more rest : List Item} (test : Code memory value items)
    (holds : code.Holds position (items ++ (Item.skip destination note ++ more)))
    (target : code.Holds destination (.noted .jumpDst mark :: rest)) (sound : code.Sound)
    (memory_sound : memory.Sound) (bound : memory.cursor ≤ 2 ^ 64)
    (keeps : flow.Keeps memory stored) (assures : flow.assures value.names)
    (entered : Safe world code.bytes stored ⟨position + Item.totalSize items + 11, stack, slots⟩)
    (skipped : Safe world code.bytes stored ⟨destination, stack, slots⟩) :
    Safe world code.bytes stored ⟨position, stack, slots⟩ := by
  obtain ⟨word, jump, -, path, quiet, decide⟩ :=
    test.path_test holds target sound memory_sound bound stack
  refine safe_of_reading path keeps assures (safe_of_step (by rw [quiet]; trivial) ?_)
  rintro next ⟨taken, moved⟩
  rw [decide taken] at moved
  rw [quiet]
  cases moved
  cases taken (world.negate word) with
  | true => exact skipped
  | false => exact entered

/-- A mark before a safe state. -/
theorem Machine.safe_of_mark {note : String}
    (holds : code.Holds position (.noted .jumpDst note :: items)) (sound : code.Sound)
    (safe : Safe world code.bytes stored ⟨position + 1, stack, slots⟩) :
    Safe world code.bytes stored ⟨position, stack, slots⟩ :=
  safe_of_forced (path_mark holds sound) trivial safe

namespace Statement.Block

variable {statements : List Statement}

/-- Statements that read assured names only are safe, if all that follows is. -/
theorem safe (block : Block position memory statements items last)
    (holds : code.Holds position items) (sound : code.Sound) (memory_sound : memory.Sound)
    (bound : memory.cursor ≤ position) (admits : flow.admitsAll statements)
    (keeps : flow.Keeps memory stored) (slots : ℕ → Word)
    (rest : ∀ stored slots, (flow.afterAll statements).Keeps last stored →
      Safe world code.bytes stored ⟨position + Item.totalSize items, stack, slots⟩) :
    Safe world code.bytes stored ⟨position, stack, slots⟩ := by
  have fits : code.position ≤ 2 ^ 64 := sound.addressable
  have room := holds.stop_le
  induction block generalizing flow stored slots with
  | nil => exact rest stored slots keeps
  | cons head tail ihHead ihTail =>
      rw [Flow.admitsAll, Bool.and_eq_true] at admits
      have grown := head.cursor_stop
      refine ihHead holds.left memory_sound bound (by simpa using admits.1) keeps slots
        (fun stored slots keeps => ?_) holds.left.stop_le
      refine ihTail holds.right (head.sound memory_sound) (by omega) admits.2 keeps slots
        (fun stored slots keeps => ?_) holds.right.stop_le
      rw [Nat.add_assoc, ← Item.totalSize_append]
      exact rest stored slots keeps
  | declare value =>
      obtain ⟨word, -, path⟩ := value.path_declare holds sound memory_sound bound stack
      rw [Flow.admitsAll_singleton, Flow.admits] at admits
      exact safe_of_writing path keeps admits (rest _ _ (keeps.assure_define _))
  | assign value found =>
      obtain ⟨word, -, path⟩ := value.path_assign found holds sound memory_sound (by omega) stack
      rw [Flow.admitsAll_singleton, Flow.admits] at admits
      exact safe_of_writing path keeps admits (rest _ _ (keeps.assure found))
  | returnValue value =>
      obtain ⟨word, -, path⟩ := value.path holds.left sound memory_sound (by omega) stack
      rw [Flow.admitsAll_singleton, Flow.admits] at admits
      exact safe_of_reading path keeps admits
        (safe_of_stopped fun _ => step_plain holds.right rfl sound _)
  | returnNothing => exact safe_of_stopped fun _ => step_plain holds rfl sound _
  | expression value =>
      obtain ⟨word, -, path⟩ := value.path_drop holds sound memory_sound (by omega) stack
      rw [Flow.admitsAll_singleton, Flow.admits] at admits
      exact safe_of_reading path keeps admits (rest _ _ keeps)
  | ifThen test start_eq inner stop_eq ih =>
      subst start_eq stop_eq
      obtain ⟨entry, mark⟩ := holds.ifThen
      simp only [Item.totalSize_append, Item.totalSize_skip, ← Nat.add_assoc] at rest
      rw [Flow.admitsAll_singleton, Flow.admits, Bool.and_eq_true] at admits
      have behind := fun stored slots keeps => safe_of_mark mark sound (rest stored slots keeps)
      refine test.safe_of_test holds mark sound memory_sound (by omega) keeps admits.1 ?_ ?_
      · exact ih entry memory_sound (by omega) admits.2 keeps slots
          (fun stored slots keeps => behind stored slots keeps.merge_left) entry.stop_le
      · exact behind stored slots (keeps.forget fun name => inner.slot?_eq).merge_right
  | ifElse test start_eq inner otherwise_eq outer stop_eq ihInner ihOuter =>
      subst start_eq otherwise_eq stop_eq
      obtain ⟨entry, leave, mark, other, last⟩ := holds.ifElse
      simp only [Item.totalSize_append, Item.totalSize_cons, Item.totalSize_skip,
        Item.totalSize_leave, ← Nat.add_assoc] at rest
      rw [Flow.admitsAll_singleton, Flow.admits, Bool.and_eq_true, Bool.and_eq_true] at admits
      have behind := fun stored slots keeps => safe_of_mark last sound (rest stored slots keeps)
      refine test.safe_of_test holds mark sound memory_sound (by omega) keeps admits.1 ?_ ?_
      · refine ihInner entry memory_sound (by omega) admits.2.1 keeps slots
          (fun stored slots keeps => ?_) entry.stop_le
        exact safe_of_forced (path_leave leave last sound) trivial
          (behind stored slots (keeps.forget fun name => outer.slot?_eq).merge_left)
      · have grown := inner.cursor_stop
        refine safe_of_mark mark sound ?_
        exact ihOuter other (inner.sound memory_sound) (by omega) admits.2.2
          (keeps.forget fun name => inner.slot?_eq) slots
          (fun stored slots keeps => behind stored slots keeps.merge_right) other.stop_le

end Statement.Block

/-! ### Flows are realized by paths -/

/-- Some path from the start comes to a place, has written these offsets, and no other than below
the limit. -/
structure Machine.Arrives (world : World) (code : Assembly) (start : State) (stack : List Word)
    (position limit : ℕ) (stored : List Word) : Prop where
  path : ∃ trace slots, Path (Free world code.bytes) code.bytes start trace
    ⟨position, stack, slots⟩ ∧ record [] trace = stored
  below : ∀ offset ∈ stored, offset.toNat < limit

variable {start : State} {limit target : ℕ}

/-- A path that writes nothing goes on. -/
theorem Machine.Arrives.move {bound : ℕ}
    (arrives : Arrives world code start stack position limit stored)
    (memory : MemoryMap) (names : List String)
    (move : ∀ slots, Path (Free world code.bytes) code.bytes ⟨position, stack, slots⟩
      (memory.loads names) ⟨target, stack, slots⟩) (le : limit ≤ bound) :
    Arrives world code start stack target bound stored := by
  obtain ⟨⟨trace, slots, path, recorded⟩, below⟩ := arrives
  refine ⟨⟨_, slots, path.trans (move slots), ?_⟩, fun offset mem =>
    Nat.lt_of_lt_of_le (below offset mem) le⟩
  rw [record_append, record_loads, recorded]

/-- A path that writes a slot goes on. -/
theorem Machine.Arrives.write {slot : Slot} {bound : ℕ}
    (arrives : Arrives world code start stack position limit stored)
    (memory : MemoryMap) (names : List String)
    (move : ∀ slots, ∃ final, Path (Free world code.bytes) code.bytes ⟨position, stack, slots⟩
      (memory.loads names ++ [slot.store]) ⟨target, stack, final⟩)
    (fits : slot.offset < 2 ^ 64) (lt : slot.offset < bound) (le : limit ≤ bound) :
    Arrives world code start stack target bound (.ofNat slot.offset :: stored) := by
  obtain ⟨⟨trace, slots, path, recorded⟩, below⟩ := arrives
  obtain ⟨final, on⟩ := move slots
  refine ⟨⟨_, final, path.trans on, ?_⟩, fun offset mem => ?_⟩
  · rw [record_append, record_append, record_loads, recorded]
    rfl
  · rcases List.mem_cons.1 mem with rfl | mem
    · rwa [Word.toNat_ofNat_of_lt fits]
    · exact Nat.lt_of_lt_of_le (below offset mem) le

namespace Flow

/-- If some path comes here, so does one on which the slot of a name that is not assured was not
written. -/
def Realized (memory : MemoryMap) (arrives : List Word → Prop) : Flow → Prop
  | unreached => True
  | reached assured => (∃ stored, arrives stored) ∧ ∀ name ∉ assured, ∀ slot,
    memory.slot? name = some slot → ∃ stored, arrives stored ∧ Word.ofNat slot.offset ∉ stored

namespace Realized

variable {arrives next : List Word → Prop}

theorem mono (realized : flow.Realized memory arrives)
    (move : ∀ stored, arrives stored → next stored) : flow.Realized memory next := by
  cases flow with
  | unreached => trivial
  | reached assured =>
      obtain ⟨⟨stored, here⟩, missing⟩ := realized
      refine ⟨⟨stored, move stored here⟩, fun name other slot found => ?_⟩
      obtain ⟨stored, here, unwritten⟩ := missing name other slot found
      exact ⟨stored, move stored here, unwritten⟩

theorem merge (realized : flow.Realized memory arrives) (others : other.Realized memory arrives) :
    (flow.merge other).Realized memory arrives := by
  cases flow with
  | unreached => exact others
  | reached assured =>
      cases other with
      | unreached => exact realized
      | reached names =>
          refine ⟨realized.1, fun name missing slot found => ?_⟩
          by_cases here : name ∈ assured
          · have there : name ∉ names := fun mem =>
              missing (List.mem_filter.2 ⟨here, by simpa using mem⟩)
            exact others.2 name there slot found
          · exact realized.2 name here slot found

/-- Paths that write nothing go on. -/
theorem move {bound : ℕ}
    (realized : flow.Realized last (Arrives world code start stack position limit))
    (memory : MemoryMap) (names : List String)
    (move : ∀ slots, Path (Free world code.bytes) code.bytes ⟨position, stack, slots⟩
      (memory.loads names) ⟨target, stack, slots⟩) (le : limit ≤ bound) :
    flow.Realized last (Arrives world code start stack target bound) :=
  realized.mono fun _ arrives => arrives.move memory names move le

/-- Writing the slot of one name leaves that of every other name unwritten. -/
theorem assure {name : String} (slot : Slot) (realized : flow.Realized memory arrives)
    (move : ∀ stored, arrives stored → next (.ofNat slot.offset :: stored))
    (apart : ∀ other ≠ name, ∀ place, last.slot? other = some place →
      memory.slot? other = some place ∧ Word.ofNat place.offset ≠ Word.ofNat slot.offset) :
    (flow.assure name).Realized last next := by
  cases flow with
  | unreached => trivial
  | reached assured =>
      obtain ⟨⟨stored, here⟩, missing⟩ := realized
      refine ⟨⟨_, move stored here⟩, fun other absent place found => ?_⟩
      rw [List.mem_cons, not_or] at absent
      obtain ⟨found, distinct⟩ := apart other absent.1 place found
      obtain ⟨stored, here, unwritten⟩ := missing other absent.2 place found
      refine ⟨_, move stored here, ?_⟩
      rw [List.mem_cons, not_or]
      exact ⟨distinct, unwritten⟩

end Realized

end Flow

/-- Behind a condition a path may go either way. -/
theorem Expression.Code.path_either {value : Expression} {destination : ℕ} {note mark : String}
    {more rest : List Item} (test : Code memory value items)
    (holds : code.Holds position (items ++ (Item.skip destination note ++ more)))
    (target : code.Holds destination (.noted .jumpDst mark :: rest)) (sound : code.Sound)
    (memory_sound : memory.Sound) (bound : memory.cursor ≤ 2 ^ 64) (world : World)
    (enter : Bool) (stack : List Word) (slots : ℕ → Word) :
    Path (Free world code.bytes) code.bytes ⟨position, stack, slots⟩ (memory.loads value.names)
      ⟨if enter then position + Item.totalSize items + 11 else destination, stack, slots⟩ := by
  obtain ⟨word, jump, -, path, quiet, decide⟩ :=
    test.path_test holds target sound memory_sound bound stack
  have move : Free world code.bytes jump
      ⟨if enter then position + Item.totalSize items + 11 else destination, stack, slots⟩ := by
    refine ⟨fun _ => !enter, ?_⟩
    rw [decide]
    cases enter <;> rfl
  have last := path.free.trans (@Path.single _ code.bytes _ _ move)
  rwa [quiet, List.append_nil] at last

namespace Statement.Block

variable {statements : List Statement}

/-- Where a block is skipped, the names that it declares stand for slots that were never written. -/
theorem realized_forget {arrives : List Word → Prop}
    (block : Block position memory statements items last) (memory_sound : memory.Sound)
    (fits : last.cursor ≤ 2 ^ 64) (real : flow.Realized memory arrives)
    (below : ∀ stored, arrives stored → ∀ offset ∈ stored, offset.toNat < memory.cursor) :
    (flow.forget (declaredAll statements)).Realized last arrives := by
  cases flow with
  | unreached => trivial
  | reached assured =>
      obtain ⟨⟨stored, here⟩, missing⟩ := real
      refine ⟨⟨stored, here⟩, fun name absent slot found => ?_⟩
      by_cases declared : name ∈ declaredAll statements
      · -- the slot lies behind the cursor, and the path that skips the block wrote below it only
        refine ⟨stored, here, fun mem => ?_⟩
        have late := block.cursor_le_offset declared found
        have early := below stored here _ mem
        have place := (block.sound memory_sound).offset_lt found
        rw [Word.toNat_ofNat_of_lt (by omega)] at early
        omega
      · rw [block.slot?_eq declared] at found
        refine missing name (fun mem => absent ?_) slot found
        exact List.mem_filter.2 ⟨mem, by simpa using declared⟩

/-- Every flow through a block is realized by paths. -/
theorem realized (block : Block position memory statements items last)
    (holds : code.Holds position items) (sound : code.Sound) (memory_sound : memory.Sound)
    (bound : memory.cursor ≤ position)
    (real : flow.Realized memory (Arrives world code start stack position memory.cursor)) :
    (flow.afterAll statements).Realized last
      (Arrives world code start stack (position + Item.totalSize items) last.cursor) := by
  have fits : code.position ≤ 2 ^ 64 := sound.addressable
  have room := holds.stop_le
  induction block generalizing flow with
  | nil => exact real
  | cons head tail ihHead ihTail =>
      have grown := head.cursor_stop
      have front := ihHead holds.left memory_sound bound real holds.left.stop_le
      have back := ihTail holds.right (head.sound memory_sound) (by omega) front
        holds.right.stop_le
      rwa [Nat.add_assoc, ← Item.totalSize_append] at back
  | @declare _ memory _ name term _ value =>
      simp only [Item.totalSize_append, Slot.totalSize_access] at room
      have fresh : memory.next.offset < 2 ^ 64 := Nat.lt_of_le_of_lt bound (by omega)
      have grown : memory.cursor < (memory.define name).cursor :=
        Nat.lt_add_of_pos_right (by decide)
      refine real.assure memory.next (fun stored arrives => ?_) fun other distinct place found => ?_
      · refine arrives.write memory term.names (fun slots => ?_) fresh grown (Nat.le_of_lt grown)
        obtain ⟨word, -, path⟩ := value.path_declare holds sound memory_sound bound stack
        exact ⟨_, path.free⟩
      · -- the new slot lies behind those of all other names
        rw [MemoryMap.slot?_define_of_ne _ distinct] at found
        have early := memory_sound.offset_lt found
        exact ⟨found, Word.ofNat_ne (Nat.lt_trans early fresh) fresh (Nat.ne_of_lt early)⟩
  | @assign _ memory name term slot _ value found =>
      have early := memory_sound.offset_lt found
      refine real.assure slot (fun stored arrives => ?_) fun other distinct place there => ?_
      · refine arrives.write memory term.names (fun slots => ?_) (by omega) early (Nat.le_refl _)
        obtain ⟨word, -, path⟩ := value.path_assign found holds sound memory_sound (by omega) stack
        exact ⟨_, path.free⟩
      · have near := memory_sound.offset_lt there
        exact ⟨there, Word.ofNat_ne (by omega) (by omega) fun same =>
          distinct (memory_sound.apart there found same)⟩
  | returnValue value => trivial
  | returnNothing => trivial
  | @expression _ memory term _ value =>
      refine real.move memory term.names (fun slots => ?_) (Nat.le_refl _)
      obtain ⟨word, -, path⟩ := value.path_drop holds sound memory_sound (by omega) stack
      exact path.free
  | @ifThen _ _ _ memory _ condition consequence _ _ test start_eq inner stop_eq ih =>
      subst start_eq stop_eq
      obtain ⟨entry, mark⟩ := holds.ifThen
      simp only [Item.totalSize_append, Item.totalSize_skip, ← Nat.add_assoc]
      have grown := inner.cursor_le
      have size := inner.cursor_stop
      have inside := entry.stop_le
      have either := test.path_either holds mark sound memory_sound (by omega) world
      refine Flow.Realized.merge ?_ ?_
      · have entered := real.move memory condition.names (either true stack) (Nat.le_refl _)
        have through := ih entry memory_sound (by omega) entered entry.stop_le
        exact through.move memory [] (fun slots => (path_mark mark sound).free) (Nat.le_refl _)
      · have forgotten := inner.realized_forget memory_sound (by omega) real
          fun stored arrives => arrives.below
        have skipped := forgotten.move memory condition.names (either false stack) grown
        exact skipped.move memory [] (fun slots => (path_mark mark sound).free) (Nat.le_refl _)
  | @ifElse _ _ _ _ memory middle _ condition consequence alternative _ _ _ test start_eq inner
      otherwise_eq outer stop_eq ihInner ihOuter =>
      subst start_eq otherwise_eq stop_eq
      obtain ⟨entry, leave, mark, other, last⟩ := holds.ifElse
      simp only [Item.totalSize_append, Item.totalSize_cons, Item.totalSize_skip,
        Item.totalSize_leave, ← Nat.add_assoc]
      have middle_sound := inner.sound memory_sound
      have grown := inner.cursor_le
      have size := inner.cursor_stop
      have more := outer.cursor_le
      have rest := outer.cursor_stop
      have inside := other.stop_le
      have either := test.path_either holds mark sound memory_sound (by omega) world
      refine Flow.Realized.merge ?_ ?_
      · have entered := real.move memory condition.names (either true stack) (Nat.le_refl _)
        have through := ihInner entry memory_sound (by omega) entered entry.stop_le
        -- the second block, which this way jumps over, hides slots that this way has written
        have forgotten := outer.realized_forget middle_sound (by omega) through
          fun stored arrives => arrives.below
        have left := forgotten.move memory [] (fun slots => (path_leave leave last sound).free) more
        exact left.move memory [] (fun slots => (path_mark last sound).free) (Nat.le_refl _)
      · have forgotten := inner.realized_forget memory_sound (by omega) real
          fun stored arrives => arrives.below
        have skipped := forgotten.move memory condition.names (either false stack) grown
        have entered := skipped.move memory [] (fun slots => (path_mark mark sound).free)
          (Nat.le_refl _)
        have through := ihOuter other middle_sound (by omega) entered other.stop_le
        exact through.move memory [] (fun slots => (path_mark last sound).free) (Nat.le_refl _)

end Statement.Block

/-! ### Other names are read unwritten -/

/-- Where a name that is not assured is read, some path is not guarded. -/
theorem Expression.Code.unguarded {value : Expression} (code_of : Code memory value items)
    (holds : code.Holds position items) (sound : code.Sound) (memory_sound : memory.Sound)
    (bound : memory.cursor ≤ 2 ^ 64)
    (real : flow.Realized memory (Arrives world code start stack position limit))
    (unassured : flow.assures value.names = false) :
    ∃ trace final, Path (Free world code.bytes) code.bytes start trace final ∧
      ¬ Guarded [] trace := by
  cases flow with
  | unreached => cases unassured
  | reached assured =>
      obtain ⟨name, mem, missing⟩ : ∃ name ∈ value.names, name ∉ assured := by
        simpa [Flow.assures] using unassured
      obtain ⟨slot, found⟩ := code_of.exists_slot name mem
      obtain ⟨stored, ⟨⟨trace, slots, path, recorded⟩, -⟩, unwritten⟩ :=
        real.2 name missing slot found
      obtain ⟨word, -, read⟩ := code_of.path holds sound memory_sound bound stack
      refine ⟨_, _, path.trans read.free, fun guarded => unwritten ?_⟩
      have loads := (guarded_append.1 guarded).2
      rw [recorded] at loads
      exact guarded_loads_iff.1 loads name mem slot found

/-- Where statements read a name that is not assured, some path is not guarded. -/
theorem Statement.Block.unguarded {statements : List Statement}
    (block : Block position memory statements items last) (holds : code.Holds position items)
    (sound : code.Sound) (memory_sound : memory.Sound) (bound : memory.cursor ≤ position)
    (real : flow.Realized memory (Arrives world code start stack position memory.cursor))
    (unassured : flow.admitsAll statements = false) :
    ∃ trace final, Path (Free world code.bytes) code.bytes start trace final ∧
      ¬ Guarded [] trace := by
  have fits : code.position ≤ 2 ^ 64 := sound.addressable
  have room := holds.stop_le
  induction block generalizing flow with
  | nil => cases unassured
  | @cons _ _ _ _ statement rest _ _ head tail ihHead ihTail =>
      cases now : flow.admits statement with
      | false =>
          exact ihHead holds.left memory_sound bound real (by simpa using now) holds.left.stop_le
      | true =>
          rw [Flow.admitsAll, now, Bool.true_and] at unassured
          have grown := head.cursor_stop
          exact ihTail holds.right (head.sound memory_sound) (by omega)
            (head.realized holds.left sound memory_sound bound real) unassured holds.right.stop_le
  | returnNothing => cases unassured
  | declare value | assign value | returnValue value | expression value =>
      rw [Flow.admitsAll_singleton] at unassured
      exact value.unguarded holds.left sound memory_sound (by omega) real unassured
  | @ifThen _ _ _ memory _ condition consequence _ _ test start_eq inner stop_eq ih =>
      subst start_eq stop_eq
      obtain ⟨entry, mark⟩ := holds.ifThen
      rw [Flow.admitsAll_singleton, Flow.admits] at unassured
      cases now : flow.assures condition.names with
      | false => exact test.unguarded holds.left sound memory_sound (by omega) real now
      | true =>
          rw [now, Bool.true_and] at unassured
          have either := test.path_either holds mark sound memory_sound (by omega) world
          have entered := real.move memory condition.names (either true stack) (Nat.le_refl _)
          exact ih entry memory_sound (by omega) entered unassured entry.stop_le
  | @ifElse _ _ _ _ memory middle _ condition consequence alternative _ _ _ test start_eq inner
      otherwise_eq outer stop_eq ihInner ihOuter =>
      subst start_eq otherwise_eq stop_eq
      obtain ⟨entry, leave, mark, other, -⟩ := holds.ifElse
      rw [Flow.admitsAll_singleton, Flow.admits] at unassured
      have grown := inner.cursor_le
      have size := inner.cursor_stop
      have inside := other.stop_le
      have either := test.path_either holds mark sound memory_sound (by omega) world
      cases now : flow.assures condition.names with
      | false => exact test.unguarded holds.left sound memory_sound (by omega) real now
      | true =>
          rw [now, Bool.true_and] at unassured
          cases then_ : flow.admitsAll consequence with
          | false =>
              have entered := real.move memory condition.names (either true stack) (Nat.le_refl _)
              exact ihInner entry memory_sound (by omega) entered then_ entry.stop_le
          | true =>
              rw [then_, Bool.true_and] at unassured
              have forgotten := inner.realized_forget memory_sound (by omega) real
                fun stored arrives => arrives.below
              have skipped := forgotten.move memory condition.names (either false stack) grown
              have entered := skipped.move memory [] (fun slots => (path_mark mark sound).free)
                (Nat.le_refl _)
              exact ihOuter other (inner.sound memory_sound) (by omega) entered unassured
                other.stop_le

/-! ### Functions -/

namespace Parameter.Code

variable {index : ℕ} {parameters : List Parameter}

theorem guarded_stores (memory : MemoryMap) (stored : List Word) (parameters : List Parameter) :
    Guarded stored (stores memory parameters) := by
  induction parameters generalizing memory stored with
  | nil => trivial
  | cons parameter rest ih => exact ih _ _

/-- The names that have a slot behind the parameters are written, if those before them were. -/
theorem written (copy : Parameter.Code index memory parameters items last) {name : String}
    {slot : Slot} (found : last.slot? name = some slot)
    (known : name ∈ parameters.map Parameter.name ∨
      ∀ slot, memory.slot? name = some slot → Word.ofNat slot.offset ∈ stored) :
    Word.ofNat slot.offset ∈ record stored (stores memory parameters) := by
  induction copy generalizing stored with
  | nil =>
      rcases known with mem | old
      · cases mem
      · exact old slot found
  | @cons index memory last parameter rest more tail ih =>
      refine ih found ?_
      by_cases same : name = parameter.name
      · refine .inr fun place here => ?_
        rw [same, MemoryMap.slot?_define_self] at here
        cases here
        exact .head _
      · rcases known with mem | old
        · exact .inl ((List.mem_cons.1 mem).resolve_left same)
        · refine .inr fun place here => .tail _ (old place ?_)
          rwa [MemoryMap.slot?_define_of_ne _ same] at here

/-- Only parameters take a slot. -/
theorem slot?_eq (copy : Parameter.Code index memory parameters items last) {name : String}
    (absent : name ∉ parameters.map Parameter.name) : last.slot? name = memory.slot? name := by
  induction copy with
  | nil => rfl
  | cons tail ih =>
      rw [List.map_cons, List.mem_cons, not_or] at absent
      rw [ih absent.2, MemoryMap.slot?_define_of_ne _ absent.1]

/-- All that is written is below the next free byte. -/
theorem record_lt (copy : Parameter.Code index memory parameters items last)
    (old : ∀ offset ∈ stored, offset.toNat < memory.cursor) :
    ∀ offset ∈ record stored (stores memory parameters), offset.toNat < last.cursor := by
  induction copy generalizing stored with
  | nil => exact old
  | @cons index memory last parameter rest more tail ih =>
      have grown : memory.cursor < (memory.define parameter.name).cursor :=
        Nat.lt_add_of_pos_right (by decide)
      refine ih (List.forall_mem_cons.2 ⟨?_, fun offset mem => Nat.lt_trans (old offset mem) grown⟩)
      rw [Word.toNat_ofNat]
      exact Nat.lt_of_le_of_lt (Nat.mod_le _ _) grown

end Parameter.Code

namespace FunctionDecl.Code

variable {function : FunctionDecl}

/-- A function that reads assured names only is safe where it begins. -/
theorem safe (function_code : function.Code position items last)
    (holds : code.Holds position items) (sound : code.Sound) (assured : function.readsAssured) :
    Safe world code.bytes [] ⟨position, stack, slots⟩ := by
  obtain ⟨parameters, start_eq, block⟩ := function_code
  subst start_eq
  have room := parameters.cursor_stop
  rw [MemoryMap.cursor_empty] at room
  refine safe_of_mark holds sound ?_
  obtain ⟨arguments, -, copy⟩ := parameters.path holds.tail.left sound MemoryMap.sound_empty
    (Nat.zero_le _) (Nat.zero_le _) world stack slots
  refine safe_of_forced copy (Parameter.Code.guarded_stores _ _ _) ?_
  refine block.safe holds.tail.right.left sound (parameters.sound MemoryMap.sound_empty)
    (by omega) assured (fun name mem slot found => parameters.written found (.inl mem)) arguments
    fun stored slots keeps => ?_
  exact safe_of_stopped fun _ => step_plain holds.tail.right.right rfl sound _

/-- A function that reads another name has a path that is not guarded. -/
theorem unguarded (function_code : function.Code position items last)
    (holds : code.Holds position items) (sound : code.Sound)
    (unassured : function.readsAssured = false) (world : World) (stack : List Word)
    (slots : ℕ → Word) :
    ∃ trace final, Path (Free world code.bytes) code.bytes ⟨position, stack, slots⟩ trace final ∧
      ¬ Guarded [] trace := by
  obtain @⟨_, memory, _, copying, body, parameters, start_eq, block⟩ := function_code
  subst start_eq
  have room := parameters.cursor_stop
  rw [MemoryMap.cursor_empty] at room
  obtain ⟨arguments, -, copy⟩ := parameters.path holds.tail.left sound MemoryMap.sound_empty
    (Nat.zero_le _) (Nat.zero_le _) world stack slots
  have path := (path_mark holds sound).free.trans copy.free
  have real : function.flow.Realized memory (Arrives world code ⟨position, stack, slots⟩ stack
      (position + 1 + Item.totalSize copying) memory.cursor) := by
    refine ⟨⟨_, ⟨_, arguments, path, rfl⟩, parameters.record_lt (by simp)⟩, ?_⟩
    intro name absent slot found
    rw [parameters.slot?_eq absent] at found
    cases found
  exact block.unguarded holds.tail.right.left sound (parameters.sound MemoryMap.sound_empty)
    (by omega) real unassured

end FunctionDecl.Code

namespace Compilation

/-- **A compiled function reads only what it has written, on every path from where it begins,
exactly if it reads assured names only.** -/
theorem loadsStored_iff_readsAssured {compilation : Compilation} {function : FunctionDecl}
    {entry : ℕ} (offers : compilation.Offers function entry)
    (fits : compilation.code.Addressable) (world : World) (stack : List Word)
    (memory : ℕ → Word) :
    (∀ trace final, Path (Free world compilation.code.bytes) compilation.code.bytes
        ⟨entry, stack, memory⟩ trace final → LoadsStored trace) ↔ function.readsAssured = true := by
  have sound : compilation.code.Sound := ⟨offers.wellFormed, fits⟩
  obtain ⟨items, last, function_code, holds⟩ := offers.holds
  constructor
  · intro stored
    by_contra unassured
    obtain ⟨trace, final, path, unguarded⟩ := function_code.unguarded holds sound
      (Bool.eq_false_of_not_eq_true unassured) world stack memory
    exact unguarded (guarded_nil_iff.2 (stored trace final path))
  · intro assured trace final path
    exact guarded_nil_iff.1 (function_code.safe holds sound assured trace final path)

/-- `func either(c bool) int { if c { int a = 1 } else { a = 2 } return a }` -/
def either : FunctionDecl where
  name := "either"
  parameters := [⟨"c", .bool⟩]
  returns := some .int
  body :=
    [.ifElse (.identifier "c") [.declare .int "a" (.integer 1)] [.assign "a" (.integer 2)],
      .return (some (.identifier "a"))]

/-- The slot that one branch of `either` declares is written by both, and no path reads anything
else. -/
theorem loadsStored_either : ∃ compilation, ofFunction either = .ok compilation ∧
    compilation.code.Addressable ∧
    ∀ trace final, Path (Free (.unsigned [1]) compilation.code.bytes) compilation.code.bytes
      ⟨0, [], fun _ => .ofNat 9⟩ trace final → LoadsStored trace := by
  obtain ⟨compilation, compiled, fits⟩ : ∃ compilation, ofFunction either = .ok compilation ∧
      compilation.code.position ≤ 2 ^ 64 := ⟨_, rfl, by decide⟩
  have assured : either.readsAssured = true := by decide
  exact ⟨compilation, compiled, fits, (loadsStored_iff_readsAssured (.alone compiled) fits
    (.unsigned [1]) [] fun _ => .ofNat 9).2 assured⟩

/-- `func skipping(c bool) int { if c { int a = 1 } return a }` -/
def skipping : FunctionDecl where
  name := "skipping"
  parameters := [⟨"c", .bool⟩]
  returns := some .int
  body :=
    [.ifThen (.identifier "c") [.declare .int "a" (.integer 1)], .return (some (.identifier "a"))]

/-- The slot that the branch of `skipping` declares is read where the branch was not taken. -/
theorem not_loadsStored_skipping : ∃ compilation, ofFunction skipping = .ok compilation ∧
    compilation.code.Addressable ∧
    ∃ trace final, Path (Free (.unsigned [0]) compilation.code.bytes) compilation.code.bytes
      ⟨0, [], fun _ => .ofNat 9⟩ trace final ∧ ¬ LoadsStored trace := by
  obtain ⟨compilation, compiled, fits⟩ : ∃ compilation, ofFunction skipping = .ok compilation ∧
      compilation.code.position ≤ 2 ^ 64 := ⟨_, rfl, by decide⟩
  have offers : compilation.Offers skipping 0 := .alone compiled
  obtain ⟨items, last, function_code, holds⟩ := offers.holds
  obtain ⟨trace, final, path, unguarded⟩ := function_code.unguarded holds
    ⟨offers.wellFormed, fits⟩ (by decide) (.unsigned [0]) [] fun _ => .ofNat 9
  exact ⟨compilation, compiled, fits, trace, final, path, fun stored =>
    unguarded (guarded_nil_iff.2 stored)⟩

end Compilation

end Covenant
