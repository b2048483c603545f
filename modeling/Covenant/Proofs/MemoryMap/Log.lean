/-
**A memory map as a log of definitions.**

Whoever uses a memory map sees only the answers to the calls that are made to it.  All of them can
be told from the definitions made so far and the slots that these were answered with, in order: an
append-only log, to which a definition adds its own entry and a lookup nothing.  The map keeps less
than the log, since it forgets the slots that were hidden, but nobody can tell.

A map that is only ever grown by definitions is known by their names.  So the log behind some calls
is these names with their slots, and the rest is what is known of the map behind some names.

Main definitions:

* `Covenant.MemoryMap.Call`, `Covenant.MemoryMap.Answer` — what is asked of a map, and the answers;
* `Covenant.MemoryMap.exchanges`, `Covenant.MemoryMap.behind` — the answers to calls one after
  another, and the map behind them;
* `Covenant.MemoryMap.log` — the definitions among some exchanges, with the slots they gave;
* `Covenant.MemoryMap.Answers`, `Covenant.MemoryMap.Refines` — what a log says about an answer and
  about a map.

Main results:

* `MemoryMap.behind_eq_ofNames`, `MemoryMap.log_exchanges` — calls matter only by the names that
  they define;
* `MemoryMap.answers_ofNames` — the answers of a map are those that the log of its names tells;
* `MemoryMap.refines_log` — **a memory map refines the log of its definitions**, whatever calls are
  made to it in whatever order.
-/

import Covenant.Proofs.MemoryMap.Definitions
import Mathlib.Data.List.Dedup

set_option relaxedAutoImplicit false
set_option autoImplicit false

namespace Covenant.MemoryMap

/-! ### Calls -/

/-- A call to a memory map. -/
inductive Call where
  | define (name : String)
  | find (name : String)
  | isDefined (name : String)
  | rows

/-- What a call is answered with. -/
inductive Answer where
  | slot (slot : Slot)
  | found (result : Except Undefined Slot)
  | defined (known : Bool)
  | rows (rows : List (String × Slot))

/-- The name that a call defines. -/
def Call.name? : Call → Option String
  | define name => some name
  | _ => none

/-- The names that calls define, in order. -/
def Call.names (calls : List Call) : List String :=
  calls.filterMap name?

/-- The answer to a call: a definition tells the slot that it takes. -/
def answer (memory : MemoryMap) : Call → Answer
  | .define _ => .slot memory.next
  | .find name => .found (memory.find name)
  | .isDefined name => .defined (memory.isDefined name)
  | .rows => .rows memory.rows

/-- The map behind a call. -/
def step (memory : MemoryMap) : Call → MemoryMap
  | .define name => memory.define name
  | .find _ | .isDefined _ | .rows => memory

/-- The map behind calls, one after another. -/
def behind (memory : MemoryMap) (calls : List Call) : MemoryMap :=
  calls.foldl step memory

/-- Calls one after another, with their answers. -/
def exchanges (memory : MemoryMap) : List Call → List (Call × Answer)
  | [] => []
  | call :: rest => (call, memory.answer call) :: (memory.step call).exchanges rest

theorem behind_concat (memory : MemoryMap) (calls : List Call) (call : Call) :
    memory.behind (calls ++ [call]) = (memory.behind calls).step call := by
  rw [behind, List.foldl_append]
  rfl

theorem exchanges_append (memory : MemoryMap) (calls more : List Call) :
    memory.exchanges (calls ++ more) =
      memory.exchanges calls ++ (memory.behind calls).exchanges more := by
  induction calls generalizing memory with
  | nil => rfl
  | cons call calls ih => exact congrArg _ (ih _)

/-! ### Logs -/

/-- The definition that an exchange is, with the slot that it was answered with. -/
def entry? : Call × Answer → Option (String × Slot)
  | (.define name, .slot slot) => some (name, slot)
  | _ => none

/-- The definitions among some exchanges, with the slots that they were answered with. -/
def log (history : List (Call × Answer)) : List (String × Slot) :=
  history.filterMap entry?

/-- The slot is that of the last entry of a name. -/
def LastEntry (log : List (String × Slot)) (name : String) (slot : Slot) : Prop :=
  ∃ index, log[index]? = some (name, slot) ∧
    ∀ (later : ℕ) (other : Slot), index < later → log[later]? ≠ some (name, other)

/-- The rows are the names of a log, each once with the slot of its last entry. -/
structure Lists (log rows : List (String × Slot)) : Prop where
  mem_iff : ∀ name slot, (name, slot) ∈ rows ↔ LastEntry log name slot
  distinct : (rows.map Prod.fst).Nodup
  increasing : rows.Pairwise fun row other => row.2.offset < other.2.offset
  /-- No slot reaches into another. -/
  disjoint : rows.Pairwise fun row other => row.2.stop ≤ other.2.offset
  /-- No slot reaches behind those of all definitions. -/
  inside : ∀ row ∈ rows, row.2.stop ≤ 8 * log.length

/-- What a call is answered with behind the definitions of a log. -/
inductive Answers (log : List (String × Slot)) : Call → Answer → Prop
  | define {name : String} : Answers log (.define name) (.slot ⟨8 * log.length, 8⟩)
  | found {name : String} {slot : Slot} (last : LastEntry log name slot) :
      Answers log (.find name) (.found (.ok slot))
  | unknown {name : String} (fresh : name ∉ log.map Prod.fst) :
      Answers log (.find name) (.found (.error ⟨name⟩))
  | defined {name : String} (known : name ∈ log.map Prod.fst) :
      Answers log (.isDefined name) (.defined true)
  | undefined {name : String} (fresh : name ∉ log.map Prod.fst) :
      Answers log (.isDefined name) (.defined false)
  | rows {rows : List (String × Slot)} (lists : Lists log rows) : Answers log .rows (.rows rows)

/-- What a log of definitions says about a map. -/
structure Refines (log : List (String × Slot)) (memory : MemoryMap) : Prop where
  /-- The slots of the log stand one behind another. -/
  slots : ∀ (index : ℕ) (name : String) (slot : Slot), log[index]? = some (name, slot) →
    slot = ⟨8 * index, 8⟩
  cursor : memory.cursor = 8 * log.length
  size : memory.size = (log.map Prod.fst).dedup.length
  answers : ∀ call, Answers log call (memory.answer call)

/-! ### The log of names -/

/-- Names that are defined one after another, with the slots that they take. -/
def logOfNames (names : List String) : List (String × Slot) :=
  names.mapIdx fun index name => (name, Slot.nth index)

@[simp] theorem length_logOfNames (names : List String) :
    (logOfNames names).length = names.length := by
  simp [logOfNames]

@[simp] theorem map_fst_logOfNames (names : List String) :
    (logOfNames names).map Prod.fst = names := by
  refine List.ext_getElem? fun index => ?_
  rw [List.getElem?_map, logOfNames, List.getElem?_mapIdx]
  cases names[index]? <;> rfl

theorem getElem?_logOfNames_eq_some_iff {names : List String} {index : ℕ} {name : String}
    {slot : Slot} : (logOfNames names)[index]? = some (name, slot) ↔
      names[index]? = some name ∧ slot = Slot.nth index := by
  rw [logOfNames, List.getElem?_mapIdx]
  cases names[index]? <;> simp [eq_comm]

/-- The last entry of a name is that of its last definition. -/
theorem lastEntry_logOfNames_iff {names : List String} {name : String} {slot : Slot} :
    LastEntry (logOfNames names) name slot ↔
      ∃ index, Latest names name index ∧ slot = Slot.nth index := by
  simp only [LastEntry, Latest, ne_eq, getElem?_logOfNames_eq_some_iff, not_and]
  constructor
  · rintro ⟨index, ⟨here, rfl⟩, final⟩
    exact ⟨index, ⟨here, fun later follows again => final later _ follows again rfl⟩, rfl⟩
  · rintro ⟨index, ⟨here, final⟩, rfl⟩
    exact ⟨index, ⟨here, rfl⟩, fun later _ follows again _ => final later follows again⟩

/-- A name has a slot exactly if it was defined. -/
theorem isDefined_ofNames_iff {names : List String} {name : String} :
    (ofNames names).isDefined name = true ↔ name ∈ names := by
  induction names using List.reverseRecOn with
  | nil => simp [isDefined]
  | append_singleton names last ih =>
      rw [ofNames_append_singleton, isDefined, slot?_define, List.mem_append, List.mem_singleton,
        ← ih]
      by_cases same : name = last
      · simp [same]
      · simp [same, isDefined]

/-- **The rows list the log of the names.** -/
theorem lists_ofNames (names : List String) : Lists (logOfNames names) (ofNames names).rows where
  mem_iff name slot := by rw [mem_rows_ofNames_iff, lastEntry_logOfNames_iff]
  distinct := nodup_rows_ofNames names
  increasing := increasing_rows_ofNames names
  disjoint := pairwise_rows_ofNames names
  inside := by
    rintro ⟨name, slot⟩ mem
    obtain ⟨index, latest, rfl⟩ := mem_rows_ofNames_iff.1 mem
    rw [length_logOfNames]
    exact Nat.mul_le_mul_left 8 latest.lt_length

/-- **The answers of a map are those that the log of its names tells.** -/
theorem answers_ofNames (names : List String) (call : Call) :
    Answers (logOfNames names) call ((ofNames names).answer call) := by
  have known : ∀ name, name ∈ (logOfNames names).map Prod.fst ↔
      (ofNames names).isDefined name = true := by
    intro name
    rw [map_fst_logOfNames, isDefined_ofNames_iff]
  cases call with
  | define name =>
      have next := next_ofNames names
      rw [← length_logOfNames] at next
      rw [answer, next]
      exact .define
  | find name =>
      rw [answer, find]
      cases place : (ofNames names).slot? name with
      | none =>
          refine .unknown ?_
          rw [known, isDefined, place]
          simp
      | some slot => exact .found (lastEntry_logOfNames_iff.2 (slot?_ofNames_eq_some_iff.1 place))
  | isDefined name =>
      rw [answer]
      cases same : (ofNames names).isDefined name with
      | true => exact .defined ((known name).2 same)
      | false => exact .undefined (by rw [known, same]; simp)
  | rows => exact .rows (lists_ofNames names)

/-- As many names have a slot as different ones were defined. -/
theorem size_ofNames (names : List String) : (ofNames names).size = names.dedup.length := by
  have same : ((ofNames names).rows.map Prod.fst).Perm names.dedup := by
    rw [List.perm_ext_iff_of_nodup (nodup_rows_ofNames names) names.nodup_dedup]
    intro name
    rw [List.mem_dedup, ← @isDefined_ofNames_iff names, isDefined, Option.isSome_iff_exists]
    simp only [List.mem_map, Prod.exists, exists_and_right, exists_eq_right, mem_rows_ofNames_iff,
      slot?_ofNames_eq_some_iff]
  rw [← same.length_eq, List.length_map]
  rfl

/-- A map refines the log of the names that were defined in it. -/
theorem refines_ofNames (names : List String) : Refines (logOfNames names) (ofNames names) where
  slots index name slot entry := (getElem?_logOfNames_eq_some_iff.1 entry).2
  cursor := by rw [cursor_ofNames, length_logOfNames]
  size := by rw [size_ofNames, map_fst_logOfNames]
  answers := answers_ofNames names

/-! ### Calls one after another -/

theorem Call.names_concat (calls : List Call) (call : Call) :
    names (calls ++ [call]) = names calls ++ call.name?.toList := by
  rw [names, List.filterMap_append]
  cases call <;> rfl

theorem log_append (history more : List (Call × Answer)) :
    log (history ++ more) = log history ++ log more :=
  List.filterMap_append

/-- A definition adds its name, and a lookup changes nothing. -/
theorem step_ofNames (names : List String) (call : Call) :
    (ofNames names).step call = ofNames (names ++ call.name?.toList) := by
  cases call with
  | define name => exact (ofNames_append_singleton names name).symm
  | find _ | isDefined _ | rows => exact congrArg ofNames (List.append_nil names).symm

/-- **The map behind calls is the one behind the names that they define.** -/
theorem behind_eq_ofNames (calls : List Call) :
    empty.behind calls = ofNames (Call.names calls) := by
  induction calls using List.reverseRecOn with
  | nil => rfl
  | append_singleton calls call ih =>
      rw [behind_concat, ih, step_ofNames, Call.names_concat]

/-- A definition adds its entry to the log, and a lookup nothing. -/
theorem log_exchange (names : List String) (call : Call) :
    logOfNames names ++ log ((ofNames names).exchanges [call]) =
      logOfNames (names ++ call.name?.toList) := by
  cases call with
  | define name =>
      have next := next_ofNames names
      simp [exchanges, answer, log, entry?, Call.name?, logOfNames, List.mapIdx_append, next]
  | find _ | isDefined _ | rows =>
      simp [exchanges, log, entry?, Call.name?]

/-- **The log of calls is that of the names that they define.** -/
theorem log_exchanges (calls : List Call) :
    log (empty.exchanges calls) = logOfNames (Call.names calls) := by
  induction calls using List.reverseRecOn with
  | nil => rfl
  | append_singleton calls call ih =>
      rw [exchanges_append, log_append, ih, behind_eq_ofNames, log_exchange, Call.names_concat]

/-- What was exchanged until some exchange, and this one, are the exchanges of as many calls. -/
theorem exists_of_exchanges_eq {memory : MemoryMap} {calls : List Call}
    {earlier later : List (Call × Answer)} {call : Call} {reply : Answer}
    (split : memory.exchanges calls = earlier ++ (call, reply) :: later) :
    ∃ before after, calls = before ++ call :: after ∧ earlier = memory.exchanges before ∧
      reply = (memory.behind before).answer call := by
  induction calls generalizing memory earlier with
  | nil => simp [exchanges] at split
  | cons first calls ih =>
      rw [exchanges] at split
      cases earlier with
      | nil =>
          obtain ⟨⟨rfl, rfl⟩, -⟩ := List.cons_eq_cons.1 split
          exact ⟨[], calls, rfl, rfl, rfl⟩
      | cons exchange earlier =>
          obtain ⟨rfl, rest⟩ := List.cons_eq_cons.1 split
          obtain ⟨before, after, rfl, rfl, rfl⟩ := ih rest
          exact ⟨first :: before, after, rfl, rfl, rfl⟩

/-- **A memory map refines the log of its definitions.**  Whatever calls are made to a fresh map,
the log has an entry for each definition among them, and each of them is answered as the definitions
before it tell; so would any further one be.  The map is the one that is left if only the
definitions are made. -/
theorem refines_log (calls : List Call) :
    (log (empty.exchanges calls)).map Prod.fst = Call.names calls ∧
    Refines (log (empty.exchanges calls)) (empty.behind calls) ∧
    (∀ (earlier later : List (Call × Answer)) (call : Call) (reply : Answer),
      empty.exchanges calls = earlier ++ (call, reply) :: later →
        Answers (log earlier) call reply) ∧
    empty.behind calls = empty.behind ((Call.names calls).map .define) := by
  refine ⟨?_, ?_, ?_, ?_⟩
  · rw [log_exchanges, map_fst_logOfNames]
  · rw [log_exchanges, behind_eq_ofNames]
    exact refines_ofNames _
  · intro earlier later call reply split
    obtain ⟨before, after, rfl, rfl, rfl⟩ := exists_of_exchanges_eq split
    rw [log_exchanges, behind_eq_ofNames]
    exact answers_ofNames _ call
  · have same : Call.names ((Call.names calls).map .define) = Call.names calls := by
      rw [Call.names, List.filterMap_map]
      exact List.filterMap_some
    rw [behind_eq_ofNames, behind_eq_ofNames, same]

/-- Behind a second definition of `a` the name is found in its place, and stands behind `b` in the
rows. -/
theorem refines_log_shadowing :
    let calls : List Call := [.define "a", .find "a", .define "b", .define "a", .find "a", .rows]
    let last : List (String × Slot) := [("a", ⟨0, 8⟩), ("b", ⟨8, 8⟩), ("a", ⟨16, 8⟩)]
    Refines last (empty.behind calls) ∧
    Answers [("a", ⟨0, 8⟩)] (.find "a") (.found (.ok ⟨0, 8⟩)) ∧
    Answers last (.find "a") (.found (.ok ⟨16, 8⟩)) ∧
    Answers last .rows (.rows [("b", ⟨8, 8⟩), ("a", ⟨16, 8⟩)]) := by
  intro calls last
  obtain ⟨-, refines, answered, -⟩ := refines_log calls
  refine ⟨refines, ?_, ?_, ?_⟩
  · exact answered (empty.exchanges [.define "a"]) _ _ _ rfl
  · exact answered (empty.exchanges [.define "a", .find "a", .define "b", .define "a"]) _ _ _ rfl
  · exact answered
      (empty.exchanges [.define "a", .find "a", .define "b", .define "a", .find "a"]) _ _ _ rfl

end Covenant.MemoryMap
