/-
**Selectors are dense.**

A name gets its selector from the number of names that are there, and keeps it.  So the selectors
that are given out are those below the size of the table, and a name and its selector are found from
each other.  What carries this through any declarations is that no name stands in the table twice
and that the selector of a row is the number of rows before it.  Such a table has no more rows than
there are selectors, since it refuses a row whose selector is given out.

A table that is looked up from both sides may refuse a pair because of either of them, and so does
this one.  The two give the same answers whatever is declared, also where the count begins again.

Main definitions:

* `Covenant.SelectorTable.Numbered` — rows are numbered by their selectors;
* `Covenant.SelectorTable.declare`, `Covenant.SelectorTable.declareAll` — declaring names of which
  some may be refused;
* `Covenant.SelectorTable.Dense` — what a table has to do with the names that were declared;
* `Covenant.Bimap`, `Covenant.Bimap.Lawful` — the operations of a table that is looked up from both
  sides, and their laws.

Main results:

* `SelectorTable.Numbered.insert?_eq_none_iff` — a name is refused if it was declared before or no
  selector is left;
* `SelectorTable.Numbered.insert`, `SelectorTable.Numbered.declareAll` — declarations keep rows
  numbered;
* `SelectorTable.Numbered.selector?_eq_some_iff` — a name and its selector are found from each
  other;
* `SelectorTable.dense_declareAll`, `SelectorTable.selector?_declareAll` — declarations keep a table
  dense and the selectors in it;
* `Bimap.Agrees.declare`, `Bimap.Lawful.agrees_declareAll` — a table that is looked up from both
  sides gives the same answers;
* `SelectorTable.declarations_dense` — **names and selectors are in a dense bijection** after any
  declarations.
-/

import Covenant.SelectorTable
import Mathlib.Data.List.Dedup
import Mathlib.Data.List.Induction
import Mathlib.Data.List.Nodup
import Mathlib.Data.List.Perm.Subperm

set_option relaxedAutoImplicit false
set_option autoImplicit false

namespace Covenant

/-! ### Pairs -/

section Pairs

variable {β γ : Type} [DecidableEq β] {pairs : List (β × γ)} {key : β}

/-- Where no key stands twice, a pair is found by its key. -/
theorem lookup_eq_some_iff_mem (nodup : (pairs.map Prod.fst).Nodup) {value : γ} :
    pairs.lookup key = some value ↔ (key, value) ∈ pairs := by
  rw [List.lookup_eq_some_iff]
  constructor
  · rintro ⟨before, after, rfl, -⟩
    simp
  · intro mem
    obtain ⟨before, after, rfl⟩ := List.append_of_mem mem
    refine ⟨before, after, rfl, fun pair earlier => ?_⟩
    rw [List.map_append, List.map_cons] at nodup
    have other : key ∉ before.map Prod.fst := fun twice =>
      List.disjoint_of_nodup_append nodup twice (.head _)
    simp only [bne_iff_ne]
    rintro rfl
    exact other (List.mem_map_of_mem earlier)

/-- Nothing is found by a key that does not stand there. -/
theorem lookup_eq_none_iff_not_mem : pairs.lookup key = none ↔ key ∉ pairs.map Prod.fst := by
  rw [List.lookup_eq_none_iff, List.mem_map, not_exists]
  refine forall_congr' fun pair => ?_
  rw [not_and, bne_iff_ne, ne_comm]

/-- A pair behind others is found by its key if no other one is. -/
theorem lookup_concat (value : γ) (fresh : key ∉ pairs.map Prod.fst) (other : β) :
    (pairs ++ [(key, value)]).lookup other =
      if other = key then some value else pairs.lookup other := by
  rw [List.lookup_append]
  by_cases same : other = key
  · subst same
    simp [lookup_eq_none_iff_not_mem.2 fresh]
  · simp [same, List.lookup_cons, beq_false_of_ne same]

end Pairs

namespace SelectorTable

variable {table larger : SelectorTable} {name : String} {selector : ℕ}

/-! ### Rows and their numbers -/

theorem length_names (table : SelectorTable) : table.names.length = table.size :=
  List.length_map _

theorem names_concat (table : SelectorTable) (name : String) (word : UInt32) :
    (mk (table.rows ++ [(name, word)])).names = table.names ++ [name] :=
  List.map_append

theorem size_concat (table : SelectorTable) (row : String × UInt32) :
    (mk (table.rows ++ [row])).size = table.size + 1 :=
  List.length_append

/-- No name stands in the table twice, and the selector of a row is the number of rows before
it. -/
structure Numbered (table : SelectorTable) : Prop where
  nodup : table.names.Nodup
  selectors : table.rows.map (fun row => row.2.toNat) = List.range table.size

theorem numbered_empty : empty.Numbered :=
  ⟨List.nodup_nil, rfl⟩

namespace Numbered

theorem toNat_eq (numbered : table.Numbered) {word : UInt32}
    (row : table.rows[selector]? = some (name, word)) : word.toNat = selector := by
  have place := congrArg (fun selectors => selectors[selector]?) numbered.selectors
  rw [List.getElem?_map, row] at place
  obtain ⟨bound, same⟩ := List.getElem?_eq_some_iff.1 place.symm
  rwa [List.getElem_range, eq_comm] at same

theorem mem_selectors_iff (numbered : table.Numbered) {word : UInt32} :
    word ∈ table.rows.map Prod.snd ↔ word.toNat < table.size := by
  rw [← List.mem_range, ← numbered.selectors, List.mem_map, List.mem_map]
  refine exists_congr fun row => and_congr_right fun _ => ?_
  exact UInt32.toNat_inj.symm

/-- There are no more rows than selectors. -/
theorem size_le (numbered : table.Numbered) : table.size ≤ UInt32.size := by
  by_contra more
  have last : UInt32.size ∈ List.range table.size := List.mem_range.2 (Nat.lt_of_not_le more)
  rw [← numbered.selectors, List.mem_map] at last
  obtain ⟨row, -, same⟩ := last
  exact absurd row.2.toNat_lt (Nat.not_lt.2 (Nat.le_of_eq same.symm))

/-- The next selector is given out once all are. -/
theorem next_mem_iff (numbered : table.Numbered) :
    table.next ∈ table.rows.map Prod.snd ↔ table.size = UInt32.size := by
  rw [numbered.mem_selectors_iff, next]
  have most := numbered.size_le
  constructor
  · intro inside
    by_contra few
    rw [UInt32.toNat_ofNat_of_lt' (by omega)] at inside
    omega
  · intro full
    rw [full]
    decide

/-- **A name is refused if it was declared before or no selector is left.** -/
theorem insert?_eq_none_iff (numbered : table.Numbered) :
    table.insert? name = none ↔ name ∈ table.names ∨ table.size = UInt32.size := by
  rw [SelectorTable.insert?_eq_none_iff, numbered.next_mem_iff]

theorem insert?_eq_some (numbered : table.Numbered) (fresh : name ∉ table.names)
    (room : table.size < UInt32.size) :
    table.insert? name = some ⟨table.rows ++ [(name, table.next)]⟩ := by
  rw [SelectorTable.insert?, if_neg]
  rw [numbered.next_mem_iff, not_or]
  exact ⟨fresh, Nat.ne_of_lt room⟩

/-- **A declaration keeps rows numbered**, and adds its name behind the others. -/
theorem insert (numbered : table.Numbered) (inserted : table.insert? name = some larger) :
    larger.Numbered ∧ larger.names = table.names ++ [name] ∧ table.size < UInt32.size := by
  rw [SelectorTable.insert?, Option.ite_none_left_eq_some, not_or,
    numbered.next_mem_iff] at inserted
  obtain ⟨⟨fresh, few⟩, ⟨⟩⟩ := inserted
  have room : table.size < UInt32.size := Nat.lt_of_le_of_ne numbered.size_le few
  refine ⟨⟨?_, ?_⟩, names_concat _ _ _, room⟩
  · rw [names_concat]
    exact numbered.nodup.append (List.nodup_singleton name) (by simpa using fresh)
  · rw [size_concat, List.range_succ, List.map_append, numbered.selectors, List.map_singleton, next,
      UInt32.toNat_ofNat_of_lt' room]

/-- A row has the number of its selector. -/
theorem exists_mem_rows_iff (numbered : table.Numbered) :
    (∃ word, (name, word) ∈ table.rows ∧ word.toNat = selector) ↔
      table.names[selector]? = some name := by
  rw [names, List.getElem?_map]
  constructor
  · rintro ⟨word, mem, rfl⟩
    obtain ⟨index, row⟩ := List.mem_iff_getElem?.1 mem
    rw [numbered.toNat_eq row, row]
    rfl
  · intro place
    obtain ⟨⟨_, word⟩, row, rfl⟩ := Option.map_eq_some_iff.1 place
    exact ⟨word, List.mem_of_getElem? row, numbered.toNat_eq row⟩

/-- The selector of a name is the number of names before it. -/
theorem selector?_eq_some_iff_getElem? (numbered : table.Numbered) :
    table.selector? name = some selector ↔ table.names[selector]? = some name := by
  rw [← numbered.exists_mem_rows_iff, selector?, Option.map_eq_some_iff]
  simp only [lookup_eq_some_iff_mem numbered.nodup]

theorem name?_eq_some_iff_getElem? (numbered : table.Numbered) :
    table.name? selector = some name ↔ table.names[selector]? = some name := by
  have keys : (table.rows.map fun row => (row.2.toNat, row.1)).map Prod.fst =
      List.range table.size := by
    rw [List.map_map]
    exact numbered.selectors
  have nodup := List.nodup_range (n := table.size)
  rw [← keys] at nodup
  rw [← numbered.exists_mem_rows_iff, name?, lookup_eq_some_iff_mem nodup, List.mem_map]
  constructor
  · rintro ⟨⟨_, word⟩, mem, ⟨⟩⟩
    exact ⟨word, mem, rfl⟩
  · rintro ⟨word, mem, rfl⟩
    exact ⟨_, mem, rfl⟩

/-- A name and its selector are found from each other. -/
theorem selector?_eq_some_iff (numbered : table.Numbered) :
    table.selector? name = some selector ↔ table.name? selector = some name := by
  rw [numbered.selector?_eq_some_iff_getElem?, numbered.name?_eq_some_iff_getElem?]

/-- Names that are all declared stand behind those in the table, in order. -/
theorem insertAll {names : List String} (numbered : table.Numbered)
    (inserted : table.insertAll names = .ok larger) :
    larger.Numbered ∧ larger.names = table.names ++ names := by
  induction names generalizing table with
  | nil =>
      cases inserted
      exact ⟨numbered, (List.append_nil _).symm⟩
  | cons name rest ih =>
      rw [SelectorTable.insertAll] at inserted
      split at inserted
      · cases inserted
      · rename_i next step
        obtain ⟨more, names, -⟩ := numbered.insert step
        obtain ⟨numbered', others⟩ := ih more inserted
        exact ⟨numbered', by rw [others, names, List.append_assoc, List.singleton_append]⟩

end Numbered

/-! ### Names of which some are refused -/

/-- Declares a name, and tells the selector that it gets.  A name that is refused gets none, and the
table stays as it is. -/
def declare (table : SelectorTable) (name : String) : Option ℕ × SelectorTable :=
  match table.insert? name with
  | none => (none, table)
  | some larger => (some table.next.toNat, larger)

/-- The table behind the declarations of names, one after another. -/
def declareAll (table : SelectorTable) (names : List String) : SelectorTable :=
  names.foldl (fun table name => (table.declare name).2) table

theorem declareAll_concat (table : SelectorTable) (names : List String) (name : String) :
    table.declareAll (names ++ [name]) = ((table.declareAll names).declare name).2 := by
  rw [declareAll, List.foldl_append]
  rfl

theorem declareAll_append (table : SelectorTable) (names more : List String) :
    table.declareAll (names ++ more) = (table.declareAll names).declareAll more :=
  List.foldl_append

theorem declare_of_refused (refused : table.insert? name = none) :
    table.declare name = (none, table) := by
  rw [declare, refused]

theorem declare_of_mem (known : name ∈ table.names) : table.declare name = (none, table) :=
  declare_of_refused (insert?_eq_none_iff.2 (.inl known))

theorem Numbered.declare_of_not_mem (numbered : table.Numbered) (fresh : name ∉ table.names)
    (room : table.size < UInt32.size) :
    table.declare name = (some table.size, ⟨table.rows ++ [(name, table.next)]⟩) := by
  have selector : table.next.toNat = table.size := UInt32.toNat_ofNat_of_lt' room
  rw [declare, numbered.insert?_eq_some fresh room, selector]

/-- Declarations keep rows numbered. -/
theorem Numbered.declareAll (numbered : table.Numbered) (names : List String) :
    (table.declareAll names).Numbered := by
  induction names using List.reverseRecOn with
  | nil => exact numbered
  | append_singleton names name ih =>
      rw [declareAll_concat, declare]
      split
      · exact ih
      · rename_i inserted
        exact (ih.insert inserted).1

/-- Declarations only add rows behind the others. -/
theorem rows_prefix_declareAll (table : SelectorTable) (names : List String) :
    table.rows <+: (table.declareAll names).rows := by
  induction names using List.reverseRecOn with
  | nil => exact List.prefix_rfl
  | append_singleton names name ih =>
      rw [declareAll_concat, declare]
      split
      · exact ih
      · rename_i inserted
        rw [insert?, Option.ite_none_left_eq_some] at inserted
        obtain ⟨-, ⟨⟩⟩ := inserted
        exact ih.trans (List.prefix_append _ _)

/-- **No later declaration changes a selector.** -/
theorem selector?_declareAll (found : table.selector? name = some selector)
    (names : List String) : (table.declareAll names).selector? name = some selector := by
  obtain ⟨added, same⟩ := table.rows_prefix_declareAll names
  obtain ⟨word, here, rfl⟩ := Option.map_eq_some_iff.1 found
  rw [selector?, ← same, List.lookup_append, here]
  rfl

/-- What a table has to do with the names that were declared until now, refused ones included. -/
structure Dense (names : List String) (table : SelectorTable) : Prop where
  /-- There are as many selectors as different names. -/
  size : table.size = names.dedup.length
  /-- The selectors in use are those below their number. -/
  assigned : ∀ selector, (∃ name, table.selector? name = some selector) ↔ selector < table.size
  /-- The names that have a selector are the ones declared. -/
  known : ∀ name, (∃ selector, table.selector? name = some selector) ↔ name ∈ names
  /-- A name and its selector are found from each other. -/
  inverse : ∀ name selector,
    table.name? selector = some name ↔ table.selector? name = some selector

/-- A table is dense if it is numbered and its names are the ones declared. -/
theorem Numbered.dense {names : List String} (numbered : table.Numbered)
    (members : ∀ name, name ∈ table.names ↔ name ∈ names) : Dense names table where
  size := by
    have same : table.names.Perm names.dedup := by
      rw [List.perm_ext_iff_of_nodup numbered.nodup names.nodup_dedup]
      intro name
      rw [members, List.mem_dedup]
    rw [← length_names, same.length_eq]
  assigned selector := by
    simp only [numbered.selector?_eq_some_iff_getElem?]
    rw [← Option.isSome_iff_exists, isSome_getElem?, ← length_names]
  known name := by
    simp only [numbered.selector?_eq_some_iff_getElem?]
    rw [← members, List.mem_iff_getElem?]
  inverse name selector := numbered.selector?_eq_some_iff.symm

/-- Names that are among others are no more, if each is counted once. -/
theorem length_dedup_le {names more : List String} (inside : names ⊆ more) :
    names.dedup.length ≤ more.dedup.length := by
  refine (names.nodup_dedup.subperm fun name mem => ?_).length_le
  exact List.mem_dedup.2 (inside (List.mem_dedup.1 mem))

/-- A new name makes one name more. -/
theorem length_dedup_lt {names : List String} (fresh : name ∉ names) :
    names.dedup.length < (names ++ [name]).dedup.length := by
  have nodup : (name :: names.dedup).Nodup :=
    List.nodup_cons.2 ⟨mt List.mem_dedup.1 fresh, names.nodup_dedup⟩
  refine (nodup.subperm fun other mem => ?_).length_le
  rw [List.mem_dedup, List.mem_append, List.mem_singleton]
  rcases List.mem_cons.1 mem with same | inside
  · exact .inr same
  · exact .inl (List.mem_dedup.1 inside)

/-- **A table is dense after any declarations** of names that are no more than the selectors. -/
theorem dense_declareAll {names : List String} (few : names.dedup.length ≤ UInt32.size) :
    Dense names (empty.declareAll names) := by
  refine (numbered_empty.declareAll names).dense ?_
  induction names using List.reverseRecOn with
  | nil => exact fun name => Iff.rfl
  | append_singleton names last ih =>
      have members := ih (Nat.le_trans (length_dedup_le (List.subset_append_left _ _)) few)
      have numbered := numbered_empty.declareAll names
      intro name
      rw [declareAll_concat]
      by_cases known : last ∈ (empty.declareAll names).names
      · rw [declare_of_mem known, members, List.mem_append, List.mem_singleton, iff_self_or]
        rintro rfl
        exact (members name).1 known
      · have room : (empty.declareAll names).size < UInt32.size := by
          rw [(numbered.dense members).size]
          exact Nat.lt_of_lt_of_le (length_dedup_lt (mt (members last).2 known)) few
        rw [numbered.declare_of_not_mem known room, names_concat, List.mem_append,
          List.mem_append, members]

/-- The names in a table are the ones declared, as long as these are no more than the selectors. -/
theorem mem_names_declareAll {names : List String} (few : names.dedup.length ≤ UInt32.size) :
    name ∈ (empty.declareAll names).names ↔ name ∈ names := by
  have numbered := numbered_empty.declareAll names
  rw [← (dense_declareAll few).known, List.mem_iff_getElem?]
  simp only [numbered.selector?_eq_some_iff_getElem?]

/-- Exactly the names that are not in the table have no selector. -/
theorem selector?_eq_none_iff : table.selector? name = none ↔ name ∉ table.names := by
  rw [selector?, Option.map_eq_none_iff, lookup_eq_none_iff_not_mem, names]

/-- Exactly the selectors that are not in the table have no name. -/
theorem name?_toNat_eq_none_iff {word : UInt32} :
    table.name? word.toNat = none ↔ word ∉ table.rows.map Prod.snd := by
  rw [name?, lookup_eq_none_iff_not_mem, List.map_map, List.mem_map, List.mem_map]
  refine not_congr (exists_congr fun row => and_congr_right fun _ => ?_)
  exact UInt32.toNat_inj

/-- A new name is found at the end, and hides no other name. -/
theorem selector?_concat (word : UInt32) (fresh : name ∉ table.names) (other : String) :
    (mk (table.rows ++ [(name, word)])).selector? other =
      if other = name then some word.toNat else table.selector? other := by
  rw [selector?, lookup_concat word fresh, selector?]
  split
  · rfl
  · rfl

/-- A new selector is found at the end, and hides no other selector. -/
theorem name?_concat {word : UInt32} (name : String) (free : word ∉ table.rows.map Prod.snd)
    (other : UInt32) : (mk (table.rows ++ [(name, word)])).name? other.toNat =
      if other = word then some name else table.name? other.toNat := by
  rw [← name?_toNat_eq_none_iff, name?, lookup_eq_none_iff_not_mem] at free
  rw [name?, List.map_append, List.map_singleton, lookup_concat name free, name?]
  simp only [UInt32.toNat_inj]

end SelectorTable

/-! ### Tables that are looked up from both sides -/

/-- The operations of a table of pairs that is looked up from both sides. -/
structure Bimap (α : Type) where
  empty : α
  size : α → ℕ
  selector? : α → String → Option UInt32
  name? : α → UInt32 → Option String
  /-- Adds a pair, unless one of its sides is there. -/
  insert? : α → String → UInt32 → Option α

namespace Bimap

variable {α : Type} {ops : Bimap α}

/-- The laws of a table that is looked up from both sides. -/
structure Lawful (ops : Bimap α) : Prop where
  size_empty : ops.size ops.empty = 0
  selector?_empty : ∀ name, ops.selector? ops.empty name = none
  name?_empty : ∀ selector, ops.name? ops.empty selector = none
  /-- A pair is refused exactly if one of its sides is there. -/
  insert?_eq_none_iff : ∀ table name selector, ops.insert? table name selector = none ↔
    (ops.selector? table name).isSome = true ∨ (ops.name? table selector).isSome = true
  size_insert? : ∀ {table name selector larger}, ops.insert? table name selector = some larger →
    ops.size larger = ops.size table + 1
  selector?_insert? : ∀ {table name selector larger},
    ops.insert? table name selector = some larger → ∀ other,
      ops.selector? larger other = if other = name then some selector else ops.selector? table other
  name?_insert? : ∀ {table name selector larger},
    ops.insert? table name selector = some larger → ∀ other,
      ops.name? larger other = if other = selector then some name else ops.name? table other

/-- Declares a name with the size of the table as its selector, in thirty-two bits. -/
def declare (ops : Bimap α) (table : α) (name : String) : Option UInt32 × α :=
  let selector := UInt32.ofNat (ops.size table)
  match ops.insert? table name selector with
  | none => (none, table)
  | some larger => (some selector, larger)

/-- The table behind the declarations of names, one after another. -/
def declareAll (ops : Bimap α) (names : List String) : α :=
  names.foldl (fun table name => (ops.declare table name).2) ops.empty

theorem declareAll_concat (ops : Bimap α) (names : List String) (name : String) :
    ops.declareAll (names ++ [name]) = (ops.declare (ops.declareAll names) name).2 := by
  rw [declareAll, List.foldl_append]
  rfl

/-- The table gives the same answers as a table of selectors. -/
structure Agrees (ops : Bimap α) (table : α) (selectors : SelectorTable) : Prop where
  size : ops.size table = selectors.size
  selector? : ∀ name, (ops.selector? table name).map UInt32.toNat = selectors.selector? name
  name? : ∀ selector : UInt32, ops.name? table selector = selectors.name? selector.toNat

theorem Lawful.agrees_empty (lawful : ops.Lawful) : ops.Agrees ops.empty .empty where
  size := lawful.size_empty
  selector? name := by rw [lawful.selector?_empty]; rfl
  name? selector := by rw [lawful.name?_empty]; rfl

/-- **A declaration has the same answer, and keeps the agreement.** -/
theorem Agrees.declare {table : α} {selectors : SelectorTable} (agrees : ops.Agrees table selectors)
    (lawful : ops.Lawful) (name : String) :
    (ops.declare table name).1.map UInt32.toNat = (selectors.declare name).1 ∧
      ops.Agrees (ops.declare table name).2 (selectors.declare name).2 := by
  have next : UInt32.ofNat (ops.size table) = selectors.next :=
    congrArg UInt32.ofNat agrees.size
  -- either side refuses the pair exactly if the other one does
  have sides : ops.insert? table name selectors.next = none ↔ selectors.insert? name = none := by
    rw [lawful.insert?_eq_none_iff, SelectorTable.insert?_eq_none_iff,
      ← Option.isSome_map (f := UInt32.toNat), agrees.selector?, agrees.name?,
      Option.isSome_iff_ne_none, Option.isSome_iff_ne_none, ne_eq, ne_eq,
      SelectorTable.selector?_eq_none_iff, SelectorTable.name?_toNat_eq_none_iff, not_not, not_not]
  cases added : selectors.insert? name with
  | none =>
      rw [SelectorTable.declare_of_refused added, Bimap.declare, next]
      simp only [sides.2 added]
      exact ⟨rfl, agrees⟩
  | some more =>
      obtain ⟨larger, added'⟩ : ∃ larger, ops.insert? table name selectors.next = some larger := by
        rw [← Option.ne_none_iff_exists', ne_eq, sides, added]
        exact nofun
      rw [SelectorTable.declare, Bimap.declare, next]
      simp only [added, added']
      rw [SelectorTable.insert?, Option.ite_none_left_eq_some, not_or] at added
      obtain ⟨⟨fresh, free⟩, ⟨⟩⟩ := added
      refine ⟨rfl, ?_, fun other => ?_, fun other => ?_⟩
      · rw [lawful.size_insert? added', agrees.size, SelectorTable.size_concat]
      · rw [lawful.selector?_insert? added', SelectorTable.selector?_concat _ fresh]
        split
        · rfl
        · exact agrees.selector? other
      · rw [lawful.name?_insert? added', SelectorTable.name?_concat _ free, agrees.name?]

/-- **The same names get the same selectors**, whatever is declared. -/
theorem Lawful.agrees_declareAll (lawful : ops.Lawful) (names : List String) :
    ops.Agrees (ops.declareAll names) (SelectorTable.empty.declareAll names) := by
  induction names using List.reverseRecOn with
  | nil => exact lawful.agrees_empty
  | append_singleton names name ih =>
      rw [declareAll_concat, SelectorTable.declareAll_concat]
      exact (ih.declare lawful name).2

/-- A list of pairs that is looked up from both sides. -/
def ofPairs : Bimap (List (String × UInt32)) where
  empty := []
  size := List.length
  selector? pairs name := pairs.lookup name
  name? pairs selector := (pairs.map Prod.swap).lookup selector
  insert? pairs name selector :=
    if (pairs.lookup name).isSome ∨ ((pairs.map Prod.swap).lookup selector).isSome then none
    else some (pairs ++ [(name, selector)])

theorem lawful_ofPairs : ofPairs.Lawful where
  size_empty := rfl
  selector?_empty _ := rfl
  name?_empty _ := rfl
  insert?_eq_none_iff table name selector := by
    simp only [ofPairs]
    split
    case isTrue there => exact iff_of_true rfl there
    case isFalse apart => exact iff_of_false nofun apart
  size_insert? := by
    intro table name selector larger added
    rw [ofPairs, Option.ite_none_left_eq_some] at added
    obtain ⟨-, ⟨⟩⟩ := added
    exact List.length_append
  selector?_insert? := by
    intro table name selector larger added other
    rw [ofPairs, Option.ite_none_left_eq_some, not_or] at added
    obtain ⟨⟨fresh, -⟩, ⟨⟩⟩ := added
    rw [Option.not_isSome_iff_eq_none, lookup_eq_none_iff_not_mem] at fresh
    exact lookup_concat selector fresh other
  name?_insert? := by
    intro table name selector larger added other
    rw [ofPairs, Option.ite_none_left_eq_some, not_or] at added
    obtain ⟨⟨-, free⟩, ⟨⟩⟩ := added
    rw [Option.not_isSome_iff_eq_none, lookup_eq_none_iff_not_mem] at free
    rw [ofPairs]
    simp only [List.map_append, List.map_singleton, Prod.swap_prod_mk]
    exact lookup_concat name free other

end Bimap

namespace SelectorTable

/-- What the declaration of a name does behind those of others, which may have been refused. -/
structure Declares {α : Type} (ops : Bimap α) (before : List String) (name : String) : Prop where
  /-- A name is refused exactly if it was declared before. -/
  refused : ((empty.declareAll before).declare name).1 = none ↔ name ∈ before
  unchanged : name ∈ before → ((empty.declareAll before).declare name).2 = empty.declareAll before
  /-- A new name gets the number of different names before it. -/
  next : name ∉ before → ((empty.declareAll before).declare name).1 = some before.dedup.length
  /-- A table that is looked up from both sides gives the same answer. -/
  same : (ops.declare (ops.declareAll before) name).1.map UInt32.toNat =
    ((empty.declareAll before).declare name).1

/-- **Names and selectors are in a dense bijection** after any declarations, and no declaration
changes the selector of a name.  Whatever the table that is looked up from both sides, it has the
same names and selectors as long as these fit thirty-two bits. -/
theorem declarations_dense {α : Type} {ops : Bimap α} (lawful : ops.Lawful) {names : List String}
    (few : names.dedup.length ≤ UInt32.size) :
    Dense names (empty.declareAll names) ∧
    ops.Agrees (ops.declareAll names) (empty.declareAll names) ∧
    (∀ (before after : List String) (name : String), names = before ++ name :: after →
      Declares ops before name) ∧
    ∀ (before after : List String), names = before ++ after →
      ∀ (name : String) (selector : ℕ), (empty.declareAll before).selector? name = some selector →
        (empty.declareAll names).selector? name = some selector := by
  refine ⟨dense_declareAll few, lawful.agrees_declareAll names, ?_, ?_⟩
  · rintro before after name rfl
    have inside : before ++ [name] ⊆ before ++ name :: after := by simp
    have few' : (before ++ [name]).dedup.length ≤ UInt32.size :=
      Nat.le_trans (length_dedup_le inside) few
    have few'' : before.dedup.length ≤ UInt32.size :=
      Nat.le_trans (length_dedup_le (List.subset_append_left _ _)) few'
    have numbered := numbered_empty.declareAll before
    have members := @mem_names_declareAll name before few''
    have known : name ∈ before → (empty.declareAll before).declare name =
        (none, empty.declareAll before) := fun known => declare_of_mem (members.2 known)
    have fresh : name ∉ before →
        ((empty.declareAll before).declare name).1 = some before.dedup.length := by
      intro fresh
      have size := (dense_declareAll few'').size
      have room := Nat.lt_of_lt_of_le (length_dedup_lt fresh) few'
      rw [← size] at room
      rw [numbered.declare_of_not_mem (mt members.1 fresh) room, size]
    refine ⟨⟨fun none => ?_, fun mem => congrArg Prod.fst (known mem)⟩,
      fun mem => congrArg Prod.snd (known mem), fresh, ?_⟩
    · by_contra unknown
      rw [fresh unknown] at none
      cases none
    · exact ((lawful.agrees_declareAll before).declare lawful name).1
  · rintro before after rfl name selector found
    rw [declareAll_append]
    exact selector?_declareAll found after

/-- A name that is declared again is refused, and the next one gets the selector 2. -/
theorem declarations_dense_repeated :
    let names := ["deposit", "withdraw", "deposit", "balance"]
    Bimap.ofPairs.Lawful ∧ names.dedup.length ≤ UInt32.size ∧ Dense names (empty.declareAll names) ∧
    ((empty.declareAll ["deposit", "withdraw"]).declare "deposit").1 = none ∧
    ((empty.declareAll ["deposit", "withdraw", "deposit"]).declare "balance").1 = some 2 ∧
    (empty.declareAll names).selector? "withdraw" = some 1 := by
  intro names
  have few : names.dedup.length ≤ UInt32.size := by decide
  obtain ⟨dense, -, declares, stable⟩ := declarations_dense Bimap.lawful_ofPairs few
  refine ⟨Bimap.lawful_ofPairs, few, dense, ?_, ?_, ?_⟩
  · exact (declares ["deposit", "withdraw"] ["balance"] "deposit" rfl).refused.2 (by decide)
  · exact (declares ["deposit", "withdraw", "deposit"] [] "balance" rfl).next (by decide)
  · exact stable ["deposit", "withdraw"] ["deposit", "balance"] rfl "withdraw" 1 rfl

end SelectorTable

end Covenant
