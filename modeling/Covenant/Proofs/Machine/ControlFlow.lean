/-
**Jumps and marks.**

Where the jumps of some code stand, where its marks stand, and how one leads to the other.  A jump
takes its destination from the stack, so what it does shows in the code only if the instruction
right before it pushes the destination.  Code is *linked* if this is so for every jump in it; the
relation keeps the list of all jumps with their destinations and the list of all marks.

Main definitions:

* `Covenant.Machine.Bytecode.Starts` — an instruction of some code begins at a position;
* `Covenant.Machine.Bytecode.jumps`, `Covenant.Machine.Bytecode.marks` — the positions of jumps and
  of marks;
* `Covenant.Machine.Bytecode.Sends` — a jump stands right behind the push of a destination;
* `Covenant.Machine.Bytecode.Linked` — every jump does, and these are the jumps and the marks;
* `Covenant.Machine.Bytecode.Entrance` — where a path may enter code;
* `Covenant.Machine.Bytecode.Resolved` — every jump leads forward, and jumps and marks correspond
  one to one;
* `Covenant.Assembly.OnTrack` — the states of a path through resolved code.

Main results:

* `Bytecode.Linked.append` — linked pieces give linked code;
* `Bytecode.Linked.sends`, `Bytecode.Linked.mem_marks_iff` — the lists are those of the code;
* `Bytecode.Linked.resolved` — linked code is resolved if its lists correspond;
* `Assembly.step_cases` — what a step from where an instruction begins can do;
* `Assembly.OnTrack.step` — a path goes ahead and stays on its track;
* `Assembly.length_le` — **every path through resolved code is finite**.
-/

import Covenant.Proofs.Machine.Execution
import Mathlib.Data.List.Nodup
import Mathlib.Data.Set.Function

set_option relaxedAutoImplicit false
set_option autoImplicit false

namespace Covenant

namespace Machine

/-- The operations that go on elsewhere. -/
def Opcode.isJump : Opcode → Bool
  | jump | jumpi => true
  | _ => false

namespace Bytecode

/-! ### Positions -/

/-- The number of bytes that instructions take. -/
def size : List Instruction → ℕ
  | [] => 0
  | instruction :: rest => instruction.size + size rest

@[simp] theorem size_nil : size [] = 0 := rfl

@[simp] theorem size_cons (instruction : Instruction) (rest : List Instruction) :
    size (instruction :: rest) = instruction.size + size rest := rfl

@[simp] theorem size_append (code more : List Instruction) :
    size (code ++ more) = size code + size more := by
  induction code with
  | nil => simp
  | cons instruction rest ih => simp [ih, Nat.add_assoc]

theorem size_pos (instruction : Instruction) : 0 < instruction.size :=
  Opcode.size_pos _

/-- An instruction of some code begins at a position. -/
def Starts (code : List Instruction) (position : ℕ) (instruction : Instruction) : Prop :=
  ∃ before after, code = before ++ instruction :: after ∧ size before = position

/-- The positions of jumps. -/
def jumps (code : List Instruction) : Set ℕ :=
  {position | ∃ instruction, Starts code position instruction ∧ instruction.opcode.isJump = true}

/-- The positions of marks. -/
def marks (code : List Instruction) : Set ℕ :=
  {position | Starts code position (.plain .jumpDst)}

/-- A jump stands right behind the push of a destination. -/
def Sends (code : List Instruction) (position destination : ℕ) : Prop :=
  ∃ before word jump after, code = before ++ .push word :: jump :: after ∧
    jump.opcode.isJump = true ∧ size (before ++ [.push word]) = position ∧ word.toNat = destination

/-- Code has one beginning of each size. -/
theorem eq_of_size_eq {front back other rest : List Instruction}
    (same : front ++ back = other ++ rest) (size_eq : size front = size other) :
    front = other := by
  induction front generalizing other with
  | nil =>
      cases other with
      | nil => rfl
      | cons instruction other =>
          have pos := size_pos instruction
          simp only [size_nil, size_cons] at size_eq
          omega
  | cons instruction front ih =>
      cases other with
      | nil =>
          have pos := size_pos instruction
          simp only [size_nil, size_cons] at size_eq
          omega
      | cons first other =>
          simp only [List.cons_append, List.cons.injEq] at same
          obtain ⟨rfl, same⟩ := same
          simp only [size_cons, Nat.add_left_cancel_iff] at size_eq
          rw [ih same size_eq]

/-- Only one instruction begins at a position. -/
theorem Starts.unique {code : List Instruction} {position : ℕ} {instruction other : Instruction}
    (h : Starts code position instruction) (h' : Starts code position other) :
    instruction = other := by
  obtain ⟨before, after, rfl, rfl⟩ := h
  obtain ⟨front, back, same, size_eq⟩ := h'
  obtain rfl := eq_of_size_eq same size_eq.symm
  simpa using And.left (List.cons.inj (List.append_cancel_left same))

/-! ### Linked code -/

/-- Every jump stands right behind the push of a destination.  The lists hold the positions of jumps
with their destinations, and the positions of marks. -/
inductive Linked : ℕ → List Instruction → List (ℕ × ℕ) → List ℕ → Prop
  | nil {position : ℕ} : Linked position [] [] []
  | other {position : ℕ} {instruction : Instruction} {rest : List Instruction}
      {links : List (ℕ × ℕ)} {marks : List ℕ} (calm : instruction.opcode.isJump = false)
      (unmarked : instruction ≠ .plain .jumpDst)
      (tail : Linked (position + instruction.size) rest links marks) :
      Linked position (instruction :: rest) links marks
  | mark {position : ℕ} {rest : List Instruction} {links : List (ℕ × ℕ)} {marks : List ℕ}
      (tail : Linked (position + 1) rest links marks) :
      Linked position (.plain .jumpDst :: rest) links (position :: marks)
  | link {position : ℕ} {word : Word} {jump : Instruction} {rest : List Instruction}
      {links : List (ℕ × ℕ)} {marks : List ℕ} (jumps : jump.opcode.isJump = true)
      (tail : Linked (position + 9 + jump.size) rest links marks) :
      Linked position (.push word :: jump :: rest) ((position + 9, word.toNat) :: links) marks

namespace Linked

variable {position : ℕ} {code more : List Instruction} {links others : List (ℕ × ℕ)}
variable {marks further : List ℕ}

/-- Linked pieces give linked code. -/
theorem append (front : Linked position code links marks)
    (back : Linked (position + size code) more others further) :
    Linked position (code ++ more) (links ++ others) (marks ++ further) := by
  induction front with
  | nil => exact back
  | other calm unmarked _ ih => exact .other calm unmarked (ih (by rwa [Nat.add_assoc]))
  | mark _ ih => exact .mark (ih (by rwa [Nat.add_assoc]))
  | link jumps _ ih => exact .link jumps (ih (by rwa [Nat.add_assoc, Nat.add_assoc]))

theorem le_of_mem_marks (linked : Linked position code links marks) :
    ∀ mark ∈ marks, position ≤ mark ∧ mark < position + size code := by
  induction linked with
  | nil => simp
  | @other _ instruction _ _ _ _ _ _ ih =>
      intro mark mem
      have bounds := ih mark mem
      simp only [size_cons]
      omega
  | mark _ ih =>
      rw [List.forall_mem_cons]
      have one : (Instruction.plain .jumpDst).size = 1 := rfl
      refine ⟨by simp only [size_cons]; omega, fun mark mem => ?_⟩
      have bounds := ih mark mem
      simp only [size_cons]
      omega
  | link _ _ ih =>
      intro mark mem
      have bounds := ih mark mem
      have nine : ∀ word, (Instruction.push word).size = 9 := fun _ => rfl
      simp only [size_cons, nine]
      omega

theorem le_of_mem_links (linked : Linked position code links marks) :
    ∀ link ∈ links, position ≤ link.1 ∧ link.1 < position + size code := by
  induction linked with
  | nil => simp
  | other _ _ _ ih =>
      intro link mem
      have bounds := ih link mem
      simp only [size_cons]
      omega
  | mark _ ih =>
      intro link mem
      have bounds := ih link mem
      have one : (Instruction.plain .jumpDst).size = 1 := rfl
      simp only [size_cons]
      omega
  | @link _ word jump _ _ _ _ _ ih =>
      have nine : (Instruction.push word).size = 9 := rfl
      have pos := size_pos jump
      rw [List.forall_mem_cons]
      refine ⟨by simp only [size_cons]; omega, fun link mem => ?_⟩
      have bounds := ih link mem
      simp only [size_cons]
      omega

/-- Marks are listed once. -/
theorem nodup_marks (linked : Linked position code links marks) : marks.Nodup := by
  induction linked with
  | nil => exact List.nodup_nil
  | other _ _ _ ih => exact ih
  | mark tail ih =>
      refine List.nodup_cons.2 ⟨fun mem => ?_, ih⟩
      have bounds := tail.le_of_mem_marks _ mem
      omega
  | link _ _ ih => exact ih

/-- Jumps are listed once. -/
theorem nodup_links (linked : Linked position code links marks) :
    (links.map Prod.fst).Nodup := by
  induction linked with
  | nil => exact List.nodup_nil
  | other _ _ _ ih => exact ih
  | mark _ ih => exact ih
  | @link _ _ jump _ _ _ _ tail ih =>
      refine List.nodup_cons.2 ⟨fun mem => ?_, ih⟩
      obtain ⟨link, mem, same⟩ := List.mem_map.1 mem
      have bounds := tail.le_of_mem_links link mem
      have pos := size_pos jump
      omega

/-- Every jump of the code is listed, and stands behind the push of its destination. -/
theorem sends (linked : Linked position code links marks) {before after : List Instruction}
    {jump : Instruction} (here : code = before ++ jump :: after)
    (jumps : jump.opcode.isJump = true) :
    ∃ front word, before = front ++ [.push word] ∧
      (position + size before, word.toNat) ∈ links := by
  induction linked generalizing before with
  | nil => simp at here
  | @other _ instruction _ _ _ calm _ _ ih =>
      cases before with
      | nil =>
          cases here
          rw [jumps] at calm
          cases calm
      | cons first before =>
          cases here
          obtain ⟨front, word, rfl, mem⟩ := ih rfl
          exact ⟨instruction :: front, word, rfl, by rwa [size_cons, ← Nat.add_assoc]⟩
  | mark _ ih =>
      cases before with
      | nil =>
          cases here
          cases jumps
      | cons first before =>
          cases here
          obtain ⟨front, word, rfl, mem⟩ := ih rfl
          exact ⟨.plain .jumpDst :: front, word, rfl, by rwa [size_cons, ← Nat.add_assoc]⟩
  | @link _ word other _ _ _ _ _ ih =>
      rcases before with _ | ⟨first, _ | ⟨second, before⟩⟩
      · cases here
        cases jumps
      · cases here
        exact ⟨[], word, rfl, .head _⟩
      · cases here
        obtain ⟨front, last, rfl, mem⟩ := ih rfl
        refine ⟨.push word :: other :: front, last, rfl, .tail _ ?_⟩
        rw [size_cons, size_cons, ← Nat.add_assoc, ← Nat.add_assoc]
        exact mem

/-- Every listed jump stands in the code. -/
theorem exists_of_mem_links (linked : Linked position code links marks) {link : ℕ × ℕ}
    (mem : link ∈ links) : ∃ before word jump after,
      code = before ++ .push word :: jump :: after ∧ jump.opcode.isJump = true ∧
      position + size (before ++ [.push word]) = link.1 ∧ word.toNat = link.2 := by
  induction linked with
  | nil => cases mem
  | @other _ instruction _ _ _ _ _ _ ih =>
      obtain ⟨before, word, jump, after, rfl, jumps, place, target⟩ := ih mem
      exact ⟨instruction :: before, word, jump, after, rfl, jumps,
        by rw [← place, List.cons_append, size_cons, Nat.add_assoc], target⟩
  | mark _ ih =>
      obtain ⟨before, word, jump, after, rfl, jumps, place, target⟩ := ih mem
      refine ⟨.plain .jumpDst :: before, word, jump, after, rfl, jumps, ?_, target⟩
      rw [← place, List.cons_append, size_cons, ← Nat.add_assoc]
      rfl
  | @link _ word jump _ _ _ jumps _ ih =>
      rcases List.mem_cons.1 mem with rfl | mem
      · exact ⟨[], word, jump, _, rfl, jumps, rfl, rfl⟩
      · obtain ⟨before, last, other, after, rfl, jumps, place, target⟩ := ih mem
        refine ⟨.push word :: jump :: before, last, other, after, rfl, jumps, ?_, target⟩
        rw [← place, List.cons_append, List.cons_append, size_cons, size_cons, ← Nat.add_assoc,
          ← Nat.add_assoc]
        rfl

/-- The listed marks are those of the code. -/
theorem mem_marks_iff (linked : Linked position code links marks) {place : ℕ} :
    place ∈ marks ↔ ∃ before after, code = before ++ .plain .jumpDst :: after ∧
      position + size before = place := by
  constructor
  · intro mem
    induction linked with
    | nil => cases mem
    | @other _ instruction _ _ _ _ _ _ ih =>
        obtain ⟨before, after, rfl, same⟩ := ih mem
        exact ⟨instruction :: before, after, rfl, by rw [← same, size_cons, Nat.add_assoc]⟩
    | mark _ ih =>
        rcases List.mem_cons.1 mem with rfl | mem
        · exact ⟨[], _, rfl, rfl⟩
        · obtain ⟨before, after, rfl, same⟩ := ih mem
          refine ⟨.plain .jumpDst :: before, after, rfl, ?_⟩
          rw [← same, size_cons, ← Nat.add_assoc]
          rfl
    | @link _ word jump _ _ _ _ _ ih =>
        obtain ⟨before, after, rfl, same⟩ := ih mem
        refine ⟨.push word :: jump :: before, after, rfl, ?_⟩
        rw [← same, size_cons, size_cons, ← Nat.add_assoc, ← Nat.add_assoc]
        rfl
  · rintro ⟨before, after, here, rfl⟩
    induction linked generalizing before with
    | nil => simp at here
    | other _ unmarked _ ih =>
        cases before with
        | nil =>
            cases here
            exact absurd rfl unmarked
        | cons first before =>
            cases here
            rw [size_cons, ← Nat.add_assoc]
            exact ih before rfl
    | mark _ ih =>
        cases before with
        | nil => exact .head _
        | cons first before =>
            cases here
            rw [size_cons, ← Nat.add_assoc]
            exact .tail _ (ih before rfl)
    | link jumps _ ih =>
        rcases before with _ | ⟨first, _ | ⟨second, before⟩⟩
        · cases here
        · cases here
          cases jumps
        · cases here
          rw [size_cons, size_cons, ← Nat.add_assoc, ← Nat.add_assoc]
          exact ih before rfl

end Linked

/-! ### Resolved code -/

/-- A path may enter code at its first byte, and where an instruction begins that is no jump. -/
def Entrance (code : List Instruction) (position : ℕ) : Prop :=
  position = 0 ∨ ∃ instruction, Starts code position instruction ∧ instruction.opcode.isJump = false

/-- Every jump stands behind the push of its destination, which lies ahead, and the jumps of the
code correspond to its marks one to one. -/
structure Resolved (code : List Instruction) (destination : ℕ → ℕ) : Prop where
  sends : ∀ position ∈ jumps code, Sends code position (destination position)
  forward : ∀ position ∈ jumps code, position < destination position
  bijective : Set.BijOn destination (jumps code) (marks code)

/-- A list of pairs with different first components is a function. -/
theorem exists_function {links : List (ℕ × ℕ)} (nodup : (links.map Prod.fst).Nodup) :
    ∃ destination : ℕ → ℕ, ∀ link ∈ links, destination link.1 = link.2 := by
  induction links with
  | nil => exact ⟨id, by simp⟩
  | cons link rest ih =>
      rw [List.map_cons, List.nodup_cons] at nodup
      obtain ⟨destination, agrees⟩ := ih nodup.2
      refine ⟨Function.update destination link.1 link.2, List.forall_mem_cons.2 ⟨by simp, ?_⟩⟩
      intro other mem
      have distinct : other.1 ≠ link.1 := fun same =>
        nodup.1 (same ▸ List.mem_map_of_mem mem)
      rw [Function.update_of_ne distinct, agrees other mem]

namespace Linked

variable {code : List Instruction} {links : List (ℕ × ℕ)} {marks : List ℕ}

/-- Every jump of the code is listed. -/
theorem exists_link (linked : Linked 0 code links marks) {position : ℕ}
    (mem : position ∈ jumps code) : ∃ destination, (position, destination) ∈ links := by
  obtain ⟨jump, ⟨before, after, here, rfl⟩, jumps⟩ := mem
  obtain ⟨front, word, -, mem⟩ := linked.sends here jumps
  rw [Nat.zero_add] at mem
  exact ⟨_, mem⟩

/-- Linked code is resolved if its jumps lead ahead and to its marks, to each mark one. -/
theorem resolved (linked : Linked 0 code links marks) (answered : marks.Perm (links.map Prod.snd))
    (forward : ∀ link ∈ links, link.1 < link.2) :
    ∃ destination, Resolved code destination ∧ ∀ link ∈ links, destination link.1 = link.2 := by
  obtain ⟨destination, agrees⟩ := exists_function linked.nodup_links
  have once : (links.map Prod.snd).Nodup := answered.nodup_iff.1 linked.nodup_marks
  refine ⟨destination, ⟨?_, ?_, ?_, ?_, ?_⟩, agrees⟩
  · intro position mem
    obtain ⟨target, mem⟩ := linked.exists_link mem
    obtain ⟨before, word, jump, after, here, jumps, place, same⟩ := linked.exists_of_mem_links mem
    rw [Nat.zero_add] at place
    exact ⟨before, word, jump, after, here, jumps, place, by rw [same, ← agrees _ mem]⟩
  · intro position mem
    obtain ⟨target, mem⟩ := linked.exists_link mem
    have ahead := forward _ mem
    rwa [← agrees _ mem] at ahead
  · intro position mem
    obtain ⟨target, mem⟩ := linked.exists_link mem
    have marked : target ∈ marks := answered.mem_iff.2 (List.mem_map_of_mem mem)
    obtain ⟨before, after, here, place⟩ := linked.mem_marks_iff.1 marked
    rw [Nat.zero_add] at place
    rw [agrees _ mem]
    exact ⟨before, after, here, place⟩
  · intro first mem second mem' same
    obtain ⟨target, mem⟩ := linked.exists_link mem
    obtain ⟨other, mem'⟩ := linked.exists_link mem'
    rw [agrees _ mem, agrees _ mem'] at same
    exact congrArg Prod.fst (List.inj_on_of_nodup_map once mem mem' same)
  · rintro place ⟨before, after, here, size_eq⟩
    have marked : place ∈ marks :=
      linked.mem_marks_iff.2 ⟨before, after, here, by rw [Nat.zero_add, size_eq]⟩
    obtain ⟨link, mem, same⟩ := List.mem_map.1 (answered.mem_iff.1 marked)
    obtain ⟨front, word, jump, back, there, jumps, where_, -⟩ := linked.exists_of_mem_links mem
    refine ⟨link.1, ⟨jump, ⟨front ++ [.push word], back, by simpa using there, ?_⟩, jumps⟩, ?_⟩
    · rw [← where_, Nat.zero_add]
    · rw [agrees _ mem, same]

end Linked

end Bytecode

/-! ### Paths are finite -/

/-- An operation that is no jump leads behind itself. -/
theorem position_of_perform {world : World} {taken : Word → Bool} {code : List UInt8}
    {opcode : Opcode} {state next : State} (calm : opcode.isJump = false)
    (h : perform world taken code opcode state = some (.running next)) :
    next.position = state.position + opcode.size := by
  unfold perform at h
  split at h
  case h_4 => cases calm
  case h_5 => cases calm
  all_goals first
    | cases h; rfl
    | cases h
    | (split at h <;> cases h; rfl)

/-- A jump that goes on does so at its destination, with this stack. -/
theorem eq_of_jump {code : List UInt8} {state next : State} {word : Word} {stack : List Word}
    (h : state.jump code word stack = some (.running next)) :
    next = ⟨word.toNat, stack, state.memory⟩ := by
  unfold State.jump at h
  split at h
  · cases h
    rfl
  · cases h

/-- A jump leads to the destination on the stack, or is not taken. -/
theorem position_of_perform_jump {world : World} {taken : Word → Bool} {code : List UInt8}
    {opcode : Opcode} {state next : State} {word : Word} {rest : List Word}
    (jumps : opcode.isJump = true) (top : state.stack = word :: rest)
    (h : perform world taken code opcode state = some (.running next)) :
    next.position = word.toNat ∨ next.position = state.position + opcode.size := by
  obtain ⟨position, stack, memory⟩ := state
  subst top
  cases opcode <;> cases jumps
  · rw [eq_of_jump h]
    exact .inl rfl
  · cases rest with
    | nil => cases h
    | cons condition rest =>
        simp only [perform] at h
        split at h
        · rw [eq_of_jump h]
          exact .inl rfl
        · cases h
          exact .inr rfl

end Machine

namespace Assembly

open Machine

variable {code : Assembly}

theorem size_instructions (code : Assembly) : Bytecode.size code.instructions = code.position := by
  obtain ⟨lines⟩ := code
  induction lines with
  | nil => rfl
  | cons line rest ih =>
      simp only [instructions, position, List.map_cons, List.foldr_cons,
        Bytecode.size_cons] at ih ⊢
      rw [ih]

/-- The instruction that begins at a position is decoded there. -/
theorem decodeAt_of_starts (sound : code.WellFormed) {position : ℕ} {instruction : Instruction}
    (starts : Bytecode.Starts code.instructions position instruction) :
    Bytecode.decodeAt code.bytes position = .ok instruction := by
  obtain ⟨before, after, here, rfl⟩ := starts
  obtain ⟨front, rest, lines, rfl, back⟩ := List.map_eq_append_iff.1 here
  obtain ⟨line, behind, rfl, rfl, rfl⟩ := List.map_eq_cons_iff.1 back
  have length : (mk front).bytes.length = Bytecode.size (front.map Line.instruction) := by
    rw [length_bytes fun l mem => sound l (by simp [lines, mem])]
    exact (size_instructions ⟨front⟩).symm
  have bytes : code.bytes =
      (mk front).bytes ++ (line.instruction.bytes ++ (mk behind).bytes) := by
    simp [Assembly.bytes, lines]
  rw [bytes, ← length]
  exact Bytecode.decodeAt_append (sound line (by simp [lines])) _ _

/-- Nothing is decoded behind the last instruction. -/
theorem step_position (sound : code.WellFormed) {world : World} {taken : Word → Bool}
    {state : State} (place : state.position = code.position) :
    step world taken code.bytes state = none := by
  have past : code.bytes.drop state.position = [] := by
    rw [place, ← length_bytes sound, List.drop_length]
  rw [step, Bytecode.decodeAt, past]
  rfl

/-- A step from where an instruction begins pushes its operand, or performs its operation. -/
theorem step_cases (sound : code.WellFormed) {world : World} {taken : Word → Bool}
    {state next : State}
    (boundary : ∃ before after, code.instructions = before ++ after ∧
      Bytecode.size before = state.position)
    (moved : step world taken code.bytes state = some (.running next)) :
    (∃ word, Bytecode.Starts code.instructions state.position (.push word) ∧
      state.next .push (word :: state.stack) state.memory = some (.running next)) ∨
    ∃ opcode, Bytecode.Starts code.instructions state.position (.plain opcode) ∧
      perform world taken code.bytes opcode state = some (.running next) := by
  obtain ⟨before, after, here, place⟩ := boundary
  cases after with
  | nil =>
      rw [step_position sound] at moved
      · cases moved
      · rw [← size_instructions, here, List.append_nil, place]
  | cons instruction after =>
      have starts : Bytecode.Starts code.instructions state.position instruction :=
        ⟨before, after, here, place⟩
      have decoded := decodeAt_of_starts sound starts
      obtain ⟨opcode, operand⟩ := instruction
      cases operand with
      | some word =>
          have push : opcode = .push := by
            by_contra other
            rw [step, decoded] at moved
            cases opcode <;> first | exact other rfl | cases moved
          subst push
          rw [step_of_push decoded] at moved
          exact .inl ⟨word, starts, moved⟩
      | none =>
          rw [step_of_plain decoded] at moved
          exact .inr ⟨opcode, starts, moved⟩

/-- The state of a path through resolved code: an instruction begins at its position or the code
ends there, and if it is a jump, its destination is on the stack. -/
structure OnTrack (code : Assembly) (destination : ℕ → ℕ) (state : State) : Prop where
  boundary : ∃ before after, code.instructions = before ++ after ∧
    Bytecode.size before = state.position
  ready : state.position ∈ Bytecode.jumps code.instructions →
    ∃ word rest, state.stack = word :: rest ∧ word.toNat = destination state.position

variable {destination : ℕ → ℕ}

/-- Where an instruction that is no jump begins, a path is on its track. -/
theorem onTrack_of_starts {state : State} {instruction : Instruction}
    (starts : Bytecode.Starts code.instructions state.position instruction)
    (calm : instruction.opcode.isJump = false) : code.OnTrack destination state := by
  refine ⟨?_, fun mem => ?_⟩
  · obtain ⟨before, after, here, place⟩ := starts
    exact ⟨before, _, here, place⟩
  · obtain ⟨jump, there, jumps⟩ := mem
    rw [starts.unique there, jumps] at calm
    cases calm

/-- Where a path may enter resolved code, it is on its track: no jump is the first instruction,
since each stands behind a push. -/
theorem onTrack_of_entrance (resolved : Bytecode.Resolved code.instructions destination)
    {state : State} (entrance : Bytecode.Entrance code.instructions state.position) :
    code.OnTrack destination state := by
  rcases entrance with first | ⟨instruction, starts, calm⟩
  · refine ⟨⟨[], _, rfl, first.symm⟩, fun mem => ?_⟩
    obtain ⟨before, word, jump, after, -, -, place, -⟩ := resolved.sends _ mem
    have pos := Bytecode.size_pos (.push word)
    simp only [Bytecode.size_append, Bytecode.size_cons, Bytecode.size_nil, first] at place
    omega
  · exact onTrack_of_starts starts calm

/-- Behind an instruction a path is on its track, if the instruction left what it pushes on the
stack. -/
theorem onTrack_behind (resolved : Bytecode.Resolved code.instructions destination)
    {position : ℕ} {instruction : Instruction} {state : State}
    (starts : Bytecode.Starts code.instructions position instruction)
    (behind : state.position = position + instruction.size)
    (pushed : ∀ word, instruction = .push word → ∃ rest, state.stack = word :: rest) :
    code.OnTrack destination state := by
  obtain ⟨before, after, here, rfl⟩ := starts
  have size_eq : Bytecode.size (before ++ [instruction]) = state.position := by simp [behind]
  refine ⟨⟨before ++ [instruction], after, by simpa using here, size_eq⟩, fun mem => ?_⟩
  obtain ⟨front, word, jump, back, there, -, place, target⟩ := resolved.sends _ mem
  -- the push of the destination ends where the instruction ends, so it is the instruction
  have joined : before ++ [instruction] ++ after = front ++ [.push word] ++ jump :: back := by
    rw [List.append_assoc, List.append_assoc]
    exact here.symm.trans there
  have same := Bytecode.eq_of_size_eq joined (by rw [size_eq, place])
  obtain ⟨-, last⟩ := List.append_inj' same rfl
  obtain ⟨rest, top⟩ := pushed word (List.cons.inj last).1
  exact ⟨word, rest, top, target⟩

/-- Every step of a path through resolved code goes ahead and stays on the track. -/
theorem OnTrack.step (sound : code.WellFormed)
    (resolved : Bytecode.Resolved code.instructions destination) {world : World}
    {state next : State} (on : code.OnTrack destination state)
    (move : Free world code.bytes state next) :
    state.position < next.position ∧ code.OnTrack destination next := by
  obtain ⟨taken, moved⟩ := move
  rcases step_cases sound on.boundary moved with
    ⟨word, starts, pushed⟩ | ⟨opcode, starts, performed⟩
  · cases pushed
    refine ⟨Nat.lt_add_of_pos_right (Bytecode.size_pos (.push word)),
      onTrack_behind resolved starts rfl fun other same => ?_⟩
    cases same
    exact ⟨state.stack, rfl⟩
  · have ahead := Bytecode.size_pos (.plain opcode)
    have fallen : next.position = state.position + opcode.size →
        state.position < next.position ∧ code.OnTrack destination next := by
      intro behind
      refine ⟨behind ▸ Nat.lt_add_of_pos_right ahead, onTrack_behind resolved starts behind ?_⟩
      rintro word ⟨⟩
    cases jumps : opcode.isJump with
    | false => exact fallen (position_of_perform jumps performed)
    | true =>
        -- the destination was pushed, and a jump that is not taken goes on behind itself
        have mem : state.position ∈ Bytecode.jumps code.instructions := ⟨_, starts, jumps⟩
        obtain ⟨word, rest, top, target⟩ := on.ready mem
        rcases position_of_perform_jump jumps top performed with there | behind
        · rw [target] at there
          have marked := resolved.bijective.mapsTo mem
          rw [← there] at marked
          exact ⟨there ▸ resolved.forward _ mem, onTrack_of_starts marked rfl⟩
        · exact fallen behind

/-- **Every path through resolved code is finite**, and has at most as many steps as the code has
bytes.  A path does not enter the code at a jump, whose destination it would have to bring along on
the stack. -/
theorem length_le (sound : code.WellFormed)
    (resolved : Bytecode.Resolved code.instructions destination) {world : World} {length : ℕ}
    {states : ℕ → State} (entrance : Bytecode.Entrance code.instructions (states 0).position)
    (moves : ∀ index < length, Free world code.bytes (states index) (states (index + 1))) :
    length ≤ code.position := by
  -- the position grows with every step, and stays within the code
  have tracked : ∀ index ≤ length, index ≤ (states index).position ∧
      code.OnTrack destination (states index) := by
    intro index le
    induction index with
    | zero => exact ⟨Nat.zero_le _, onTrack_of_entrance resolved entrance⟩
    | succ index ih =>
        obtain ⟨grown, on⟩ := ih (by omega)
        obtain ⟨ahead, next⟩ := on.step sound resolved (moves index (by omega))
        exact ⟨by omega, next⟩
  obtain ⟨grown, ⟨before, after, here, place⟩, -⟩ := tracked length (Nat.le_refl _)
  rw [← size_instructions, here, Bytecode.size_append]
  omega

end Assembly

end Covenant
