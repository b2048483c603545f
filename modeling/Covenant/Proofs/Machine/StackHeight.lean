/-
**Stack heights.**

The table in `Covenant/Machine/Opcode.lean` says how many words every operation takes from the stack
and how many it leaves there.  Counting them along some code gives a height for each instruction,
whatever the words are.  This says something about paths through the code only if all ways to an
instruction agree on its height; code is *balanced* if they do and no operand is ever missing.

Most operations do not mind what lies below their operands.  Those that end a call or may go on
elsewhere do: here they find their operands on the stack and nothing else, so all of their ways on
have the same height, zero.

Main definitions:

* `Covenant.Machine.Opcode.pops`, `Covenant.Machine.Opcode.pushes` — the table, as numbers;
* `Covenant.Machine.Bytecode.Raises` — executing code from its first instruction to behind its last
  one turns one height into another;
* `Covenant.Machine.Bytecode.height` — the height in front of the instruction at a position;
* `Covenant.Machine.Bytecode.Balanced` — heights that all instructions agree with.

Main results:

* `Bytecode.Raises.append`, `Bytecode.raises_append_iff` — code is cut at a height;
* `Bytecode.Raises.balanced` — **code with heights and resolved jumps is balanced**;
* `Assembly.length_stack_of_path` — **on every path the stack has the height that the code says**.
-/

import Covenant.Proofs.Machine.ControlFlow

set_option relaxedAutoImplicit false
set_option autoImplicit false

namespace Covenant

namespace Machine

/-! ### The table -/

namespace Opcode

/-- The number of words that an operation takes from the stack. -/
def pops : Opcode → ℕ
  | add | mul | sub | div | mod | and | or => 2
  | lessThan | greaterThan | lessThanOrEqual | greaterThanOrEqual | equal => 2
  | not | pop | loadArgs | returning | jump => 1
  | mload | jumpi => 2
  | mstore => 3
  | push | loadFunc | jumpDst | exit => 0

/-- The number of words that an operation leaves on the stack. -/
def pushes : Opcode → ℕ
  | add | mul | sub | div | mod | and | or => 1
  | lessThan | greaterThan | lessThanOrEqual | greaterThanOrEqual | equal => 1
  | not | push | mload | loadFunc | loadArgs => 1
  | pop | mstore | returning | jump | jumpi | jumpDst | exit => 0

/-- The operations that end a call, go on elsewhere or are gone on at. -/
def isTurn : Opcode → Bool
  | returning | jump | jumpi | jumpDst | exit => true
  | _ => false

theorem pops_of_isBinary {opcode : Opcode} (binary : opcode.isBinary = true) : opcode.pops = 2 := by
  cases opcode <;> first | rfl | cases binary

theorem pushes_of_isBinary {opcode : Opcode} (binary : opcode.isBinary = true) :
    opcode.pushes = 1 := by
  cases opcode <;> first | rfl | cases binary

theorem pushes_of_isTurn {opcode : Opcode} (turn : opcode.isTurn = true) : opcode.pushes = 0 := by
  cases opcode <;> first | rfl | cases turn

theorem isTurn_of_isJump {opcode : Opcode} (jumps : opcode.isJump = true) :
    opcode.isTurn = true := by
  cases opcode <;> first | rfl | cases jumps

end Opcode

namespace Bytecode

/-! ### Heights along code -/

/-- Executing code from one end to the other turns the first height into the second.  No operand is
missing on the way, and nothing lies below those of a turn. -/
inductive Raises : ℕ → List Instruction → ℕ → Prop
  | nil {start : ℕ} : Raises start [] start
  | cons {start last : ℕ} {instruction : Instruction} {rest : List Instruction} (below : ℕ)
      (taken : start = below + instruction.opcode.pops)
      (bare : instruction.opcode.isTurn = true → below = 0)
      (tail : Raises (below + instruction.opcode.pushes) rest last) :
      Raises start (instruction :: rest) last

/-- The height in front of the instruction at a position, counted from the first instruction on. -/
def height (start : ℕ) : List Instruction → ℕ → ℕ
  | [], _ => start
  | instruction :: rest, position =>
    if position < instruction.size then start
    else height (start - instruction.opcode.pops + instruction.opcode.pushes) rest
      (position - instruction.size)

theorem height_zero (start : ℕ) (code : List Instruction) : height start code 0 = start := by
  cases code with
  | nil => rfl
  | cons instruction rest => rw [height, if_pos (size_pos instruction)]

namespace Raises

variable {start middle last : ℕ} {code more : List Instruction}

theorem append (front : Raises start code middle) (back : Raises middle more last) :
    Raises start (code ++ more) last := by
  induction front with
  | nil => exact back
  | cons below taken bare _ ih => exact .cons below taken bare (ih back)

/-- The height behind the front of some code is that of what follows. -/
theorem height_eq (front : Raises start code middle) (more : List Instruction) :
    height start (code ++ more) (size code) = middle := by
  induction front with
  | nil => exact height_zero _ _
  | @cons _ _ instruction rest below taken _ _ ih =>
      have behind : ¬ instruction.size + size rest < instruction.size := by omega
      rw [List.cons_append, height, size_cons, if_neg behind, Nat.add_sub_cancel_left, taken,
        Nat.add_sub_cancel]
      exact ih

end Raises

/-- Code is cut at the height behind its front. -/
theorem raises_append_iff {start last : ℕ} {code more : List Instruction} :
    Raises start (code ++ more) last ↔
      ∃ middle, Raises start code middle ∧ Raises middle more last := by
  constructor
  · intro whole
    induction code generalizing start with
    | nil => exact ⟨start, .nil, whole⟩
    | cons instruction rest ih =>
        cases whole with
        | cons below taken bare tail =>
            obtain ⟨middle, front, back⟩ := ih tail
            exact ⟨middle, .cons below taken bare front, back⟩
  · rintro ⟨middle, front, back⟩
    exact front.append back

/-! ### Balanced code -/

/-- Heights in front of the instructions of some code, zero at the beginning.  Every instruction
finds its operands, and the height that it leaves is the one in front of the next instruction and of
the one that it jumps to. -/
structure Balanced (code : List Instruction) (height : ℕ → ℕ) : Prop where
  start : height 0 = 0
  enough : ∀ {position instruction}, Starts code position instruction →
    instruction.opcode.pops ≤ height position
  falls : ∀ {position instruction}, Starts code position instruction →
    height (position + instruction.size) + instruction.opcode.pops =
      height position + instruction.opcode.pushes
  /-- A jump leads to the destination that is pushed right before it. -/
  leaps : ∀ {position instruction}, Starts code position instruction →
    instruction.opcode.isJump = true → ∃ destination, Sends code position destination ∧
      height destination + instruction.opcode.pops = height position + instruction.opcode.pushes
  mark : ∀ {position instruction}, Starts code position instruction →
    instruction.opcode = .jumpDst → height position = 0
  exit : ∀ {position instruction}, Starts code position instruction →
    instruction.opcode = .exit → height position = 0
  returning : ∀ {position instruction}, Starts code position instruction →
    instruction.opcode = .returning → height position = 1

namespace Raises

variable {code : List Instruction} {last : ℕ}

/-- The heights in front of an instruction and behind it. -/
theorem height_of_starts (raises : Raises 0 code last) {position : ℕ} {instruction : Instruction}
    (starts : Starts code position instruction) :
    ∃ below, height 0 code position = below + instruction.opcode.pops ∧
      height 0 code (position + instruction.size) = below + instruction.opcode.pushes ∧
      (instruction.opcode.isTurn = true → below = 0) := by
  obtain ⟨before, after, rfl, rfl⟩ := starts
  obtain ⟨middle, front, back⟩ := raises_append_iff.1 raises
  cases back with
  | cons below taken bare tail =>
      have through : Raises 0 (before ++ [instruction]) (below + instruction.opcode.pushes) :=
        front.append (.cons below taken bare .nil)
      have behind := through.height_eq after
      rw [List.append_assoc, size_append, size_cons, size_nil, Nat.add_zero] at behind
      exact ⟨below, (front.height_eq _).trans taken, behind, bare⟩

/-- A turn takes all that is on the stack. -/
theorem height_of_isTurn (raises : Raises 0 code last) {position : ℕ} {instruction : Instruction}
    (starts : Starts code position instruction) (turn : instruction.opcode.isTurn = true) :
    height 0 code position = instruction.opcode.pops := by
  obtain ⟨below, here, -, bare⟩ := raises.height_of_starts starts
  rw [here, bare turn, Nat.zero_add]

/-- **Code that can be executed from one end to the other and whose jumps are resolved is
balanced.** -/
theorem balanced (raises : Raises 0 code last) {destination : ℕ → ℕ}
    (resolved : Resolved code destination) : Balanced code (height 0 code) where
  start := height_zero 0 code
  enough starts := by
    obtain ⟨below, here, -, -⟩ := raises.height_of_starts starts
    omega
  falls starts := by
    obtain ⟨below, here, behind, -⟩ := raises.height_of_starts starts
    omega
  leaps := by
    intro position instruction starts jumps
    have mem : position ∈ Bytecode.jumps code := ⟨instruction, starts, jumps⟩
    have turn := Opcode.isTurn_of_isJump jumps
    -- nothing is left behind a jump, and nothing is there in front of a mark
    have here := raises.height_of_isTurn starts turn
    have there : height 0 code (destination position) = 0 :=
      raises.height_of_isTurn (resolved.bijective.mapsTo mem) rfl
    refine ⟨destination position, resolved.sends position mem, ?_⟩
    rw [here, there, Opcode.pushes_of_isTurn turn, Nat.add_comm]
  mark starts same := by
    have turn := raises.height_of_isTurn starts (by rw [same]; rfl)
    rwa [same] at turn
  exit starts same := by
    have turn := raises.height_of_isTurn starts (by rw [same]; rfl)
    rwa [same] at turn
  returning starts same := by
    have turn := raises.height_of_isTurn starts (by rw [same]; rfl)
    rwa [same] at turn

end Raises

/-- What is pushed for a jump is determined by the code. -/
theorem Sends.unique {code : List Instruction} {position destination other : ℕ}
    (h : Sends code position destination) (h' : Sends code position other) :
    destination = other := by
  obtain ⟨before, word, jump, after, here, -, rfl, rfl⟩ := h
  obtain ⟨front, last, second, back, there, -, place, rfl⟩ := h'
  have joined : before ++ [.push word] ++ jump :: after =
      front ++ [.push last] ++ second :: back := by
    rw [List.append_assoc, List.append_assoc]
    exact here.symm.trans there
  have same := eq_of_size_eq joined place.symm
  obtain ⟨-, pushed⟩ := List.append_inj' same rfl
  cases pushed
  rfl

end Bytecode

/-! ### Heights on paths -/

/-- An operation takes as many words from the stack as the table says, and leaves as many. -/
theorem length_stack_of_perform {world : World} {taken : Word → Bool} {code : List UInt8}
    {opcode : Opcode} {state next : State}
    (h : perform world taken code opcode state = some (.running next)) :
    next.stack.length + opcode.pops = state.stack.length + opcode.pushes := by
  obtain ⟨position, stack, memory⟩ := state
  -- the rule that applies shows the words on the stack; a rule with a condition is split once more
  unfold perform at h
  split at h
  case h_4 =>
      rw [eq_of_jump h]
      simp_all [Opcode.pops, Opcode.pushes]
  case h_5 =>
      split at h
      · rw [eq_of_jump h]
        simp_all [Opcode.pops, Opcode.pushes]
      · cases h
        simp_all [Opcode.pops, Opcode.pushes]
  case h_12 =>
      split at h
      · cases h
        simp_all [Opcode.pops_of_isBinary, Opcode.pushes_of_isBinary]
      · cases h
  all_goals first
    | (cases h <;> simp_all [Opcode.pops, Opcode.pushes])
    | (split at h <;> cases h; simp_all [Opcode.pops, Opcode.pushes])

end Machine

namespace Assembly

open Machine

variable {code : Assembly} {destination height : ℕ → ℕ}

/-- Where an operation goes on, the height differs from the one in front of it as the table says. -/
theorem height_of_perform (resolved : Bytecode.Resolved code.instructions destination)
    (balanced : Bytecode.Balanced code.instructions height) {world : World} {taken : Word → Bool}
    {state next : State} {opcode : Opcode} (on : code.OnTrack destination state)
    (starts : Bytecode.Starts code.instructions state.position (.plain opcode))
    (performed : perform world taken code.bytes opcode state = some (.running next)) :
    height next.position + opcode.pops = height state.position + opcode.pushes := by
  have falls := balanced.falls starts
  cases jumps : opcode.isJump with
  | false =>
      rw [position_of_perform jumps performed]
      exact falls
  | true =>
      -- the destination on the stack is the one that was pushed for this jump
      have mem : state.position ∈ Bytecode.jumps code.instructions := ⟨_, starts, jumps⟩
      obtain ⟨word, rest, top, target⟩ := on.ready mem
      rcases position_of_perform_jump jumps top performed with there | behind
      · obtain ⟨other, sends, leaps⟩ := balanced.leaps starts jumps
        rw [there, target, (resolved.sends _ mem).unique sends]
        exact leaps
      · rw [behind]
        exact falls

/-- A step from one height leads to the other. -/
theorem length_stack_of_step (sound : code.WellFormed)
    (resolved : Bytecode.Resolved code.instructions destination)
    (balanced : Bytecode.Balanced code.instructions height) {world : World} {state next : State}
    (on : code.OnTrack destination state) (same : state.stack.length = height state.position)
    (move : Free world code.bytes state next) : next.stack.length = height next.position := by
  obtain ⟨taken, moved⟩ := move
  rcases step_cases sound on.boundary moved with
    ⟨word, starts, pushed⟩ | ⟨opcode, starts, performed⟩
  · cases pushed
    rw [List.length_cons, same]
    exact (balanced.falls starts).symm
  · have heights := height_of_perform resolved balanced on starts performed
    have words := length_stack_of_perform performed
    omega

/-- **On every path the stack has the height that the code says.** -/
theorem length_stack_of_path (sound : code.WellFormed)
    (resolved : Bytecode.Resolved code.instructions destination)
    (balanced : Bytecode.Balanced code.instructions height) {world : World} {first last : State}
    {trace : List Access} (on : code.OnTrack destination first)
    (same : first.stack.length = height first.position)
    (path : Path (Free world code.bytes) code.bytes first trace last) :
    last.stack.length = height last.position := by
  induction path with
  | refl => exact same
  | head move _ ih =>
      obtain ⟨-, next⟩ := on.step sound resolved move
      exact ih next (length_stack_of_step sound resolved balanced on same move)

end Assembly

end Covenant
