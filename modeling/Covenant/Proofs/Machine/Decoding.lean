/-
**Bytes that are bytecode, and bytes that are not.**

`Covenant/Proofs/Machine/Bytecode.lean` shows that the bytes of well-formed instructions are
decoded.  This module shows that nothing else is.  What was read off the front of some bytes is a
well-formed instruction whose bytes stood there, so a decoded buffer is the bytes of its
instructions, one behind the other.  And where nothing can be read, the bytes before that place are
decoded and the byte that stands there says why: it is no opcode, or it is one whose operand is cut
short.

Main definitions:

* `Covenant.Machine.Bytecode.Blocks` — no instruction stands at the front of some bytes, and why;
* `Covenant.Machine.Bytecode.Fault.Locates` — a fault tells the first place that is no instruction.

Main results:

* `Bytecode.decode_eq_ok_iff` — bytes are decoded to the well-formed instructions they consist of;
* `Bytecode.blocks_of_decodeFrom` — by induction, where decoding stops;
* `Bytecode.decode_exact` — **decoding is exact in both directions**.
-/

import Covenant.Proofs.Machine.Bytecode

set_option relaxedAutoImplicit false
set_option autoImplicit false

namespace Covenant

open Machine

/-! ### Assembly without notes -/

namespace Assembly

/-- Some instructions, none of them with a note. -/
def bare (instructions : List Instruction) : Assembly :=
  ⟨instructions.map fun instruction => ⟨instruction, none⟩⟩

@[simp] theorem instructions_bare (instructions : List Instruction) :
    (bare instructions).instructions = instructions := by
  simp [Assembly.instructions, bare, Function.comp_def]

@[simp] theorem bytes_bare (instructions : List Instruction) :
    (bare instructions).bytes = instructions.flatMap Instruction.bytes := by
  rw [bytes, bare, List.flatMap_map]

theorem wellFormed_bare {instructions : List Instruction}
    (wellFormed : ∀ instruction ∈ instructions, instruction.WellFormed) :
    (bare instructions).WellFormed := by
  intro line mem
  obtain ⟨instruction, member, rfl⟩ := List.mem_map.1 mem
  exact wellFormed instruction member

end Assembly

namespace Machine

theorem Opcode.arity_eq_one {opcode : Opcode} (h : opcode.arity ≠ 0) : opcode.arity = 1 := by
  cases opcode <;> first | rfl | exact absurd rfl h

/-- A byte is no opcode exactly if no opcode has it as its code. -/
theorem Opcode.ofCode?_eq_none_iff {byte : UInt8} :
    ofCode? byte = none ↔ ∀ opcode : Opcode, opcode.code ≠ byte := by
  constructor
  · intro none opcode same
    rw [← ofCode?_eq_some_iff, none] at same
    cases same
  · intro other
    cases found : ofCode? byte with
    | none => rfl
    | some opcode => exact absurd (ofCode?_eq_some_iff.1 found) (other opcode)

namespace Bytecode

/-! ### One instruction -/

/-- No instruction stands at the front of some bytes, the first of which has this position. -/
inductive Blocks (position : ℕ) : List UInt8 → Fault → Prop where
  /-- The first byte is no opcode. -/
  | unknown {byte : UInt8} {rest : List UInt8} (other : ∀ opcode : Opcode, opcode.code ≠ byte) :
      Blocks position (byte :: rest) (.unknownOpcode position byte)
  /-- The first byte is an opcode that takes a word, and there are not enough bytes for one. -/
  | truncated {opcode : Opcode} {rest : List UInt8} (takes : opcode.arity = 1)
      (short : rest.length < Word.size) :
      Blocks position (opcode.code :: rest) (.truncated position opcode)

variable {position : ℕ} {code : List UInt8} {fault : Fault}

/-- What is read off the front is a well-formed instruction, and its bytes stood there. -/
theorem eq_of_decodeFront {front : Front UInt8 Instruction code.length}
    (h : decodeFront position code = .ok front) :
    front.value.WellFormed ∧ code = front.value.bytes ++ front.rest := by
  cases code with
  | nil => cases h
  | cons byte rest =>
      rw [decodeFront] at h
      split at h
      case h_1 => cases h
      case h_2 opcode known =>
        obtain rfl := Opcode.ofCode?_eq_some_iff.1 known
        split at h
        case isTrue none =>
          cases h
          exact ⟨by simp [Instruction.WellFormed, Instruction.plain, none], rfl⟩
        case isFalse takes =>
          have one := Opcode.arity_eq_one takes
          split at h <;> cases h
          refine ⟨by simp [Instruction.WellFormed, one], ?_⟩
          simp only [Instruction.bytes, List.cons_append, List.take_append_drop]

/-- Where nothing is read although there are bytes, one of two reasons holds. -/
theorem blocks_of_decodeFront (nonempty : code ≠ [])
    (h : decodeFront position code = .error fault) : Blocks position code fault := by
  cases code with
  | nil => exact absurd rfl nonempty
  | cons byte rest =>
      rw [decodeFront] at h
      split at h
      case h_1 none =>
        cases h
        exact .unknown (Opcode.ofCode?_eq_none_iff.1 none)
      case h_2 opcode known =>
        obtain rfl := Opcode.ofCode?_eq_some_iff.1 known
        split at h
        case isTrue => cases h
        case isFalse takes =>
          split at h <;> cases h
          rename_i short
          rw [List.length_take] at short
          exact .truncated (Opcode.arity_eq_one takes) (by omega)

/-! ### Whole buffers -/

/-- Reading on succeeds if the first instruction is read and then all others are. -/
theorem decodeFrom_eq_ok {instructions : List Instruction}
    (h : decodeFrom position code = .ok instructions) :
    (∀ instruction ∈ instructions, instruction.WellFormed) ∧
      instructions.flatMap Instruction.bytes = code := by
  fun_induction decodeFrom position code generalizing instructions with
  | case1 =>
      cases h
      exact ⟨by simp, rfl⟩
  | case2 => cases h
  | case3 position byte tail instruction rest shorter read ih =>
      obtain ⟨wellFormed, same⟩ := eq_of_decodeFront read
      cases more : decodeFrom (position + instruction.size) rest with
      | error fault =>
          rw [more] at h
          cases h
      | ok others =>
          rw [more] at h
          cases h
          obtain ⟨inner, bytes⟩ := ih more
          refine ⟨List.forall_mem_cons.2 ⟨wellFormed, inner⟩, ?_⟩
          rw [List.flatMap_cons, bytes, same]

/-- **Bytes are decoded to the well-formed instructions they consist of**, and to no others. -/
theorem decode_eq_ok_iff {instructions : List Instruction} : decode code = .ok instructions ↔
    (∀ instruction ∈ instructions, instruction.WellFormed) ∧
      instructions.flatMap Instruction.bytes = code := by
  constructor
  · exact decodeFrom_eq_ok
  · rintro ⟨wellFormed, rfl⟩
    have read := Assembly.decode_bytes (Assembly.wellFormed_bare wellFormed)
    rwa [Assembly.bytes_bare, Assembly.instructions_bare] at read

/-- Decoding stops where the bytes before are decoded and those behind are blocked. -/
theorem blocks_of_decodeFrom (h : decodeFrom position code = .error fault) :
    ∃ (instructions : List Instruction) (rest : List UInt8),
      (∀ instruction ∈ instructions, instruction.WellFormed) ∧
      code = instructions.flatMap Instruction.bytes ++ rest ∧
      Blocks (position + (instructions.flatMap Instruction.bytes).length) rest fault := by
  fun_induction decodeFrom position code with
  | case1 => cases h
  | case2 position byte tail fault' blocked =>
      cases h
      exact ⟨[], byte :: tail, by simp, rfl, blocks_of_decodeFront (List.cons_ne_nil _ _) blocked⟩
  | case3 position byte tail instruction rest shorter read ih =>
      obtain ⟨wellFormed, same⟩ := eq_of_decodeFront read
      cases more : decodeFrom (position + instruction.size) rest with
      | ok others =>
          rw [more] at h
          cases h
      | error fault' =>
          rw [more] at h
          cases h
          obtain ⟨others, behind, inner, bytes, blocks⟩ := ih more
          refine ⟨instruction :: others, behind, List.forall_mem_cons.2 ⟨wellFormed, inner⟩, ?_, ?_⟩
          · rw [same, List.flatMap_cons, List.append_assoc, ← bytes]
          · rw [List.flatMap_cons, List.length_append, Instruction.length_bytes wellFormed,
              ← Nat.add_assoc]
            exact blocks

/-- A fault tells the first place where no instruction stands, and what stands there instead. -/
structure Fault.Locates (fault : Fault) (code : List UInt8) (position : ℕ) : Prop where
  inside : position < code.length
  /-- The bytes before are bytecode. -/
  before : ∃ instructions, decode (code.take position) = .ok instructions
  /-- There are no other faults than these two. -/
  kind : fault = .unknownOpcode position code[position] ∨
    ∃ opcode, fault = .truncated position opcode
  /-- An opcode is unknown exactly if the byte is none. -/
  unknown : fault = .unknownOpcode position code[position] ↔
    ∀ opcode : Opcode, opcode.code ≠ code[position]
  /-- An instruction is truncated exactly if fewer than eight bytes are behind its opcode. -/
  truncated : ∀ opcode, fault = .truncated position opcode ↔
    opcode.code = code[position] ∧ opcode.arity = 1 ∧ code.length - (position + 1) < 8

/-- The fault at which bytes are blocked tells the place where they begin. -/
theorem Blocks.locates {instructions : List Instruction} {rest : List UInt8}
    (wellFormed : ∀ instruction ∈ instructions, instruction.WellFormed)
    (blocks : Blocks (instructions.flatMap Instruction.bytes).length rest fault) :
    fault.Locates (instructions.flatMap Instruction.bytes ++ rest)
      (instructions.flatMap Instruction.bytes).length := by
  have before : decode ((instructions.flatMap Instruction.bytes ++ rest).take
      (instructions.flatMap Instruction.bytes).length) = .ok instructions := by
    rw [List.take_left]
    exact decode_eq_ok_iff.2 ⟨wellFormed, rfl⟩
  cases blocks with
  | @unknown byte rest other =>
      refine ⟨by simp, ⟨_, before⟩, .inl (by simp), ?_, ?_⟩
      · simpa using other
      · intro opcode
        constructor
        · intro same
          cases same
        · rintro ⟨same, -⟩
          exact absurd (by simpa using same) (other opcode)
  | @truncated opcode rest takes short =>
      refine ⟨by simp, ⟨_, before⟩, .inr ⟨opcode, rfl⟩, ?_, ?_⟩
      · constructor
        · intro same
          cases same
        · intro other
          exact absurd (by simp) (other opcode)
      · intro opcode'
        constructor
        · intro same
          cases same
          refine ⟨by simp, takes, ?_⟩
          simp only [Word.size] at short
          simp only [List.length_append, List.length_cons]
          omega
        · rintro ⟨same, -⟩
          have known : Opcode.ofCode? opcode.code = some opcode' :=
            Opcode.ofCode?_eq_some_iff.2 (by simpa using same)
          rw [Opcode.ofCode?_code] at known
          cases known
          rfl

/-- **Decoding is exact in both directions**: a buffer is decoded to the well-formed instructions
whose bytes it consists of, as assembly it has its own length and bytes again, and if it is no
bytecode, the fault tells the first place where no instruction stands. -/
theorem decode_exact (code : List UInt8) :
    (∀ instructions, decode code = .ok instructions ↔
      (∀ instruction ∈ instructions, instruction.WellFormed) ∧
        instructions.flatMap Instruction.bytes = code) ∧
    (∀ instructions, decode code = .ok instructions →
      ∃ assembly, Assembly.ofBytecode code = .ok assembly ∧ assembly.instructions = instructions ∧
        assembly.position = code.length ∧ assembly.bytes = code) ∧
    ∀ fault, decode code = .error fault → ∃ position, fault.Locates code position := by
  refine ⟨fun _ => decode_eq_ok_iff, ?_, ?_⟩
  · intro instructions read
    obtain ⟨wellFormed, rfl⟩ := decode_eq_ok_iff.1 read
    refine ⟨.bare instructions, ?_, Assembly.instructions_bare _, ?_, Assembly.bytes_bare _⟩
    · rw [Assembly.ofBytecode, read]
      rfl
    · rw [← Assembly.length_bytes (Assembly.wellFormed_bare wellFormed), Assembly.bytes_bare]
  · intro fault blocked
    obtain ⟨instructions, rest, wellFormed, rfl, blocks⟩ := blocks_of_decodeFrom blocked
    rw [Nat.zero_add] at blocks
    exact ⟨_, blocks.locates wellFormed⟩

/-- An exit and a push behind it are decoded.  Without the end of its operand the push is truncated,
and a byte that is no opcode is unknown in its place. -/
theorem decode_exact_exit :
    (decode [0x30, 0x21, 0, 0, 0, 0, 0, 0, 0, 5] = .ok [.plain .exit, .push (.ofNat 5)] ∧
      ∃ assembly, Assembly.ofBytecode [0x30, 0x21, 0, 0, 0, 0, 0, 0, 0, 5] = .ok assembly ∧
        assembly.instructions = [.plain .exit, .push (.ofNat 5)] ∧ assembly.position = 10 ∧
        assembly.bytes = [0x30, 0x21, 0, 0, 0, 0, 0, 0, 0, 5]) ∧
    (decode [0x30, 0x21, 0] = .error (.truncated 1 .push) ∧
      ∃ position, (Fault.truncated 1 .push).Locates [0x30, 0x21, 0] position) ∧
    (decode [0x30, 0x31] = .error (.unknownOpcode 1 0x31) ∧
      ∃ position, (Fault.unknownOpcode 1 0x31).Locates [0x30, 0x31] position) := by
  have whole : decode [0x30, 0x21, 0, 0, 0, 0, 0, 0, 0, 5] = .ok [.plain .exit, .push (.ofNat 5)] :=
    ((decode_exact _).1 _).2 ⟨by decide, by decide⟩
  have cut : decode [0x30, 0x21, 0] = .error (.truncated 1 .push) := by cbv
  have other : decode [0x30, 0x31] = .error (.unknownOpcode 1 0x31) := by cbv
  exact ⟨⟨whole, (decode_exact _).2.1 _ whole⟩, ⟨cut, (decode_exact _).2.2 _ cut⟩,
    ⟨other, (decode_exact _).2.2 _ other⟩⟩

end Bytecode

end Machine

end Covenant
