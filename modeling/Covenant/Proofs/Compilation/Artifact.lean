/-
**What an artifact says.**

An artifact holds the code of a contract twice, as text with notes and as bytecode in hexadecimal.
Both are written from one compilation, and each is read back in full: the text with all notes, the
bytecode without them.  For the text this depends on where the contract came from.  A contract that
was built by hand may have names that no note can repeat, and one that was read from a text has
none.

Main definitions:

* `Covenant.Artifact.Agrees` — what is read of an artifact is the code that it was made of.

Main results:

* `Assembly.ofBytecode_bytes` — bytecode has the instructions of the code;
* `Artifact.agrees_ofText` — **the representations of an artifact agree**.
-/

import Covenant.Artifact
import Covenant.Proofs.Contract.RoundTrip
import Covenant.Proofs.Emission.Notes
import Covenant.Proofs.Text.Hex

set_option relaxedAutoImplicit false
set_option autoImplicit false

namespace Covenant

/-- From the bytecode of well-formed code its instructions are read, without the notes. -/
theorem Assembly.ofBytecode_bytes {code : Assembly} (sound : code.WellFormed) :
    ∃ bare, ofBytecode code.bytes = .ok bare ∧ bare.instructions = code.instructions ∧
      bare.position = code.position := by
  refine ⟨⟨code.instructions.map fun instruction => ⟨instruction, none⟩⟩, ?_, ?_, ?_⟩
  · rw [ofBytecode, decode_bytes sound]
    rfl
  · simp [instructions]
  · simp [position, instructions, List.foldr_map]

namespace Artifact

/-- What is read of an artifact is the code that it was made of. -/
structure Agrees (artifact : Artifact) (code : Assembly) : Prop where
  /-- The hexadecimal text is that of the bytes. -/
  bytecode : artifact.bytecode = .ok code.bytes
  /-- From the bytes alone all instructions are read back. -/
  instructions : ∃ bare, Assembly.ofBytecode code.bytes = .ok bare ∧
    bare.instructions = code.instructions ∧ bare.position = code.position
  /-- From the text the code is read back, with every note. -/
  assembly : Assembly.ofText artifact.assembly = .ok code

/-- The artifact of a well-formed contract agrees with its code. -/
theorem agrees_ofCompilation {contract : Contract} {compilation : Compilation}
    (valid : contract.WellFormed) (compiled : Compilation.ofContract contract = .ok compilation)
    (interface : Interface) : (ofCompilation compilation interface).Agrees compilation.code where
  bytecode := Text.Hex.decode_encode _
  instructions := Assembly.ofBytecode_bytes (Compilation.wellFormed_ofContract compiled)
  assembly := Assembly.ofText_render (Compilation.legible_ofContract valid compiled)

/-- **The representations of an artifact agree**, whatever characters the literals of the text
hold. -/
theorem agrees_ofText {source : String} {artifact : Artifact} (h : ofText source = .ok artifact) :
    ∃ contract compilation, Contract.ofText source = .ok contract ∧
      Compilation.ofContract contract = .ok compilation ∧
      artifact = ofCompilation compilation (Interface.ofContract contract) ∧
      artifact.Agrees compilation.code := by
  rw [ofText] at h
  cases read : Contract.ofText source with
  | error mistake =>
      rw [read] at h
      cases h
  | ok contract =>
      simp only [read, ofContract] at h
      cases compiled : Compilation.ofContract contract with
      | error fault =>
          rw [compiled] at h
          cases h
      | ok compilation =>
          simp only [compiled] at h
          cases h
          have valid := Contract.wellFormed_of_ofText read
          exact ⟨contract, compilation, rfl, compiled, rfl, agrees_ofCompilation valid compiled _⟩

/-- A function with a literal that holds a percent sign, a line feed, a control character, a single
quotation mark and a character outside of ASCII. -/
def odd : Contract where
  functions :=
    [{ name := "odd"
       parameters := []
       returns := some .string
       body := [.return (some (.text "%\n\x07'é"))] }]

/-- The representations of the artifact of `odd` agree. -/
theorem agrees_odd : ∃ artifact compilation, ofText odd.render = .ok artifact ∧
    Compilation.ofContract odd = .ok compilation ∧ artifact.Agrees compilation.code := by
  have read : Contract.ofText odd.render = .ok odd := Contract.ofText_render (by decide)
  obtain ⟨compilation, compiled⟩ : ∃ compilation, Compilation.ofContract odd = .ok compilation :=
    ⟨_, rfl⟩
  have made : ofText odd.render = .ok (ofCompilation compilation (Interface.ofContract odd)) := by
    rw [ofText, read]
    simp only [ofContract, compiled]
  obtain ⟨contract, other, read', compiled', -, agrees⟩ := agrees_ofText made
  cases read.symm.trans read'
  cases compiled.symm.trans compiled'
  exact ⟨_, compilation, made, compiled, agrees⟩

end Artifact

end Covenant
