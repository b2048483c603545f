/-
**Artifacts.**

The artifact of a contract is what its compilation leaves behind: the interface, the assembly with
its notes, and the bytecode in hexadecimal.

Main definitions:

* `Covenant.Artifact`, `Covenant.Artifact.ofContract` — the artifact of a contract;
* `Covenant.Artifact.ofText` — the artifact of the contract that a text holds;
* `Covenant.Artifact.toJson`, `Covenant.Artifact.ofJson` — an artifact as JSON text;
* `Covenant.Artifact.bytecode` — the bytes of an artifact.
-/

import Covenant.Failure
import Covenant.Interface

set_option relaxedAutoImplicit false
set_option autoImplicit false

namespace Covenant

/-- What is kept of a compiled contract. -/
structure Artifact where
  interface : Interface
  /-- The assembly, an instruction on each line. -/
  assembly : String
  /-- The bytecode in hexadecimal. -/
  hex : String
  deriving DecidableEq

namespace Artifact

/-- The artifact of a compilation. -/
def ofCompilation (compilation : Compilation) (interface : Interface) : Artifact :=
  ⟨interface, compilation.code.render, compilation.code.hex⟩

/-- Compiles a contract. -/
def ofContract (contract : Contract) : Except CompileError Artifact :=
  match Compilation.ofContract contract with
  | .error fault => .error fault
  | .ok compilation => .ok (ofCompilation compilation (Interface.ofContract contract))

/-- Compiles the contract of a text. -/
def ofText (source : String) : Except Failure Artifact :=
  match Contract.ofText source with
  | .error mistake => .error (.parse mistake)
  | .ok contract =>
    match ofContract contract with
    | .error fault => .error (.compile fault)
    | .ok artifact => .ok artifact

/-- The bytes of an artifact. -/
def bytecode (artifact : Artifact) : Except Text.Hex.Fault (List UInt8) :=
  Text.Hex.decode (Text.Utf8.encode artifact.hex)

/-! ### JSON text -/

/-- An artifact as a JSON object. -/
def toValue (artifact : Artifact) : Json.Value :=
  .object
    [("Abi", artifact.interface.toValue), ("Asm", .string artifact.assembly),
     ("RawByte", .string artifact.hex)]

/-- The JSON text of an artifact, on many lines. -/
def toJson (artifact : Artifact) : String :=
  artifact.toValue.pretty

/-- The fields of an artifact that have been read. -/
structure Draft where
  interface : Option Interface := none
  assembly : Option String := none
  hex : Option String := none

/-- The fields of an artifact, all of which must be there. -/
def fields : List (Json.Field Draft) :=
  [{ name := "Abi", optional := false, isRead := fun draft => draft.interface.isSome
     read := fun draft =>
      Interface.read.map fun interface => { draft with interface := some interface } },
   { name := "Asm", optional := false, isRead := fun draft => draft.assembly.isSome
     read := fun draft =>
      Json.readText.map fun assembly => { draft with assembly := some assembly } },
   { name := "RawByte", optional := false, isRead := fun draft => draft.hex.isSome
     read := fun draft => Json.readText.map fun hex => { draft with hex := some hex } }]

/-- The artifact of a complete draft. -/
def Draft.finish (draft : Draft) : Option Artifact :=
  match draft.interface, draft.assembly, draft.hex with
  | some interface, some assembly, some hex => some ⟨interface, assembly, hex⟩
  | _, _, _ => none

/-- Reads an artifact. -/
def read : Json.Reader Artifact :=
  Json.readRecord fields {} Draft.finish

/-- The artifact of a JSON text. -/
def ofJson (text : String) : Except Json.Fault Artifact :=
  Json.readWhole read text

end Artifact

end Covenant
