/-
**Interfaces and artifacts written down and read back.**

What is read of an interface or an artifact is known member by member: which members an object has
when it is written, and which fields it is read with, are two lists that agree.  Nothing else
remains to be said, since every text of a value is read alike.

Main results:

* `Argument.takes_read`, `Method.takes_read`, `Interface.takes_read`, `Artifact.takes_read` — the
  readers take every text of what they read;
* `Artifact.serialization_lossless` — **artifacts and interfaces are read back from their JSON
  text**.
-/

import Covenant.Artifact
import Covenant.Proofs.Json.Reader

set_option relaxedAutoImplicit false
set_option autoImplicit false

namespace Covenant

theorem ValueType.takes_read (type : ValueType) : ValueType.read.Takes (.string type.name) type := by
  refine Json.takes_readVariant ?_
  cases type <;> rfl

theorem Argument.takes_read (argument : Argument) :
    Argument.read.Takes argument.toValue argument := by
  have name := (Json.takes_readText argument.name).map
    fun name => ({ name := some name } : Draft)
  have type := argument.type.takes_read.map
    fun type => ({ name := some argument.name, type := some type } : Draft)
  exact Json.takes_readRecord (.cons rfl rfl name (.cons rfl rfl type (.nil _))) rfl

theorem Method.takes_read (method : Method) : Method.read.Takes method.toValue method := by
  obtain ⟨name, arguments, output⟩ := method
  have first := (Json.takes_readText name).map fun name => ({ name := some name } : Draft)
  have second := (Json.takes_readList Argument.takes_read arguments).map
    fun arguments => ({ name := some name, arguments := some arguments } : Draft)
  cases output with
  | none =>
      exact Json.takes_readRecord (.cons rfl rfl first (.cons rfl rfl second (.nil _))) rfl
  | some type =>
      have third := (Json.takes_readOptional type.takes_read).map fun output =>
        ({ name := some name, arguments := some arguments, output := some output } : Draft)
      exact Json.takes_readRecord
        (.cons rfl rfl first (.cons rfl rfl second (.cons rfl rfl third (.nil _)))) rfl

theorem Interface.takes_read (interface : Interface) :
    Interface.read.Takes interface.toValue interface :=
  (Json.takes_readList Method.takes_read interface.methods).map Interface.mk

theorem Artifact.takes_read (artifact : Artifact) :
    Artifact.read.Takes artifact.toValue artifact := by
  obtain ⟨interface, assembly, hex⟩ := artifact
  have first := interface.takes_read.map fun interface => ({ interface := some interface } : Draft)
  have second := (Json.takes_readText assembly).map
    fun assembly => ({ interface := some interface, assembly := some assembly } : Draft)
  have third := (Json.takes_readText hex).map fun hex =>
    ({ interface := some interface, assembly := some assembly, hex := some hex } : Draft)
  exact Json.takes_readRecord
    (.cons rfl rfl first (.cons rfl rfl second (.cons rfl rfl third (.nil _)))) rfl

/-- **Artifacts and interfaces are read back from their JSON text**, which is a text of their
value: that of an artifact has many lines, that of an interface one. -/
theorem Artifact.serialization_lossless :
    (∀ artifact : Artifact, Json.Written artifact.toValue artifact.toJson.toList ∧
      Artifact.ofJson artifact.toJson = .ok artifact) ∧
    ∀ interface : Interface, Json.Written interface.toValue interface.toJson.toList ∧
      Interface.ofJson interface.toJson = .ok interface := by
  constructor
  · intro artifact
    have written := Json.written_pretty artifact.toValue
    exact ⟨written, Json.readWhole_of_takes artifact.takes_read written⟩
  · intro interface
    have written := Json.written_compact interface.toValue
    exact ⟨written, Json.readWhole_of_takes interface.takes_read written⟩

end Covenant
