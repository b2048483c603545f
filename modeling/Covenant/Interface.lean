/-
**Interfaces.**

The interface of a contract lists its methods in the order of their declaration, with what a caller
needs to know of each: its name, the names and types of its arguments, and the type of its output
if it has one.  The selector of a method is its index.

Main definitions:

* `Covenant.ValueType`, `Covenant.Argument`, `Covenant.Method`, `Covenant.Interface` — interfaces;
* `Covenant.Interface.ofContract` — the interface of a contract;
* `Covenant.Interface.toJson`, `Covenant.Interface.ofJson` — an interface as JSON text.
-/

import Covenant.Contract
import Covenant.Json.Reader
import Covenant.Json.Value

set_option relaxedAutoImplicit false
set_option autoImplicit false

namespace Covenant

/-! ### Types -/

/-- The types of arguments and outputs, as callers know them. -/
inductive ValueType where
  | int64
  | bool
  | string
  deriving DecidableEq, Repr

namespace ValueType

/-- The name of a type. -/
def name : ValueType → String
  | int64 => "int64"
  | bool => "bool"
  | string => "string"

/-- The names of all types. -/
def names : List (String × ValueType) :=
  [int64, bool, string].map fun type => (type.name, type)

/-- The type that callers know a declared type as. -/
def ofDataType : DataType → ValueType
  | .int => int64
  | .bool => bool
  | .string => string

/-- Reads a type. -/
def read : Json.Reader ValueType :=
  Json.readVariant names

end ValueType

/-! ### Arguments -/

/-- A named argument of a method. -/
structure Argument where
  name : String
  type : ValueType
  deriving DecidableEq

namespace Argument

/-- An argument as a JSON object. -/
def toValue (argument : Argument) : Json.Value :=
  .object [("name", .string argument.name), ("type", .string argument.type.name)]

/-- The fields of an argument that have been read. -/
structure Draft where
  name : Option String := none
  type : Option ValueType := none

/-- The fields of an argument, both of which must be there. -/
def fields : List (Json.Field Draft) :=
  [{ name := "name", optional := false, isRead := fun draft => draft.name.isSome
     read := fun draft => Json.readText.map fun name => { draft with name := some name } },
   { name := "type", optional := false, isRead := fun draft => draft.type.isSome
     read := fun draft => ValueType.read.map fun type => { draft with type := some type } }]

/-- The argument of a complete draft. -/
def Draft.finish (draft : Draft) : Option Argument :=
  match draft.name, draft.type with
  | some name, some type => some ⟨name, type⟩
  | _, _ => none

/-- Reads an argument. -/
def read : Json.Reader Argument :=
  Json.readRecord fields {} Draft.finish

end Argument

/-! ### Methods -/

/-- What a caller needs to know of a function. -/
structure Method where
  name : String
  arguments : List Argument
  output : Option ValueType
  deriving DecidableEq

namespace Method

/-- The method of a function. -/
def ofFunction (function : FunctionDecl) : Method where
  name := function.name
  arguments := function.parameters.map fun parameter =>
    ⟨parameter.name, .ofDataType parameter.type⟩
  output := function.returns.map ValueType.ofDataType

/-- A method as a JSON object, in which the output appears only if there is one. -/
def toValue (method : Method) : Json.Value :=
  let output := match method.output with
    | some type => [("output", Json.Value.string type.name)]
    | none => []
  .object
    ([("name", .string method.name),
      ("arguments", .array (method.arguments.map Argument.toValue))] ++ output)

/-- The fields of a method that have been read; the output may have been null. -/
structure Draft where
  name : Option String := none
  arguments : Option (List Argument) := none
  output : Option (Option ValueType) := none

/-- The fields of a method, of which only the name must be there. -/
def fields : List (Json.Field Draft) :=
  [{ name := "name", optional := false, isRead := fun draft => draft.name.isSome
     read := fun draft => Json.readText.map fun name => { draft with name := some name } },
   { name := "arguments", optional := true, isRead := fun draft => draft.arguments.isSome
     read := fun draft =>
      (Json.readList Argument.read).map fun arguments =>
        { draft with arguments := some arguments } },
   { name := "output", optional := true, isRead := fun draft => draft.output.isSome
     read := fun draft =>
      (Json.readOptional ValueType.read).map fun output => { draft with output := some output } }]

/-- The method of a draft that has a name. -/
def Draft.finish (draft : Draft) : Option Method :=
  draft.name.map fun name => ⟨name, draft.arguments.getD [], draft.output.getD none⟩

/-- Reads a method. -/
def read : Json.Reader Method :=
  Json.readRecord fields {} Draft.finish

end Method

/-! ### Interfaces -/

/-- The methods of a contract, in the order of their selectors. -/
structure Interface where
  methods : List Method
  deriving DecidableEq

namespace Interface

/-- The interface of a contract. -/
def ofContract (contract : Contract) : Interface :=
  ⟨contract.functions.map Method.ofFunction⟩

/-- The first method of this name. -/
def method? (interface : Interface) (name : String) : Option Method :=
  interface.methods.find? fun method => method.name == name

/-- The selector of the first method of this name. -/
def selector? (interface : Interface) (name : String) : Option Nat :=
  interface.methods.findIdx? fun method => method.name == name

/-- An interface as a JSON array. -/
def toValue (interface : Interface) : Json.Value :=
  .array (interface.methods.map Method.toValue)

/-- The JSON text of an interface, on one line. -/
def toJson (interface : Interface) : String :=
  interface.toValue.compact

/-- Reads an interface. -/
def read : Json.Reader Interface :=
  (Json.readList Method.read).map Interface.mk

/-- The interface of a JSON text. -/
def ofJson (text : String) : Except Json.Fault Interface :=
  Json.readWhole read text

end Interface

end Covenant
