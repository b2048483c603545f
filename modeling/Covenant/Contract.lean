/-
**Contracts.**

A contract is a list of function declarations.

Main definitions:

* `Covenant.Parameter`, `Covenant.FunctionDecl`, `Covenant.Contract` — declarations;
* `Covenant.Contract.render` — the text of a contract, a function on each line.
-/

import Covenant.Contract.Statement

set_option relaxedAutoImplicit false
set_option autoImplicit false

namespace Covenant

/-- A named argument of a function. -/
structure Parameter where
  name : String
  type : DataType
  deriving DecidableEq

/-- A function: its name, its parameters, the type of its result if it has one, and its body. -/
structure FunctionDecl where
  name : String
  parameters : List Parameter
  returns : Option DataType
  body : List Statement
  deriving DecidableEq

/-- The functions of a contract, in the order of their declaration. -/
structure Contract where
  functions : List FunctionDecl
  deriving DecidableEq

/-- The text of a parameter. -/
def Parameter.render (parameter : Parameter) : String :=
  parameter.name ++ " " ++ parameter.type.name

/-- The text of a function. -/
def FunctionDecl.render (function : FunctionDecl) : String :=
  let returns := match function.returns with
    | some type => " " ++ type.name
    | none => ""
  "func " ++ function.name ++ "(" ++ ", ".intercalate (function.parameters.map Parameter.render) ++
    ")" ++ returns ++ " " ++ Statement.renderBlock function.body

/-- The text of a contract. -/
def Contract.render (contract : Contract) : String :=
  "contract \x7b\n" ++
    String.join (contract.functions.map fun function => "  " ++ function.render ++ "\n") ++ "\x7d"

end Covenant
