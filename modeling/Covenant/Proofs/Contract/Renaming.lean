/-
**Renaming.**

A function means the same under other names for its parameters and variables, as long as different
names stay different, and its types are only written down for its callers.  This module says which
functions and contracts differ from each other in names and types alone.

Main definitions:

* `Covenant.Expression.rename` — an expression with other names;
* `Covenant.Statement.identifiers`, `Covenant.FunctionDecl.identifiers` — the names that statements
  and functions declare, assign or read;
* `Covenant.Statement.Renames`, `Covenant.FunctionDecl.Renames`, `Covenant.Contract.Renames` — one
  is the other with names replaced and with any types.
-/

import Covenant.Proofs.Contract.Names
import Mathlib.Data.List.Forall2
import Mathlib.Data.Set.Function

set_option relaxedAutoImplicit false
set_option autoImplicit false

namespace Covenant

/-- The expression with other names. -/
def Expression.rename (name : String → String) : Expression → Expression
  | identifier old => identifier (name old)
  | unary op right => unary op (right.rename name)
  | binary left op right => binary (left.rename name) op (right.rename name)
  | literal => literal

namespace Statement

mutual

/-- The names that a statement declares, assigns or reads. -/
def identifiers : Statement → List String
  | declare _ name value => value.names ++ [name]
  | assign name value => value.names ++ [name]
  | .return none => []
  | .return (some value) => value.names
  | ifThen condition consequence => condition.names ++ identifiersAll consequence
  | ifElse condition consequence alternative =>
    condition.names ++ (identifiersAll consequence ++ identifiersAll alternative)
  | expression value => value.names

/-- The names that statements declare, assign or read. -/
def identifiersAll : List Statement → List String
  | [] => []
  | statement :: rest => statement.identifiers ++ identifiersAll rest

end

mutual

/-- The second statement is the first with other names.  Its declarations have any types. -/
inductive Renames (name : String → String) : Statement → Statement → Prop where
  | declare (type other : DataType) (old : String) (value : Expression) :
      Renames name (.declare type old value) (.declare other (name old) (value.rename name))
  | assign (old : String) (value : Expression) :
      Renames name (.assign old value) (.assign (name old) (value.rename name))
  | returnNothing : Renames name (.return none) (.return none)
  | returnValue (value : Expression) :
      Renames name (.return (some value)) (.return (some (value.rename name)))
  | ifThen (condition : Expression) {consequence block : List Statement}
      (inner : RenamesAll name consequence block) :
      Renames name (.ifThen condition consequence) (.ifThen (condition.rename name) block)
  | ifElse (condition : Expression) {consequence block alternative other : List Statement}
      (inner : RenamesAll name consequence block) (outer : RenamesAll name alternative other) :
      Renames name (.ifElse condition consequence alternative)
        (.ifElse (condition.rename name) block other)
  | expression (value : Expression) :
      Renames name (.expression value) (.expression (value.rename name))

/-- The second statements are the first, one by one, with other names. -/
inductive RenamesAll (name : String → String) : List Statement → List Statement → Prop where
  | nil : RenamesAll name [] []
  | cons {statement other : Statement} {rest others : List Statement}
      (first : Renames name statement other) (more : RenamesAll name rest others) :
      RenamesAll name (statement :: rest) (other :: others)

end

end Statement

namespace FunctionDecl

/-- The names in a function: its parameters, and what its body declares, assigns or reads. -/
def identifiers (function : FunctionDecl) : List String :=
  function.parameters.map Parameter.name ++ Statement.identifiersAll function.body

/-- The second function is the first with other names for parameters and variables.  It has any
name of its own, and any types. -/
structure Renames (name : String → String) (function other : FunctionDecl) : Prop where
  parameters : other.parameters.map Parameter.name =
    function.parameters.map fun parameter => name parameter.name
  body : Statement.RenamesAll name function.body other.body

end FunctionDecl

/-- The second contract is the first with other names and any types.  Different functions keep
different names, and so do different parameters and variables of one function. -/
structure Contract.Renames (name : String → String) (contract other : Contract) : Prop where
  apart : Set.InjOn name {old | old ∈ contract.functions.map FunctionDecl.name}
  functions : List.Forall₂ (fun function renamed => renamed.name = name function.name ∧
    ∃ inner, Set.InjOn inner {old | old ∈ function.identifiers} ∧
      function.Renames inner renamed) contract.functions other.functions

end Covenant
