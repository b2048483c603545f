/-
**Well-formed contracts.**

The syntax of a contract holds names, integers and texts, and not every string or number can be
written down as one: there is no way to write a name with a space in it, a text with a quotation
mark or a negative integer.  A contract is *well formed* if it holds only what can be written.
Whatever was read from a text is well formed, because its tokens are.

Main definitions:

* `Covenant.IsName` — the identifiers of the grammar;
* `Covenant.Token.WellFormed` — the tokens that a text consists of;
* `Covenant.Expression.WellFormed`, `Covenant.Statement.WellFormed`, `Covenant.Contract.WellFormed`
  — all three can be decided.
-/

import Covenant.Contract.Token
import Mathlib.Data.Nat.Notation

set_option relaxedAutoImplicit false
set_option autoImplicit false

namespace Covenant

/-! ### Names and tokens -/

/-- A run of letters, digits and underscores that does not begin with a digit and is no keyword. -/
def IsName (name : String) : Prop :=
  Keyword.ofSpelling? name = none ∧
    name.toList.head?.any (fun first => first.isAlpha || first == '_') = true ∧
    ∀ c ∈ name.toList, Token.isWordChar c = true

instance (name : String) : Decidable (IsName name) :=
  @instDecidableAnd _ _ _ (@instDecidableAnd _ _ _ (List.decidableBAll _ _))

/-- A token that a text can have: its name is one, its integer is in range, or its text can stand
between quotation marks. -/
def Token.WellFormed : Token → Prop
  | identifier name => IsName name
  | integer value => value < Text.Decimal.minMagnitude
  | text value => '"' ∉ value.toList
  | _ => True

/-! ### Syntax -/

/-- All names in an expression can be written, and so can its integers and texts.  The least integer
is the only negative one that can. -/
def Expression.WellFormed : Expression → Prop
  | integer value => 0 ≤ value.toInt ∨ value = Int64.minValue
  | boolean _ => True
  | text value => '"' ∉ value.toList
  | identifier name => IsName name
  | unary _ right => right.WellFormed
  | binary left _ right => left.WellFormed ∧ right.WellFormed

mutual

/-- All names and expressions in a statement are well formed. -/
def Statement.WellFormed : Statement → Prop
  | .declare _ name value => IsName name ∧ value.WellFormed
  | .assign name value => IsName name ∧ value.WellFormed
  | .return none => True
  | .return (some value) => value.WellFormed
  | .ifThen condition consequence => condition.WellFormed ∧ Statement.WellFormedAll consequence
  | .ifElse condition consequence alternative =>
      condition.WellFormed ∧ Statement.WellFormedAll consequence ∧
        Statement.WellFormedAll alternative
  | .expression value => value.WellFormed

/-- All of some statements are well formed. -/
def Statement.WellFormedAll : List Statement → Prop
  | [] => True
  | statement :: rest => statement.WellFormed ∧ Statement.WellFormedAll rest

end

def Parameter.WellFormed (parameter : Parameter) : Prop :=
  IsName parameter.name

/-- All names of a function are names, and its body is well formed. -/
structure FunctionDecl.WellFormed (function : FunctionDecl) : Prop where
  name : IsName function.name
  parameters : ∀ parameter ∈ function.parameters, parameter.WellFormed
  body : Statement.WellFormedAll function.body

/-- All functions of a contract are well formed. -/
def Contract.WellFormed (contract : Contract) : Prop :=
  ∀ function ∈ contract.functions, function.WellFormed

instance Expression.decidableWellFormed : (value : Expression) → Decidable value.WellFormed
  | integer _ => inferInstanceAs (Decidable (_ ∨ _))
  | boolean _ => inferInstanceAs (Decidable True)
  | text value => inferInstanceAs (Decidable ('"' ∉ value.toList))
  | identifier name => inferInstanceAs (Decidable (IsName name))
  | unary _ right => right.decidableWellFormed
  | binary left _ right =>
      @instDecidableAnd _ _ left.decidableWellFormed right.decidableWellFormed

mutual

instance Statement.decidableWellFormed : (statement : Statement) → Decidable statement.WellFormed
  | .declare _ name value => inferInstanceAs (Decidable (IsName name ∧ value.WellFormed))
  | .assign name value => inferInstanceAs (Decidable (IsName name ∧ value.WellFormed))
  | .return none => inferInstanceAs (Decidable True)
  | .return (some value) => inferInstanceAs (Decidable value.WellFormed)
  | .ifThen condition consequence =>
      @instDecidableAnd _ _ condition.decidableWellFormed (decidableWellFormedAll consequence)
  | .ifElse condition consequence alternative =>
      @instDecidableAnd _ _ condition.decidableWellFormed
        (@instDecidableAnd _ _ (decidableWellFormedAll consequence)
          (decidableWellFormedAll alternative))
  | .expression value => inferInstanceAs (Decidable value.WellFormed)

instance Statement.decidableWellFormedAll : (statements : List Statement) →
    Decidable (Statement.WellFormedAll statements)
  | [] => inferInstanceAs (Decidable True)
  | statement :: rest =>
      @instDecidableAnd _ _ (decidableWellFormed statement) (decidableWellFormedAll rest)

end

instance (parameter : Parameter) : Decidable parameter.WellFormed :=
  inferInstanceAs (Decidable (IsName _))

instance (function : FunctionDecl) : Decidable function.WellFormed :=
  decidable_of_iff (IsName function.name ∧
      (∀ parameter ∈ function.parameters, parameter.WellFormed) ∧
      Statement.WellFormedAll function.body)
    ⟨fun h => ⟨h.1, h.2.1, h.2.2⟩, fun h => ⟨h.name, h.parameters, h.body⟩⟩

instance (contract : Contract) : Decidable contract.WellFormed :=
  inferInstanceAs (Decidable (∀ function ∈ contract.functions, function.WellFormed))

end Covenant
