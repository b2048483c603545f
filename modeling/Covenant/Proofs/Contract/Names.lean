/-
**The names in statements.**

Main definitions:

* `Covenant.Expression.names` — the names that an expression reads, from left to right;
* `Covenant.Statement.declared`, `Covenant.Statement.declaredAll` — the names that statements
  declare at any depth, in the order of the text;
* `Covenant.Statement.branchesDeclareNothing` — no branch of the statement holds a declaration.

Main results:

* `Statement.branchesDeclareNothing_of_mem` — where nothing is declared at all, no branch declares
  anything.
-/

import Covenant.Contract

set_option relaxedAutoImplicit false
set_option autoImplicit false

namespace Covenant

/-- The names that an expression reads, from left to right. -/
def Expression.names : Expression → List String
  | identifier name => [name]
  | unary _ right => right.names
  | binary left _ right => left.names ++ right.names
  | _ => []

namespace Statement

mutual

/-- The names that a statement declares at any depth, in the order of the text. -/
def declared : Statement → List String
  | declare _ name _ => [name]
  | ifThen _ consequence => declaredAll consequence
  | ifElse _ consequence alternative => declaredAll consequence ++ declaredAll alternative
  | _ => []

/-- The names that statements declare at any depth, in the order of the text. -/
def declaredAll : List Statement → List String
  | [] => []
  | statement :: rest => statement.declared ++ declaredAll rest

end

/-- No branch of the statement holds a declaration, at any depth. -/
def branchesDeclareNothing : Statement → Bool
  | ifThen _ consequence => (declaredAll consequence).isEmpty
  | ifElse _ consequence alternative =>
    (declaredAll consequence).isEmpty && (declaredAll alternative).isEmpty
  | _ => true

/-- Where nothing is declared at all, no branch declares anything. -/
theorem branchesDeclareNothing_of_declared_eq_nil {statement : Statement}
    (h : statement.declared = []) : statement.branchesDeclareNothing = true := by
  cases statement with
  | ifThen condition consequence => simpa [branchesDeclareNothing, declared] using h
  | ifElse condition consequence alternative => simpa [branchesDeclareNothing, declared] using h
  | _ => rfl

/-- Where nothing is declared at all, no branch of any of the statements declares anything. -/
theorem branchesDeclareNothing_of_mem {statements : List Statement}
    (h : declaredAll statements = []) :
    ∀ statement ∈ statements, statement.branchesDeclareNothing = true := by
  induction statements with
  | nil => simp
  | cons first rest ih =>
      rw [declaredAll, List.append_eq_nil_iff] at h
      exact List.forall_mem_cons.2 ⟨branchesDeclareNothing_of_declared_eq_nil h.1, ih h.2⟩

end Statement

/-- No branch in the body of a function holds a declaration, at any depth. -/
def FunctionDecl.branchesDeclareNothing (function : FunctionDecl) : Bool :=
  function.body.all Statement.branchesDeclareNothing

end Covenant
