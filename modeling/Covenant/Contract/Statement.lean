/-
**Statements.**

Main definitions:

* `Covenant.Statement`, `Covenant.Statement.render` — statements and their text;
* `Covenant.Statement.renderBlock` — the text of a block of statements.

Main results:

* `Covenant.Statement.same_iff` — equality of statements is decided by comparing them part by part.
-/

import Covenant.Contract.Expression

set_option relaxedAutoImplicit false
set_option autoImplicit false

namespace Covenant

/-- One step of a function's body. -/
inductive Statement where
  /-- Declares a name and gives it a value. -/
  | declare (type : DataType) (name : String) (value : Expression)
  /-- Gives a new value to a declared name. -/
  | assign (name : String) (value : Expression)
  /-- Ends the call, with a value or without one. -/
  | return (value : Option Expression)
  /-- Runs the block if the condition holds. -/
  | ifThen (condition : Expression) (consequence : List Statement)
  /-- Runs the first block if the condition holds and the second if not. -/
  | ifElse (condition : Expression) (consequence alternative : List Statement)
  /-- Computes a value and drops it. -/
  | expression (value : Expression)

namespace Statement

/-! ### Text -/

/-- The text of a block, from the texts of its statements. -/
def braced (texts : List String) : String :=
  "\x7b " ++ String.join (texts.map fun text => text ++ "; ") ++ "\x7d"

mutual

/-- The text of a statement. -/
def render : Statement → String
  | declare type name value => type.name ++ " " ++ name ++ " = " ++ value.render
  | assign name value => name ++ " = " ++ value.render
  | .return none => "return"
  | .return (some value) => "return " ++ value.render
  | ifThen condition consequence =>
    "if " ++ condition.render ++ " " ++ braced (renderAll consequence)
  | ifElse condition consequence alternative =>
    "if " ++ condition.render ++ " " ++ braced (renderAll consequence) ++ " else " ++
      braced (renderAll alternative)
  | expression value => value.render

/-- The texts of statements, in order. -/
def renderAll : List Statement → List String
  | [] => []
  | statement :: rest => statement.render :: renderAll rest

end

/-- The text of a block of statements. -/
def renderBlock (statements : List Statement) : String :=
  braced (renderAll statements)

theorem renderAll_eq_map (statements : List Statement) :
    renderAll statements = statements.map render := by
  induction statements with
  | nil => rfl
  | cons statement rest ih => rw [renderAll, ih]; rfl

/-! ### Equality -/

mutual

/-- Two statements agree part by part. -/
def same : Statement → Statement → Bool
  | declare t n v, declare t' n' v' => t == t' && n == n' && v == v'
  | assign n v, assign n' v' => n == n' && v == v'
  | .return v, .return v' => v == v'
  | ifThen c s, ifThen c' s' => c == c' && sameAll s s'
  | ifElse c s r, ifElse c' s' r' => c == c' && sameAll s s' && sameAll r r'
  | expression v, expression v' => v == v'
  | _, _ => false

/-- Two lists of statements agree one by one. -/
def sameAll : List Statement → List Statement → Bool
  | [], [] => true
  | s :: ss, t :: ts => same s t && sameAll ss ts
  | _, _ => false

end

mutual

/-- Statements that agree part by part are equal. -/
theorem same_iff : (s t : Statement) → (same s t = true ↔ s = t)
  | declare .., t => by cases t <;> simp [same, and_assoc]
  | assign .., t => by cases t <;> simp [same]
  | .return _, t => by cases t <;> simp [same]
  | ifThen _ block, t => by
    cases t <;> simp [same]
    intro _
    exact sameAll_iff block _
  | ifElse _ block other, t => by
    cases t <;> simp [same, and_assoc]
    intro _
    exact and_congr (sameAll_iff block _) (sameAll_iff other _)
  | expression _, t => by cases t <;> simp [same]

/-- Lists of statements that agree one by one are equal. -/
theorem sameAll_iff : (ss ts : List Statement) → (sameAll ss ts = true ↔ ss = ts)
  | [], ts => by cases ts <;> simp [sameAll]
  | s :: ss, ts => by
    cases ts with
    | nil => simp [sameAll]
    | cons t ts =>
      simp only [sameAll, Bool.and_eq_true, List.cons.injEq]
      exact and_congr (same_iff s t) (sameAll_iff ss ts)

end

instance : DecidableEq Statement := fun s t => decidable_of_iff _ (same_iff s t)

end Statement

end Covenant
