/-
**Expressions.**

An expression is a literal, an identifier, or an operator applied to expressions.  It is rendered
with parentheses around every operator, so that its text needs no knowledge of precedence.

Main definitions:

* `Covenant.DataType`, `Covenant.UnaryOperator`, `Covenant.BinaryOperator` — types and operators;
* `Covenant.BinaryOperator.rank` — how tightly a binary operator binds, one being the tightest;
* `Covenant.Expression`, `Covenant.Expression.render` — expressions and their text.
-/

import Covenant.Text.Decimal

set_option relaxedAutoImplicit false
set_option autoImplicit false

namespace Covenant

/-! ### Types and operators -/

/-- The types that a value is declared with. -/
inductive DataType where
  | int
  | bool
  | string
  deriving DecidableEq, Repr

/-- The name of a type. -/
def DataType.name : DataType → String
  | .int => "int"
  | .bool => "bool"
  | .string => "string"

/-- The operators with one operand. -/
inductive UnaryOperator where
  | not
  | minus
  deriving DecidableEq, Repr

/-- The symbol of a unary operator. -/
def UnaryOperator.symbol : UnaryOperator → String
  | .not => "!"
  | .minus => "-"

/-- The operators with two operands. -/
inductive BinaryOperator where
  | plus | minus | times | divide | modulo
  | less | greater | lessOrEqual | greaterOrEqual
  | equal | notEqual
  | and | or
  deriving DecidableEq, Repr

namespace BinaryOperator

/-- The symbol of a binary operator. -/
def symbol : BinaryOperator → String
  | plus => "+" | minus => "-" | times => "*" | divide => "/" | modulo => "%"
  | less => "<" | greater => ">" | lessOrEqual => "<=" | greaterOrEqual => ">="
  | equal => "==" | notEqual => "!="
  | and => "&&" | or => "||"

/-- How tightly a binary operator binds: operators of a lower rank before those of a higher one,
and operators of one rank from left to right. -/
def rank : BinaryOperator → Nat
  | times | divide | modulo => 1
  | plus | minus => 2
  | less | greater | lessOrEqual | greaterOrEqual => 3
  | equal | notEqual => 4
  | and => 5
  | or => 6

/-- The highest rank of an operator. -/
def topRank : Nat := 6

theorem rank_le_topRank (op : BinaryOperator) : op.rank ≤ topRank := by
  cases op <;> decide

theorem rank_pos (op : BinaryOperator) : 0 < op.rank := by
  cases op <;> decide

end BinaryOperator

/-! ### Expressions -/

/-- A value to be computed. -/
inductive Expression where
  | integer (value : Int64)
  | boolean (value : Bool)
  | text (value : String)
  | identifier (name : String)
  | unary (op : UnaryOperator) (right : Expression)
  | binary (left : Expression) (op : BinaryOperator) (right : Expression)
  deriving DecidableEq

namespace Expression

/-- The text of an expression.  Every operator stands in parentheses of its own. -/
def render : Expression → String
  | integer value => Text.Decimal.ofInt value.toInt
  | boolean true => "true"
  | boolean false => "false"
  | text value => "\"" ++ value ++ "\""
  | identifier name => name
  | unary op right => "(" ++ op.symbol ++ right.render ++ ")"
  | binary left op right => "(" ++ left.render ++ " " ++ op.symbol ++ " " ++ right.render ++ ")"

end Expression

end Covenant
