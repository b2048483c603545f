/-
**The grammar of contracts.**

This is the grammar of the language as relations between tokens and syntax.  The readers of the
language look ahead, and some of them leave tokens to another one if they cannot go on.  A
derivation does nothing of this: it says which tokens can be which syntax, and every token has its
place in it.

    contract   ::= 'contract' '{' function* '}'
    function   ::= 'func' ident '(' (param (',' param)*)? ')' type? block
    param      ::= ident type
    type       ::= 'int' | 'bool' | 'string'
    block      ::= '{' statement* '}'
    statement  ::= (return | if | declare | assign | expression) ';'?
    declare    ::= type ident '=' expression
    assign     ::= ident '=' expression
    return     ::= 'return' expression?
    if         ::= 'if' expression block ('else' block)?
    expression ::= and ('||' and)*
    and        ::= equality ('&&' equality)*
    equality   ::= comparison (('==' | '!=') comparison)*
    comparison ::= sum (('<=' | '>=' | '<' | '>') sum)*
    sum        ::= product (('+' | '-') product)*
    product    ::= unary (('*' | '/' | '%') unary)*
    unary      ::= ('!' | '-') unary | primary
    primary    ::= integer | 'true' | 'false' | string | ident | '(' expression ')'

Binary operators associate to the left, and so the rules for them are left recursive here.  A minus
sign before the magnitude of the least integer is a literal with it.

Main definitions:

* `Covenant.Expression.Level` — the kinds of expressions;
* `Covenant.Expression.Derives`, `Covenant.Statement.Derives`, `Covenant.FunctionDecl.Derives`,
  `Covenant.Contract.Derives` — tokens are derived as syntax;
* `Covenant.Lexed` — tokens that a text can have.

Main results:

* `Expression.Derives.wellFormed`, `Statement.DerivesAll.wellFormed`,
  `Contract.Derives.wellFormed` — **what is derived from tokens of a text is well formed**.
-/

import Covenant.Proofs.Contract.Tokens

set_option relaxedAutoImplicit false
set_option autoImplicit false

namespace Covenant

/-! ### Expressions -/

namespace Expression

/-- The kinds of expressions, those with the loosest operators first. -/
inductive Level where
  | expression | and | equality | comparison | sum | product | unary | primary

namespace Level

/-- The next tighter kind of expressions, which the operands of a kind are of. -/
def operand? : Level → Option Level
  | expression => some and
  | and => some equality
  | equality => some comparison
  | comparison => some sum
  | sum => some product
  | product => some unary
  | unary => some primary
  | primary => none

/-- The binary operators of a kind of expressions, with their symbols. -/
def operators : Level → List (Symbol × BinaryOperator)
  | expression => [(.or, .or)]
  | and => [(.and, .and)]
  | equality => [(.equal, .equal), (.notEqual, .notEqual)]
  | comparison =>
    [(.lessOrEqual, .lessOrEqual), (.greaterOrEqual, .greaterOrEqual), (.less, .less),
      (.greater, .greater)]
  | sum => [(.plus, .plus), (.minus, .minus)]
  | product => [(.star, .times), (.slash, .divide), (.percent, .modulo)]
  | unary => []
  | primary => []

end Level

/-- The tokens are derived as this expression, one of this kind. -/
inductive Derives : Level → List Token → Expression → Prop where
  /-- An operand alone. -/
  | operand {level tighter : Level} {tokens : List Token} {value : Expression}
      (below : level.operand? = some tighter) (alone : Derives tighter tokens value) :
      Derives level tokens value
  /-- A binary operator behind an expression of its own kind and before an operand. -/
  | binary {level tighter : Level} {first second : List Token} {left right : Expression}
      {symbol : Symbol} {op : BinaryOperator} (below : level.operand? = some tighter)
      (mem : (symbol, op) ∈ level.operators) (before : Derives level first left)
      (behind : Derives tighter second right) :
      Derives level (first ++ .symbol symbol :: second) (.binary left op right)
  | not {tokens : List Token} {right : Expression} (operand : Derives .unary tokens right) :
      Derives .unary (.symbol .bang :: tokens) (.unary .not right)
  | minus {tokens : List Token} {right : Expression} (operand : Derives .unary tokens right) :
      Derives .unary (.symbol .minus :: tokens) (.unary .minus right)
  | least : Derives .unary [.symbol .minus, .minMagnitude] (.integer Int64.minValue)
  | integer {magnitude : ℕ} {value : Int64} (same : value.toInt = magnitude) :
      Derives .primary [.integer magnitude] (.integer value)
  | true : Derives .primary [.keyword .true] (.boolean Bool.true)
  | false : Derives .primary [.keyword .false] (.boolean Bool.false)
  | text (value : String) : Derives .primary [.text value] (.text value)
  | identifier (name : String) : Derives .primary [.identifier name] (.identifier name)
  | parentheses {tokens : List Token} {value : Expression}
      (inner : Derives .expression tokens value) :
      Derives .primary (.symbol .openParen :: (tokens ++ [.symbol .closeParen])) value

end Expression

/-! ### Statements -/

namespace Statement

mutual

/-- The tokens are derived as this statement, without a semicolon. -/
inductive Derives : List Token → Statement → Prop where
  | declare {tokens : List Token} {value : Expression} (type : DataType) (name : String)
      (derives : value.Derives .expression tokens) :
      Derives (.keyword type.keyword :: .identifier name :: .symbol .assign :: tokens)
        (.declare type name value)
  | assign {tokens : List Token} {value : Expression} (name : String)
      (derives : value.Derives .expression tokens) :
      Derives (.identifier name :: .symbol .assign :: tokens) (.assign name value)
  | returnNothing : Derives [.keyword .return] (.return none)
  | return {tokens : List Token} {value : Expression}
      (derives : value.Derives .expression tokens) :
      Derives (.keyword .return :: tokens) (.return (some value))
  | ifThen {test block : List Token} {condition : Expression} {consequence : List Statement}
      (derives : condition.Derives .expression test) (holds : DerivesBlock block consequence) :
      Derives (.keyword .if :: (test ++ block)) (.ifThen condition consequence)
  | ifElse {test block other : List Token} {condition : Expression}
      {consequence alternative : List Statement} (derives : condition.Derives .expression test)
      (holds : DerivesBlock block consequence) (fails : DerivesBlock other alternative) :
      Derives (.keyword .if :: (test ++ (block ++ .keyword .else :: other)))
        (.ifElse condition consequence alternative)
  | expression {tokens : List Token} {value : Expression}
      (derives : value.Derives .expression tokens) : Derives tokens (.expression value)

/-- The tokens are derived as a block of these statements. -/
inductive DerivesBlock : List Token → List Statement → Prop where
  | braces {tokens : List Token} {statements : List Statement}
      (inner : DerivesAll tokens statements) :
      DerivesBlock (.symbol .openBrace :: (tokens ++ [.symbol .closeBrace])) statements

/-- The tokens are derived as these statements, with a semicolon or without one behind each. -/
inductive DerivesAll : List Token → List Statement → Prop where
  | nil : DerivesAll [] []
  | cons {tokens rest : List Token} {statement : Statement} {others : List Statement}
      (first : Derives tokens statement) (more : DerivesAll rest others) :
      DerivesAll (tokens ++ rest) (statement :: others)
  | semicolon {tokens rest : List Token} {statement : Statement} {others : List Statement}
      (first : Derives tokens statement) (more : DerivesAll rest others) :
      DerivesAll (tokens ++ .symbol .semicolon :: rest) (statement :: others)

end

end Statement

/-! ### Declarations -/

/-- The tokens are derived as this function. -/
inductive FunctionDecl.Derives : List Token → FunctionDecl → Prop where
  | function {block : List Token} {body : List Statement} (name : String)
      (parameters : List Parameter) (returns : Option DataType)
      (derives : Statement.DerivesBlock block body) :
      Derives (.keyword .func :: .identifier name :: .symbol .openParen ::
        (Parameter.tokensAll parameters ++ .symbol .closeParen :: (returnTokens returns ++ block)))
        ⟨name, parameters, returns, body⟩

/-- The tokens are derived as these functions. -/
inductive FunctionDecl.DerivesAll : List Token → List FunctionDecl → Prop where
  | nil : DerivesAll [] []
  | cons {tokens rest : List Token} {function : FunctionDecl} {others : List FunctionDecl}
      (first : function.Derives tokens) (more : DerivesAll rest others) :
      DerivesAll (tokens ++ rest) (function :: others)

/-- The tokens are derived as this contract. -/
inductive Contract.Derives : List Token → Contract → Prop where
  | contract {tokens : List Token} {functions : List FunctionDecl}
      (derives : FunctionDecl.DerivesAll tokens functions) :
      Derives (.keyword .contract :: .symbol .openBrace :: (tokens ++ [.symbol .closeBrace]))
        ⟨functions⟩

/-! ### Well-formedness -/

/-- Tokens that a text can have. -/
def Lexed (tokens : List Token) : Prop :=
  ∀ token ∈ tokens, token.WellFormed

@[simp] theorem lexed_cons {token : Token} {tokens : List Token} :
    Lexed (token :: tokens) ↔ token.WellFormed ∧ Lexed tokens :=
  List.forall_mem_cons

@[simp] theorem lexed_append {first second : List Token} :
    Lexed (first ++ second) ↔ Lexed first ∧ Lexed second :=
  List.forall_mem_append

/-- What is derived as an expression from tokens of a text is well formed. -/
theorem Expression.Derives.wellFormed {level : Level} {tokens : List Token} {value : Expression}
    (derives : value.Derives level tokens) (lexed : Lexed tokens) : value.WellFormed := by
  induction derives with
  | operand _ _ ih => exact ih lexed
  | binary _ _ _ _ ihLeft ihRight =>
      rw [lexed_append, lexed_cons] at lexed
      exact ⟨ihLeft lexed.1, ihRight lexed.2.2⟩
  | not _ ih => exact ih (lexed_cons.1 lexed).2
  | minus _ ih => exact ih (lexed_cons.1 lexed).2
  | least => exact .inr rfl
  | integer same =>
      left
      rw [same]
      exact Int.natCast_nonneg _
  | true => trivial
  | false => trivial
  | text value => exact (lexed_cons.1 lexed).1
  | identifier name => exact (lexed_cons.1 lexed).1
  | parentheses _ ih =>
      rw [lexed_cons, lexed_append] at lexed
      exact ih lexed.2.1

namespace Statement

mutual

theorem Derives.wellFormed {tokens : List Token} {statement : Statement}
    (derives : statement.Derives tokens) (lexed : Lexed tokens) : statement.WellFormed := by
  cases derives with
  | declare type name inner =>
      simp only [lexed_cons] at lexed
      exact ⟨lexed.2.1, inner.wellFormed lexed.2.2.2⟩
  | assign name inner =>
      simp only [lexed_cons] at lexed
      exact ⟨lexed.1, inner.wellFormed lexed.2.2⟩
  | returnNothing => trivial
  | «return» inner => exact inner.wellFormed (lexed_cons.1 lexed).2
  | ifThen inner holds =>
      rw [lexed_cons, lexed_append] at lexed
      exact ⟨inner.wellFormed lexed.2.1, holds.wellFormed lexed.2.2⟩
  | ifElse inner holds fails =>
      simp only [lexed_cons, lexed_append] at lexed
      exact ⟨inner.wellFormed lexed.2.1, holds.wellFormed lexed.2.2.1,
        fails.wellFormed lexed.2.2.2.2⟩
  | expression inner => exact inner.wellFormed lexed

theorem DerivesBlock.wellFormed {tokens : List Token} {statements : List Statement}
    (derives : DerivesBlock tokens statements) (lexed : Lexed tokens) :
    WellFormedAll statements := by
  cases derives with
  | braces inner =>
      rw [lexed_cons, lexed_append] at lexed
      exact inner.wellFormed lexed.2.1

/-- What is derived as statements from tokens of a text is well formed. -/
theorem DerivesAll.wellFormed {tokens : List Token} {statements : List Statement}
    (derives : DerivesAll tokens statements) (lexed : Lexed tokens) :
    WellFormedAll statements := by
  cases derives with
  | nil => trivial
  | cons first more =>
      rw [lexed_append] at lexed
      exact ⟨first.wellFormed lexed.1, more.wellFormed lexed.2⟩
  | semicolon first more =>
      rw [lexed_append, lexed_cons] at lexed
      exact ⟨first.wellFormed lexed.1, more.wellFormed lexed.2.2⟩

end

end Statement

/-- The names of parameters can be written if their tokens can. -/
theorem Parameter.wellFormed_of_tokensMore {parameters : List Parameter}
    (lexed : Lexed (tokensMore parameters)) : ∀ parameter ∈ parameters, parameter.WellFormed := by
  induction parameters with
  | nil => simp
  | cons parameter others ih =>
      rw [tokensMore, lexed_cons, lexed_append, tokens, lexed_cons] at lexed
      exact List.forall_mem_cons.2 ⟨lexed.2.1.1, ih lexed.2.2⟩

theorem Parameter.wellFormed_of_tokensAll {parameters : List Parameter}
    (lexed : Lexed (tokensAll parameters)) : ∀ parameter ∈ parameters, parameter.WellFormed := by
  cases parameters with
  | nil => simp
  | cons parameter others =>
      rw [tokensAll, lexed_append, tokens, lexed_cons] at lexed
      exact List.forall_mem_cons.2 ⟨lexed.1.1, wellFormed_of_tokensMore lexed.2⟩

namespace FunctionDecl

theorem Derives.wellFormed {tokens : List Token} {function : FunctionDecl}
    (derives : function.Derives tokens) (lexed : Lexed tokens) : function.WellFormed := by
  cases derives with
  | function name parameters returns block =>
      simp only [lexed_cons, lexed_append] at lexed
      exact ⟨lexed.2.1, Parameter.wellFormed_of_tokensAll lexed.2.2.2.1,
        block.wellFormed lexed.2.2.2.2.2.2⟩

theorem DerivesAll.wellFormed {tokens : List Token} {functions : List FunctionDecl}
    (derives : DerivesAll tokens functions) (lexed : Lexed tokens) :
    ∀ function ∈ functions, function.WellFormed := by
  induction derives with
  | nil => simp
  | cons first _ ih =>
      rw [lexed_append] at lexed
      exact List.forall_mem_cons.2 ⟨first.wellFormed lexed.1, ih lexed.2⟩

end FunctionDecl

/-- **What is derived as a contract from tokens of a text is well formed.** -/
theorem Contract.Derives.wellFormed {tokens : List Token} {contract : Contract}
    (derives : contract.Derives tokens) (lexed : Lexed tokens) : contract.WellFormed := by
  cases derives with
  | contract functions =>
      simp only [lexed_cons, lexed_append] at lexed
      exact functions.wellFormed lexed.2.2.1

end Covenant
