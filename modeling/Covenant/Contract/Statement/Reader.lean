/-
**Reading statements.**

Statements are read off the front of a list of tokens by this grammar:

    block      ::= '{' statement* '}'
    statement  ::= (return | if | declare | assign | expression) ';'?
    declare    ::= type ident '=' expression
    assign     ::= ident '=' expression
    return     ::= 'return' expression?
    if         ::= 'if' expression block ('else' block)?

Where no statement begins, the tokens are left to the caller.  Once a statement has begun with `if`
or with a type, though, it must be complete, and a mistake inside it is one of the whole text.

Main definitions:

* `Covenant.Misread` — a mistake, as the tokens from there on;
* `Covenant.Statement.read`, `Covenant.Statement.readBlock`, `Covenant.Statement.readAll` — a
  statement, a block, and statements as long as one begins.
-/

import Covenant.Contract.Expression.Reader

set_option relaxedAutoImplicit false
set_option autoImplicit false

namespace Covenant

/-- The tokens from a mistake on, and the number of characters of the first of them that stand
before the mistake. -/
structure Misread where
  rest : List Token
  inside : Nat

namespace Statement

/-- Reads an expression as a statement; there is no statement where there is no expression. -/
def readExpression? (tokens : List Token) : Option (Front Token Statement tokens.length) :=
  match Expression.read tokens with
  | .ok front => some (front.map expression)
  | .error _ => none

/-- Reads a name, an equals sign and a value, all of which must be there. -/
def readBinding (tokens : List Token) :
    Except Misread (Front Token (String × Expression) tokens.length) :=
  match tokens with
  | .identifier name :: .symbol .assign :: rest =>
    match Expression.read rest with
    | .ok ⟨value, behind, _⟩ =>
      .ok ⟨(name, value), behind, by simp only [List.length_cons]; omega⟩
    | .error mistake => .error ⟨mistake, 0⟩
  | .identifier _ :: .symbol .equal :: rest => .error ⟨.symbol .equal :: rest, 1⟩
  | .identifier _ :: mistake => .error ⟨mistake, 0⟩
  | mistake => .error ⟨mistake, 0⟩

/-- Takes the semicolon that may follow a statement. -/
def skipSemicolon {α : Type} {bound : Nat} (front : Front Token α bound) : Front Token α bound :=
  (front.skip? (.symbol .semicolon)).getD front

mutual

/-- Reads a statement without its semicolon, if one begins here. -/
def readBare (tokens : List Token) :
    Except Misread (Option (Front Token Statement tokens.length)) :=
  match tokens with
  | .keyword .return :: rest =>
    match Expression.read rest with
    | .ok ⟨value, behind, _⟩ =>
      .ok (some ⟨.return (some value), behind, by simp only [List.length_cons]; omega⟩)
    | .error _ => .ok (some ⟨.return none, rest, Nat.lt_succ_self _⟩)
  | .keyword .if :: rest =>
    match Expression.read rest with
    | .error mistake => .error ⟨mistake, 0⟩
    | .ok ⟨condition, behind, _⟩ =>
      match readBlock behind with
      | .error mistake => .error mistake
      | .ok front =>
        match front.skip? (.keyword .else) with
        | none =>
          .ok (some ((front.map (ifThen condition)).widen (by simp only [List.length_cons]; omega)))
        | some ⟨consequence, other, _⟩ =>
          match readBlock other with
          | .error mistake => .error mistake
          | .ok ⟨alternative, last, _⟩ =>
            .ok (some ⟨ifElse condition consequence alternative, last, by
              simp only [List.length_cons]
              omega⟩)
  | .keyword k :: rest =>
    match k.dataType? with
    | some type =>
      match readBinding rest with
      | .error mistake => .error mistake
      | .ok ⟨(name, value), behind, _⟩ =>
        .ok (some ⟨declare type name value, behind, by simp only [List.length_cons]; omega⟩)
    | none => .ok (readExpression? (.keyword k :: rest))
  | .identifier name :: .symbol .assign :: rest =>
    match Expression.read rest with
    | .ok ⟨value, behind, _⟩ =>
      .ok (some ⟨assign name value, behind, by simp only [List.length_cons]; omega⟩)
    | .error _ => .ok (readExpression? (.identifier name :: .symbol .assign :: rest))
  | tokens => .ok (readExpression? tokens)
termination_by (tokens.length, 0)

/-- Reads statements in braces, all of which must be there. -/
def readBlock (tokens : List Token) :
    Except Misread (Front Token (List Statement) tokens.length) :=
  match tokens with
  | .symbol .openBrace :: rest =>
    match readAll rest (length_lt_succ rest) with
    | .error mistake => .error mistake
    | .ok front =>
      match front.skip? (.symbol .closeBrace) with
      | some closed => .ok closed
      | none => .error ⟨front.rest, 0⟩
  | mistake => .error ⟨mistake, 0⟩
termination_by (tokens.length, 0)

/-- Reads statements as long as one begins. -/
def readAll {bound : Nat} (tokens : List Token) (h : tokens.length < bound) :
    Except Misread (Front Token (List Statement) bound) :=
  match readBare tokens with
  | .error mistake => .error mistake
  | .ok none => .ok ⟨[], tokens, h⟩
  | .ok (some bare) =>
    match skipSemicolon bare with
    | ⟨statement, rest, h'⟩ =>
      match readAll rest (length_lt_of_shorter h' h) with
      | .error mistake => .error mistake
      | .ok more => .ok (more.map (statement :: ·))
termination_by (tokens.length, 1)

end

/-- Reads a statement and its semicolon, if one begins here. -/
def read (tokens : List Token) : Except Misread (Option (Front Token Statement tokens.length)) :=
  (readBare tokens).map (Option.map skipSemicolon)

end Statement

end Covenant
