/-
**Reading expressions.**

Expressions are read off the front of a list of tokens by this grammar, in which binary operators
of a lower rank bind more tightly and those of one rank associate to the left:

    expression ::= unary (operator unary)*
    unary      ::= ('!' | '-') unary | primary
    primary    ::= integer | 'true' | 'false' | text | ident | '(' expression ')'

An operator is taken only together with its right operand; where none can be read, the operator is
left to the caller.  The magnitude of the least integer is no literal, so a minus sign before it is
read together with it.

Main definitions:

* `Covenant.Expression.read` — the expression at the front of a list of tokens, or the tokens from
  the mistake on.
-/

import Covenant.Contract.Token

set_option relaxedAutoImplicit false
set_option autoImplicit false

namespace Covenant

namespace Expression

/-- The least integer, whose magnitude is no literal. -/
def least : Expression :=
  integer Int64.minValue

/-- The next token begins with an equals sign, so that a `!` before it negates nothing. -/
def startsWithEquals : List Token → Bool
  | .symbol .assign :: _ => true
  | .symbol .equal :: _ => true
  | _ => false

/-- The binary operator of this rank that a token is, if it is one. -/
def operator? (rank : Nat) : Token → Option BinaryOperator
  | .symbol s => s.binary?.filter fun op => op.rank == rank
  | _ => none

mutual

/-- Reads an expression whose operators outside of parentheses are of at most this rank.  On
failure the tokens from the mistake on are given. -/
def readRank (rank : Nat) (tokens : List Token) :
    Except (List Token) (Front Token Expression tokens.length) :=
  match rank with
  | 0 => readUnary tokens
  | rank + 1 =>
    match readRank rank tokens with
    | .error rest => .error rest
    | .ok ⟨left, rest, h⟩ => .ok (readMore rank left rest h)
termination_by (tokens.length, rank + 1)

/-- Reads on behind a left operand, as long as an operator of rank `rank + 1` and a right operand
follow. -/
def readMore {bound : Nat} (rank : Nat) (left : Expression) (tokens : List Token)
    (h : tokens.length < bound) : Front Token Expression bound :=
  match tokens with
  | [] => ⟨left, [], h⟩
  | token :: rest =>
    match operator? (rank + 1) token with
    | none => ⟨left, token :: rest, h⟩
    | some op =>
      match readRank rank rest with
      | .error _ => ⟨left, token :: rest, h⟩
      | .ok ⟨right, behind, _⟩ =>
        readMore rank (binary left op right) behind (by simp only [List.length_cons] at h; omega)
termination_by (tokens.length, 0)

/-- Reads a literal, an identifier, an expression in parentheses, or a unary operator before one of
these. -/
def readUnary (tokens : List Token) :
    Except (List Token) (Front Token Expression tokens.length) :=
  match tokens with
  | .symbol .minus :: .minMagnitude :: rest =>
    .ok ⟨least, rest, by simp only [List.length_cons]; omega⟩
  | .symbol .minus :: rest =>
    match readUnary rest with
    | .ok ⟨right, behind, _⟩ =>
      .ok ⟨unary .minus right, behind, by simp only [List.length_cons]; omega⟩
    | .error _ => .error (.symbol .minus :: rest)
  | .symbol .bang :: rest =>
    if startsWithEquals rest then .error (.symbol .bang :: rest)
    else
      match readUnary rest with
      | .ok ⟨right, behind, _⟩ =>
        .ok ⟨unary .not right, behind, by simp only [List.length_cons]; omega⟩
      | .error _ => .error (.symbol .bang :: rest)
  | .symbol .openParen :: rest =>
    match readRank BinaryOperator.topRank rest with
    | .error mistake => .error mistake
    | .ok front =>
      match front.skip? (.symbol .closeParen) with
      | some closed => .ok (closed.widen (by simp only [List.length_cons]; omega))
      | none => .error front.rest
  | .integer value :: rest => .ok ⟨integer (Int64.ofNat value), rest, Nat.lt_succ_self _⟩
  | .keyword .true :: rest => .ok ⟨boolean true, rest, Nat.lt_succ_self _⟩
  | .keyword .false :: rest => .ok ⟨boolean false, rest, Nat.lt_succ_self _⟩
  | .text value :: rest => .ok ⟨text value, rest, Nat.lt_succ_self _⟩
  | .identifier name :: rest => .ok ⟨identifier name, rest, Nat.lt_succ_self _⟩
  | mistake => .error mistake
termination_by (tokens.length, 0)

end

/-- Reads an expression. -/
def read (tokens : List Token) : Except (List Token) (Front Token Expression tokens.length) :=
  readRank BinaryOperator.topRank tokens

end Expression

end Covenant
