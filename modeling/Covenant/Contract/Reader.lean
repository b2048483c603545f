/-
**Reading contracts.**

The tokens of a text are read by the grammars of expressions and statements together with this one:

    contract   ::= 'contract' '{' function* '}'
    function   ::= 'func' ident '(' (param (',' param)*)? ')' type? block
    param      ::= ident type
    type       ::= 'int' | 'bool' | 'string'

Nothing may follow a contract.  A mistake is reported by its line and column, which count from one,
columns in bytes, together with the word found there.

Main definitions:

* `Covenant.FunctionDecl.read`, `Covenant.Contract.read` — reading off the front of a list of
  tokens;
* `Covenant.ParseError` — the report on a mistake;
* `Covenant.Contract.ofText`, `Covenant.Statement.listOfText` — reading a whole text.
-/

import Covenant.Contract.Statement.Reader
import Covenant.Text.Blank
import Covenant.Text.Utf8

set_option relaxedAutoImplicit false
set_option autoImplicit false

namespace Covenant

/-! ### Parameters -/

namespace Parameter

/-- Reads a parameter, if one begins here and is complete. -/
def read? (tokens : List Token) : Option (Front Token Parameter tokens.length) :=
  match tokens with
  | .identifier name :: .keyword k :: rest =>
    k.dataType?.map fun type => ⟨⟨name, type⟩, rest, by simp only [List.length_cons]; omega⟩
  | _ => none

/-- Reads parameters as long as a comma and a parameter follow. -/
def readMore {bound : Nat} (tokens : List Token) (h : tokens.length < bound) :
    Front Token (List Parameter) bound :=
  match tokens with
  | .symbol .comma :: rest =>
    match read? rest with
    | some ⟨parameter, behind, _⟩ =>
      (readMore behind (by simp only [List.length_cons] at h; omega)).map (parameter :: ·)
    | none => ⟨[], .symbol .comma :: rest, h⟩
  | tokens => ⟨[], tokens, h⟩
termination_by tokens.length

/-- Reads parameters with commas between them, perhaps none. -/
def readAll {bound : Nat} (tokens : List Token) (h : tokens.length < bound) :
    Front Token (List Parameter) bound :=
  match read? tokens with
  | some ⟨parameter, rest, h'⟩ => (readMore rest (length_lt_of_shorter h' h)).map (parameter :: ·)
  | none => ⟨[], tokens, h⟩

end Parameter

/-! ### Functions -/

namespace FunctionDecl

/-- Reads the type of a result, if one begins here. -/
def readReturns {bound : Nat} (tokens : List Token) (h : tokens.length < bound) :
    Front Token (Option DataType) bound :=
  match tokens with
  | .keyword k :: rest =>
    match k.dataType? with
    | some type => ⟨some type, rest, by simp only [List.length_cons] at h; omega⟩
    | none => ⟨none, .keyword k :: rest, h⟩
  | tokens => ⟨none, tokens, h⟩

/-- Reads a function behind its keyword, all of which must be there. -/
def readDeclaration (tokens : List Token) :
    Except Misread (Front Token FunctionDecl tokens.length) :=
  match tokens with
  | .identifier name :: .symbol .openParen :: rest =>
    let parameters := Parameter.readAll rest (length_lt_succ rest)
    match parameters.skip? (.symbol .closeParen) with
    | none => .error ⟨parameters.rest, 0⟩
    | some ⟨parameters, rest, h⟩ =>
      match readReturns rest h with
      | ⟨returns, rest, _⟩ =>
        match Statement.readBlock rest with
        | .error mistake => .error mistake
        | .ok ⟨body, rest, _⟩ =>
          .ok ⟨⟨name, parameters, returns, body⟩, rest, by simp only [List.length_cons]; omega⟩
  | .identifier _ :: mistake => .error ⟨mistake, 0⟩
  | mistake => .error ⟨mistake, 0⟩

/-- Reads a function, if one begins here. -/
def read (tokens : List Token) :
    Except Misread (Option (Front Token FunctionDecl tokens.length)) :=
  match tokens with
  | .keyword .func :: rest =>
    match readDeclaration rest with
    | .error mistake => .error mistake
    | .ok front => .ok (some (front.widen (Nat.le_succ _)))
  | _ => .ok none

/-- Reads functions as long as one begins. -/
def readAll {bound : Nat} (tokens : List Token) (h : tokens.length < bound) :
    Except Misread (Front Token (List FunctionDecl) bound) :=
  match read tokens with
  | .error mistake => .error mistake
  | .ok none => .ok ⟨[], tokens, h⟩
  | .ok (some ⟨function, rest, h'⟩) =>
    match readAll rest (length_lt_of_shorter h' h) with
    | .error mistake => .error mistake
    | .ok more => .ok (more.map (function :: ·))
termination_by tokens.length

end FunctionDecl

/-! ### Contracts -/

/-- The number of characters at the front of a token that agree with the keyword of a contract.  A
longer word that begins with the keyword goes wrong only behind it. -/
def Token.insideContract : List Token → Nat
  | .identifier name :: _ =>
    let word := Keyword.contract.spelling.toList
    if word.isPrefixOf name.toList then word.length else 0
  | _ => 0

/-- Reads a contract, which must be there. -/
def Contract.read (tokens : List Token) : Except Misread (Front Token Contract tokens.length) :=
  match tokens with
  | .keyword .contract :: .symbol .openBrace :: rest =>
    match FunctionDecl.readAll rest (length_lt_succ rest) with
    | .error mistake => .error mistake
    | .ok functions =>
      match functions.skip? (.symbol .closeBrace) with
      | some closed =>
        .ok ((closed.map Contract.mk).widen (by simp only [List.length_cons]; omega))
      | none => .error ⟨functions.rest, 0⟩
  | .keyword .contract :: mistake => .error ⟨mistake, 0⟩
  | mistake => .error ⟨mistake, Token.insideContract mistake⟩

/-! ### Mistakes -/

/-- Where the text of a contract goes wrong, and what is found there. -/
structure ParseError where
  line : Nat
  column : Nat
  found : String
  deriving DecidableEq

namespace ParseError

/-- The report on a mistake. -/
def message (mistake : ParseError) : String :=
  "parse error at line " ++ Text.Decimal.ofNat mistake.line ++ ", column " ++
    Text.Decimal.ofNat mistake.column ++ ": unexpected " ++ mistake.found

/-- The mistake that lies where `rest`, the end of `source`, begins. -/
def locate (source rest : List Char) : ParseError :=
  let before := source.take (source.length - rest.length)
  let inLine := before.reverse.takeWhile (· != '\n')
  { line := before.count '\n' + 1
    column := Text.Utf8.size inLine + 1
    found := match Text.firstWord rest with
      | [] => "end of input"
      | word => "`" ++ String.ofList word ++ "`" }

end ParseError

namespace Token.Scan

/-- The tokens without their places. -/
def list (scan : Scan) : List Token :=
  scan.tokens.map Located.token

/-- The text from the first of the last `count` tokens on; without any, the text from where no
further token begins. -/
def sourceOfLast (scan : Scan) (count : Nat) : List Char :=
  match scan.tokens.drop (scan.tokens.length - count) with
  | [] => scan.stop
  | located :: _ => located.source

/-- The mistake in a source that is known by the tokens from it on. -/
def locate (scan : Scan) (source : List Char) (mistake : Misread) : ParseError :=
  ParseError.locate source ((scan.sourceOfLast mistake.rest.length).drop mistake.inside)

/-- Nothing may be left behind what was read. -/
def complete {α : Type} {bound : Nat} (scan : Scan) (source : List Char)
    (front : Front Token α bound) : Except ParseError α :=
  if front.rest = [] ∧ scan.stop = [] then .ok front.value
  else .error (scan.locate source ⟨front.rest, 0⟩)

end Token.Scan

/-! ### Whole texts -/

/-- Reads a text that is a contract. -/
def Contract.ofText (text : String) : Except ParseError Contract :=
  let source := text.toList
  let scan := Token.scan source
  match Contract.read scan.list with
  | .error mistake => .error (scan.locate source mistake)
  | .ok front => scan.complete source front

/-- Reads a text that is a list of statements. -/
def Statement.listOfText (text : String) : Except ParseError (List Statement) :=
  let source := text.toList
  let scan := Token.scan source
  match Statement.readAll scan.list (Nat.lt_succ_self _) with
  | .error mistake => .error (scan.locate source mistake)
  | .ok front => scan.complete source front

end Covenant
