/-
**Tokens.**

The text of a contract is cut into tokens, each the longest that begins where it does.  Between
tokens there may be gaps: spaces, tabs, line ends, and comments from `//` to the end of the line.

Main definitions:

* `Covenant.Keyword`, `Covenant.Symbol`, `Covenant.Token` — what a text consists of;
* `Covenant.Token.skipGap` — what is left behind a gap;
* `Covenant.Token.front?` — the token at the front of a text;
* `Covenant.Token.scan` — all tokens of a text, each with the place where it begins, and the place
  where no further token does.

Main results:

* `Covenant.Token.length_skipGap_le` — skipping a gap makes a text no longer.
-/

import Covenant.Contract
import Covenant.Front

set_option relaxedAutoImplicit false
set_option autoImplicit false

namespace Covenant

/-! ### Words -/

/-- The words that are no identifiers. -/
inductive Keyword where
  | contract | func | return | if | else | true | false | int | bool | string
  deriving DecidableEq, Repr

namespace Keyword

/-- All keywords. -/
def all : List Keyword :=
  [contract, func, .return, .if, .else, .true, .false, int, bool, string]

/-- The letters of a keyword. -/
def spelling : Keyword → String
  | contract => "contract" | func => "func" | .return => "return" | .if => "if" | .else => "else"
  | .true => "true" | .false => "false" | int => "int" | bool => "bool" | string => "string"

/-- The keyword that a word is, if it is one. -/
def ofSpelling? (word : String) : Option Keyword :=
  all.find? fun keyword => keyword.spelling == word

@[simp] theorem ofSpelling?_spelling (keyword : Keyword) :
    ofSpelling? keyword.spelling = some keyword := by
  cases keyword <;> decide

theorem ofSpelling?_eq_some_iff {word : String} {keyword : Keyword} :
    ofSpelling? word = some keyword ↔ keyword.spelling = word := by
  constructor
  · intro h
    simpa using List.find?_some h
  · rintro rfl
    simp

/-- The type that a keyword names, if it names one. -/
def dataType? : Keyword → Option DataType
  | int => some .int
  | bool => some .bool
  | string => some .string
  | _ => none

end Keyword

/-! ### Symbols -/

/-- The marks and operators of the language. -/
inductive Symbol where
  | openBrace | closeBrace | openParen | closeParen | comma | semicolon
  | assign | equal | bang | notEqual
  | less | lessOrEqual | greater | greaterOrEqual
  | plus | minus | star | slash | percent | and | or
  deriving DecidableEq, Repr

namespace Symbol

/-- The symbol at the front of a text, the longer of two, and the text behind it. -/
def front? : List Char → Option (Symbol × List Char)
  | '\x7b' :: rest => some (openBrace, rest)
  | '\x7d' :: rest => some (closeBrace, rest)
  | '(' :: rest => some (openParen, rest)
  | ')' :: rest => some (closeParen, rest)
  | ',' :: rest => some (comma, rest)
  | ';' :: rest => some (semicolon, rest)
  | '=' :: '=' :: rest => some (equal, rest)
  | '=' :: rest => some (assign, rest)
  | '!' :: '=' :: rest => some (notEqual, rest)
  | '!' :: rest => some (bang, rest)
  | '<' :: '=' :: rest => some (lessOrEqual, rest)
  | '<' :: rest => some (less, rest)
  | '>' :: '=' :: rest => some (greaterOrEqual, rest)
  | '>' :: rest => some (greater, rest)
  | '+' :: rest => some (plus, rest)
  | '-' :: rest => some (minus, rest)
  | '*' :: rest => some (star, rest)
  | '/' :: rest => some (slash, rest)
  | '%' :: rest => some (percent, rest)
  | '&' :: '&' :: rest => some (and, rest)
  | '|' :: '|' :: rest => some (or, rest)
  | _ => none

theorem length_rest_lt {cs rest : List Char} {symbol : Symbol}
    (h : front? cs = some (symbol, rest)) : rest.length < cs.length := by
  unfold front? at h
  split at h <;> first | (cases h; simp; try omega) | cases h

/-- The binary operator that a symbol is, if it is one. -/
def binary? : Symbol → Option BinaryOperator
  | plus => some .plus
  | minus => some .minus
  | star => some .times
  | slash => some .divide
  | percent => some .modulo
  | less => some .less
  | greater => some .greater
  | lessOrEqual => some .lessOrEqual
  | greaterOrEqual => some .greaterOrEqual
  | equal => some .equal
  | notEqual => some .notEqual
  | and => some .and
  | or => some .or
  | _ => none

/-- The symbol of a binary operator. -/
def ofBinary : BinaryOperator → Symbol
  | .plus => plus
  | .minus => minus
  | .times => star
  | .divide => slash
  | .modulo => percent
  | .less => less
  | .greater => greater
  | .lessOrEqual => lessOrEqual
  | .greaterOrEqual => greaterOrEqual
  | .equal => equal
  | .notEqual => notEqual
  | .and => and
  | .or => or

theorem binary?_eq_some_iff {symbol : Symbol} {op : BinaryOperator} :
    symbol.binary? = some op ↔ symbol = ofBinary op := by
  cases symbol <;> cases op <;> simp [binary?, ofBinary]

end Symbol

/-! ### Tokens -/

/-- A unit of the text of a contract. -/
inductive Token where
  | keyword (keyword : Keyword)
  | identifier (name : String)
  /-- An integer literal below `2 ^ 63`. -/
  | integer (value : Nat)
  /-- The digits of `2 ^ 63`, which only a minus sign makes a literal. -/
  | minMagnitude
  | text (value : String)
  | symbol (symbol : Symbol)
  deriving DecidableEq

namespace Token

/-- Letters, digits and underscores of the ASCII range. -/
def isWordChar (c : Char) : Bool :=
  c.isAlphanum || c == '_'

/-- The spaces, tabs and line ends between tokens. -/
def isSpace (c : Char) : Bool :=
  c == ' ' || c == '\t' || c == '\r' || c == '\n'

/-- The numeral of `2 ^ 63`. -/
def minMagnitudeDigits : List Char :=
  "9223372036854775808".toList

/-- The token of a maximal run of word characters.  A run that begins with a digit is a literal or
nothing: all of it must be digits, and its value must be in range. -/
def ofWord? (word : List Char) : Option Token :=
  if (word.headD ' ').isDigit then
    if word.all Char.isDigit ∧ Text.Decimal.value word < Text.Decimal.minMagnitude then
      some (integer (Text.Decimal.value word))
    else if word = minMagnitudeDigits then some minMagnitude
    else none
  else
    match Keyword.ofSpelling? (String.ofList word) with
    | some k => some (keyword k)
    | none => some (identifier (String.ofList word))

/-- The text behind a run of characters that satisfy `p`. -/
theorem length_dropWhile_le (p : Char → Bool) (cs : List Char) :
    (cs.dropWhile p).length ≤ cs.length :=
  (List.dropWhile_sublist p).length_le

/-- The token at the front of a text, if one begins there. -/
def front? (cs : List Char) : Option (Front Char Token cs.length) :=
  match cs with
  | [] => none
  | c :: rest =>
    if isWordChar c then
      (ofWord? (c :: rest.takeWhile isWordChar)).map fun token =>
        ⟨token, rest.dropWhile isWordChar, Nat.lt_succ_of_le (length_dropWhile_le _ _)⟩
    else if c = '"' then
      match h : rest.dropWhile (· != '"') with
      | _ :: behind =>
        some ⟨text (String.ofList (rest.takeWhile (· != '"'))), behind, by
          have := length_dropWhile_le (· != '"') rest
          simp [h] at this ⊢
          omega⟩
      | [] => none
    else
      match h : Symbol.front? (c :: rest) with
      | some (s, behind) => some ⟨symbol s, behind, Symbol.length_rest_lt h⟩
      | none => none

/-! ### Gaps -/

/-- What is left of a text behind the gap at its front.  A text that begins inside a comment has
the rest of that comment in its gap. -/
def skip (insideComment : Bool) : List Char → List Char
  | [] => []
  | c :: cs =>
    if insideComment then skip (c != '\n' && c != '\r') cs
    else if isSpace c then skip false cs
    else
      match c, cs with
      | '/', '/' :: comment => skip true comment
      | _, _ => c :: cs

/-- What is left of a text behind the spaces and comments at its front. -/
def skipGap (cs : List Char) : List Char :=
  skip false cs

theorem length_skip_le (insideComment : Bool) (cs : List Char) :
    (skip insideComment cs).length ≤ cs.length := by
  fun_induction skip insideComment cs <;> simp_all <;> omega

/-- Skipping a gap makes a text no longer. -/
theorem length_skipGap_le (cs : List Char) : (skipGap cs).length ≤ cs.length :=
  length_skip_le false cs

/-! ### Scanning -/

/-- A token and the text from its first character on. -/
structure Located where
  token : Token
  source : List Char

/-- The tokens of a text, and what is left of it where no further token begins. -/
structure Scan where
  tokens : List Located
  stop : List Char

/-- Cuts a text into tokens as far as it goes. -/
def scan (cs : List Char) : Scan :=
  match front? (skipGap cs) with
  | none => ⟨[], skipGap cs⟩
  | some ⟨token, rest, _⟩ =>
    let more := scan rest
    ⟨⟨token, skipGap cs⟩ :: more.tokens, more.stop⟩
termination_by cs.length
decreasing_by
  have := length_skipGap_le cs
  omega

end Token

end Covenant
