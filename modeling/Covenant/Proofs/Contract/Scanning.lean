/-
**The text of a contract is cut into its tokens.**

A token ends where no longer one can be taken, so where a token ends depends on what follows it: a
word must not be followed by another letter or digit, and an operator must not be followed by a
character that makes it another operator or a comment.  The text of a contract keeps tokens apart by
blanks and parentheses.

Main definitions:

* `Covenant.Token.Lexes` — cutting a text gives some tokens and goes on with the rest of it;
* `Covenant.Token.Apart` — a text does not go on with the word before it;
* `Covenant.Symbol.spelling`, `Covenant.Symbol.Ends` — the characters of a symbol, and whether it
  ends before a text.

Main results:

* `Token.lexes_space`, `Token.lexes_symbol`, `Token.lexes_word`, `Token.lexes_text` — what cutting
  does at the front of a text;
* `Expression.lexes_render`, `Statement.lexes_renderBlock` — the texts of expressions and blocks;
* `Contract.lexes_render` — **the text of a well-formed contract is cut into its tokens**.
-/

import Covenant.Proofs.Contract.Tokens

set_option relaxedAutoImplicit false
set_option autoImplicit false

namespace Covenant

/-! ### Symbols -/

namespace Symbol

/-- The characters of a symbol. -/
def spelling : Symbol → List Char
  | openBrace => ['\x7b']
  | closeBrace => ['\x7d']
  | openParen => ['(']
  | closeParen => [')']
  | comma => [',']
  | semicolon => [';']
  | assign => ['=']
  | equal => ['=', '=']
  | bang => ['!']
  | notEqual => ['!', '=']
  | less => ['<']
  | lessOrEqual => ['<', '=']
  | greater => ['>']
  | greaterOrEqual => ['>', '=']
  | plus => ['+']
  | minus => ['-']
  | star => ['*']
  | slash => ['/']
  | percent => ['%']
  | and => ['&', '&']
  | or => ['|', '|']

/-- A symbol ends where the text does not make it a longer one, nor a comment. -/
def Ends (symbol : Symbol) (rest : List Char) : Prop :=
  match symbol with
  | assign | bang | less | greater => ∀ more, rest ≠ '=' :: more
  | slash => ∀ more, rest ≠ '/' :: more
  | _ => True

theorem front?_spelling {symbol : Symbol} {rest : List Char} (ends : symbol.Ends rest) :
    front? (symbol.spelling ++ rest) = some (symbol, rest) := by
  cases symbol <;> first
    | rfl
    | exact front?.eq_def _
    | (simp only [spelling, List.singleton_append]; rw [front?]; exact ends)

end Symbol

/-! ### Cutting -/

namespace Token

/-- Cutting a text gives some tokens, and then goes on with the rest of it. -/
def Lexes (source : List Char) (tokens : List Token) (rest : List Char) : Prop :=
  (scan source).list = tokens ++ (scan rest).list ∧ (scan source).stop = (scan rest).stop

/-- A text does not go on with the word before it. -/
def Apart (rest : List Char) : Prop :=
  ∀ c ∈ rest.head?, isWordChar c = false

variable {source middle rest : List Char} {tokens more : List Token}

theorem Lexes.refl (source : List Char) : Lexes source [] source :=
  ⟨rfl, rfl⟩

theorem Lexes.trans (first : Lexes source tokens middle) (second : Lexes middle more rest) :
    Lexes source (tokens ++ more) rest :=
  ⟨by rw [first.1, second.1, List.append_assoc], first.2.trans second.2⟩

/-- If nothing is left, these are all tokens of the text. -/
theorem Lexes.whole (lexes : Lexes source tokens []) :
    (scan source).list = tokens ∧ (scan source).stop = [] := by
  have nothing : scan [] = ⟨[], []⟩ := by
    rw [scan]
    rfl
  obtain ⟨list, stop⟩ := lexes
  rw [nothing] at list stop
  exact ⟨list.trans (List.append_nil _), stop⟩

/-- What is cut depends on the text behind the gap. -/
theorem scan_of_skipGap (gap : skipGap source = rest) : scan source =
    match front? rest with
    | none => ⟨[], rest⟩
    | some ⟨token, behind, _⟩ => ⟨⟨token, rest⟩ :: (scan behind).tokens, (scan behind).stop⟩ := by
  subst gap
  rw [scan]
  cases front? (skipGap source) <;> rfl

theorem lexes_space {c : Char} (space : isSpace c = true) (rest : List Char) :
    Lexes (c :: rest) [] rest := by
  have gap : skipGap (c :: rest) = skipGap rest := by
    rw [skipGap, skip.eq_def]
    simp [space, skipGap]
  have scans : scan (c :: rest) = scan rest :=
    (scan_of_skipGap gap).trans (scan_of_skipGap rfl).symm
  rw [Lexes, scans]
  exact ⟨rfl, rfl⟩

/-- A token at the front is cut off. -/
theorem lexes_of_front? {token : Token} {shorter : rest.length < source.length}
    (gapless : skipGap source = source) (found : front? source = some ⟨token, rest, shorter⟩) :
    Lexes source [token] rest := by
  rw [Lexes, scan_of_skipGap gapless, found]
  exact ⟨rfl, rfl⟩

/-- There is no gap where neither a space nor a slash stands. -/
theorem skipGap_cons {c : Char} (noSpace : isSpace c = false) (noSlash : c ≠ '/')
    (rest : List Char) : skipGap (c :: rest) = c :: rest := by
  rw [skipGap, skip.eq_def]
  simp [noSpace, noSlash]

theorem skipGap_slash (noSlash : ∀ more, rest ≠ '/' :: more) :
    skipGap ('/' :: rest) = '/' :: rest := by
  have noSpace : isSpace '/' = false := by decide
  rw [skipGap, skip.eq_def]
  cases rest with
  | nil => rfl
  | cons c more =>
      have other : c ≠ '/' := fun same => noSlash more (by rw [same])
      simp [noSpace, other]

theorem front?_symbol {c : Char} {symbol : Symbol} (noWord : isWordChar c = false)
    (noQuote : c ≠ '"') (found : Symbol.front? (c :: source) = some (symbol, rest)) :
    front? (c :: source) = some ⟨.symbol symbol, rest, Symbol.length_rest_lt found⟩ := by
  rw [front?, if_neg (by simp [noWord]), if_neg noQuote]
  split
  case h_1 other behind same =>
    rw [found] at same
    cases same
    rfl
  case h_2 none =>
    rw [found] at none
    cases none

/-- A symbol is cut off where it ends. -/
theorem lexes_symbol (symbol : Symbol) (ends : symbol.Ends rest) :
    Lexes (symbol.spelling ++ rest) [.symbol symbol] rest := by
  have front := Symbol.front?_spelling ends
  cases symbol
  case slash => exact lexes_of_front? (skipGap_slash ends) (front?_symbol rfl (by decide) front)
  all_goals
    exact lexes_of_front? (skipGap_cons rfl (by decide) _) (front?_symbol rfl (by decide) front)

/-- A word character is neither a space nor a slash. -/
theorem skipGap_of_isWordChar {c : Char} (word : isWordChar c = true) (rest : List Char) :
    skipGap (c :: rest) = c :: rest := by
  refine skipGap_cons ?_ ?_ rest
  · cases space : isSpace c with
    | false => rfl
    | true =>
        simp only [isSpace, Bool.or_eq_true, beq_iff_eq] at space
        rcases space with ((rfl | rfl) | rfl) | rfl <;> cases word
  · rintro rfl
    cases word

/-- A word is cut off if the text does not go on with it. -/
theorem lexes_word {word : List Char} {token : Token} (nonempty : word ≠ [])
    (run : ∀ c ∈ word, isWordChar c = true) (same : ofWord? word = some token)
    (apart : Apart rest) : Lexes (word ++ rest) [token] rest := by
  cases word with
  | nil => exact absurd rfl nonempty
  | cons c letters =>
      rw [List.forall_mem_cons] at run
      -- the text does not go on with the word, so the word is taken and nothing else
      have stops : rest.takeWhile isWordChar = [] ∧ rest.dropWhile isWordChar = rest := by
        cases rest with
        | nil => exact ⟨rfl, rfl⟩
        | cons next behind =>
            have other := apart next rfl
            exact ⟨List.takeWhile_cons_of_neg (by simp [other]),
              List.dropWhile_cons_of_neg (by simp [other])⟩
      have taken : (letters ++ rest).takeWhile isWordChar = letters := by
        rw [List.takeWhile_append_of_pos run.2, stops.1, List.append_nil]
      have dropped : (letters ++ rest).dropWhile isWordChar = rest := by
        rw [List.dropWhile_append_of_pos run.2, stops.2]
      have shorter : rest.length < (c :: (letters ++ rest)).length := by
        rw [List.length_cons, List.length_append]
        omega
      have found : front? (c :: (letters ++ rest)) = some ⟨token, rest, shorter⟩ := by
        rw [front?, if_pos run.1, taken, same]
        simp only [Option.map_some, dropped]
      exact lexes_of_front? (skipGap_of_isWordChar run.1 _) found

/-- A text is cut off behind its second quotation mark. -/
theorem lexes_text {value : String} (unquoted : '"' ∉ value.toList) :
    Lexes ('"' :: (value.toList ++ '"' :: rest)) [.text value] rest := by
  -- the first quotation mark behind the opening one is the closing one
  have inner : ∀ c ∈ value.toList, (c != '"') = true := by
    intro c mem
    rw [bne_iff_ne]
    rintro rfl
    exact unquoted mem
  have taken : (value.toList ++ '"' :: rest).takeWhile (· != '"') = value.toList := by
    rw [List.takeWhile_append_of_pos inner, List.takeWhile_cons_of_neg (by simp), List.append_nil]
  have dropped : (value.toList ++ '"' :: rest).dropWhile (· != '"') = '"' :: rest := by
    rw [List.dropWhile_append_of_pos inner, List.dropWhile_cons_of_neg (by simp)]
  have shorter : rest.length < ('"' :: (value.toList ++ '"' :: rest)).length := by
    rw [List.length_cons, List.length_append, List.length_cons]
    omega
  have found : front? ('"' :: (value.toList ++ '"' :: rest)) =
      some ⟨.text value, rest, shorter⟩ := by
    rw [front?, if_neg (by decide), if_pos rfl]
    split
    case h_1 first behind same =>
      rw [dropped] at same
      cases same
      simp only [taken, String.ofList_toList]
    case h_2 none =>
      rw [dropped] at none
      cases none
  exact lexes_of_front? (skipGap_cons rfl (by decide) _) found

theorem apart_cons (c : Char) (noWord : isWordChar c = false) (rest : List Char) :
    Apart (c :: rest) := by
  rintro next ⟨⟩
  exact noWord

/-- Behind a word that was taken as long as possible, the text does not go on with it. -/
theorem apart_dropWhile (cs : List Char) : Apart (cs.dropWhile isWordChar) := by
  intro next mem
  have stops := List.head?_dropWhile_not isWordChar cs
  rw [Option.mem_def.1 mem] at stops
  exact stops

/-! ### Words -/

theorem isWordChar_of_isDigit {c : Char} (digit : c.isDigit = true) : isWordChar c = true := by
  simp [isWordChar, Char.isAlphanum, digit]

theorem isDigit_of_mem_toDigits {n : ℕ} : ∀ c ∈ Nat.toDigits 10 n, c.isDigit = true :=
  fun _ mem => Nat.isDigit_of_mem_toDigits (by decide) (by decide) mem

/-- Digits that denote a number in range are a literal. -/
theorem ofWord?_digits {digits : List Char} (nonempty : digits ≠ [])
    (all : ∀ c ∈ digits, c.isDigit = true)
    (range : Text.Decimal.value digits < Text.Decimal.minMagnitude) :
    ofWord? digits = some (.integer (Text.Decimal.value digits)) := by
  cases digits with
  | nil => exact absurd rfl nonempty
  | cons c rest =>
      have front : c.isDigit = true := all c (.head _)
      rw [ofWord?, List.headD_cons, if_pos front, if_pos ⟨List.all_eq_true.2 all, range⟩]

/-- The digits of a number in range are cut off as its literal. -/
theorem lexes_integer {n : ℕ} (range : n < Text.Decimal.minMagnitude) (apart : Apart rest) :
    Lexes (Nat.toDigits 10 n ++ rest) [.integer n] rest := by
  have same := Text.Decimal.value_toDigits n
  have literal := ofWord?_digits Nat.toDigits_ne_nil isDigit_of_mem_toDigits (by rwa [same])
  rw [same] at literal
  exact lexes_word Nat.toDigits_ne_nil
    (fun c mem => isWordChar_of_isDigit (isDigit_of_mem_toDigits c mem)) literal apart

theorem lexes_minMagnitude (apart : Apart rest) :
    Lexes (minMagnitudeDigits ++ rest) [.minMagnitude] rest :=
  lexes_word (by decide) (List.all_eq_true.1 (by decide)) (by decide) apart

theorem lexes_keyword (keyword : Keyword) (apart : Apart rest) :
    Lexes (keyword.spelling.toList ++ rest) [.keyword keyword] rest := by
  cases keyword <;>
    exact lexes_word (by decide) (List.all_eq_true.1 (by decide)) (by decide) apart

/-- The letters lie behind the digits. -/
theorem le_toNat_of_isAlpha {c : Char} (letter : c.isAlpha = true) : 'A'.toNat ≤ c.toNat := by
  rcases Bool.or_eq_true_iff.1 letter with upper | lower
  · have range : 'A'.val ≤ c.val ∧ c.val ≤ 'Z'.val := of_decide_eq_true upper
    exact UInt32.le_iff_toNat_le.1 range.1
  · have range : (decide ('a'.val ≤ c.val) && decide (c.val ≤ 'z'.val)) = true := lower
    have above := of_decide_eq_true (Bool.and_eq_true_iff.1 range).1
    exact Nat.le_trans (by decide) (UInt32.le_iff_toNat_le.1 above)

/-- No digit is a letter or an underscore. -/
theorem isDigit_eq_false {c : Char} (h : (c.isAlpha || c == '_') = true) : c.isDigit = false := by
  cases digit : c.isDigit with
  | false => rfl
  | true =>
      have below := (Char.isDigit_iff_toNat.1 digit).2
      rcases Bool.or_eq_true_iff.1 h with letter | underscore
      · have above := le_toNat_of_isAlpha letter
        exact absurd (Nat.le_trans above below) (by decide)
      · rw [beq_iff_eq.1 underscore] at below
        exact absurd below (by decide)

/-- A name is a word, and no other token. -/
theorem lexes_name {name : String} (valid : IsName name) (apart : Apart rest) :
    Lexes (name.toList ++ rest) [.identifier name] rest := by
  obtain ⟨unreserved, front, letters⟩ := valid
  cases word : name.toList with
  | nil =>
      rw [word] at front
      cases front
  | cons first others =>
      rw [word] at front letters
      have noDigit := isDigit_eq_false (Option.any_some.symm.trans front)
      have same : ofWord? (first :: others) = some (.identifier name) := by
        rw [ofWord?, if_neg (by simp [noDigit]), ← word, String.ofList_toList, unreserved]
      exact lexes_word (by simp) letters same apart

end Token

/-! ### Expressions -/

theorem Symbol.ends_space (symbol : Symbol) (rest : List Char) : symbol.Ends (' ' :: rest) := by
  cases symbol <;> simp [Ends]

theorem BinaryOperator.toList_symbol (op : BinaryOperator) :
    op.symbol.toList = (Symbol.ofBinary op).spelling := by
  cases op <;> rfl

theorem UnaryOperator.toList_symbol (op : UnaryOperator) :
    op.symbol.toList = (Symbol.ofUnary op).spelling := by
  cases op <;> rfl

namespace Expression

open Token

variable {rest : List Char}

theorem toList_integer {value : Int64} (positive : 0 ≤ value.toInt) :
    (integer value).render.toList = Nat.toDigits 10 value.toInt.toNat := by
  have magnitude : value.toInt.natAbs = value.toInt.toNat := by omega
  rw [render, Text.Decimal.ofInt, if_neg (by omega), Text.Decimal.toList_ofNat, magnitude]

theorem toList_least : (integer Int64.minValue).render.toList = '-' :: minMagnitudeDigits := by
  decide

/-- The text of an expression does not begin with an equals sign. -/
theorem render_append_ne {value : Expression} (valid : value.WellFormed) (more : List Char) :
    value.render.toList ++ rest ≠ '=' :: more := by
  intro same
  cases value with
  | integer value =>
      rcases valid with positive | rfl
      · rw [toList_integer positive] at same
        cases digits : Nat.toDigits 10 value.toInt.toNat with
        | nil => exact Nat.toDigits_ne_nil digits
        | cons c others =>
            have digit := isDigit_of_mem_toDigits c (by rw [digits]; exact .head _)
            rw [digits] at same
            cases same
            cases digit
      · rw [toList_least] at same
        cases same
  | boolean value => cases value <;> cases same
  | text value => simp [render] at same
  | identifier name =>
      have front := valid.2.1
      rw [render] at same
      cases word : name.toList with
      | nil =>
          rw [word] at front
          cases front
      | cons first others =>
          rw [word] at front same
          cases same
          cases front
  | unary op right => simp [render] at same
  | binary left op right => simp [render] at same

/-- The text of an expression is cut into its tokens. -/
theorem lexes_render {value : Expression} (valid : value.WellFormed) (apart : Apart rest) :
    Lexes (value.render.toList ++ rest) value.tokens rest := by
  induction value generalizing rest with
  | integer value =>
      rw [tokens]
      by_cases least : value = Int64.minValue
      · rw [if_pos least, least, toList_least]
        have sign : Lexes ('-' :: (minMagnitudeDigits ++ rest)) [.symbol .minus] _ :=
          lexes_symbol .minus trivial
        exact sign.trans (lexes_minMagnitude apart)
      · have positive := valid.resolve_right least
        have range := value.toInt_lt
        rw [if_neg least, toList_integer positive]
        exact lexes_integer (by simp only [Text.Decimal.minMagnitude]; omega) apart
  | boolean value =>
      cases value
      · exact lexes_keyword .false apart
      · exact lexes_keyword .true apart
  | text value =>
      have same : (text value).render.toList ++ rest = '"' :: (value.toList ++ '"' :: rest) := by
        simp [render]
      rw [same]
      exact lexes_text valid
  | identifier name => exact lexes_name valid apart
  | unary op right ih =>
      have same : (unary op right).render.toList ++ rest =
          '(' :: (op.symbol.toList ++ (right.render.toList ++ ')' :: rest)) := by
        simp [render]
      have ends : (Symbol.ofUnary op).Ends (right.render.toList ++ ')' :: rest) := by
        cases op
        · exact render_append_ne valid
        · trivial
      have operator := lexes_symbol _ ends
      rw [← UnaryOperator.toList_symbol] at operator
      have operand := ih valid (apart_cons ')' rfl rest)
      rw [same]
      exact (lexes_symbol .openParen trivial).trans (operator.trans (operand.trans
        (lexes_symbol .closeParen trivial)))
  | binary left op right ihLeft ihRight =>
      have same : (binary left op right).render.toList ++ rest =
          '(' :: (left.render.toList ++ ' ' :: (op.symbol.toList ++ ' ' :: (right.render.toList ++
            ')' :: rest))) := by
        simp [render]
      have first := ihLeft valid.1
        (apart_cons ' ' rfl (op.symbol.toList ++ ' ' :: (right.render.toList ++ ')' :: rest)))
      have operator := lexes_symbol (.ofBinary op)
        (Symbol.ends_space _ (right.render.toList ++ ')' :: rest))
      rw [← BinaryOperator.toList_symbol] at operator
      have second := ihRight valid.2 (apart_cons ')' rfl rest)
      rw [same]
      exact (lexes_symbol .openParen trivial).trans (first.trans ((lexes_space rfl _).trans
        (operator.trans ((lexes_space rfl _).trans (second.trans
          (lexes_symbol .closeParen trivial))))))

end Expression

/-! ### Statements -/

theorem DataType.spelling_keyword (type : DataType) : type.keyword.spelling = type.name := by
  cases type <;> rfl

/-- The name of a type is its keyword. -/
theorem DataType.lexes_name (type : DataType) {rest : List Char} (apart : Token.Apart rest) :
    Token.Lexes (type.name.toList ++ rest) [.keyword type.keyword] rest := by
  rw [← spelling_keyword]
  exact Token.lexes_keyword _ apart

namespace Statement

open Token

theorem toList_braced (texts : List String) : (braced texts).toList =
    '\x7b' :: ' ' :: (texts.flatMap (fun text => text.toList ++ [';', ' ']) ++ ['\x7d']) := by
  simp [braced, String.toList_join, List.flatMap_map]

variable {rest : List Char}

/-- What stands between braces is cut into tokens between braces. -/
theorem lexes_braced {texts : List String} {tokens : List Token} (inner : ∀ rest,
      Lexes (texts.flatMap (fun text => text.toList ++ [';', ' ']) ++ rest) tokens rest)
    (rest : List Char) : Lexes ((braced texts).toList ++ rest)
      (.symbol .openBrace :: (tokens ++ [.symbol .closeBrace])) rest := by
  have same : (braced texts).toList ++ rest = '\x7b' :: ' ' ::
      (texts.flatMap (fun text => text.toList ++ [';', ' ']) ++ '\x7d' :: rest) := by
    rw [toList_braced]
    simp
  rw [same]
  exact (lexes_symbol .openBrace trivial).trans ((lexes_space rfl _).trans ((inner _).trans
    (lexes_symbol .closeBrace trivial)))

/-- A name, an equals sign and a value. -/
theorem lexes_binding {name : String} {value : Expression} (named : IsName name)
    (valid : value.WellFormed) (apart : Apart rest) :
    Lexes (name.toList ++ ' ' :: '=' :: ' ' :: (value.render.toList ++ rest))
      (.identifier name :: .symbol .assign :: value.tokens) rest := by
  have equals : Lexes ('=' :: ' ' :: (value.render.toList ++ rest)) [.symbol .assign] _ :=
    lexes_symbol .assign (Symbol.ends_space .assign _)
  exact (lexes_name named (apart_cons ' ' rfl _)).trans ((lexes_space rfl _).trans
    (equals.trans ((lexes_space rfl _).trans (value.lexes_render valid apart))))

/-- `if`, a condition and a block, given how the block is cut into tokens. -/
theorem lexes_ifThen {condition : Expression} {block : List Char} {holds : List Token}
    (valid : condition.WellFormed) (inner : ∀ rest, Lexes (block ++ rest) holds rest)
    (rest : List Char) :
    Lexes (Keyword.if.spelling.toList ++ ' ' :: (condition.render.toList ++ ' ' :: (block ++ rest)))
      (.keyword .if :: (condition.tokens ++ holds)) rest := by
  have test := condition.lexes_render valid (apart_cons ' ' rfl (block ++ rest))
  exact (lexes_keyword .if (apart_cons ' ' rfl _)).trans ((lexes_space rfl _).trans
    (test.trans ((lexes_space rfl _).trans (inner rest))))

/-- The same with `else` and another block. -/
theorem lexes_ifElse {condition : Expression} {block other : List Char} {holds fails : List Token}
    (valid : condition.WellFormed) (first : ∀ rest, Lexes (block ++ rest) holds rest)
    (second : ∀ rest, Lexes (other ++ rest) fails rest) (rest : List Char) :
    Lexes (Keyword.if.spelling.toList ++ ' ' :: (condition.render.toList ++ ' ' ::
        (block ++ ' ' :: (Keyword.else.spelling.toList ++ ' ' :: (other ++ rest)))))
      (.keyword .if :: (condition.tokens ++ (holds ++ .keyword .else :: fails))) rest := by
  have behind := (lexes_keyword .else (apart_cons ' ' rfl _)).trans
    ((@lexes_space ' ' rfl _).trans (second rest))
  have both := (first _).trans ((@lexes_space ' ' rfl _).trans behind)
  have test := (condition.lexes_render valid (apart_cons ' ' rfl _)).trans
    ((@lexes_space ' ' rfl _).trans both)
  exact (lexes_keyword .if (apart_cons ' ' rfl _)).trans ((lexes_space rfl _).trans test)

mutual

/-- The text of a statement is cut into its tokens. -/
theorem lexes_render : (statement : Statement) → statement.WellFormed → (rest : List Char) →
    Apart rest → Lexes (statement.render.toList ++ rest) statement.tokens rest
  | declare type name value, valid, rest, apart => by
      have same : (declare type name value).render.toList ++ rest = type.name.toList ++ ' ' ::
          (name.toList ++ ' ' :: '=' :: ' ' :: (value.render.toList ++ rest)) := by
        simp [render]
      rw [same]
      exact (type.lexes_name (apart_cons ' ' rfl _)).trans ((lexes_space rfl _).trans
        (lexes_binding valid.1 valid.2 apart))
  | assign name value, valid, rest, apart => by
      have same : (assign name value).render.toList ++ rest =
          name.toList ++ ' ' :: '=' :: ' ' :: (value.render.toList ++ rest) := by
        simp [render]
      rw [same]
      exact lexes_binding valid.1 valid.2 apart
  | .return none, _, rest, apart => lexes_keyword .return apart
  | .return (some value), valid, rest, apart => by
      have same : (Statement.return (some value)).render.toList ++ rest =
          Keyword.return.spelling.toList ++ ' ' :: (value.render.toList ++ rest) := by
        simp [render, Keyword.spelling]
      rw [same]
      exact (lexes_keyword .return (apart_cons ' ' rfl _)).trans ((lexes_space rfl _).trans
        (value.lexes_render valid apart))
  | ifThen condition consequence, valid, rest, _ => by
      have same : (ifThen condition consequence).render.toList ++ rest =
          Keyword.if.spelling.toList ++ ' ' :: (condition.render.toList ++ ' ' ::
            ((braced (renderAll consequence)).toList ++ rest)) := by
        simp [render, Keyword.spelling]
      rw [same]
      exact lexes_ifThen valid.1 (lexes_braced (lexes_renderAll consequence valid.2)) rest
  | ifElse condition consequence alternative, valid, rest, _ => by
      have same : (ifElse condition consequence alternative).render.toList ++ rest =
          Keyword.if.spelling.toList ++ ' ' :: (condition.render.toList ++ ' ' ::
            ((braced (renderAll consequence)).toList ++ ' ' ::
              (Keyword.else.spelling.toList ++ ' ' ::
                ((braced (renderAll alternative)).toList ++ rest)))) := by
        simp [render, Keyword.spelling]
      have whole := lexes_ifElse valid.1 (lexes_braced (lexes_renderAll consequence valid.2.1))
        (lexes_braced (lexes_renderAll alternative valid.2.2)) rest
      rw [same]
      simpa [tokens] using whole
  | expression value, valid, rest, apart => value.lexes_render valid apart

/-- The texts of statements, with a semicolon behind each, are cut into their tokens. -/
theorem lexes_renderAll : (statements : List Statement) → WellFormedAll statements →
    (rest : List Char) → Lexes ((renderAll statements).flatMap (fun text =>
      text.toList ++ [';', ' ']) ++ rest) (tokensAll statements) rest
  | [], _, rest => .refl rest
  | statement :: others, valid, rest => by
      have same :
          (renderAll (statement :: others)).flatMap (fun text => text.toList ++ [';', ' ']) ++
              rest =
            statement.render.toList ++ ';' :: ' ' ::
              ((renderAll others).flatMap (fun text => text.toList ++ [';', ' ']) ++ rest) := by
        simp [renderAll]
      have first := lexes_render statement valid.1 _ (apart_cons ';' rfl (' ' ::
        ((renderAll others).flatMap (fun text => text.toList ++ [';', ' ']) ++ rest)))
      rw [same]
      exact first.trans ((lexes_symbol .semicolon trivial).trans ((lexes_space rfl _).trans
        (lexes_renderAll others valid.2 rest)))

end

/-- The text of a block is cut into its tokens. -/
theorem lexes_renderBlock {statements : List Statement} (valid : WellFormedAll statements)
    (rest : List Char) : Lexes ((renderBlock statements).toList ++ rest)
      (.symbol .openBrace :: (tokensAll statements ++ [.symbol .closeBrace])) rest :=
  lexes_braced (lexes_renderAll statements valid) rest

end Statement

/-! ### Declarations -/

/-- The first of some texts, and the separator and the next text for each of the others. -/
theorem Text.toList_intercalate_cons (separator text : String) (texts : List String) :
    (separator.intercalate (text :: texts)).toList =
      text.toList ++ texts.flatMap fun other => separator.toList ++ other.toList := by
  induction texts generalizing text with
  | nil => simp
  | cons other texts ih =>
      rw [String.intercalate_cons_cons, String.toList_append, ih]
      simp

namespace Parameter

open Token

variable {rest : List Char}

theorem toList_intercalate (parameter : Parameter) (others : List Parameter) :
    (", ".intercalate ((parameter :: others).map render)).toList =
      parameter.render.toList ++ others.flatMap fun other => ',' :: ' ' :: other.render.toList := by
  rw [List.map_cons, Text.toList_intercalate_cons, List.flatMap_map]
  rfl

theorem lexes_render {parameter : Parameter} (valid : parameter.WellFormed) (apart : Apart rest) :
    Lexes (parameter.render.toList ++ rest) parameter.tokens rest := by
  have same : parameter.render.toList ++ rest =
      parameter.name.toList ++ ' ' :: (parameter.type.name.toList ++ rest) := by
    simp [render]
  rw [same]
  exact (lexes_name valid (apart_cons ' ' rfl _)).trans ((lexes_space rfl _).trans
    (parameter.type.lexes_name apart))

/-- Further parameters, up to the closing parenthesis. -/
theorem lexes_more {parameters : List Parameter}
    (valid : ∀ parameter ∈ parameters, parameter.WellFormed) (rest : List Char) :
    Apart ((parameters.flatMap fun other => ',' :: ' ' :: other.render.toList) ++ ')' :: rest) ∧
      Lexes ((parameters.flatMap fun other => ',' :: ' ' :: other.render.toList) ++ ')' :: rest)
        (tokensMore parameters) (')' :: rest) := by
  induction parameters with
  | nil => exact ⟨apart_cons ')' rfl rest, .refl _⟩
  | cons parameter others ih =>
      rw [List.forall_mem_cons] at valid
      obtain ⟨apart, more⟩ := ih valid.2
      have first := (lexes_render valid.1 apart).trans more
      refine ⟨apart_cons ',' rfl _, ?_⟩
      rw [List.flatMap_cons, List.append_assoc]
      exact (lexes_symbol .comma trivial).trans ((lexes_space rfl _).trans first)

/-- The text of parameters is cut into their tokens, up to the closing parenthesis. -/
theorem lexes_intercalate {parameters : List Parameter}
    (valid : ∀ parameter ∈ parameters, parameter.WellFormed) (rest : List Char) :
    Lexes ((", ".intercalate (parameters.map render)).toList ++ ')' :: rest)
      (tokensAll parameters) (')' :: rest) := by
  cases parameters with
  | nil => exact .refl _
  | cons parameter others =>
      rw [List.forall_mem_cons] at valid
      obtain ⟨apart, more⟩ := lexes_more valid.2 rest
      rw [toList_intercalate, List.append_assoc]
      exact (lexes_render valid.1 apart).trans more

end Parameter

namespace FunctionDecl

open Token

/-- The text of a result type, with a blank before it, up to the next blank. -/
theorem lexes_returns (returns : Option DataType) (rest : List Char) :
    Lexes ((match returns with | some type => " " ++ type.name | none => "").toList ++ ' ' :: rest)
      (returnTokens returns) (' ' :: rest) := by
  cases returns with
  | none => exact .refl _
  | some type =>
      rw [String.toList_append, List.append_assoc]
      exact (lexes_space rfl _).trans (type.lexes_name (apart_cons ' ' rfl _))

/-- The text of a function is cut into its tokens. -/
theorem lexes_render {function : FunctionDecl} (valid : function.WellFormed) (rest : List Char) :
    Lexes (function.render.toList ++ rest) function.tokens rest := by
  obtain ⟨name, parameters, returns, body⟩ := function
  have same : (FunctionDecl.mk name parameters returns body).render.toList ++ rest =
      Keyword.func.spelling.toList ++ ' ' :: (name.toList ++ '(' ::
        ((", ".intercalate (parameters.map Parameter.render)).toList ++ ')' ::
          ((match returns with | some type => " " ++ type.name | none => "").toList ++ ' ' ::
            ((Statement.renderBlock body).toList ++ rest)))) := by
    cases returns <;> simp [render, Keyword.spelling]
  have block := Statement.lexes_renderBlock valid.body rest
  have result := (lexes_returns returns ((Statement.renderBlock body).toList ++ rest)).trans
    ((lexes_space rfl _).trans block)
  have listed := (Parameter.lexes_intercalate valid.parameters _).trans
    ((lexes_symbol .closeParen trivial).trans result)
  rw [same]
  exact (lexes_keyword .func (apart_cons ' ' rfl _)).trans ((lexes_space rfl _).trans
    ((lexes_name valid.name (apart_cons '(' rfl _)).trans
      ((lexes_symbol .openParen trivial).trans listed)))

/-- The texts of functions, each on a line of its own, are cut into their tokens. -/
theorem lexes_lines {functions : List FunctionDecl}
    (valid : ∀ function ∈ functions, function.WellFormed) (rest : List Char) :
    Lexes
      ((functions.flatMap fun function => ' ' :: ' ' :: (function.render.toList ++ ['\n'])) ++ rest)
      (functions.flatMap tokens) rest := by
  induction functions with
  | nil => exact .refl rest
  | cons function others ih =>
      rw [List.forall_mem_cons] at valid
      have same : ((function :: others).flatMap fun function =>
            ' ' :: ' ' :: (function.render.toList ++ ['\n'])) ++ rest =
          ' ' :: ' ' :: (function.render.toList ++ '\n' :: ((others.flatMap fun function =>
            ' ' :: ' ' :: (function.render.toList ++ ['\n'])) ++ rest)) := by
        simp
      rw [same]
      exact (lexes_space rfl _).trans ((lexes_space rfl _).trans
        ((lexes_render valid.1 _).trans ((lexes_space rfl _).trans (ih valid.2))))

end FunctionDecl

namespace Contract

open Token

/-- **The text of a well-formed contract is cut into its tokens**, and nothing is left. -/
theorem lexes_render {contract : Contract} (valid : contract.WellFormed) :
    Lexes contract.render.toList contract.tokens [] := by
  have same : contract.render.toList = Keyword.contract.spelling.toList ++ ' ' :: '\x7b' :: '\n' ::
      ((contract.functions.flatMap fun function =>
        ' ' :: ' ' :: (function.render.toList ++ ['\n'])) ++ ['\x7d']) := by
    simp [render, Keyword.spelling, String.toList_join, List.flatMap_map]
  have functions := FunctionDecl.lexes_lines valid ['\x7d']
  have closed : Lexes ['\x7d'] [.symbol .closeBrace] [] := lexes_symbol .closeBrace trivial
  rw [same]
  exact (lexes_keyword .contract (apart_cons ' ' rfl _)).trans ((lexes_space rfl _).trans
    ((lexes_symbol .openBrace trivial).trans ((lexes_space rfl _).trans (functions.trans closed))))

end Contract

end Covenant
