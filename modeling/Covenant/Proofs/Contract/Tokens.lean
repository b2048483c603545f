/-
**The tokens of a contract.**

Before it is a text, a contract is a list of tokens: this module says which, and that reading them
gives the contract back.  Every operator has its own parentheses, so that what is inside of them is
an operand, an operator and another operand, and reading need not find out which operators bind more
tightly.  It only has to stop behind the last operand.

Main definitions:

* `Covenant.Expression.tokens`, `Covenant.Statement.tokens`, `Covenant.Contract.tokens`;
* `Covenant.Expression.Stops` — no operator up to a rank follows;
* `Covenant.Statement.ReadsBare`, `Covenant.Statement.ReadsAll`, `Covenant.FunctionDecl.ReadsAll` —
  a statement, statements or functions are read, and this is left.

Main results:

* `Expression.readUnary_tokens`, `Expression.read_tokens` — reading the tokens of an expression,
  whatever follows and if no operator follows;
* `Statement.readAll_tokensAll` — those of statements;
* `Contract.read_tokens` — **reading the tokens of a well-formed contract gives the contract**;
* `Contract.ofText_of_scan`, `Statement.listOfText_of_scan` — a text is read if its tokens are.
-/

import Covenant.Contract.Reader
import Covenant.Proofs.Contract.WellFormed
import Covenant.Proofs.Front

set_option relaxedAutoImplicit false
set_option autoImplicit false

namespace Covenant

/-! ### Expressions -/

/-- The symbol of a unary operator. -/
def Symbol.ofUnary : UnaryOperator → Symbol
  | .not => bang
  | .minus => minus

namespace Expression

/-- The tokens of an expression.  The least integer is a minus sign and its magnitude, and every
other integer that can be written is a literal. -/
def tokens : Expression → List Token
  | integer value =>
      if value = Int64.minValue then [.symbol .minus, .minMagnitude]
      else [.integer value.toInt.toNat]
  | boolean true => [.keyword .true]
  | boolean false => [.keyword .false]
  | text value => [.text value]
  | identifier name => [.identifier name]
  | unary op right =>
      .symbol .openParen :: .symbol (.ofUnary op) :: (right.tokens ++ [.symbol .closeParen])
  | binary left op right =>
      .symbol .openParen :: (left.tokens ++ .symbol (.ofBinary op) ::
        (right.tokens ++ [.symbol .closeParen]))

/-- No operator of a rank up to the given one stands in front. -/
def Stops (rank : ℕ) (tokens : List Token) : Prop :=
  ∀ token ∈ tokens.head?, ∀ lower ≤ rank, operator? lower token = none

variable {rank : ℕ} {rest : List Token}

theorem Stops.mono {less : ℕ} (stops : Stops rank rest) (le : less ≤ rank) : Stops less rest :=
  fun token mem lower below => stops token mem lower (Nat.le_trans below le)

/-- A symbol that is no binary operator stops all of them. -/
theorem stops_symbol (symbol : Symbol) (none : symbol.binary? = none) (rest : List Token) :
    Stops rank (.symbol symbol :: rest) := by
  rintro token ⟨⟩ lower -
  simp [operator?, none]

theorem operator?_ofBinary (op : BinaryOperator) :
    operator? op.rank (.symbol (.ofBinary op)) = some op := by
  have same : (Symbol.ofBinary op).binary? = some op := Symbol.binary?_eq_some_iff.2 rfl
  simp [operator?, same]

theorem operator?_ofBinary_of_ne {op : BinaryOperator} (other : op.rank ≠ rank) :
    operator? rank (.symbol (.ofBinary op)) = none := by
  have same : (Symbol.ofBinary op).binary? = some op := Symbol.binary?_eq_some_iff.2 rfl
  simp [operator?, same, other]

/-- An operator stops those that bind more tightly. -/
theorem stops_operator {op : BinaryOperator} (above : rank < op.rank) :
    Stops rank (.symbol (.ofBinary op) :: rest) := by
  rintro token ⟨⟩ lower below
  exact operator?_ofBinary_of_ne (Nat.ne_of_gt (Nat.lt_of_le_of_lt below above))

theorem readMore_of_stops {bound : ℕ} (left : Expression) (stops : Stops (rank + 1) rest)
    (within : rest.length < bound) : readMore rank left rest within = ⟨left, rest, within⟩ := by
  cases rest with
  | nil => rw [readMore]
  | cons token rest =>
      have none := stops token rfl (rank + 1) (Nat.le_refl _)
      rw [readMore, none]

/-- An operator of the rank is taken with its right operand, and reading goes on behind both. -/
theorem readMore_operator {bound : ℕ} {op : BinaryOperator} {left right : Expression}
    {behind : List Token} (same : op.rank = rank + 1)
    (second : Reads (readRank rank behind) right rest)
    (within : (.symbol (.ofBinary op) :: behind : List Token).length < bound) :
    ∃ less, readMore rank left (.symbol (.ofBinary op) :: behind) within =
      readMore rank (binary left op right) rest less := by
  obtain ⟨shorter, found⟩ := second
  refine ⟨length_lt_of_shorter shorter (Nat.lt_of_succ_lt within), ?_⟩
  rw [readMore, ← same, operator?_ofBinary]
  simp only [found]

/-- What is read as an operand is read as an expression if no operator follows. -/
theorem readRank_of_readUnary {value : Expression} {source : List Token}
    (operand : Reads (readUnary source) value rest) (stops : Stops rank rest) :
    Reads (readRank rank source) value rest := by
  obtain ⟨within, found⟩ := operand
  induction rank with
  | zero => exact ⟨within, by rw [readRank, found]⟩
  | succ rank ih =>
      obtain ⟨_, lower⟩ := ih (stops.mono (Nat.le_succ _))
      rw [readRank, lower]
      exact ⟨within, congrArg _ (readMore_of_stops value stops _)⟩

/-- One operator between two operands is read, if no operator follows. -/
theorem readRank_binary {left right : Expression} {op : BinaryOperator} {source behind : List Token}
    (first : Reads (readUnary source) left (.symbol (.ofBinary op) :: behind))
    (second : Reads (readUnary behind) right rest) (stops : Stops BinaryOperator.topRank rest) :
    Reads (readRank BinaryOperator.topRank source) (binary left op right) rest := by
  have low := op.rank_le_topRank
  generalize BinaryOperator.topRank = rank at stops low ⊢
  induction low with
  | refl =>
      -- below its rank the operator stops reading, and the right operand is followed by nothing
      obtain ⟨lower, above⟩ := Nat.exists_eq_add_of_lt op.rank_pos
      rw [Nat.zero_add] at above
      rw [above] at stops ⊢
      have tighter : Stops lower (.symbol (.ofBinary op) :: behind) := stops_operator (by omega)
      obtain ⟨within, front⟩ := readRank_of_readUnary first tighter
      have back := readRank_of_readUnary second (stops.mono (Nat.le_succ _))
      obtain ⟨less, more⟩ := @readMore_operator _ _ _ _ left _ _ above back within
      rw [readRank, front]
      exact ⟨less, congrArg _ (more.trans (readMore_of_stops _ stops less))⟩
  | step _ ih =>
      obtain ⟨within, lower⟩ := ih (stops.mono (Nat.le_succ _))
      rw [readRank, lower]
      exact ⟨within, congrArg _ (readMore_of_stops _ stops _)⟩

/-- What is read between parentheses is an operand. -/
theorem readUnary_paren {value : Expression} {source : List Token}
    (inner : Reads (readRank BinaryOperator.topRank source) value (.symbol .closeParen :: rest)) :
    Reads (readUnary (.symbol .openParen :: source)) value rest := by
  obtain ⟨within, found⟩ := inner
  rw [readUnary, found]
  simp only [Front.skip?_cons]
  exact ⟨_, rfl⟩

/-- A unary operator before an operand is an operand, unless the operator and what follows are a
longer one or a literal. -/
theorem readUnary_unary {op : UnaryOperator} {right : Expression} {source : List Token}
    (operand : Reads (readUnary source) right rest) (unequal : startsWithEquals source = false)
    (unmagnified : ∀ tail, source ≠ .minMagnitude :: tail) :
    Reads (readUnary (.symbol (.ofUnary op) :: source)) (unary op right) rest := by
  obtain ⟨within, found⟩ := operand
  cases op with
  | not =>
      rw [Symbol.ofUnary, readUnary, unequal, found]
      exact ⟨_, rfl⟩
  | minus =>
      rw [Symbol.ofUnary, readUnary, found]
      · exact ⟨_, rfl⟩
      · exact unmagnified

/-- The tokens of an expression do not begin with an equals sign. -/
theorem startsWithEquals_tokens (value : Expression) (rest : List Token) :
    startsWithEquals (value.tokens ++ rest) = false := by
  cases value with
  | integer value =>
      rw [tokens]
      split <;> rfl
  | boolean value => cases value <;> rfl
  | _ => rfl

/-- The tokens of an expression do not begin with the magnitude of the least integer. -/
theorem tokens_append_ne (value : Expression) (rest tail : List Token) :
    value.tokens ++ rest ≠ .minMagnitude :: tail := by
  cases value with
  | integer value =>
      rw [tokens]
      split <;> simp
  | boolean value => cases value <;> simp [tokens]
  | _ => simp [tokens]

/-- The tokens of an expression are read as an operand, whatever follows. -/
theorem readUnary_tokens {value : Expression} (valid : value.WellFormed) (rest : List Token) :
    Reads (readUnary (value.tokens ++ rest)) value rest := by
  induction value generalizing rest with
  | integer value =>
      by_cases least : value = Int64.minValue
      · rw [tokens, if_pos least, least]
        exact ⟨_, readUnary.eq_1 rest⟩
      · -- a literal is no larger than the largest integer, so it is not cut short
        have positive := valid.resolve_right least
        have same : Int64.ofNat value.toInt.toNat = value := by
          rw [← Int64.ofInt_eq_ofNat, Int.toNat_of_nonneg positive, Int64.ofInt_toInt]
        rw [tokens, if_neg least, List.singleton_append, readUnary, same]
        exact ⟨_, rfl⟩
  | boolean value => cases value <;> exact ⟨_, readUnary.eq_def _⟩
  | text value => exact ⟨_, readUnary.eq_def _⟩
  | identifier name => exact ⟨_, readUnary.eq_def _⟩
  | unary op right ih =>
      rw [tokens, List.cons_append, List.cons_append, List.append_assoc]
      have operand := ih valid (.symbol .closeParen :: rest)
      have inner : Reads (readUnary (.symbol (.ofUnary op) ::
          (right.tokens ++ ([.symbol .closeParen] ++ rest)))) _ (.symbol .closeParen :: rest) :=
        readUnary_unary operand (startsWithEquals_tokens _ _) (tokens_append_ne _ _)
      exact readUnary_paren (readRank_of_readUnary inner (stops_symbol _ rfl _))
  | binary left op right ihLeft ihRight =>
      rw [tokens, List.cons_append, List.append_assoc, List.cons_append, List.append_assoc]
      have second := ihRight valid.2 (.symbol .closeParen :: rest)
      exact readUnary_paren (readRank_binary (ihLeft valid.1 _) second (stops_symbol _ rfl _))

/-- The tokens of an expression are read if no operator follows. -/
theorem read_tokens {value : Expression} (valid : value.WellFormed)
    (stops : Stops BinaryOperator.topRank rest) : Reads (read (value.tokens ++ rest)) value rest :=
  readRank_of_readUnary (readUnary_tokens valid rest) stops

/-- Where no operand begins, no expression does. -/
theorem readRank_error {source mistake : List Token} (none : readUnary source = .error mistake) :
    readRank rank source = .error mistake := by
  induction rank with
  | zero => rw [readRank, none]
  | succ rank ih => rw [readRank, ih]

end Expression

/-! ### Statements -/

/-- The keyword of a type. -/
def DataType.keyword : DataType → Keyword
  | int => .int
  | bool => .bool
  | string => .string

@[simp] theorem DataType.dataType?_keyword (type : DataType) :
    type.keyword.dataType? = some type := by
  cases type <;> rfl

namespace Statement

mutual

/-- The tokens of a statement. -/
def tokens : Statement → List Token
  | declare type name value =>
      .keyword type.keyword :: .identifier name :: .symbol .assign :: value.tokens
  | assign name value => .identifier name :: .symbol .assign :: value.tokens
  | .return none => [.keyword .return]
  | .return (some value) => .keyword .return :: value.tokens
  | ifThen condition consequence =>
      .keyword .if :: (condition.tokens ++ .symbol .openBrace ::
        (tokensAll consequence ++ [.symbol .closeBrace]))
  | ifElse condition consequence alternative =>
      .keyword .if :: (condition.tokens ++ .symbol .openBrace ::
        (tokensAll consequence ++ .symbol .closeBrace :: .keyword .else :: .symbol .openBrace ::
          (tokensAll alternative ++ [.symbol .closeBrace])))
  | expression value => value.tokens

/-- The tokens of statements, with a semicolon behind each. -/
def tokensAll : List Statement → List Token
  | [] => []
  | statement :: rest => statement.tokens ++ .symbol .semicolon :: tokensAll rest

end

theorem tokens_ifThen_append (condition : Expression) (consequence : List Statement)
    (rest : List Token) : (ifThen condition consequence).tokens ++ rest =
      .keyword .if :: (condition.tokens ++ .symbol .openBrace ::
        (tokensAll consequence ++ .symbol .closeBrace :: rest)) := by
  simp [tokens]

theorem tokens_ifElse_append (condition : Expression) (consequence alternative : List Statement)
    (rest : List Token) : (ifElse condition consequence alternative).tokens ++ rest =
      .keyword .if :: (condition.tokens ++ .symbol .openBrace :: (tokensAll consequence ++
        .symbol .closeBrace :: .keyword .else :: .symbol .openBrace ::
          (tokensAll alternative ++ .symbol .closeBrace :: rest))) := by
  simp [tokens]

/-- A statement is read, and this is left. -/
def ReadsBare (source : List Token) (statement : Statement) (rest : List Token) : Prop :=
  ∃ within, readBare source = .ok (some ⟨statement, rest, within⟩)

/-- Statements are read, and this is left. -/
def ReadsAll (source : List Token) (statements : List Statement) (rest : List Token) : Prop :=
  ∀ (bound : ℕ) (within : source.length < bound), Reads (readAll source within) statements rest

variable {source behind rest : List Token} {statement : Statement}
  {statements block alternative : List Statement} {condition : Expression}

theorem readBinding_of_read {name : String} {value : Expression} {source : List Token}
    (inner : Reads (Expression.read source) value rest) :
    Reads (readBinding (.identifier name :: .symbol .assign :: source)) (name, value) rest := by
  obtain ⟨within, found⟩ := inner
  rw [readBinding, found]
  exact ⟨_, rfl⟩

/-! A statement that ends with a value ends where the value does. -/

theorem readBare_declare (type : DataType) (name : String) {value : Expression}
    {source : List Token} (inner : Reads (Expression.read source) value rest) :
    ∃ within, readBare (.keyword type.keyword :: .identifier name :: .symbol .assign :: source) =
      .ok (some ⟨declare type name value, rest, within⟩) := by
  obtain ⟨within, found⟩ := @readBinding_of_read _ name _ _ inner
  cases type <;>
  · rw [readBare.eq_def]
    simp only [DataType.keyword, Keyword.dataType?]
    rw [found]
    exact ⟨_, rfl⟩

theorem readBare_assign (name : String) {value : Expression} {source : List Token}
    (inner : Reads (Expression.read source) value rest) :
    ∃ within, readBare (.identifier name :: .symbol .assign :: source) =
      .ok (some ⟨assign name value, rest, within⟩) := by
  obtain ⟨within, found⟩ := inner
  rw [readBare, found]
  exact ⟨_, rfl⟩

theorem readBare_returnValue {value : Expression} {source : List Token}
    (inner : Reads (Expression.read source) value rest) :
    ∃ within, readBare (.keyword .return :: source) =
      .ok (some ⟨.return (some value), rest, within⟩) := by
  obtain ⟨within, found⟩ := inner
  rw [readBare, found]
  exact ⟨_, rfl⟩

/-- An expression begins like no other statement, unless an assignment follows. -/
theorem readBare_expression (operand : Expression) {symbol : Symbol} (other : symbol ≠ .assign)
    {value : Expression} {behind : List Token}
    (inner : Reads (Expression.read (operand.tokens ++ .symbol symbol :: behind)) value rest) :
    ∃ within, readBare (operand.tokens ++ .symbol symbol :: behind) =
      .ok (some ⟨expression value, rest, within⟩) := by
  obtain ⟨within, found⟩ := inner
  have alone : readBare (operand.tokens ++ .symbol symbol :: behind) =
      .ok (readExpression? (operand.tokens ++ .symbol symbol :: behind)) := by
    cases operand with
    | integer value =>
        by_cases least : value = Int64.minValue
        · rw [Expression.tokens, if_pos least]
          exact readBare.eq_def _
        · rw [Expression.tokens, if_neg least]
          exact readBare.eq_def _
    | boolean value => cases value <;> exact readBare.eq_def _
    | identifier name =>
        cases symbol
        case assign => exact absurd rfl other
        all_goals exact readBare.eq_def _
    | _ => exact readBare.eq_def _
  rw [alone, readExpression?, found]
  exact ⟨within, rfl⟩

/-- No value is returned where no operand begins. -/
theorem readsBare_returnNothing {mistake : List Token}
    (fails : Expression.readUnary rest = .error mistake) :
    ReadsBare (.keyword .return :: rest) (.return none) rest := by
  have none : Expression.read rest = .error mistake := Expression.readRank_error fails
  rw [ReadsBare, readBare, none]
  exact ⟨Nat.lt_succ_self _, rfl⟩

theorem readBlock_of_readAll
    (inner : Reads (readAll source (length_lt_succ source)) block (.symbol .closeBrace :: rest)) :
    Reads (readBlock (.symbol .openBrace :: source)) block rest := by
  obtain ⟨within, found⟩ := inner
  rw [readBlock, found]
  simp only [Front.skip?_cons]
  exact ⟨_, rfl⟩

/-- Only a block is read as one. -/
theorem exists_eq_openBrace (holds : Reads (readBlock source) block rest) :
    ∃ more, source = .symbol .openBrace :: more := by
  obtain ⟨within, found⟩ := holds
  unfold readBlock at found
  split at found
  case h_1 more => exact ⟨more, rfl⟩
  case h_2 => cases found

theorem readsBare_ifThen (test : Reads (Expression.read source) condition behind)
    (holds : Reads (readBlock behind) block rest) (alone : rest.head? ≠ some (.keyword .else)) :
    ReadsBare (.keyword .if :: source) (ifThen condition block) rest := by
  obtain ⟨less, test⟩ := test
  obtain ⟨shorter, holds⟩ := holds
  have skipped := @Front.skip?_of_head?_ne _ _ _ _ (.keyword .else) block _ shorter alone
  rw [ReadsBare, readBare, test]
  simp only [holds, skipped]
  exact ⟨Nat.lt_succ_of_lt (Nat.lt_trans shorter less), rfl⟩

theorem readsBare_ifElse {otherwise : List Token}
    (test : Reads (Expression.read source) condition behind)
    (holds : Reads (readBlock behind) block (.keyword .else :: otherwise))
    (fails : Reads (readBlock otherwise) alternative rest) :
    ReadsBare (.keyword .if :: source) (ifElse condition block alternative) rest := by
  obtain ⟨less, test⟩ := test
  obtain ⟨shorter, holds⟩ := holds
  obtain ⟨last, fails⟩ := fails
  rw [ReadsBare, readBare, test]
  simp only [holds, Front.skip?_cons]
  rw [fails]
  rw [List.length_cons] at shorter
  exact ⟨by rw [List.length_cons]; omega, rfl⟩

/-! Statements are read one behind the other, each with its semicolon or without one. -/

theorem ReadsAll.cons (more : ReadsAll behind statements rest)
    (first : ReadsBare source statement behind)
    (bare : behind.head? ≠ some (.symbol .semicolon)) :
    ReadsAll source (statement :: statements) rest := by
  intro bound within
  obtain ⟨shorter, first⟩ := first
  obtain ⟨less, found⟩ := more bound (length_lt_of_shorter shorter within)
  have skipped : skipSemicolon ⟨statement, behind, shorter⟩ = ⟨statement, behind, shorter⟩ := by
    rw [skipSemicolon, Front.skip?_of_head?_ne shorter bare]
    rfl
  rw [readAll, first]
  simp only [skipped, found]
  exact ⟨less, rfl⟩

theorem ReadsAll.semicolon (more : ReadsAll behind statements rest)
    (first : ReadsBare source statement (.symbol .semicolon :: behind)) :
    ReadsAll source (statement :: statements) rest := by
  intro bound within
  obtain ⟨shorter, first⟩ := first
  have less : behind.length < source.length := Nat.lt_of_succ_lt shorter
  obtain ⟨last, found⟩ := more bound (length_lt_of_shorter less within)
  rw [readAll, first]
  simp only [skipSemicolon, Front.skip?_cons, Option.getD_some, found]
  exact ⟨last, rfl⟩

/-- Where no operand begins, no statement that is an expression does. -/
theorem readExpression?_eq_none {source mistake : List Token}
    (fails : Expression.readUnary source = .error mistake) : readExpression? source = none := by
  have read : Expression.read source = .error mistake := Expression.readRank_error fails
  rw [readExpression?, read]

/-- Where no operand begins with a symbol, no statement does. -/
theorem readBare_symbol {symbol : Symbol} {mistake : List Token}
    (fails : Expression.readUnary (.symbol symbol :: rest) = .error mistake) :
    readBare (.symbol symbol :: rest) = .ok none :=
  (readBare.eq_def _).trans (congrArg Except.ok (readExpression?_eq_none fails))

/-- No statement begins with a closing brace. -/
theorem readBare_closeBrace (rest : List Token) : readBare (.symbol .closeBrace :: rest) = .ok none :=
  readBare_symbol (Expression.readUnary.eq_def _)

mutual

/-- The tokens of a statement are read if a semicolon follows. -/
theorem readBare_tokens : (statement : Statement) → statement.WellFormed → (rest : List Token) →
    ∃ within, readBare (statement.tokens ++ .symbol .semicolon :: rest) =
      .ok (some ⟨statement, .symbol .semicolon :: rest, within⟩)
  | declare type name value, valid, rest => by
      rw [tokens, List.cons_append, List.cons_append, List.cons_append]
      exact readBare_declare type name
        (Expression.read_tokens valid.2 (Expression.stops_symbol .semicolon rfl rest))
  | assign name value, valid, rest => by
      rw [tokens, List.cons_append, List.cons_append]
      exact readBare_assign name
        (Expression.read_tokens valid.2 (Expression.stops_symbol .semicolon rfl rest))
  | .return none, _, _ => readsBare_returnNothing (Expression.readUnary.eq_def _)
  | .return (some value), valid, rest => by
      rw [tokens, List.cons_append]
      exact readBare_returnValue
        (Expression.read_tokens valid (Expression.stops_symbol .semicolon rfl rest))
  | ifThen condition consequence, valid, rest => by
      have test := Expression.read_tokens valid.1 (Expression.stops_symbol .openBrace rfl
        (tokensAll consequence ++ .symbol .closeBrace :: .symbol .semicolon :: rest))
      have block := readBlock_of_readAll
        (readAll_tokensAll consequence valid.2 (readBare_closeBrace (.symbol .semicolon :: rest)) _)
      -- the semicolon behind the block shows that no `else` follows
      rw [tokens_ifThen_append]
      exact readsBare_ifThen test block (by simp)
  | ifElse condition consequence alternative, valid, rest => by
      have other := readBlock_of_readAll (readAll_tokensAll alternative valid.2.2
        (readBare_closeBrace (.symbol .semicolon :: rest)) _)
      have block := readBlock_of_readAll
        (readAll_tokensAll consequence valid.2.1 (readBare_closeBrace (.keyword .else ::
          .symbol .openBrace :: (tokensAll alternative ++
            .symbol .closeBrace :: .symbol .semicolon :: rest))) _)
      have test := Expression.read_tokens valid.1 (Expression.stops_symbol .openBrace rfl
        (tokensAll consequence ++ .symbol .closeBrace :: .keyword .else :: .symbol .openBrace ::
          (tokensAll alternative ++ .symbol .closeBrace :: .symbol .semicolon :: rest)))
      rw [tokens_ifElse_append]
      exact readsBare_ifElse test block other
  | expression value, valid, rest =>
      readBare_expression value (by decide)
        (Expression.read_tokens valid (Expression.stops_symbol .semicolon rfl rest))

/-- The tokens of statements are read if no other statement follows. -/
theorem readAll_tokensAll : (statements : List Statement) → WellFormedAll statements →
    {bound : ℕ} → {rest : List Token} → readBare rest = .ok none →
    (within : (tokensAll statements ++ rest).length < bound) →
    Reads (readAll (tokensAll statements ++ rest) within) statements rest
  | [], _, _, rest, ends, within => by
      simp only [tokensAll, List.nil_append] at within ⊢
      rw [readAll, ends]
      exact ⟨within, rfl⟩
  | statement :: others, valid, bound, rest, ends, within => by
      have same : tokensAll (statement :: others) ++ rest =
          statement.tokens ++ .symbol .semicolon :: (tokensAll others ++ rest) := by
        rw [tokensAll, List.append_assoc, List.cons_append]
      have more : ReadsAll (tokensAll others ++ rest) others rest :=
        fun _ less => readAll_tokensAll others valid.2 ends less
      have whole := more.semicolon (readBare_tokens statement valid.1 (tokensAll others ++ rest))
      rw [← same] at whole
      exact whole bound within

end

end Statement

/-! ### Parameters -/

namespace Parameter

/-- The tokens of a parameter. -/
def tokens (parameter : Parameter) : List Token :=
  [.identifier parameter.name, .keyword parameter.type.keyword]

/-- The tokens of further parameters, with a comma before each. -/
def tokensMore : List Parameter → List Token
  | [] => []
  | parameter :: rest => .symbol .comma :: (parameter.tokens ++ tokensMore rest)

/-- The tokens of parameters, with commas between them. -/
def tokensAll : List Parameter → List Token
  | [] => []
  | parameter :: rest => parameter.tokens ++ tokensMore rest

variable {rest : List Token} {bound : ℕ}

theorem read?_tokens (parameter : Parameter) (rest : List Token) :
    ∃ within, read? (parameter.tokens ++ rest) = some ⟨parameter, rest, within⟩ := by
  rw [tokens, List.cons_append, List.cons_append, List.nil_append, read?,
    DataType.dataType?_keyword]
  exact ⟨_, rfl⟩

/-- The tokens of further parameters are read up to the closing parenthesis. -/
theorem readMore_tokensMore (parameters : List Parameter)
    (within : (tokensMore parameters ++ .symbol .closeParen :: rest).length < bound) :
    ∃ less, readMore (tokensMore parameters ++ .symbol .closeParen :: rest) within =
      ⟨parameters, .symbol .closeParen :: rest, less⟩ := by
  induction parameters generalizing bound with
  | nil => exact ⟨within, readMore.eq_def _ _⟩
  | cons parameter others ih =>
      have same : tokensMore (parameter :: others) ++ .symbol .closeParen :: rest =
          .symbol .comma ::
            (parameter.tokens ++ (tokensMore others ++ .symbol .closeParen :: rest)) := by
        rw [tokensMore, List.cons_append, List.append_assoc]
      generalize tokensMore (parameter :: others) ++ .symbol .closeParen :: rest = source
        at same within ⊢
      subst same
      obtain ⟨shorter, first⟩ :=
        parameter.read?_tokens (tokensMore others ++ .symbol .closeParen :: rest)
      rw [List.length_cons] at within
      obtain ⟨less, more⟩ := @ih bound (by omega)
      rw [readMore]
      simp only [first, more]
      exact ⟨less, rfl⟩

/-- The tokens of parameters are read up to the closing parenthesis. -/
theorem readAll_tokensAll (parameters : List Parameter)
    (within : (tokensAll parameters ++ .symbol .closeParen :: rest).length < bound) :
    ∃ less, readAll (tokensAll parameters ++ .symbol .closeParen :: rest) within =
      ⟨parameters, .symbol .closeParen :: rest, less⟩ := by
  cases parameters with
  | nil => exact ⟨within, rfl⟩
  | cons parameter others =>
      have same : tokensAll (parameter :: others) ++ .symbol .closeParen :: rest =
          parameter.tokens ++ (tokensMore others ++ .symbol .closeParen :: rest) := by
        rw [tokensAll, List.append_assoc]
      generalize tokensAll (parameter :: others) ++ .symbol .closeParen :: rest = source
        at same within ⊢
      subst same
      obtain ⟨shorter, first⟩ :=
        parameter.read?_tokens (tokensMore others ++ .symbol .closeParen :: rest)
      obtain ⟨less, more⟩ := @readMore_tokensMore rest bound others (by omega)
      rw [readAll, first]
      simp only [more]
      exact ⟨less, rfl⟩

end Parameter

/-! ### Functions -/

namespace FunctionDecl

/-- The tokens of a result type, if there is one. -/
def returnTokens : Option DataType → List Token
  | some type => [.keyword type.keyword]
  | none => []

/-- The tokens of a function. -/
def tokens (function : FunctionDecl) : List Token :=
  .keyword .func :: .identifier function.name :: .symbol .openParen ::
    (Parameter.tokensAll function.parameters ++ .symbol .closeParen ::
      (returnTokens function.returns ++ .symbol .openBrace ::
        (Statement.tokensAll function.body ++ [.symbol .closeBrace])))

/-- Functions are read, and this is left. -/
def ReadsAll (source : List Token) (functions : List FunctionDecl) (rest : List Token) : Prop :=
  ∀ (bound : ℕ) (within : source.length < bound), Reads (readAll source within) functions rest

variable {source behind rest : List Token} {function : FunctionDecl}
  {functions : List FunctionDecl} {body : List Statement} {bound : ℕ}

theorem tokens_append (function : FunctionDecl) (rest : List Token) : function.tokens ++ rest =
    .keyword .func :: .identifier function.name :: .symbol .openParen ::
      (Parameter.tokensAll function.parameters ++ .symbol .closeParen ::
        (returnTokens function.returns ++ .symbol .openBrace ::
          (Statement.tokensAll function.body ++ .symbol .closeBrace :: rest))) := by
  simp [tokens]

theorem readReturns_tokens (returns : Option DataType)
    (within : (returnTokens returns ++ .symbol .openBrace :: rest).length < bound) :
    ∃ less, readReturns (returnTokens returns ++ .symbol .openBrace :: rest) within =
      ⟨returns, .symbol .openBrace :: rest, less⟩ := by
  cases returns with
  | none => exact ⟨within, rfl⟩
  | some type => cases type <;> exact ⟨Nat.lt_of_succ_lt within, rfl⟩

/-- The tokens of a function between its keyword and its block. -/
def signature (name : String) (parameters : List Parameter) (returns : Option DataType) :
    List Token :=
  .identifier name :: .symbol .openParen ::
    (Parameter.tokensAll parameters ++ .symbol .closeParen :: returnTokens returns)

theorem signature_append (name : String) (parameters : List Parameter)
    (returns : Option DataType) (rest : List Token) : signature name parameters returns ++ rest =
      .identifier name :: .symbol .openParen :: (Parameter.tokensAll parameters ++
        .symbol .closeParen :: (returnTokens returns ++ rest)) := by
  simp [signature]

/-- A function is read behind its keyword if its block is. -/
theorem readDeclaration_of_readBlock (name : String) (parameters : List Parameter)
    (returns : Option DataType) (block : Reads (Statement.readBlock source) body rest) :
    Reads (readDeclaration (signature name parameters returns ++ source))
      ⟨name, parameters, returns, body⟩ rest := by
  obtain ⟨more, rfl⟩ := Statement.exists_eq_openBrace block
  obtain ⟨last, block⟩ := block
  obtain ⟨less, listed⟩ := @Parameter.readAll_tokensAll
    (returnTokens returns ++ .symbol .openBrace :: more) _ parameters (length_lt_succ _)
  obtain ⟨shorter, result⟩ := readReturns_tokens returns (Nat.lt_of_succ_lt less)
  rw [signature_append, readDeclaration]
  simp only [listed, Front.skip?_cons]
  rw [result]
  simp only
  rw [block]
  refine ⟨?_, rfl⟩
  simp only [List.length_cons, List.length_append] at last ⊢
  omega

theorem read_of_readDeclaration (declared : Reads (readDeclaration source) function rest) :
    ∃ within, read (.keyword .func :: source) = .ok (some ⟨function, rest, within⟩) := by
  obtain ⟨within, found⟩ := declared
  rw [read, found]
  exact ⟨Nat.lt_succ_of_lt within, rfl⟩

theorem ReadsAll.cons (more : ReadsAll behind functions rest)
    (declared : Reads (readDeclaration source) function behind) :
    ReadsAll (.keyword .func :: source) (function :: functions) rest := by
  intro bound within
  obtain ⟨shorter, first⟩ := read_of_readDeclaration declared
  obtain ⟨less, found⟩ := more bound (length_lt_of_shorter shorter within)
  rw [readAll, first]
  simp only [found]
  exact ⟨less, rfl⟩

/-- The tokens of a function are read behind its keyword, whatever follows. -/
theorem readDeclaration_tokens {function : FunctionDecl} (valid : function.WellFormed)
    (rest : List Token) :
    Reads (readDeclaration (.identifier function.name :: .symbol .openParen ::
      (Parameter.tokensAll function.parameters ++ .symbol .closeParen ::
        (returnTokens function.returns ++ .symbol .openBrace ::
          (Statement.tokensAll function.body ++ .symbol .closeBrace :: rest))))) function rest := by
  have block := Statement.readBlock_of_readAll (Statement.readAll_tokensAll
    function.body valid.body (Statement.readBare_closeBrace rest) (length_lt_succ _))
  have whole := readDeclaration_of_readBlock function.name function.parameters function.returns
    block
  rw [signature_append] at whole
  exact whole

/-- The tokens of functions are read up to the closing brace. -/
theorem readAll_tokens {functions : List FunctionDecl}
    (valid : ∀ function ∈ functions, function.WellFormed)
    (within : (functions.flatMap tokens ++ .symbol .closeBrace :: rest).length < bound) :
    Reads (readAll (functions.flatMap tokens ++ .symbol .closeBrace :: rest) within) functions
      (.symbol .closeBrace :: rest) := by
  induction functions generalizing bound with
  | nil =>
      rw [List.flatMap_nil, List.nil_append] at within
      have ends : read (.symbol .closeBrace :: rest) = .ok none := rfl
      refine ⟨within, ?_⟩
      change readAll (.symbol .closeBrace :: rest) within = _
      rw [readAll, ends]
  | cons function others ih =>
      rw [List.forall_mem_cons] at valid
      have same : (function :: others).flatMap tokens ++ .symbol .closeBrace :: rest =
          function.tokens ++ (others.flatMap tokens ++ .symbol .closeBrace :: rest) := by
        rw [List.flatMap_cons, List.append_assoc]
      have more : ReadsAll (others.flatMap tokens ++ .symbol .closeBrace :: rest) others
          (.symbol .closeBrace :: rest) := fun _ less => ih valid.2 less
      have whole := more.cons (readDeclaration_tokens valid.1 _)
      rw [← tokens_append, ← same] at whole
      exact whole bound within

end FunctionDecl

/-! ### Contracts -/

namespace Contract

/-- The tokens of a contract. -/
def tokens (contract : Contract) : List Token :=
  .keyword .contract :: .symbol .openBrace ::
    (contract.functions.flatMap FunctionDecl.tokens ++ [.symbol .closeBrace])

theorem read_of_readAll {source rest : List Token} {functions : List FunctionDecl}
    (reads : FunctionDecl.ReadsAll source functions (.symbol .closeBrace :: rest)) :
    Reads (read (.keyword .contract :: .symbol .openBrace :: source)) ⟨functions⟩ rest := by
  obtain ⟨within, found⟩ := reads _ (length_lt_succ source)
  rw [read, found]
  simp only [Front.skip?_cons]
  exact ⟨_, rfl⟩

/-- **Reading the tokens of a well-formed contract gives the contract**, and nothing is left. -/
theorem read_tokens {contract : Contract} (valid : contract.WellFormed) :
    Reads (read contract.tokens) contract [] := by
  rw [tokens]
  exact read_of_readAll fun _ within => FunctionDecl.readAll_tokens valid within

end Contract

/-! ### Whole texts -/

/-- A text is read as a contract if its tokens are and nothing is left. -/
theorem Contract.ofText_of_scan {source : String} {tokens : List Token} {contract : Contract}
    (scanned : (Token.scan source.toList).list = tokens ∧ (Token.scan source.toList).stop = [])
    (parsed : Reads (read tokens) contract []) : ofText source = .ok contract := by
  obtain ⟨rfl, stop⟩ := scanned
  obtain ⟨within, found⟩ := parsed
  rw [ofText]
  generalize Token.scan source.toList = scan at stop within found ⊢
  simp only [found]
  rw [Token.Scan.complete, if_pos ⟨rfl, stop⟩]

/-- A text is read as statements if its tokens are and nothing is left. -/
theorem Statement.listOfText_of_scan {source : String} {tokens : List Token}
    {statements : List Statement}
    (scanned : (Token.scan source.toList).list = tokens ∧ (Token.scan source.toList).stop = [])
    (parsed : Reads (readAll tokens (length_lt_succ tokens)) statements []) :
    listOfText source = .ok statements := by
  obtain ⟨rfl, stop⟩ := scanned
  obtain ⟨within, found⟩ := parsed
  have behind : readAll (Token.scan source.toList).list (Nat.lt_succ_self _) =
    .ok ⟨statements, [], within⟩ := found
  simp only [listOfText, behind]
  rw [Token.Scan.complete, if_pos ⟨rfl, stop⟩]

end Covenant
