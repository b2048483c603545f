/-
**Which operators bind more tightly than others.**

The text of a contract puts parentheses around every operator, but whoever writes one by hand leaves
out those that the order of the operators makes superfluous.  The order is that of the grammar, from
the loosest operators to the tightest:

    ||     &&     == !=     < > <= >=     + -     * / %     ! - (before an operand)

Binary operators associate to the left, so that a left operand may bind as tightly as the operator
behind it and a right operand may not.  An expression is written here with parentheses only around
the operands that bind more loosely than their places ask for.  That there are no more of them than
needed is shown on the side of the tokens: whatever tokens are derived as an expression, there are
not fewer of them.

Main definitions:

* `Covenant.BinaryOperator.binding`, `Covenant.Expression.binding` — how tightly an operator and an
  expression bind;
* `Covenant.Expression.renderSparing`, `Covenant.Expression.sparingTokens` — an expression with
  parentheses only where its operators need them.

Main results:

* `Expression.derives_sparingTokens` — what is written sparingly is derived as the expression;
* `Expression.Derives.length_sparingTokens_le` — and it cannot be written with fewer tokens;
* `Statement.listOfText_return_renderSparing` — **an expression is read back from its text with
  sparing parentheses**.
-/

import Covenant.Proofs.Contract.Completeness

set_option relaxedAutoImplicit false
set_option autoImplicit false

namespace Covenant

/-! ### The order of the operators -/

/-- How tightly a binary operator binds, the loosest being one. -/
def BinaryOperator.binding : BinaryOperator → ℕ
  | or => 1
  | and => 2
  | equal | notEqual => 3
  | less | greater | lessOrEqual | greaterOrEqual => 4
  | plus | minus => 5
  | times | divide | modulo => 6

/-- How tightly an operator before its operand binds: more than any binary one. -/
def UnaryOperator.binding : ℕ := 7

theorem BinaryOperator.binding_lt (op : BinaryOperator) : op.binding < UnaryOperator.binding := by
  cases op <;> decide

namespace Expression

/-- How tightly an expression holds together where it stands without parentheses. -/
def binding : Expression → ℕ
  | binary _ op _ => op.binding
  | _ => UnaryOperator.binding

/-! ### Writing sparingly -/

/-- An expression that is written as `inner`, in parentheses if it binds more loosely than its place
asks for. -/
def enclosed {α : Type} (parentheses : α → α) (place : ℕ) (value : Expression) (inner : α) : α :=
  if value.binding < place then parentheses inner else inner

/-- A text in parentheses. -/
def textInParentheses (text : String) : String :=
  "(" ++ text ++ ")"

/-- Tokens in parentheses. -/
def tokensInParentheses (tokens : List Token) : List Token :=
  .symbol .openParen :: (tokens ++ [.symbol .closeParen])

/-- The text of an expression with parentheses only where the order of its operators needs them.  A
binary operator stands between two spaces, and nothing stands behind a unary one. -/
def renderSparing : Expression → String
  | unary op right =>
      op.symbol ++ enclosed textInParentheses UnaryOperator.binding right right.renderSparing
  | binary left op right =>
      enclosed textInParentheses op.binding left left.renderSparing ++ " " ++ op.symbol ++ " " ++
        enclosed textInParentheses (op.binding + 1) right right.renderSparing
  | leaf => leaf.render

/-- The tokens of that text. -/
def sparingTokens : Expression → List Token
  | unary op right => .symbol (.ofUnary op) ::
      enclosed tokensInParentheses UnaryOperator.binding right right.sparingTokens
  | binary left op right =>
      enclosed tokensInParentheses op.binding left left.sparingTokens ++
        .symbol (.ofBinary op) ::
          enclosed tokensInParentheses (op.binding + 1) right right.sparingTokens
  | leaf => leaf.tokens

/-! ### The text is cut into the tokens -/

section Lexing

open Token

variable {rest : List Char}

theorem lexes_enclosed {place : ℕ} {value : Expression} {text : String} {tokens : List Token}
    (inner : ∀ {rest}, Apart rest → Lexes (text.toList ++ rest) tokens rest) (apart : Apart rest) :
    Lexes ((enclosed textInParentheses place value text).toList ++ rest)
      (enclosed tokensInParentheses place value tokens) rest := by
  unfold enclosed
  split
  case isTrue =>
    have same : (textInParentheses text).toList ++ rest =
        '(' :: (text.toList ++ ')' :: rest) := by
      simp [textInParentheses]
    rw [same]
    exact (lexes_symbol .openParen trivial).trans ((inner (apart_cons ')' rfl rest)).trans
      (lexes_symbol .closeParen trivial))
  case isFalse => exact inner apart

/-- The text of an operand does not begin with an equals sign if that inside of its parentheses does
not. -/
theorem enclosed_append_ne {place : ℕ} {value : Expression} {text : String} {more : List Char}
    (inner : text.toList ++ rest ≠ '=' :: more) :
    (enclosed textInParentheses place value text).toList ++ rest ≠ '=' :: more := by
  unfold enclosed
  split
  case isTrue => simp [textInParentheses]
  case isFalse => exact inner

/-- The text of an expression does not begin with an equals sign. -/
theorem renderSparing_append_ne {value : Expression} (valid : value.WellFormed)
    (rest more : List Char) : value.renderSparing.toList ++ rest ≠ '=' :: more := by
  induction value generalizing rest with
  | unary op right => cases op <;> simp [renderSparing, UnaryOperator.symbol]
  | binary left op right ih =>
      simp only [renderSparing, String.toList_append, List.append_assoc]
      exact enclosed_append_ne (ih valid.1 _)
  | _ => exact render_append_ne valid more

/-- The text of an expression is cut into its tokens. -/
theorem lexes_renderSparing {value : Expression} (valid : value.WellFormed) (apart : Apart rest) :
    Lexes (value.renderSparing.toList ++ rest) value.sparingTokens rest := by
  induction value generalizing rest with
  | unary op right ih =>
      have operand := @lexes_enclosed rest UnaryOperator.binding right _ _ (ih valid) apart
      have ends : (Symbol.ofUnary op).Ends ((enclosed textInParentheses UnaryOperator.binding right
          right.renderSparing).toList ++ rest) := by
        cases op with
        | not => exact fun more => enclosed_append_ne (@renderSparing_append_ne right valid rest more)
        | minus => trivial
      have operator := lexes_symbol _ ends
      rw [← UnaryOperator.toList_symbol] at operator
      simp only [renderSparing, String.toList_append, List.append_assoc]
      exact operator.trans operand
  | binary left op right ihLeft ihRight =>
      have second := @lexes_enclosed rest (op.binding + 1) right _ _ (ihRight valid.2) apart
      have operator := lexes_symbol (.ofBinary op) (Symbol.ends_space _ ((enclosed
        textInParentheses (op.binding + 1) right right.renderSparing).toList ++ rest))
      rw [← BinaryOperator.toList_symbol] at operator
      have first := @lexes_enclosed _ op.binding left _ _ (ihLeft valid.1) (apart_cons ' ' rfl
        (op.symbol.toList ++ ' ' :: ((enclosed textInParentheses (op.binding + 1) right
          right.renderSparing).toList ++ rest)))
      have same : (binary left op right).renderSparing.toList ++ rest =
          (enclosed textInParentheses op.binding left left.renderSparing).toList ++ ' ' ::
            (op.symbol.toList ++ ' ' :: ((enclosed textInParentheses (op.binding + 1) right
              right.renderSparing).toList ++ rest)) := by
        simp [renderSparing]
      rw [same]
      exact first.trans ((lexes_space rfl _).trans (operator.trans ((lexes_space rfl _).trans
        second)))
  | _ => exact lexes_render valid apart

end Lexing

/-! ### The tokens are derived as the expression -/

variable {level tighter : Level} {tokens : List Token} {value : Expression}

/-- How tightly a kind of expressions holds together. -/
def Level.binding : Level → ℕ
  | expression => 1
  | and => 2
  | equality => 3
  | comparison => 4
  | sum => 5
  | product => 6
  | unary => 7
  | primary => 8

theorem Level.binding_operand? (below : level.operand? = some tighter) :
    tighter.binding = level.binding + 1 := by
  cases level <;> cases below <;> rfl

theorem Level.binding_of_mem {symbol : Symbol} {op : BinaryOperator}
    (mem : (symbol, op) ∈ level.operators) : op.binding = level.binding := by
  have all : ∀ entry ∈ level.operators, entry.2.binding = level.binding := by
    cases level <;> decide
  exact all _ mem

/-- Every binary operator belongs to a kind of expressions, which has operands. -/
theorem Level.exists_operators (op : BinaryOperator) : ∃ level tighter : Level,
    level.operand? = some tighter ∧ (Symbol.ofBinary op, op) ∈ level.operators := by
  obtain ⟨rank, same⟩ := Nat.exists_eq_add_of_lt op.rank_pos
  rw [Nat.zero_add] at same
  have low := op.rank_le_topRank
  have mem := mem_operators op
  rw [same] at low mem
  exact ⟨_, _, operand?_ofRank low, mem⟩

theorem Level.binding_injective : Function.Injective Level.binding := by
  intro level other same
  cases level <;> cases other <;> first | rfl | cases same

theorem Level.binding_le (level : Level) : level.binding ≤ primary.binding := by
  cases level <;> decide

/-- No expression binds more loosely than the loosest kind. -/
theorem Level.binding_expression_le (value : Expression) :
    expression.binding ≤ value.binding := by
  cases value with
  | binary _ op _ => cases op <;> simp [Expression.binding, BinaryOperator.binding, binding]
  | _ => simp [Expression.binding, UnaryOperator.binding, binding]

/-- An expression of a kind is one of every looser kind. -/
theorem Derives.loosen {level : Level} (derives : value.Derives tighter tokens)
    (le : level.binding ≤ tighter.binding) : value.Derives level tokens := by
  by_cases same : level.binding = tighter.binding
  · rw [Level.binding_injective same]
    exact derives
  · cases below : level.operand? with
    | none =>
        -- only the tightest kind has no operands
        cases level <;> cases below
        exact absurd (Nat.le_antisymm le tighter.binding_le) same
    | some next =>
        have step := Level.binding_operand? below
        exact .operand below (derives.loosen (by omega))
termination_by tighter.binding - level.binding

/-- In parentheses if it needs them, an expression is derived as one of the kind of its place. -/
theorem derives_enclosed (inner : ∀ level : Level, level.binding ≤ value.binding →
      value.Derives level tokens) (place : Level) :
    value.Derives place (enclosed tokensInParentheses place.binding value tokens) := by
  unfold enclosed
  split
  case isTrue =>
    have loosest := inner .expression (Level.binding_expression_le value)
    exact loosest.parentheses.loosen place.binding_le
  case isFalse tight => exact inner place (Nat.le_of_not_lt tight)

/-- The tokens of an expression are derived as one of every kind that binds no more tightly. -/
theorem derives_sparingTokens (valid : value.WellFormed) (loose : level.binding ≤ value.binding) :
    value.Derives level value.sparingTokens := by
  induction value generalizing level with
  | integer value =>
      rw [sparingTokens, Expression.tokens]
      · by_cases least : value = Int64.minValue
        · rw [if_pos least, least]
          exact Derives.least.loosen loose
        · rw [if_neg least]
          have literal := Derives.integer (Int.toNat_of_nonneg (valid.resolve_right least)).symm
          exact literal.loosen level.binding_le
      all_goals simp
  | boolean value =>
      cases value
      · exact Derives.false.loosen level.binding_le
      · exact Derives.true.loosen level.binding_le
  | text value => exact (Derives.text value).loosen level.binding_le
  | identifier name => exact (Derives.identifier name).loosen level.binding_le
  | unary op right ih =>
      have operand := derives_enclosed (fun _ => ih valid) .unary
      cases op with
      | not => exact (Derives.not operand).loosen loose
      | minus => exact (Derives.minus operand).loosen loose
  | binary left op right ihLeft ihRight =>
      obtain ⟨own, tighter, below, mem⟩ := Level.exists_operators op
      have same := Level.binding_of_mem mem
      have first := derives_enclosed (fun _ => ihLeft valid.1) own
      have second := derives_enclosed (fun _ => ihRight valid.2) tighter
      rw [Level.binding_operand? below] at second
      rw [← same] at first second
      refine (Derives.binary below mem first second).loosen ?_
      rw [← same]
      exact loose

/-! ### There are no fewer tokens -/

theorem length_enclosed (place : ℕ) : (enclosed tokensInParentheses place value tokens).length =
    tokens.length + if value.binding < place then 2 else 0 := by
  unfold enclosed
  split
  case isTrue => simp [tokensInParentheses]
  case isFalse => rfl

/-- An expression needs no parentheses where its place does not ask for a tighter one. -/
theorem length_enclosed_of_le {place : ℕ} (loose : place ≤ value.binding) :
    (enclosed tokensInParentheses place value tokens).length = tokens.length := by
  rw [length_enclosed, if_neg (Nat.not_lt.2 loose), Nat.add_zero]

/-- Whatever tokens are derived as an expression of a kind, they are at least as many as those with
sparing parentheses, together with the ones that a place for this kind asks for. -/
theorem Derives.length_enclosed_le {place : ℕ} (derives : value.Derives level tokens)
    (low : place ≤ level.binding) (unary : place ≤ UnaryOperator.binding) :
    (enclosed tokensInParentheses place value value.sparingTokens).length ≤ tokens.length := by
  induction derives generalizing place with
  | operand below _ ih =>
      rw [← Nat.add_le_add_iff_right, ← Level.binding_operand? below] at low
      exact ih (Nat.le_of_succ_le low) unary
  | @binary level _ _ _ left right _ op below mem _ _ ihLeft ihRight =>
      have same := Level.binding_of_mem mem
      have next := Level.binding_operand? below
      have tight := op.binding_lt
      have first := @ihLeft op.binding (by omega) (by omega)
      have second := @ihRight (op.binding + 1) (by omega) (by omega)
      have loose : place ≤ (Expression.binary left op right).binding := by
        rw [binding, same]
        exact low
      rw [length_enclosed_of_le loose, sparingTokens]
      simp only [List.length_append, List.length_cons]
      omega
  | not _ ih =>
      rw [length_enclosed_of_le unary]
      exact Nat.succ_le_succ (ih (Nat.le_refl _) (Nat.le_refl _))
  | minus _ ih =>
      rw [length_enclosed_of_le unary]
      exact Nat.succ_le_succ (ih (Nat.le_refl _) (Nat.le_refl _))
  | @integer magnitude value same =>
      -- the magnitude of a negative integer is no literal, so one token is written as well
      have other : value ≠ Int64.minValue := by
        rintro rfl
        cases same
      rw [length_enclosed_of_le unary, sparingTokens, Expression.tokens, if_neg other]
      · exact Nat.le_refl _
      all_goals simp
  | @parentheses tokens value _ ih =>
      have inner := ih (Nat.le_refl _) (by decide)
      rw [length_enclosed_of_le (Level.binding_expression_le value)] at inner
      rw [length_enclosed, List.length_cons, List.length_append, List.length_singleton]
      split <;> omega
  | _ =>
      rw [length_enclosed_of_le unary]
      exact Nat.le_refl _

/-- **Tokens that are derived as an expression are no fewer than those with sparing
parentheses.** -/
theorem Derives.length_sparingTokens_le (derives : value.Derives level tokens) :
    value.sparingTokens.length ≤ tokens.length := by
  have whole : (enclosed tokensInParentheses 0 value value.sparingTokens).length ≤ _ :=
    derives.length_enclosed_le (Nat.zero_le _) (Nat.zero_le _)
  rw [length_enclosed_of_le (Nat.zero_le _)] at whole
  exact whole

/-! ### Reading -/

/-- The tokens of an expression are read as it. -/
theorem reads_read_sparingTokens (valid : value.WellFormed) :
    Reads (read value.sparingTokens) value [] := by
  have derives := derives_sparingTokens valid (Level.binding_expression_le value)
  have whole := derives.reads_read stops_nil
  rw [List.append_nil] at whole
  exact whole

end Expression

namespace Statement

/-- Without any tokens there are no statements. -/
theorem readAll_nil {bound : ℕ} (within : ([] : List Token).length < bound) :
    Reads (readAll [] within) [] [] := by
  have none : readBare [] = .ok none := (readBare.eq_def _).trans
    (congrArg Except.ok (readExpression?_eq_none (Expression.readUnary.eq_def _)))
  rw [readAll, none]
  exact ⟨within, rfl⟩

/-- A return with a value, behind which nothing is left, is read as the only statement. -/
theorem readsAll_return {tokens : List Token} {value : Expression}
    (inner : Reads (Expression.read tokens) value []) :
    ReadsAll (.keyword .return :: tokens) [.return (some value)] [] := by
  have nothing : ReadsAll [] [] [] := fun _ less => readAll_nil less
  exact nothing.cons (readBare_returnValue inner) (by simp)

/-- **An expression is read back from its text with parentheses only where its operators need
them**: behind `return`, the text is one statement, which returns the expression. -/
theorem listOfText_return_renderSparing {value : Expression} (valid : value.WellFormed) :
    listOfText ("return " ++ value.renderSparing) = .ok [.return (some value)] := by
  have same : ("return " ++ value.renderSparing).toList =
      Keyword.return.spelling.toList ++ ' ' :: (value.renderSparing.toList ++ []) := by
    simp [Keyword.spelling]
  have scanned : Token.Lexes ("return " ++ value.renderSparing).toList
      (.keyword .return :: value.sparingTokens) [] := by
    rw [same]
    exact (Token.lexes_keyword .return (Token.apart_cons ' ' rfl _)).trans
      ((Token.lexes_space rfl _).trans (value.lexes_renderSparing valid (by simp [Token.Apart])))
  exact listOfText_of_scan scanned.whole
    (readsAll_return (Expression.reads_read_sparingTokens valid) _ _)

end Statement

/-- An expression with an operator of every kind, parentheses around operands of both sides, and the
least integer behind a minus sign of either kind. -/
def Expression.ladder : Expression :=
  .binary
    (.binary (.identifier "a") .and
      (.binary (.binary (.identifier "b") .notEqual (.boolean true)) .equal
        (.binary (.integer 1) .lessOrEqual
          (.binary (.binary (.integer 9) .minus (.integer Int64.minValue)) .minus
            (.binary (.unary .minus (.integer Int64.minValue)) .minus
              (.binary (.integer 2) .times (.binary (.integer 3) .times
                (.binary (.integer 4) .plus (.integer 5)))))))))
    .or
    (.unary .not (.unary .not (.binary (.text "!=") .or (.boolean false))))

/-- The expression `ladder` is read back from its text. -/
theorem Statement.listOfText_return_ladder : Expression.ladder.WellFormed ∧
    listOfText ("return a && b != true == 1 <= 9 - -9223372036854775808 - " ++
        "(--9223372036854775808 - 2 * (3 * (4 + 5))) || !!(\"!=\" || false)") =
      .ok [.return (some Expression.ladder)] := by
  have valid : Expression.ladder.WellFormed := by decide
  have text : "return " ++ Expression.ladder.renderSparing =
      "return a && b != true == 1 <= 9 - -9223372036854775808 - " ++
        "(--9223372036854775808 - 2 * (3 * (4 + 5))) || !!(\"!=\" || false)" := by
    decide
  have read := listOfText_return_renderSparing valid
  rw [text] at read
  exact ⟨valid, read⟩

end Covenant
