/-
**Where a statement ends.**

Statements need no semicolons between them, and an operator behind an operand is left alone if no
right operand can be read behind it.  A statement could so end before an operator, and the operator
would have to begin the next one.  But what begins with a binary operator is no statement, because
no operand begins with one, and a minus sign that does begin an operand is followed by another
operand, which would have been read as the right one.  So either the operator is taken with the
operand on its left, or the text as a whole is not read.

There is one exception.  The magnitude of the least integer is no operand, but a minus sign and this
magnitude are one.  Behind an operand they are read as the least integer in a statement of its own.

Main definitions:

* `Covenant.Expression.OpensWith` — an operand and an operator behind it stand at the left end of an
  expression;
* `Covenant.Statement.Preamble` — what stands before the value at the end of a statement;
* `Covenant.Token.Magnified` — a text begins with the magnitude of the least integer.

Main results:

* `Expression.read_operator` — an operator behind an operand is taken, or what follows it is no
  operand;
* `Expression.readUnary_operator` — an operator begins no operand, with the one exception;
* `Statement.head?_listOfText_operator` — **if a text is read in which an operator follows the value
  of the first statement, the operator is taken into that value, except for a minus sign before the
  magnitude of the least integer, which is never**.
-/

import Covenant.Proofs.Contract.Lexing

set_option relaxedAutoImplicit false
set_option autoImplicit false

namespace Covenant

/-! ### Behind an operand -/

namespace Expression

/-- The operand and the operator behind it stand at the left end of an expression. -/
inductive OpensWith (operand : Expression) (op : BinaryOperator) : Expression → Prop where
  | here (right : Expression) : OpensWith operand op (.binary operand op right)
  | left {inner : Expression} (opens : OpensWith operand op inner) (outer : BinaryOperator)
      (right : Expression) : OpensWith operand op (.binary inner outer right)

variable {operand value : Expression} {op : BinaryOperator} {rank : ℕ}
  {source behind rest : List Token}

/-- An expression that opens with an operand and an operator is larger than the operand. -/
theorem OpensWith.sizeOf_lt (opens : OpensWith operand op value) :
    sizeOf operand < sizeOf value := by
  induction opens with
  | here right =>
      rw [binary.sizeOf_spec]
      omega
  | left _ outer right ih =>
      rw [binary.sizeOf_spec]
      omega

theorem OpensWith.ne (opens : OpensWith operand op value) : value ≠ operand := by
  rintro rfl
  exact Nat.lt_irrefl _ opens.sizeOf_lt

/-- Whatever is read behind it, a left operand stays at the left end. -/
theorem opensWith_readMore {bound : ℕ} {left : Expression} {source : List Token}
    (opens : OpensWith operand op left) (within : source.length < bound) :
    OpensWith operand op (readMore rank left source within).value := by
  match source, within with
  | [], within =>
      rw [readMore]
      exact opens
  | token :: rest, within =>
      rw [readMore]
      split
      case h_1 => exact opens
      case h_2 outer _ =>
        split
        case h_1 => exact opens
        case h_2 right behind shorter _ => exact opensWith_readMore (.left opens outer right) _
termination_by source.length

/-- What is read at a rank stands at the left end of what is read at a higher one. -/
theorem opensWith_readRank {higher : ℕ} (le : rank ≤ higher) (opens : OpensWith operand op value)
    (lower : Reads (readRank rank source) value rest) :
    ∃ whole last, Reads (readRank higher source) whole last ∧ OpensWith operand op whole := by
  induction le with
  | refl => exact ⟨value, rest, lower, opens⟩
  | step _ ih =>
      obtain ⟨whole, last, ⟨within, found⟩, inner⟩ := ih
      exact ⟨_, _, ⟨_, by rw [readRank, found]⟩, opensWith_readMore inner within⟩

/-- Where an operand begins, an expression does. -/
theorem exists_readRank (begins : ∃ front, readUnary source = .ok front) :
    ∃ front, readRank rank source = .ok front := by
  induction rank with
  | zero =>
      obtain ⟨front, found⟩ := begins
      exact ⟨front, by rw [readRank, found]⟩
  | succ rank ih =>
      obtain ⟨⟨left, rest, within⟩, found⟩ := ih
      exact ⟨_, by rw [readRank, found]⟩

/-- An operator of another rank is left alone. -/
theorem readMore_of_ne {bound : ℕ} (other : op.rank ≠ rank + 1)
    (within : (.symbol (.ofBinary op) :: behind : List Token).length < bound) :
    readMore rank value (.symbol (.ofBinary op) :: behind) within =
      ⟨value, .symbol (.ofBinary op) :: behind, within⟩ := by
  rw [readMore, operator?_ofBinary_of_ne other]

/-- An operator that is left behind at its own rank is left behind at the higher ones. -/
theorem readRank_of_rank_le {higher : ℕ} (le : rank ≤ higher) (passed : op.rank ≤ rank)
    (lower : Reads (readRank rank source) value (.symbol (.ofBinary op) :: behind)) :
    Reads (readRank higher source) value (.symbol (.ofBinary op) :: behind) := by
  induction le with
  | refl => exact lower
  | @step higher le ih =>
      obtain ⟨within, found⟩ := ih
      have other : op.rank ≠ higher + 1 := Nat.ne_of_lt (Nat.lt_succ_of_le (Nat.le_trans passed le))
      exact ⟨within, by rw [readRank, found]; exact congrArg _ (readMore_of_ne other within)⟩

/-- **An operator behind an operand is taken with it, or what follows it is no operand.** -/
theorem read_operator (first : Reads (readUnary source) operand (.symbol (.ofBinary op) :: behind)) :
    ((∃ front, readUnary behind = .ok front) ∧
        ∃ whole last, Reads (read source) whole last ∧ OpensWith operand op whole) ∨
      ((∃ mistake, readUnary behind = .error mistake) ∧
        Reads (read source) operand (.symbol (.ofBinary op) :: behind)) := by
  obtain ⟨lower, above⟩ := Nat.exists_eq_add_of_lt op.rank_pos
  rw [Nat.zero_add] at above
  have low := op.rank_le_topRank
  rw [above] at low
  have tighter : Stops lower (.symbol (.ofBinary op) :: behind) := stops_operator (by omega)
  obtain ⟨within, front⟩ := readRank_of_readUnary first tighter
  cases second : readUnary behind with
  | ok operator =>
      left
      obtain ⟨⟨right, last, shorter⟩, found⟩ := @exists_readRank lower behind ⟨_, second⟩
      obtain ⟨less, more⟩ :=
        @readMore_operator _ _ _ _ operand _ _ above ⟨shorter, found⟩ within
      have taken : readRank (lower + 1) source =
          .ok (readMore lower (binary operand op right) last less) := by
        rw [readRank, front]
        exact congrArg _ more
      exact ⟨⟨operator, rfl⟩,
        opensWith_readRank low (opensWith_readMore (.here right) less) ⟨_, taken⟩⟩
  | error mistake =>
      right
      have left : readMore lower operand (.symbol (.ofBinary op) :: behind) within =
          ⟨operand, .symbol (.ofBinary op) :: behind, within⟩ := by
        rw [readMore, ← above, operator?_ofBinary]
        simp only [readRank_error second]
      have own : Reads (readRank (lower + 1) source) operand (.symbol (.ofBinary op) :: behind) := by
        refine ⟨within, ?_⟩
        rw [readRank, front]
        exact congrArg _ left
      exact ⟨⟨mistake, rfl⟩, readRank_of_rank_le low (Nat.le_of_eq above) own⟩

/-- No operand begins with an operator behind which none begins, unless these are a minus sign and
the magnitude of the least integer. -/
theorem readUnary_operator {mistake : List Token} (none : readUnary behind = .error mistake)
    (unmagnified : op = .minus → ∀ tail, behind ≠ .minMagnitude :: tail) :
    ∃ mistake, readUnary (.symbol (.ofBinary op) :: behind) = .error mistake := by
  cases op with
  | minus =>
      refine ⟨.symbol .minus :: behind, ?_⟩
      rw [Symbol.ofBinary, readUnary, none]
      exact unmagnified rfl
  | _ => exact ⟨_, readUnary.eq_def _⟩

end Expression

/-! ### Statements -/

namespace Statement

open Expression (OpensWith)

/-- What stands before the value at the end of a statement: nothing, `return`, a type and a name, or
a name. -/
inductive Preamble where
  | nothing
  | return
  | declare (type : DataType) (name : String)
  | assign (name : String)

/-- The statement that the preamble and a value are. -/
def Preamble.before : Preamble → Expression → Statement
  | nothing, value => .expression value
  | .return, value => .return (some value)
  | declare type name, value => .declare type name value
  | assign name, value => .assign name value

variable {preamble : Preamble} {operand value : Expression} {op : BinaryOperator} {symbol : Symbol}
  {behind rest : List Token}

theorem Preamble.before_injective {other : Expression}
    (same : preamble.before value = preamble.before other) : value = other := by
  cases preamble <;> cases same <;> rfl

theorem Preamble.wellFormed (valid : (preamble.before value).WellFormed) : value.WellFormed := by
  cases preamble with
  | nothing => exact valid
  | «return» => exact valid
  | declare type name => exact valid.2
  | assign name => exact valid.2

/-- A statement ends where its value does. -/
theorem readBare_before (other : symbol ≠ .assign)
    (read : Reads (Expression.read (operand.tokens ++ .symbol symbol :: behind)) value rest) :
    ∃ within, readBare ((preamble.before operand).tokens ++ .symbol symbol :: behind) =
      .ok (some ⟨preamble.before value, rest, within⟩) := by
  cases preamble with
  | nothing => exact readBare_expression operand other read
  | «return» =>
      rw [Preamble.before, tokens, List.cons_append]
      exact readBare_returnValue read
  | declare type name =>
      rw [Preamble.before, tokens, List.cons_append, List.cons_append, List.cons_append]
      exact readBare_declare type name read
  | assign name =>
      rw [Preamble.before, tokens, List.cons_append, List.cons_append]
      exact readBare_assign name read

/-- A semicolon that is taken with a statement does not change it. -/
theorem value_skipSemicolon {bound : ℕ} (front : Front Token Statement bound) :
    (skipSemicolon front).value = front.value := by
  unfold skipSemicolon
  cases skipped : front.skip? (.symbol .semicolon) with
  | none => rfl
  | some closed => exact (Front.eq_of_skip? skipped).1

/-- The first of the statements that are read is the one that is read first. -/
theorem head?_readAll {bound : ℕ} {source : List Token} {first : Front Token Statement source.length}
    {within : source.length < bound} {all : Front Token (List Statement) bound}
    (begins : readBare source = .ok (some first)) (read : readAll source within = .ok all) :
    all.value.head? = some first.value := by
  rw [readAll, begins] at read
  simp only at read
  split at read
  case h_1 => cases read
  case h_2 more _ =>
    cases read
    exact congrArg some (value_skipSemicolon first)

/-- Statements end where no further one begins and no semicolon stands. -/
theorem rest_readAll {bound : ℕ} {source : List Token} {statement : Statement}
    {within : source.length < bound} {all : Front Token (List Statement) bound}
    (other : symbol ≠ .semicolon) {shorter : (.symbol symbol :: behind : List Token).length < _}
    (begins : readBare source = .ok (some ⟨statement, .symbol symbol :: behind, shorter⟩))
    (ends : readBare (.symbol symbol :: behind) = .ok none)
    (read : readAll source within = .ok all) : all.rest = .symbol symbol :: behind := by
  have stays : skipSemicolon (⟨statement, .symbol symbol :: behind, shorter⟩ :
      Front Token Statement source.length) = ⟨statement, .symbol symbol :: behind, shorter⟩ := by
    rw [skipSemicolon, Front.skip?_cons_of_ne shorter (by simp [other])]
    rfl
  rw [readAll, begins] at read
  simp only [stays] at read
  rw [readAll, ends] at read
  cases read
  rfl

theorem ofBinary_ne_assign (op : BinaryOperator) : Symbol.ofBinary op ≠ .assign := by
  cases op <;> decide

theorem ofBinary_ne_semicolon (op : BinaryOperator) : Symbol.ofBinary op ≠ .semicolon := by
  cases op <;> decide

/-- If nothing is left behind statements, an operator behind the value of the first one was taken
into that value, or it is a minus sign before the magnitude of the least integer. -/
theorem readAll_operator {bound : ℕ} {source : List Token} (valid : operand.WellFormed)
    (same : source = (preamble.before operand).tokens ++ .symbol (.ofBinary op) :: behind)
    {within : source.length < bound} {all : Front Token (List Statement) bound}
    (read : readAll source within = .ok all) (complete : all.rest = []) :
    (¬ (op = .minus ∧ ∃ tail, behind = .minMagnitude :: tail) ∧
        ∃ value, OpensWith operand op value ∧ all.value.head? = some (preamble.before value)) ∨
      ((op = .minus ∧ ∃ tail, behind = .minMagnitude :: tail) ∧
        all.value.head? = some (preamble.before operand)) := by
  subst same
  have first := Expression.readUnary_tokens valid (.symbol (.ofBinary op) :: behind)
  rcases Expression.read_operator first with
    ⟨⟨front, second⟩, whole, last, reads, opens⟩ | ⟨⟨mistake, fails⟩, reads⟩
  · left
    obtain ⟨_, begins⟩ := readBare_before (ofBinary_ne_assign op) reads
    refine ⟨?_, whole, opens, head?_readAll begins read⟩
    rintro ⟨-, tail, rfl⟩
    have none : Expression.readUnary (.minMagnitude :: tail) = .error _ :=
      Expression.readUnary.eq_def _
    rw [none] at second
    cases second
  · obtain ⟨_, begins⟩ := readBare_before (ofBinary_ne_assign op) reads
    by_cases magnified : op = .minus ∧ ∃ tail, behind = .minMagnitude :: tail
    · exact .inr ⟨magnified, head?_readAll begins read⟩
    · -- nothing would be left only if a statement began with the operator
      have unmagnified : op = .minus → ∀ tail, behind ≠ .minMagnitude :: tail :=
        fun minus tail front => magnified ⟨minus, tail, front⟩
      obtain ⟨_, none⟩ := Expression.readUnary_operator fails unmagnified
      have left := rest_readAll (ofBinary_ne_semicolon op) begins (readBare_symbol none) read
      rw [complete] at left
      cases left

end Statement

/-! ### Texts -/

namespace Token

/-- A text begins, behind blanks and comments, with the magnitude of the least integer. -/
def Magnified (source : List Char) : Prop :=
  ∃ rest, Gap source ("9223372036854775808".toList ++ rest) ∧ Apart rest

/-- A text that begins with this magnitude is cut into tokens of which it is the first. -/
theorem magnified_iff {source : List Char} :
    Magnified source ↔ ∃ tail, (scan source).list = .minMagnitude :: tail := by
  constructor
  · rintro ⟨rest, gap, apart⟩
    exact ⟨_, (gap.lexes.trans (lexes_minMagnitude apart)).1⟩
  · rintro ⟨tail, same⟩
    rw [scan_of_skipGap rfl] at same
    split at same
    case h_1 => cases same
    case h_2 token rest shorter found =>
      obtain ⟨spelling, split, spells, ends⟩ := spells_of_front? (skipGap_ne source) found
      obtain rfl : token = .minMagnitude := (List.cons.inj same).1
      have gap := gap_skipGap source
      rw [split, show spelling = "9223372036854775808".toList from spells] at gap
      exact ⟨rest, gap, ends⟩

end Token

namespace Statement

open Expression (OpensWith)

/-- Statements that a text is read as are read from its tokens, and nothing is left. -/
theorem exists_readAll_of_listOfText {source : String} {statements : List Statement}
    (read : listOfText source = .ok statements) :
    ∃ front, readAll (Token.scan source.toList).list (Nat.lt_succ_self _) = .ok front ∧
      front.value = statements ∧ front.rest = [] := by
  unfold listOfText at read
  simp only at read
  split at read
  case h_1 => cases read
  case h_2 front found =>
    unfold Token.Scan.complete at read
    split at read <;> cases read
    case isTrue nothing => exact ⟨front, found, rfl, nothing.1⟩

/-- **Where an operator follows the value of the first statement, it is taken into that value.**  If
such a text is read, the first statement ends before the operator exactly if the operator is a minus
sign and the magnitude of the least integer follows.  Otherwise the first statement has the same
preamble, and its value has the operand and the operator at its left end. -/
theorem head?_listOfText_operator (preamble : Preamble) {operand : Expression}
    (valid : (preamble.before operand).WellFormed) (op : BinaryOperator) (behind : String)
    {statements : List Statement} (read : listOfText ((preamble.before operand).render ++ " " ++
      op.symbol ++ " " ++ behind) = .ok statements) :
    (statements.head? = some (preamble.before operand) ↔
        op = .minus ∧ Token.Magnified behind.toList) ∧
      (¬ (op = .minus ∧ Token.Magnified behind.toList) → ∃ value, OpensWith operand op value ∧
        statements.head? = some (preamble.before value)) := by
  have text : ((preamble.before operand).render ++ " " ++ op.symbol ++ " " ++ behind).toList =
      (preamble.before operand).render.toList ++
        ' ' :: ((Symbol.ofBinary op).spelling ++ ' ' :: behind.toList) := by
    simp [BinaryOperator.toList_symbol]
  have lexes : Token.Lexes
      ((preamble.before operand).render ++ " " ++ op.symbol ++ " " ++ behind).toList
      ((preamble.before operand).tokens ++ [.symbol (.ofBinary op)]) behind.toList := by
    rw [text]
    exact (lexes_render _ valid _ (Token.apart_cons ' ' rfl _)).trans
      ((Token.lexes_space rfl _).trans ((Token.lexes_symbol _ (Symbol.ends_space _ _)).trans
        (Token.lexes_space rfl _)))
  have same := lexes.1
  rw [List.append_assoc, List.singleton_append] at same
  obtain ⟨front, found, rfl, nothing⟩ := exists_readAll_of_listOfText read
  rw [Token.magnified_iff]
  rcases readAll_operator (Preamble.wellFormed valid) same found nothing with
    ⟨taken, value, opens, first⟩ | ⟨split, first⟩
  · refine ⟨⟨?_, fun split => absurd split taken⟩, fun _ => ⟨value, opens, first⟩⟩
    intro alone
    rw [first, Option.some_inj] at alone
    exact absurd (Preamble.before_injective alone) opens.ne
  · exact ⟨⟨fun _ => split, fun _ => first⟩, fun taken => absurd split taken⟩

/-- A subtraction of the magnitude of the least integer is read as two statements. -/
theorem listOfText_minus_magnitude : listOfText "a - 9223372036854775808" =
    .ok [.expression (.identifier "a"), .expression (.integer Int64.minValue)] :=
  listOfText_of_scan
    (by decide +kernel : _ = [.identifier "a", .symbol .minus, .minMagnitude] ∧ _)
    ⟨by decide, by cbv⟩

/-- A text in which the operator is left, and one in which it is taken, with a product on its right
and a comparison behind that. -/
theorem head?_listOfText_operator_both :
    (∃ statements, listOfText "a - 9223372036854775808" = .ok statements ∧
      statements.head? = some (.expression (.identifier "a"))) ∧
    ∃ statements value, listOfText "return (-a) + 2 * b < c" = .ok statements ∧
      OpensWith (.unary .minus (.identifier "a")) .plus value ∧
      statements.head? = some (.return (some value)) := by
  constructor
  · have text : (Preamble.nothing.before (.identifier "a")).render ++ " " ++
        BinaryOperator.minus.symbol ++ " " ++ "9223372036854775808" = "a - 9223372036854775808" := by
      decide
    have left := head?_listOfText_operator .nothing (by decide) .minus "9223372036854775808"
      (text ▸ listOfText_minus_magnitude)
    exact ⟨_, listOfText_minus_magnitude,
      left.1.2 ⟨rfl, [], .refl _, by simp [Token.Apart]⟩⟩
  · have text : (Preamble.return.before (.unary .minus (.identifier "a"))).render ++ " " ++
        BinaryOperator.plus.symbol ++ " " ++ "2 * b < c" = "return (-a) + 2 * b < c" := by
      decide
    have read : listOfText "return (-a) + 2 * b < c" =
        .ok [.return (some (.binary (.binary (.unary .minus (.identifier "a")) .plus
          (.binary (.integer 2) .times (.identifier "b"))) .less (.identifier "c")))] :=
      listOfText_of_scan
        (by decide +kernel : _ = [.keyword .return, .symbol .openParen, .symbol .minus,
          .identifier "a", .symbol .closeParen, .symbol .plus, .integer 2, .symbol .star,
          .identifier "b", .symbol .less, .identifier "c"] ∧ _)
        ⟨by decide, by cbv⟩
    have taken := head?_listOfText_operator .return (by decide) .plus "2 * b < c" (text ▸ read)
    obtain ⟨value, opens, first⟩ := taken.2 (by rintro ⟨⟨⟩, -⟩)
    exact ⟨_, value, read, opens, first⟩

/-- That an operator behind an expression is never left to the next statement is too much to ask. -/
theorem not_forall_head?_ne : ¬ ∀ (operand : Expression) (op : BinaryOperator) (behind : String)
    (statements : List Statement), operand.WellFormed →
      listOfText (operand.render ++ " " ++ op.symbol ++ " " ++ behind) = .ok statements →
      statements.head? ≠ some (.expression operand) := by
  intro never
  have text : (Expression.identifier "a").render ++ " " ++ BinaryOperator.minus.symbol ++ " " ++
      "9223372036854775808" = "a - 9223372036854775808" := by
    decide
  exact never (.identifier "a") .minus "9223372036854775808" _ (by decide)
    (text ▸ listOfText_minus_magnitude) rfl

end Statement

end Covenant
