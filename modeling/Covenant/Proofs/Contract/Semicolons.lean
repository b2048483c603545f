/-
**Statements are told apart without semicolons.**

A semicolon may follow every statement, and none must.  Where a statement ends is then seen by the
reader of its last expression only, which stops when it cannot go on.  What makes this work is that
no statement begins with something that could continue the one before it: nothing begins with an
equals sign, with `else` or with an operator, except for the sign of the least integer, and behind
this sign there is no operand that an operator could take.

There is one way in which two statements become one.  A `return` without a value takes the value
that it finds, and a name or an expression behind it is found.  So a list of statements can be
written without semicolons exactly if neither in it nor in any of its blocks an assignment or an
expression comes directly behind such a `return`.

Main definitions:

* `Covenant.Statement.renderWith` — the text of a statement with any separator in its blocks;
* `Covenant.Statement.Separable`, `Covenant.Statement.SeparableAll` — no `return` without a value
  is followed by a value.

Main results:

* `Statement.renderWith_semicolon` — with a semicolon as the separator it is the text of the
  statement;
* `Statement.endsBefore_bareTokens` — a statement ends where another one begins;
* `Statement.readsAll_bareTokensAll` — statements are read from their tokens without semicolons;
* `Statement.separableAll_of_readAll` — they are not if a value follows a `return` without one;
* `Statement.listOfText_spaced_iff` — **statements are read back from their text with blanks in
  place of semicolons if and only if no `return` without a value is followed by a value**.
-/

import Covenant.Proofs.Contract.Replay
import Covenant.Proofs.Contract.Spacing

set_option relaxedAutoImplicit false
set_option autoImplicit false

namespace Covenant

/-! ### The beginning of an expression -/

namespace Expression

variable {level : Level} {tokens rest : List Token} {value : Expression} {rank : ℕ}

/-- What is derived as an expression does not begin with a token that begins no operand. -/
theorem Derives.head?_ne {token : Token} (derives : value.Derives level tokens)
    (none : ∀ more, ∃ mistake, readUnary (token :: more) = .error mistake) (rest : List Token) :
    (tokens ++ rest).head? ≠ some token := by
  intro begins
  obtain ⟨more, same⟩ := List.head?_eq_some_iff.1 begins
  obtain ⟨mistake, fails⟩ := none more
  rw [← same] at fails
  exact derives.begins rest mistake fails

/-- The tokens of an expression are derived as it. -/
theorem derives_tokens (valid : value.WellFormed) : value.Derives .expression value.tokens := by
  have scanned := (value.lexes_render valid (by simp [Token.Apart])).whole
  have lexed : Lexed value.tokens := (Token.layout_iff.2 scanned).wellFormed
  have reads := read_tokens valid stops_nil
  rw [List.append_nil] at reads
  exact (reads_read_iff lexed).1 reads

/-- The text of an expression begins with no operator that could be taken with an operand. -/
theorem halts_tokens (value : Expression) (rest : List Token) :
    Halts rank (value.tokens ++ rest) := by
  rintro op behind same -
  cases value with
  | integer value =>
      rw [tokens] at same
      split at same
      case isTrue =>
        -- behind the sign of the least integer there is only its magnitude
        obtain ⟨-, rfl⟩ := List.cons.inj same
        exact ⟨_, readUnary.eq_def _⟩
      case isFalse => cases same
  | boolean value => cases value <;> cases same
  | unary => cases op <;> cases same
  | binary => cases op <;> cases same
  | _ => cases same

end Expression

namespace Statement

/-! ### Texts and tokens -/

/-- The text of a block, with the same separator behind each of its statements. -/
def bracedWith (separator : String) (texts : List String) : String :=
  "\x7b " ++ String.join (texts.map fun text => text ++ separator) ++ "\x7d"

mutual

/-- The text of a statement, with this separator between the statements of its blocks. -/
def renderWith (separator : String) : Statement → String
  | ifThen condition consequence =>
    "if " ++ condition.render ++ " " ++ bracedWith separator (renderAllWith separator consequence)
  | ifElse condition consequence alternative =>
    "if " ++ condition.render ++ " " ++
      bracedWith separator (renderAllWith separator consequence) ++ " else " ++
        bracedWith separator (renderAllWith separator alternative)
  | statement => statement.render

/-- The texts of statements, in order, with this separator in their blocks. -/
def renderAllWith (separator : String) : List Statement → List String
  | [] => []
  | statement :: rest => statement.renderWith separator :: renderAllWith separator rest

end

mutual

/-- With a semicolon and a blank as the separator, this is the text of the statement. -/
theorem renderWith_semicolon : (statement : Statement) →
    statement.renderWith "; " = statement.render
  | ifThen condition consequence => by
      rw [renderWith, render, renderAllWith_semicolon consequence]
      rfl
  | ifElse condition consequence alternative => by
      rw [renderWith, render, renderAllWith_semicolon consequence,
        renderAllWith_semicolon alternative]
      rfl
  | declare .. => rfl
  | assign .. => rfl
  | .return _ => rfl
  | expression _ => rfl

theorem renderAllWith_semicolon : (statements : List Statement) →
    renderAllWith "; " statements = renderAll statements
  | [] => rfl
  | statement :: rest => by
      rw [renderAllWith, renderAll, renderWith_semicolon statement, renderAllWith_semicolon rest]

end

mutual

/-- The tokens of a statement, without semicolons in its blocks. -/
def bareTokens : Statement → List Token
  | ifThen condition consequence =>
      .keyword .if :: (condition.tokens ++ .symbol .openBrace ::
        (bareTokensAll consequence ++ [.symbol .closeBrace]))
  | ifElse condition consequence alternative =>
      .keyword .if :: (condition.tokens ++ .symbol .openBrace ::
        (bareTokensAll consequence ++ .symbol .closeBrace :: .keyword .else :: .symbol .openBrace ::
          (bareTokensAll alternative ++ [.symbol .closeBrace])))
  | statement => statement.tokens

/-- The tokens of statements without semicolons. -/
def bareTokensAll : List Statement → List Token
  | [] => []
  | statement :: rest => statement.bareTokens ++ bareTokensAll rest

end

/-! ### Values behind a `return` -/

/-- A statement begins with something that a `return` before it takes for its value. -/
def BeginsWithValue : Statement → Prop
  | assign _ _ => True
  | expression _ => True
  | _ => False

mutual

/-- In no block of the statement a `return` without a value is followed by a value. -/
def Separable : Statement → Prop
  | ifThen _ consequence => SeparableAll consequence
  | ifElse _ consequence alternative => SeparableAll consequence ∧ SeparableAll alternative
  | _ => True

/-- Neither in the list nor in a block of its statements a `return` without a value is followed by a
value. -/
def SeparableAll : List Statement → Prop
  | [] => True
  | statement :: rest => statement.Separable ∧
      (statement = .return none → ∀ next ∈ rest.head?, ¬ next.BeginsWithValue) ∧ SeparableAll rest

end

instance decidableBeginsWithValue : (statement : Statement) → Decidable statement.BeginsWithValue
  | assign _ _ => inferInstanceAs (Decidable True)
  | expression _ => inferInstanceAs (Decidable True)
  | declare .. => inferInstanceAs (Decidable False)
  | .return _ => inferInstanceAs (Decidable False)
  | ifThen .. => inferInstanceAs (Decidable False)
  | ifElse .. => inferInstanceAs (Decidable False)

mutual

instance decidableSeparable : (statement : Statement) → Decidable statement.Separable
  | ifThen _ consequence => decidableSeparableAll consequence
  | ifElse _ consequence alternative =>
      @instDecidableAnd _ _ (decidableSeparableAll consequence) (decidableSeparableAll alternative)
  | declare .. => inferInstanceAs (Decidable True)
  | assign _ _ => inferInstanceAs (Decidable True)
  | .return _ => inferInstanceAs (Decidable True)
  | expression _ => inferInstanceAs (Decidable True)

instance decidableSeparableAll : (statements : List Statement) → Decidable (SeparableAll statements)
  | [] => inferInstanceAs (Decidable True)
  | statement :: rest =>
      @instDecidableAnd _ _ (decidableSeparable statement)
        (@instDecidableAnd _ _ inferInstance (decidableSeparableAll rest))

end

/-! ### Reading -/

variable {source behind rest last : List Token} {statement next : Statement}
  {statements block : List Statement} {condition : Expression}

theorem bareTokens_ifThen_append (condition : Expression) (consequence : List Statement)
    (rest : List Token) : (ifThen condition consequence).bareTokens ++ rest =
      .keyword .if :: (condition.tokens ++ .symbol .openBrace ::
        (bareTokensAll consequence ++ .symbol .closeBrace :: rest)) := by
  simp [bareTokens]

theorem bareTokens_ifElse_append (condition : Expression) (consequence alternative : List Statement)
    (rest : List Token) : (ifElse condition consequence alternative).bareTokens ++ rest =
      .keyword .if :: (condition.tokens ++ .symbol .openBrace :: (bareTokensAll consequence ++
        .symbol .closeBrace :: .keyword .else :: .symbol .openBrace ::
          (bareTokensAll alternative ++ .symbol .closeBrace :: rest))) := by
  simp [bareTokens]

/-- A statement does not begin with a symbol or an `else` that begins no operand. -/
theorem head?_bareTokens_ne {token : Token} (valid : next.WellFormed)
    (other : (∃ symbol, token = .symbol symbol) ∨ token = .keyword .else)
    (none : ∀ more, ∃ mistake, Expression.readUnary (token :: more) = .error mistake)
    (rest : List Token) : (next.bareTokens ++ rest).head? ≠ some token := by
  cases next with
  | expression value => exact (Expression.derives_tokens valid).head?_ne none rest
  | declare type name value =>
      rintro ⟨⟩
      cases type <;> simp [DataType.keyword] at other
  | «return» value =>
      rintro same
      cases value <;> cases same <;> simp at other
  | _ =>
      rintro ⟨⟩
      simp at other

/-- A statement begins with no operator that could be taken with an operand. -/
theorem halts_bareTokens (next : Statement) (rest : List Token) :
    Expression.Halts BinaryOperator.topRank (next.bareTokens ++ rest) := by
  cases next with
  | expression value => exact value.halts_tokens rest
  | «return» value =>
      rintro op behind same
      cases value <;> cases same
  | _ =>
      rintro op behind ⟨⟩

/-- Where a statement begins that is no value, no operand does. -/
theorem readUnary_bareTokens (other : ¬ next.BeginsWithValue) (rest : List Token) :
    ∃ mistake, Expression.readUnary (next.bareTokens ++ rest) = .error mistake := by
  cases next with
  | assign => exact absurd trivial other
  | expression => exact absurd trivial other
  | declare type => cases type <;> exact ⟨_, Expression.readUnary.eq_def _⟩
  | «return» value => cases value <;> exact ⟨_, Expression.readUnary.eq_def _⟩
  | _ => exact ⟨_, Expression.readUnary.eq_def _⟩

/-- **A statement ends where another one begins**, unless it is a `return` that would take the other
one for its value.  No semicolon stands there either. -/
theorem endsBefore_bareTokens (valid : next.WellFormed)
    (apart : statement = .return none → ¬ next.BeginsWithValue) (rest : List Token) :
    statement.EndsBefore (next.bareTokens ++ rest) ∧
      (next.bareTokens ++ rest).head? ≠ some (.symbol .semicolon) := by
  have symbol : ∀ {symbol : Symbol},
      (∀ more, ∃ mistake, Expression.readUnary (.symbol symbol :: more) = .error mistake) →
        (next.bareTokens ++ rest).head? ≠ some (.symbol symbol) :=
    fun none => head?_bareTokens_ne valid (.inl ⟨_, rfl⟩) none rest
  refine ⟨⟨?_, symbol fun _ => ⟨_, Expression.readUnary.eq_def _⟩⟩,
    symbol fun _ => ⟨_, Expression.readUnary.eq_def _⟩⟩
  unfold EndedBy
  split
  case h_1 => exact readUnary_bareTokens (apart rfl) rest
  case h_2 =>
    exact head?_bareTokens_ne valid (.inr rfl) (fun _ => ⟨_, Expression.readUnary.eq_def _⟩) rest
  case h_3 => trivial
  all_goals exact halts_bareTokens next rest

/-- A statement ends before the others, and where no other one follows. -/
theorem endsBefore_bareTokensAll (valid : WellFormedAll statements) (closes : Closes rest)
    (apart : statement = .return none → ∀ next ∈ statements.head?, ¬ next.BeginsWithValue) :
    statement.EndsBefore (bareTokensAll statements ++ rest) ∧
      (bareTokensAll statements ++ rest).head? ≠ some (.symbol .semicolon) := by
  cases statements with
  | nil =>
      refine ⟨closes.endsBefore statement, ?_⟩
      intro semicolon
      cases closes _ semicolon
  | cons next others =>
      rw [bareTokensAll, List.append_assoc]
      exact endsBefore_bareTokens valid.1 (fun bare => apart bare next rfl) _

mutual

/-- A statement is read from its tokens without semicolons wherever it ends. -/
theorem replays_bareTokens : (statement : Statement) → statement.WellFormed → statement.Separable →
    Replays statement.bareTokens statement
  | declare type name value, valid, _, _, ends =>
      readBare_declare type name ((Expression.derives_tokens valid.2).reads_of_halts ends.1)
  | assign name value, valid, _, _, ends =>
      readBare_assign name ((Expression.derives_tokens valid.2).reads_of_halts ends.1)
  | .return none, _, _, rest, ends => by
      obtain ⟨mistake, fails⟩ := ends.1
      exact readsBare_returnNothing fails
  | .return (some value), valid, _, _, ends =>
      readBare_returnValue ((Expression.derives_tokens valid).reads_of_halts ends.1)
  | ifThen condition consequence, valid, separable, rest, ends => by
      have holds := readBlock_of_readAll (readsAll_bareTokensAll consequence valid.2 separable
        (closes_closeBrace rest) _ (length_lt_succ _))
      rw [bareTokens_ifThen_append]
      exact readsBare_ifThen (reads_test (Expression.derives_tokens valid.1) holds) holds ends.1
  | ifElse condition consequence alternative, valid, separable, rest, _ => by
      have fails := readBlock_of_readAll (readsAll_bareTokensAll alternative valid.2.2 separable.2
        (closes_closeBrace rest) _ (length_lt_succ _))
      have holds := readBlock_of_readAll (readsAll_bareTokensAll consequence valid.2.1 separable.1
        (closes_closeBrace (.keyword .else :: .symbol .openBrace ::
          (bareTokensAll alternative ++ .symbol .closeBrace :: rest))) _ (length_lt_succ _))
      rw [bareTokens_ifElse_append]
      exact readsBare_ifElse (reads_test (Expression.derives_tokens valid.1) holds) holds fails
  | expression value, valid, _, _, ends =>
      readsBare_expression (Expression.derives_tokens valid) ends

/-- **Statements are read from their tokens without semicolons** where no other one follows. -/
theorem readsAll_bareTokensAll : (statements : List Statement) → WellFormedAll statements →
    SeparableAll statements → {rest : List Token} → Closes rest →
    ReadsAll (bareTokensAll statements ++ rest) statements rest
  | [], _, _, _, closes => readsAll_nil closes
  | statement :: others, valid, separable, rest, closes => by
      have more := readsAll_bareTokensAll others valid.2 separable.2.2 closes
      obtain ⟨ends, bare⟩ := endsBefore_bareTokensAll valid.2 closes separable.2.1
      have first := replays_bareTokens statement valid.1 separable.1 _ ends
      rw [bareTokensAll, List.append_assoc]
      exact more.cons first bare

end

/-! ### Values that are taken -/

theorem readAll_of_readBlock
    (reads : Reads (readBlock (.symbol .openBrace :: source)) block rest) :
    Reads (readAll source (length_lt_succ source)) block (.symbol .closeBrace :: rest) := by
  obtain ⟨within, found⟩ := reads
  rw [readBlock] at found
  split at found
  case h_1 => cases found
  case h_2 front inner =>
    split at found <;> cases found
    case h_1 skipped =>
      obtain ⟨value, rest, less⟩ := front
      obtain ⟨rfl, rfl⟩ := Front.eq_of_skip? skipped
      exact ⟨less, inner⟩

theorem ReadsBare.unique (one : ReadsBare source statement rest)
    (another : ReadsBare source statement last) : rest = last := by
  obtain ⟨_, found⟩ := one
  obtain ⟨_, again⟩ := another
  rw [found] at again
  cases again
  rfl

/-- Behind its condition, an `if` has a block, and perhaps `else` and another one. -/
theorem readBlock_of_readsBare (test : Reads (Expression.read source) condition behind)
    (reads : ReadsBare (.keyword .if :: source) statement last) :
    ∃ block rest, Reads (readBlock behind) block rest ∧
      (statement = ifThen condition block ∨ ∃ alternative other, rest = .keyword .else :: other ∧
        Reads (readBlock other) alternative last ∧
          statement = ifElse condition block alternative) := by
  obtain ⟨_, test⟩ := test
  obtain ⟨_, found⟩ := reads
  rw [readBare, test] at found
  simp only at found
  split at found
  case h_1 => cases found
  case h_2 front block =>
    obtain ⟨value, rest, within⟩ := front
    refine ⟨value, rest, ⟨within, block⟩, ?_⟩
    split at found
    case h_1 =>
      cases found
      exact .inl rfl
    case h_2 consequence other shorter skipped =>
      obtain ⟨rfl, rfl⟩ := Front.eq_of_skip? skipped
      split at found <;> cases found
      case h_2 alternative less second => exact .inr ⟨alternative, other, rfl, ⟨less, second⟩, rfl⟩

/-- Where statements are read, the first of them is, and the others are behind it. -/
theorem readsBare_of_readAll {bound : ℕ} {within : source.length < bound}
    (reads : Reads (readAll source within) (statement :: statements) last) :
    ∃ rest, ReadsBare source statement rest ∧
      (rest.head? ≠ some (.symbol .semicolon) → ∃ less : rest.length < bound,
        Reads (readAll rest less) statements last) := by
  obtain ⟨_, found⟩ := reads
  rw [readAll] at found
  split at found
  case h_1 => cases found
  case h_2 => cases found
  case h_3 bare first =>
    obtain ⟨value, rest, shorter⟩ := bare
    split at found
    case h_1 taken behind less skipped =>
      have kept := value_skipSemicolon (⟨value, rest, shorter⟩ : Front Token Statement _)
      rw [skipped] at kept
      split at found
      case h_1 => cases found
      case h_2 more read =>
        cases found
        obtain rfl : statement = value := kept
        refine ⟨rest, ⟨shorter, first⟩, ?_⟩
        intro bare
        have stays : skipSemicolon (⟨statement, rest, shorter⟩ : Front Token Statement _) =
            ⟨statement, rest, shorter⟩ := by
          rw [skipSemicolon, Front.skip?_of_head?_ne shorter bare]
          rfl
        rw [stays] at skipped
        cases skipped
        exact ⟨_, more.rest_lt, read⟩

/-- A `return` takes a value that follows it. -/
theorem not_readsBare_returnNothing (valid : next.WellFormed) (begins : next.BeginsWithValue)
    (rest last : List Token) :
    ¬ ReadsBare (.keyword .return :: (next.bareTokens ++ rest)) (.return none) last := by
  rintro ⟨_, found⟩
  rw [readBare] at found
  split at found
  case h_1 => cases found
  case h_2 mistake read =>
    have fails := Expression.readUnary_error read
    cases next with
    | assign name value =>
        have operand := Expression.readUnary.eq_def ((assign name value).bareTokens ++ rest)
        rw [fails] at operand
        cases operand
    | expression value => exact (Expression.derives_tokens valid).begins rest mistake fails
    | _ => exact begins

mutual

/-- **A statement is not read from its tokens without semicolons** if in one of its blocks a value
follows a `return` without one. -/
theorem separable_of_readsBare : (statement : Statement) → statement.WellFormed →
    {rest last : List Token} → ReadsBare (statement.bareTokens ++ rest) statement last →
    statement.Separable
  | ifThen condition consequence, valid, rest, last, reads => by
      rw [bareTokens_ifThen_append] at reads
      have test := (Expression.derives_tokens valid.1).reads_read (Expression.stops_symbol
        .openBrace rfl (bareTokensAll consequence ++ .symbol .closeBrace :: rest))
      obtain ⟨block, behind, holds, same | ⟨_, _, _, _, same⟩⟩ := readBlock_of_readsBare test reads
      · cases same
        exact separableAll_of_readAll consequence valid.2 (readAll_of_readBlock holds)
      · cases same
  | ifElse condition consequence alternative, valid, rest, last, reads => by
      rw [bareTokens_ifElse_append] at reads
      have test := (Expression.derives_tokens valid.1).reads_read (Expression.stops_symbol
        .openBrace rfl (bareTokensAll consequence ++ .symbol .closeBrace :: .keyword .else ::
          .symbol .openBrace :: (bareTokensAll alternative ++ .symbol .closeBrace :: rest)))
      obtain ⟨block, behind, holds, same | ⟨_, other, rfl, fails, same⟩⟩ :=
        readBlock_of_readsBare test reads
      · cases same
      · cases same
        have first := separableAll_of_readAll consequence valid.2.1 (readAll_of_readBlock holds)
        -- the first block is read up to its own brace, so the second one begins where it is written
        have again := readBlock_of_readAll (readsAll_bareTokensAll consequence valid.2.1 first
          (closes_closeBrace (.keyword .else :: .symbol .openBrace ::
            (bareTokensAll alternative ++ .symbol .closeBrace :: rest))) _ (length_lt_succ _))
        obtain ⟨-, same⟩ := holds.unique again
        cases same
        exact ⟨first, separableAll_of_readAll alternative valid.2.2 (readAll_of_readBlock fails)⟩
  | declare .., _, _, _, _ => trivial
  | assign .., _, _, _, _ => trivial
  | .return _, _, _, _, _ => trivial
  | expression _, _, _, _, _ => trivial

/-- **Statements are not read from their tokens without semicolons** if a value follows a `return`
without one. -/
theorem separableAll_of_readAll : (statements : List Statement) → WellFormedAll statements →
    {bound : ℕ} → {rest last : List Token} →
    {within : (bareTokensAll statements ++ rest).length < bound} →
    Reads (readAll (bareTokensAll statements ++ rest) within) statements last →
    SeparableAll statements
  | [], _, _, _, _, _, _ => trivial
  | [statement], valid, _, rest, _, within, reads => by
      obtain ⟨middle, first, -⟩ := readsBare_of_readAll reads
      rw [bareTokensAll, List.append_assoc] at first
      exact ⟨separable_of_readsBare statement valid.1 first, by simp, trivial⟩
  | statement :: next :: others, valid, bound, rest, last, within, reads => by
      obtain ⟨middle, first, more⟩ := readsBare_of_readAll reads
      rw [bareTokensAll, List.append_assoc] at first
      have separable := separable_of_readsBare statement valid.1 first
      have apart : statement = .return none → ¬ next.BeginsWithValue := by
        rintro rfl begins
        rw [bareTokensAll, List.append_assoc] at first
        exact not_readsBare_returnNothing valid.2.1 begins _ _ first
      obtain ⟨ends, bare⟩ : statement.EndsBefore (bareTokensAll (next :: others) ++ rest) ∧
          (bareTokensAll (next :: others) ++ rest).head? ≠ some (.symbol .semicolon) := by
        rw [bareTokensAll, List.append_assoc]
        exact endsBefore_bareTokens valid.2.1 apart _
      -- so the others are read behind the tokens of the first one
      obtain rfl := first.unique (replays_bareTokens statement valid.1 separable _ ends)
      obtain ⟨less, behind⟩ := more bare
      exact ⟨separable, fun bare _ mem => Option.some.inj mem ▸ apart bare,
        separableAll_of_readAll (next :: others) valid.2 behind⟩

end

/-! ### Scanning -/

section Scanning

open Token

theorem flatMap_space (texts : List String) :
    ' ' :: texts.flatMap (fun text => text.toList ++ [' ']) =
      texts.flatMap (fun text => ' ' :: text.toList) ++ [' '] := by
  induction texts with
  | nil => rfl
  | cons text texts ih => simp [ih]

theorem toList_bracedWith_space (texts : List String) : (bracedWith " " texts).toList =
    '\x7b' :: (texts.flatMap (fun text => ' ' :: text.toList) ++ [' ', '\x7d']) := by
  have spaced := congrArg (· ++ ['\x7d']) (flatMap_space texts)
  simpa [bracedWith, String.toList_join, List.flatMap_map] using spaced

variable {texts : List String}

/-- What stands between braces, with a blank before it, is cut into tokens between braces. -/
theorem lexes_bracedWith {tokens : List Token} (inner : ∀ rest, Apart rest →
      Lexes (texts.flatMap (fun text => ' ' :: text.toList) ++ rest) tokens rest)
    (rest : List Char) : Lexes ((bracedWith " " texts).toList ++ rest)
      (.symbol .openBrace :: (tokens ++ [.symbol .closeBrace])) rest := by
  have same : (bracedWith " " texts).toList ++ rest =
      '\x7b' :: (texts.flatMap (fun text => ' ' :: text.toList) ++ ' ' :: '\x7d' :: rest) := by
    rw [toList_bracedWith_space]
    simp
  rw [same]
  exact (lexes_symbol .openBrace trivial).trans ((inner _ (apart_cons ' ' rfl _)).trans
    ((lexes_space rfl _).trans (lexes_symbol .closeBrace trivial)))

mutual

/-- The text of a statement with blanks between statements is cut into tokens without semicolons. -/
theorem lexes_renderWith : (statement : Statement) → statement.WellFormed → (rest : List Char) →
    Apart rest → Lexes ((statement.renderWith " ").toList ++ rest) statement.bareTokens rest
  | ifThen condition consequence, valid, rest, _ => by
      have same : ((ifThen condition consequence).renderWith " ").toList ++ rest =
          Keyword.if.spelling.toList ++ ' ' :: (condition.render.toList ++ ' ' ::
            ((bracedWith " " (renderAllWith " " consequence)).toList ++ rest)) := by
        simp [renderWith, Keyword.spelling]
      rw [same]
      exact lexes_ifThen valid.1 (lexes_bracedWith (lexes_renderAllWith consequence valid.2)) rest
  | ifElse condition consequence alternative, valid, rest, _ => by
      have same : ((ifElse condition consequence alternative).renderWith " ").toList ++ rest =
          Keyword.if.spelling.toList ++ ' ' :: (condition.render.toList ++ ' ' ::
            ((bracedWith " " (renderAllWith " " consequence)).toList ++ ' ' ::
              (Keyword.else.spelling.toList ++ ' ' ::
                ((bracedWith " " (renderAllWith " " alternative)).toList ++ rest)))) := by
        simp [renderWith, Keyword.spelling]
      have whole := lexes_ifElse valid.1
        (lexes_bracedWith (lexes_renderAllWith consequence valid.2.1))
        (lexes_bracedWith (lexes_renderAllWith alternative valid.2.2)) rest
      rw [same]
      simpa [bareTokens] using whole
  | declare type name value, valid, rest, apart =>
      lexes_render (declare type name value) valid rest apart
  | assign name value, valid, rest, apart => lexes_render (assign name value) valid rest apart
  | .return value, valid, rest, apart => lexes_render (.return value) valid rest apart
  | expression value, valid, rest, apart => lexes_render (expression value) valid rest apart

/-- The texts of statements, with a blank before each, are cut into tokens without semicolons. -/
theorem lexes_renderAllWith : (statements : List Statement) → WellFormedAll statements →
    (rest : List Char) → Apart rest → Lexes ((renderAllWith " " statements).flatMap (fun text =>
      ' ' :: text.toList) ++ rest) (bareTokensAll statements) rest
  | [], _, rest, _ => .refl rest
  | statement :: others, valid, rest, apart => by
      have same : (renderAllWith " " (statement :: others)).flatMap (fun text =>
            ' ' :: text.toList) ++ rest = ' ' :: ((statement.renderWith " ").toList ++
              ((renderAllWith " " others).flatMap (fun text => ' ' :: text.toList) ++ rest)) := by
        simp [renderAllWith]
      have next : Apart
          ((renderAllWith " " others).flatMap (fun text => ' ' :: text.toList) ++ rest) := by
        cases others with
        | nil => exact apart
        | cons => exact apart_cons ' ' rfl _
      rw [same]
      exact (lexes_space rfl _).trans ((lexes_renderWith statement valid.1 _ next).trans
        (lexes_renderAllWith others valid.2 rest apart))

end

/-- The text of statements with single blanks between them is cut into their tokens without
semicolons, and nothing is left. -/
theorem scan_spaced (valid : WellFormedAll statements) :
    (scan (" ".intercalate (renderAllWith " " statements)).toList).list =
        bareTokensAll statements ∧
      (scan (" ".intercalate (renderAllWith " " statements)).toList).stop = [] := by
  cases statements with
  | nil => exact (Lexes.refl []).whole
  | cons statement others =>
      have lexes := lexes_renderAllWith (statement :: others) valid [] (by simp [Apart])
      have same : ' ' :: (" ".intercalate (renderAllWith " " (statement :: others))).toList =
          (renderAllWith " " (statement :: others)).flatMap fun text => ' ' :: text.toList := by
        rw [renderAllWith, Text.toList_intercalate_cons]
        rfl
      rw [List.append_nil, ← same] at lexes
      -- a blank at the front does not matter
      obtain ⟨list, stop⟩ := @lexes_space ' ' rfl
        (" ".intercalate (renderAllWith " " (statement :: others))).toList
      exact ⟨list.symm.trans lexes.whole.1, stop.symm.trans lexes.whole.2⟩

end Scanning

/-- **Statements are read back from their text with blanks in place of semicolons if and only if no
`return` without a value is followed by a value.**  The text is the one that is written for a block
and the blocks in it, with a single blank instead of a semicolon and a blank between statements.  A
value follows a `return` if an assignment or an expression does, in the list or in any block. -/
theorem listOfText_spaced_iff (valid : WellFormedAll statements) :
    listOfText (" ".intercalate (renderAllWith " " statements)) = .ok statements ↔
      SeparableAll statements := by
  have scanned := scan_spaced valid
  constructor
  · intro read
    have reads := reads_of_listOfText read
    rw [scanned.1, ← List.append_nil (bareTokensAll statements)] at reads
    exact separableAll_of_readAll statements valid reads
  · intro separable
    have nothing : Closes [] := by simp [Closes]
    have reads := readsAll_bareTokensAll statements valid separable nothing
    rw [List.append_nil] at reads
    exact listOfText_of_scan scanned (reads _ _)

/-- Blocks within blocks, a `return` without a value before a declaration, before an `if`, before
another `return` and at the ends of blocks, an expression in parentheses behind a name, and the
least integer behind another expression. -/
def adjacent : List Statement :=
  [.ifElse (.identifier "a")
    [.return none, .declare .int "b" (.integer 1),
      .ifThen (.identifier "b") [.return none], .assign "b" (.identifier "a"),
      .expression (.binary (.identifier "b") .plus (.integer 2)), .return none]
    [],
    .return none, .ifThen (.boolean true) [.return none, .return (some (.identifier "a"))],
    .expression (.identifier "a"), .expression (.integer Int64.minValue)]

/-- The statements `adjacent` are read back from their text, and `return` before a name is not. -/
theorem listOfText_spaced_iff_adjacent :
    WellFormedAll adjacent ∧ SeparableAll adjacent ∧
      listOfText ("if a \x7b return int b = 1 if b \x7b return \x7d b = a (b + 2) return \x7d " ++
        "else \x7b \x7d return if true \x7b return return a \x7d a -9223372036854775808") =
          .ok adjacent ∧
      listOfText "return a" ≠ .ok [.return none, .expression (.identifier "a")] := by
  have valid : WellFormedAll adjacent := by decide
  have separable : SeparableAll adjacent := by decide
  have text : " ".intercalate (renderAllWith " " adjacent) =
      "if a \x7b return int b = 1 if b \x7b return \x7d b = a (b + 2) return \x7d " ++
        "else \x7b \x7d return if true \x7b return return a \x7d a -9223372036854775808" := by
    decide
  have read := (listOfText_spaced_iff valid).2 separable
  rw [text] at read
  refine ⟨valid, separable, read, ?_⟩
  have other : " ".intercalate (renderAllWith " " [.return none, .expression (.identifier "a")]) =
      "return a" := by
    decide
  have named : WellFormedAll [.return none, .expression (.identifier "a")] := by decide
  rw [← other]
  intro taken
  exact absurd ((listOfText_spaced_iff named).1 taken) (by decide)

end Statement

end Covenant
