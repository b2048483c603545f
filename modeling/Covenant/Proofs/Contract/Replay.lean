/-
**What was read is read again before something else.**

Readers look ahead: an operator is left if no operand follows it, `return` is without a value if no
expression follows, and an `if` without `else` if there is none.  The tokens that a statement was
read from are therefore not read as that statement whatever follows, but they are if what follows
ends the statement as well.

Between two statements nothing can change.  The first tokens of the second one already show that
the first one ends before it.  So statements that were read are read again as long as no statement
follows them, and for the last of them this is no condition: before a closing brace, or if nothing
follows, every statement ends.

Main definitions:

* `Covenant.Statement.EndedBy`, `Covenant.Statement.EndsBefore` — a statement ends before some
  tokens;
* `Covenant.Statement.KeepsEnds` — statements that end before some tokens end before others;
* `Covenant.Statement.Replays` — some tokens are read as a statement wherever it ends.

Main results:

* `Expression.halts_read` — behind an expression no operator is left that could have been taken;
* `Statement.endedBy_readBare` — a statement is ended by what is left behind it;
* `Statement.replays_readBlock`, `Statement.replays_readAll` — **what was read is read again**, a
  block before anything, and statements where these end.
-/

import Covenant.Proofs.Contract.Precedence
import Covenant.Proofs.Contract.StatementEnd

set_option relaxedAutoImplicit false
set_option autoImplicit false

namespace Covenant

/-! ### Behind an expression -/

namespace Expression

variable {rank : ℕ} {level : Level} {tokens rest other : List Token} {value : Expression}

/-- Where no expression is read, there is no operand. -/
theorem readUnary_error {mistake : List Token} (fails : readRank rank tokens = .error mistake) :
    readUnary tokens = .error mistake := by
  induction rank with
  | zero =>
      rw [readRank] at fails
      exact fails
  | succ rank ih =>
      rw [readRank] at fails
      split at fails
      case h_1 found =>
        cases fails
        exact ih found
      case h_2 => cases fails

/-- Reading on behind a left operand ends where no operator can be taken any more, if this holds of
the reader of operands. -/
theorem halts_readMore {bound : ℕ} {left : Expression} {tokens : List Token}
    (halts : Halts rank tokens)
    (operands : ∀ (source : List Token) (front : Front Token Expression source.length),
      readRank rank source = .ok front → Halts rank front.rest)
    (within : tokens.length < bound) :
    Halts (rank + 1) (readMore rank left tokens within).rest := by
  match tokens, within with
  | [], within =>
      rw [readMore]
      rintro op behind ⟨⟩
  | token :: rest, within =>
      rw [readMore]
      split
      case h_1 none =>
        rintro op behind ⟨⟩ low
        by_cases tight : op.rank ≤ rank
        · exact halts op rest rfl tight
        · rw [show rank + 1 = op.rank by omega, operator?_ofBinary] at none
          cases none
      case h_2 op found =>
        split
        case h_1 mistake fails =>
          rintro op behind ⟨⟩ -
          exact ⟨mistake, readUnary_error fails⟩
        case h_2 right behind shorter read =>
          exact halts_readMore (operands rest _ read) operands _
termination_by tokens.length

theorem halts_readRank {front : Front Token Expression tokens.length}
    (found : readRank rank tokens = .ok front) : Halts rank front.rest := by
  induction rank generalizing tokens with
  | zero =>
      intro op behind _ low
      exact absurd op.rank_pos (Nat.not_lt.2 low)
  | succ rank ih =>
      rw [readRank] at found
      split at found <;> cases found
      case h_2 left rest within read =>
        exact halts_readMore (ih read) (fun _ _ => ih) within

/-- **Behind an expression no operator is left that could have been taken.** -/
theorem halts_read {front : Front Token Expression tokens.length}
    (found : read tokens = .ok front) : Halts BinaryOperator.topRank front.rest :=
  halts_readRank found

/-- What is derived as an expression begins with an operand. -/
theorem Derives.begins (derives : value.Derives level tokens) (rest mistake : List Token) :
    readUnary (tokens ++ rest) ≠ .error mistake := by
  induction derives generalizing rest with
  | operand _ _ ih => exact ih rest
  | binary _ _ _ _ ih =>
      rw [List.append_assoc]
      exact ih _
  | not operand => exact ((Derives.not operand).resumes rest).ne_error mistake
  | minus operand => exact ((Derives.minus operand).resumes rest).ne_error mistake
  | parentheses inner => exact ((Derives.parentheses inner).resumes rest).ne_error mistake
  | _ => exact Reads.ne_error ⟨_, readUnary.eq_def _⟩ mistake

/-- If what is derived as an expression begins with an operator and could not be taken with it, the
same holds whatever follows. -/
theorem Derives.halts_append (derives : value.Derives level tokens)
    (halts : Halts rank (tokens ++ rest)) : Halts rank (tokens ++ other) := by
  induction derives generalizing rest other with
  | operand _ _ ih => exact ih halts
  | binary _ _ _ _ ih =>
      rw [List.append_assoc] at halts ⊢
      exact ih halts
  | minus operand =>
      -- the minus sign would be taken with the operand behind it
      rintro op behind same low
      obtain ⟨minus, -⟩ := List.cons.inj same
      have found := Symbol.binary?_eq_some_iff.2 (Token.symbol.inj minus)
      obtain rfl : BinaryOperator.minus = op := Option.some.inj found
      obtain ⟨mistake, fails⟩ := halts .minus _ rfl low
      exact absurd fails (operand.begins rest mistake)
  | least =>
      rintro op behind same -
      obtain ⟨-, rfl⟩ := List.cons.inj same
      exact ⟨_, readUnary.eq_def _⟩
  | _ =>
      rintro op behind same
      obtain ⟨same, -⟩ := List.cons.inj same
      cases op <;> cases same

end Expression

/-! ### Where statements end -/

namespace Statement

/-- A statement that was read ended before these tokens. -/
def EndedBy : Statement → List Token → Prop
  | .return none, rest => ∃ mistake, Expression.readUnary rest = .error mistake
  | ifThen _ _, rest => rest.head? ≠ some (.keyword .else)
  | ifElse _ _ _, _ => True
  | declare _ _ _, rest => Expression.Halts BinaryOperator.topRank rest
  | assign _ _, rest => Expression.Halts BinaryOperator.topRank rest
  | .return (some _), rest => Expression.Halts BinaryOperator.topRank rest
  | expression _, rest => Expression.Halts BinaryOperator.topRank rest

/-- A statement ends before these tokens, and they make no assignment of it. -/
def EndsBefore (statement : Statement) (rest : List Token) : Prop :=
  statement.EndedBy rest ∧ rest.head? ≠ some (.symbol .assign)

/-- No statement follows: the tokens are at their end, or a brace is closed. -/
def Closes (rest : List Token) : Prop :=
  ∀ token ∈ rest.head?, token = .symbol .closeBrace

theorem closes_closeBrace (rest : List Token) : Closes (.symbol .closeBrace :: rest) := by
  rintro token ⟨⟩
  rfl

/-- Statements that ended before the first tokens, without a semicolon, end so before the others. -/
structure KeepsEnds (tokens other : List Token) : Prop where
  ends : ∀ statement : Statement, statement.EndedBy tokens → statement.EndsBefore other
  bare : tokens.head? ≠ some (.symbol .semicolon) → other.head? ≠ some (.symbol .semicolon)

variable {tokens rest other behind : List Token} {statement : Statement} {block : List Statement}
  {condition value : Expression}

/-- Every statement ends before a symbol that is neither an operator nor an assignment, and no
operand begins with it. -/
theorem endsBefore_symbol {symbol : Symbol} (statement : Statement) (rest : List Token)
    (operator : symbol.binary? = none) (assignment : symbol ≠ .assign)
    (operand : Expression.readUnary (.symbol symbol :: rest) = .error (.symbol symbol :: rest)) :
    statement.EndsBefore (.symbol symbol :: rest) := by
  have halts : Expression.Halts BinaryOperator.topRank (.symbol symbol :: rest) :=
    (Expression.stops_symbol symbol operator rest).halts
  refine ⟨?_, by simpa using assignment⟩
  unfold EndedBy
  split
  case h_1 => exact ⟨_, operand⟩
  case h_2 => simp
  case h_3 => trivial
  all_goals exact halts

theorem endsBefore_semicolon (statement : Statement) (rest : List Token) :
    statement.EndsBefore (.symbol .semicolon :: rest) :=
  endsBefore_symbol statement rest rfl (by decide) (Expression.readUnary.eq_def _)

/-- Where no statement follows, every statement ends. -/
theorem Closes.endsBefore (closes : Closes rest) (statement : Statement) :
    statement.EndsBefore rest := by
  cases rest with
  | nil =>
      refine ⟨?_, by simp⟩
      unfold EndedBy
      split
      case h_1 => exact ⟨_, Expression.readUnary.eq_def _⟩
      case h_2 => simp
      case h_3 => trivial
      all_goals exact Expression.stops_nil.halts
  | cons token rest =>
      obtain rfl := closes token rfl
      exact endsBefore_symbol statement rest rfl (by decide) (Expression.readUnary.eq_def _)

theorem Closes.keepsEnds (closes : Closes other) (tokens : List Token) :
    KeepsEnds tokens other where
  ends statement _ := closes.endsBefore statement
  bare _ same := by cases closes _ same

/-- Which statements end before some tokens depends on the first of them, on whether an operand
begins with it, and on whether it is an operator in front of one. -/
theorem KeepsEnds.of_front (same : other.head? = tokens.head?)
    (assignment : tokens.head? ≠ some (.symbol .assign))
    (operand : (∃ mistake, Expression.readUnary tokens = .error mistake) →
      ∃ mistake, Expression.readUnary other = .error mistake)
    (halts : Expression.Halts BinaryOperator.topRank tokens →
      Expression.Halts BinaryOperator.topRank other) : KeepsEnds tokens other where
  ends statement ended := by
    refine ⟨?_, by rwa [same]⟩
    unfold EndedBy at ended ⊢
    split at ended
    case h_1 => exact operand ended
    case h_2 => rwa [same]
    case h_3 => trivial
    all_goals exact halts ended
  bare none := by rwa [same]

/-- Whether an operand begins with a keyword does not depend on what follows. -/
theorem keepsEnds_keyword (keyword : Keyword) (rest other : List Token) :
    KeepsEnds (.keyword keyword :: rest) (.keyword keyword :: other) := by
  refine .of_front rfl (by simp) ?_ ?_
  · rintro ⟨mistake, fails⟩
    cases keyword <;> first
      | exact ⟨_, Expression.readUnary.eq_def _⟩
      | (rw [Expression.readUnary] at fails; cases fails)
  · rintro - op behind ⟨⟩

/-- **The tokens of a statement show which statements end before them.** -/
theorem Derives.keepsEnds (derives : statement.Derives tokens) (rest other : List Token) :
    KeepsEnds (tokens ++ rest) (tokens ++ other) := by
  cases derives with
  | declare => exact keepsEnds_keyword _ _ _
  | returnNothing => exact keepsEnds_keyword _ _ _
  | «return» => exact keepsEnds_keyword _ _ _
  | ifThen => exact keepsEnds_keyword _ _ _
  | ifElse => exact keepsEnds_keyword _ _ _
  | assign name =>
      refine .of_front rfl (by simp) ?_ ?_
      · rintro ⟨mistake, fails⟩
        rw [List.cons_append, Expression.readUnary] at fails
        cases fails
      · rintro - op behind ⟨⟩
  | expression inner =>
      have begun : tokens ≠ [] := by
        rintro rfl
        exact inner.begins [] _ (Expression.readUnary.eq_def _)
      obtain ⟨token, more, rfl⟩ := List.exists_cons_of_ne_nil begun
      refine .of_front rfl ?_ ?_ inner.halts_append
      · rintro ⟨⟩
        exact inner.begins rest _ (Expression.readUnary.eq_def _)
      · rintro ⟨mistake, fails⟩
        exact absurd fails (inner.begins rest mistake)

theorem endedBy_readExpression? {front : Front Token Statement tokens.length}
    (read : readExpression? tokens = some front) : front.value.EndedBy front.rest := by
  unfold readExpression? at read
  split at read <;> cases read
  case h_1 value found => exact Expression.halts_read found

theorem halts_readBinding {front : Front Token (String × Expression) tokens.length}
    (read : readBinding tokens = .ok front) :
    Expression.Halts BinaryOperator.topRank front.rest := by
  unfold readBinding at read
  split at read
  case h_1 name rest =>
    split at read <;> cases read
    case h_1 value behind shorter found => exact Expression.halts_read found
  all_goals cases read

/-- **A statement is ended by what is left behind it.** -/
theorem endedBy_readBare {front : Front Token Statement tokens.length}
    (read : readBare tokens = .ok (some front)) : front.value.EndedBy front.rest := by
  unfold readBare at read
  split at read
  case h_1 rest =>
    split at read <;> cases read
    case h_1 value behind shorter found => exact Expression.halts_read found
    case h_2 mistake fails => exact ⟨mistake, Expression.readUnary_error fails⟩
  case h_2 rest =>
    split at read
    case h_1 => cases read
    case h_2 condition behind shorter found =>
      split at read
      case h_1 => cases read
      case h_2 front block =>
        split at read
        case h_1 none =>
          cases read
          have alone := Front.head?_ne_of_skip? none
          exact alone
        case h_2 consequence other _ skipped =>
          split at read <;> cases read
          case h_2 => trivial
  case h_3 k rest _ _ =>
    split at read
    case h_1 type named =>
      split at read <;> cases read
      case h_2 name value behind shorter found => exact halts_readBinding found
    case h_2 => exact endedBy_readExpression? (Except.ok.inj read)
  case h_4 name rest =>
    split at read
    case h_1 value behind shorter found =>
      cases read
      exact Expression.halts_read found
    case h_2 => exact endedBy_readExpression? (Except.ok.inj read)
  case h_5 => exact endedBy_readExpression? (Except.ok.inj read)

/-! ### Reading again -/

/-- What was taken for a statement is read as it wherever it ends. -/
def Replays (taken : List Token) (statement : Statement) : Prop :=
  ∀ rest, statement.EndsBefore rest → ReadsBare (taken ++ rest) statement rest

/-- What is derived as an expression begins no other statement, unless it becomes an assignment. -/
theorem readBare_of_derives {level : Expression.Level} (derives : value.Derives level tokens)
    (assignment : rest.head? ≠ some (.symbol .assign)) :
    readBare (tokens ++ rest) = .ok (readExpression? (tokens ++ rest)) := by
  induction derives generalizing rest with
  | operand _ _ ih => exact ih assignment
  | @binary _ _ _ _ _ _ _ op below mem _ _ ih =>
      obtain ⟨rfl, -⟩ := Expression.Level.rank_of_mem below mem
      rw [List.append_assoc]
      exact ih (by simpa using ofBinary_ne_assign op)
  | identifier name =>
      cases rest with
      | nil => exact readBare.eq_def _
      | cons token rest =>
          -- only an equals sign behind a name begins another statement
          cases token with
          | symbol symbol =>
              cases symbol
              case assign => exact absurd rfl assignment
              all_goals exact readBare.eq_def _
          | _ => exact readBare.eq_def _
  | _ => exact readBare.eq_def _

/-- What is derived as an expression is read as a statement of this kind, if it does not become an
assignment. -/
theorem readsBare_expression (derives : value.Derives .expression tokens)
    (ends : (expression value).EndsBefore rest) :
    ReadsBare (tokens ++ rest) (expression value) rest := by
  obtain ⟨within, found⟩ := derives.reads_of_halts ends.1
  rw [ReadsBare, readBare_of_derives derives ends.2, readExpression?, found]
  exact ⟨within, rfl⟩

theorem replays_readExpression? {front : Front Token Statement tokens.length}
    (lexed : Lexed tokens) (read : readExpression? tokens = some front) :
    front.Follows Replays tokens := by
  unfold readExpression? at read
  split at read <;> cases read
  case h_1 value found =>
    obtain ⟨taken, same, inner⟩ := Expression.follows_read lexed found
    exact ⟨taken, same, fun _ ends => readsBare_expression inner ends⟩

/-- A condition ends before a block. -/
theorem reads_test {test : List Token} (derives : condition.Derives .expression test)
    (holds : Reads (readBlock behind) block rest) :
    Reads (Expression.read (test ++ behind)) condition behind := by
  obtain ⟨more, rfl⟩ := exists_eq_openBrace holds
  exact derives.reads_read (Expression.stops_symbol .openBrace rfl more)

/-- No statement is read where none follows. -/
theorem readsAll_nil (closes : Closes rest) : ReadsAll rest [] rest := by
  intro bound within
  cases rest with
  | nil => exact readAll_nil within
  | cons token rest =>
      obtain rfl := closes token rfl
      rw [readAll, readBare_closeBrace]
      exact ⟨within, rfl⟩

/-- What was taken for the first of some statements, perhaps with a semicolon, stands before others
where the tokens behind it keep the ends of statements. -/
theorem follows_first {bare : Front Token Statement tokens.length} (lexed : Lexed tokens)
    (found : readBare tokens = .ok (some bare)) (again : bare.Follows Replays tokens) :
    (skipSemicolon bare).Follows (fun taken statement => ∀ others statements last,
      KeepsEnds (skipSemicolon bare).rest others → ReadsAll others statements last →
        KeepsEnds tokens (taken ++ others) ∧
          ReadsAll (taken ++ others) (statement :: statements) last) tokens := by
  obtain ⟨taken, same, replays⟩ := again
  obtain ⟨_, split, derives⟩ := follows_readBare lexed found
  obtain rfl := List.append_cancel_right (same.symm.trans split)
  have keeps : ∀ others, KeepsEnds tokens (taken ++ others) := by
    intro others
    rw [same]
    exact derives.keepsEnds _ _
  cases skipped : bare.skip? (.symbol .semicolon) with
  | none =>
      have stays : skipSemicolon bare = bare := by
        rw [skipSemicolon, skipped]
        rfl
      rw [stays]
      refine ⟨taken, same, ?_⟩
      intro others statements last ends more
      have first := replays others (ends.ends _ (endedBy_readBare found))
      exact ⟨keeps others, more.cons first (ends.bare (Front.head?_ne_of_skip? skipped))⟩
  | some closed =>
      have separated : skipSemicolon bare = closed := by
        rw [skipSemicolon, skipped]
        rfl
      obtain ⟨value, rest⟩ := Front.eq_of_skip? skipped
      rw [separated, Front.Follows, value]
      have whole : tokens = taken ++ [.symbol .semicolon] ++ closed.rest := by
        rw [List.append_assoc]
        exact same.trans (congrArg _ rest)
      refine ⟨_, whole, ?_⟩
      intro others statements last _ more
      rw [List.append_assoc]
      exact ⟨keeps _, more.semicolon (replays _ (endsBefore_semicolon _ others))⟩

mutual

/-- **A statement is read again** wherever it ends. -/
theorem replays_readBare {tokens : List Token} {front : Front Token Statement tokens.length}
    (lexed : Lexed tokens) (h : readBare tokens = .ok (some front)) :
    front.Follows Replays tokens := by
  unfold readBare at h
  split at h
  case h_1 rest =>
    split at h <;> cases h
    case h_1 value behind shorter found =>
      obtain ⟨taken, same, inner⟩ := Expression.follows_read (lexed_cons.1 lexed).2 found
      exact ⟨.keyword .return :: taken, congrArg _ same,
        fun _ ends => readBare_returnValue (inner.reads_of_halts ends.1)⟩
    case h_2 =>
      refine ⟨[.keyword .return], rfl, ?_⟩
      intro rest ends
      obtain ⟨mistake, fails⟩ := ends.1
      exact readsBare_returnNothing fails
  case h_2 rest =>
    split at h
    case h_1 => cases h
    case h_2 condition behind shorter found =>
      have first := Expression.follows_read (lexed_cons.1 lexed).2 found
      have within := first.lexed (lexed_cons.1 lexed).2
      obtain ⟨test, same, derives⟩ := first
      split at h
      case h_1 => cases h
      case h_2 front read =>
        have block := replays_readBlock within read
        split at h
        case h_1 =>
          cases h
          obtain ⟨braced, split, holds⟩ := block
          have whole : rest = test ++ braced ++ front.rest := by
            rw [List.append_assoc, ← split]
            exact same
          refine ⟨.keyword .if :: (test ++ braced), congrArg _ whole, ?_⟩
          intro last ends
          rw [List.cons_append, List.append_assoc]
          exact readsBare_ifThen (reads_test derives (holds last)) (holds last) ends.1
        case h_2 consequence other _ skipped =>
          have closed := block.skip skipped
          have outside := closed.lexed within
          split at h
          case h_1 => cases h
          case h_2 alternative last _ readOther =>
            cases h
            obtain ⟨_, split, braced, rfl, holds⟩ := closed
            obtain ⟨bracedOther, splitOther, fails⟩ := replays_readBlock outside readOther
            have whole : rest = test ++ (braced ++ .keyword .else :: bracedOther) ++ last := by
              have behindElse : other = bracedOther ++ last := splitOther
              have behindTest : behind = braced ++ [.keyword .else] ++ other := split
              calc
                rest = test ++ behind := same
                _ = test ++ (braced ++ [.keyword .else] ++ (bracedOther ++ last)) := by
                  rw [← behindElse, ← behindTest]
                _ = _ := by simp
            refine ⟨.keyword .if :: (test ++ (braced ++ .keyword .else :: bracedOther)),
              congrArg _ whole, ?_⟩
            intro last _
            rw [List.cons_append, List.append_assoc, List.append_assoc, List.cons_append]
            exact readsBare_ifElse (reads_test derives (holds _)) (holds _) (fails last)
  case h_3 k rest _ _ =>
    split at h
    case h_1 type named =>
      split at h
      case h_1 => cases h
      case h_2 name value behind shorter found =>
        cases h
        obtain ⟨_, same, taken, rfl, inner⟩ := follows_readBinding (lexed_cons.1 lexed).2 found
        obtain rfl := Keyword.eq_keyword_of_dataType? named
        exact ⟨.keyword type.keyword :: .identifier name :: .symbol .assign :: taken,
          congrArg _ same, fun _ ends => readBare_declare type name (inner.reads_of_halts ends.1)⟩
    case h_2 => exact replays_readExpression? lexed (Except.ok.inj h)
  case h_4 name rest =>
    split at h
    case h_1 value behind shorter found =>
      cases h
      simp only [lexed_cons] at lexed
      obtain ⟨taken, same, inner⟩ := Expression.follows_read lexed.2.2 found
      exact ⟨.identifier name :: .symbol .assign :: taken,
        congrArg (Token.identifier name :: Token.symbol .assign :: ·) same,
        fun _ ends => readBare_assign name (inner.reads_of_halts ends.1)⟩
    case h_2 => exact replays_readExpression? lexed (Except.ok.inj h)
  case h_5 => exact replays_readExpression? lexed (Except.ok.inj h)
termination_by (tokens.length, 0)
decreasing_by all_goals decreasing_with (subst_vars; simp only [List.length_cons]; omega)

/-- **A block is read again**, whatever follows. -/
theorem replays_readBlock {tokens : List Token}
    {front : Front Token (List Statement) tokens.length} (lexed : Lexed tokens)
    (h : readBlock tokens = .ok front) :
    front.Follows (fun taken block => ∀ rest, Reads (readBlock (taken ++ rest)) block rest)
      tokens := by
  unfold readBlock at h
  split at h
  case h_1 rest =>
    split at h
    case h_1 => cases h
    case h_2 front found =>
      have inside := replays_readAll (lexed_cons.1 lexed).2 found
      split at h <;> cases h
      case h_1 skipped =>
        obtain ⟨_, same, taken, rfl, inner⟩ := inside.skip skipped
        refine ⟨.symbol .openBrace :: (taken ++ [.symbol .closeBrace]), congrArg _ same, ?_⟩
        intro last
        rw [List.cons_append, List.append_assoc]
        exact readBlock_of_readAll ((inner _ (closes_closeBrace last)).2 _ _)
  case h_2 => cases h
termination_by (tokens.length, 0)

/-- **Statements are read again** where no statement follows, and those that ended before them end
before them again. -/
theorem replays_readAll {bound : ℕ} {tokens : List Token} {within : tokens.length < bound}
    {front : Front Token (List Statement) bound} (lexed : Lexed tokens)
    (h : readAll tokens within = .ok front) :
    front.Follows (fun taken statements => ∀ rest, Closes rest → KeepsEnds tokens (taken ++ rest) ∧
      ReadsAll (taken ++ rest) statements rest) tokens := by
  unfold readAll at h
  split at h
  case h_1 => cases h
  case h_2 =>
    cases h
    exact ⟨[], rfl, fun rest closes => ⟨closes.keepsEnds _, readsAll_nil closes⟩⟩
  case h_3 bare found =>
    have first := follows_first lexed found (replays_readBare lexed found)
    split at h
    case h_1 statement rest shorter same =>
      rw [same] at first
      have behind := first.lexed lexed
      obtain ⟨taken, split, again⟩ := first
      split at h <;> cases h
      case h_2 more read =>
        obtain ⟨others, splitMore, inner⟩ := replays_readAll behind read
        refine ⟨taken ++ others, ?_, ?_⟩
        · rw [split, List.append_assoc]
          exact congrArg _ splitMore
        · intro last closes
          rw [List.append_assoc]
          obtain ⟨keeps, reads⟩ := inner last closes
          exact again _ _ _ keeps reads
termination_by (tokens.length, 1)

end

end Statement

end Covenant
