/-
**What stands before a mistake can be completed.**

A reader that fails gives the tokens from its mistake on.  It has made no use of them, except to
see that it cannot go on, and so other tokens can stand in their place: an operand where one is
missing, a bracket where one is not closed, and then whatever else the rule asks for.  Where the
reader had come through some tokens before, it comes through them again, since statements that were
read are read again.

Two mistakes lie inside of a token.  An equals sign that is the first of two is an equals sign, and
a name that begins like the keyword of a contract begins with that keyword.

Main definitions:

* `Covenant.Misread.Begins` — the token that the characters before such a mistake are;
* `Covenant.Misread.Viable` — the tokens before a mistake can be completed to accepted ones.

Main results:

* `Expression.viable_readUnary`, `Statement.viable_readAll`, `FunctionDecl.viable_readAll` — where a
  reader fails, the tokens before the mistake can be completed to some that it reads;
* `Contract.viable_read` — **before a mistake, tokens can be completed to those of a contract**.
-/

import Covenant.Proofs.Contract.Replay

set_option relaxedAutoImplicit false
set_option autoImplicit false

namespace Covenant

/-! ### Mistakes -/

theorem lexed_nil : Lexed [] := by
  simp [Lexed]

/-- Every symbol can be written. -/
theorem Lexed.symbol {tokens : List Token} (symbol : Symbol) (lexed : Lexed tokens) :
    Lexed (.symbol symbol :: tokens) :=
  lexed_cons.2 ⟨trivial, lexed⟩

namespace Misread

/-- The characters of a token that stand before the mistake in it are these tokens. -/
inductive Begins : Misread → List Token → Prop where
  | outside (rest : List Token) : Begins ⟨rest, 0⟩ []
  | assign (rest : List Token) : Begins ⟨.symbol .equal :: rest, 1⟩ [.symbol .assign]
  | contract {name : String} (word : Keyword.contract.spelling.toList <+: name.toList)
      (rest : List Token) : Begins ⟨.identifier name :: rest,
        Keyword.contract.spelling.toList.length⟩ [.keyword .contract]

/-- The tokens before the mistake can be completed to accepted ones. -/
def Viable (accepts : List Token → Prop) (tokens : List Token) (mistake : Misread) : Prop :=
  ∃ before begun more, tokens = before ++ mistake.rest ∧ mistake.Begins begun ∧ Lexed more ∧
    accepts (before ++ (begun ++ more))

variable {accepts inner : List Token → Prop} {tokens before rest more front behind : List Token}
  {mistake : Misread}

theorem Viable.of_before (same : tokens = before ++ rest) (lexed : Lexed more)
    (accepted : accepts (before ++ more)) : Viable accepts tokens ⟨rest, 0⟩ :=
  ⟨before, [], more, same, .outside rest, lexed, accepted⟩

theorem Viable.here (rest : List Token) (lexed : Lexed more) (accepted : accepts more) :
    Viable accepts rest ⟨rest, 0⟩ :=
  .of_before (List.nil_append rest).symm lexed accepted

/-- What can be completed can be completed with something on both sides of it. -/
theorem Viable.extend (viable : Viable inner tokens mistake) (front : List Token)
    (lexed : Lexed behind)
    (completes : ∀ completed, inner completed → accepts (front ++ (completed ++ behind))) :
    Viable accepts (front ++ tokens) mistake := by
  obtain ⟨before, begun, more, rfl, begins, valid, accepted⟩ := viable
  refine ⟨front ++ before, begun, more ++ behind, (List.append_assoc _ _ _).symm, begins,
    lexed_append.2 ⟨valid, lexed⟩, ?_⟩
  have whole := completes _ accepted
  simp only [List.append_assoc] at whole ⊢
  exact whole

/-- What can be completed can be completed behind something. -/
theorem Viable.prepend (viable : Viable inner tokens mistake) (front : List Token)
    (completes : ∀ completed, inner completed → accepts (front ++ completed)) :
    Viable accepts (front ++ tokens) mistake := by
  refine viable.extend front lexed_nil ?_
  intro completed accepted
  rw [List.append_nil]
  exact completes completed accepted

end Misread

open Misread (Viable)

/-! ### Expressions -/

namespace Expression

/-- An operand for where one is missing. -/
theorem derives_zero : (integer 0).Derives .primary [.integer 0] :=
  .integer rfl

theorem lexed_zero : Lexed [.integer 0] :=
  lexed_cons.2 ⟨(by decide : 0 < Text.Decimal.minMagnitude), lexed_nil⟩

/-- Anywhere, an operand can begin. -/
theorem viable_operand (rest : List Token) :
    Viable (fun completed => ∃ value : Expression, value.Derives .primary completed) rest
      ⟨rest, 0⟩ :=
  .here rest lexed_zero ⟨_, derives_zero⟩

/-- **Where no operand is read, the tokens before the mistake can be completed to one.** -/
theorem viable_readUnary {tokens mistake : List Token} (lexed : Lexed tokens)
    (fails : readUnary tokens = .error mistake) :
    Viable (fun completed => ∃ value : Expression, value.Derives .primary completed) tokens
      ⟨mistake, 0⟩ := by
  unfold readUnary at fails
  split at fails
  case h_2 =>
    split at fails <;> cases fails
    exact viable_operand _
  case h_3 =>
    split at fails
    case isTrue =>
      cases fails
      exact viable_operand _
    case isFalse =>
      split at fails <;> cases fails
      exact viable_operand _
  case h_4 rest =>
    have closing : Lexed [.symbol .closeParen] := lexed_nil.symbol .closeParen
    split at fails
    case h_1 inner found =>
      cases fails
      have inside := viable_readUnary (lexed_cons.1 lexed).2 (readUnary_error found)
      refine inside.extend [.symbol .openParen] closing ?_
      rintro completed ⟨value, derives⟩
      exact ⟨value, .parentheses (derives.loosen (by decide))⟩
    case h_2 front found =>
      split at fails <;> cases fails
      obtain ⟨taken, same, derives⟩ := follows_readRank (Nat.le_refl _) (lexed_cons.1 lexed).2 found
      have before : .symbol .openParen :: rest = .symbol .openParen :: taken ++ front.rest :=
        congrArg _ same
      exact Viable.of_before before closing ⟨_, .parentheses derives⟩
  case h_10 =>
    cases fails
    exact viable_operand _
  all_goals cases fails
termination_by tokens.length

/-- Where no expression is read, the tokens before the mistake can be completed to one. -/
theorem viable_read {tokens mistake : List Token} (lexed : Lexed tokens)
    (fails : read tokens = .error mistake) :
    Viable (fun completed => ∃ value : Expression, value.Derives .expression completed) tokens
      ⟨mistake, 0⟩ := by
  have operand := viable_readUnary lexed (readUnary_error fails)
  refine operand.prepend [] ?_
  rintro completed ⟨value, derives⟩
  exact ⟨value, derives.loosen (by decide)⟩

end Expression

/-! ### Statements -/

namespace Statement

variable {tokens : List Token} {mistake : Misread}

/-- What may stand behind the type of a declaration: a name, an equals sign and a value. -/
theorem viable_readBinding (lexed : Lexed tokens) (fails : readBinding tokens = .error mistake) :
    Viable (fun completed => ∃ (name : String) (value : Expression) (inner : List Token),
      completed = .identifier name :: .symbol .assign :: inner ∧ value.Derives .expression inner)
      tokens mistake := by
  have zero : (Expression.integer 0).Derives .expression [.integer 0] :=
    Expression.derives_zero.loosen (by decide)
  have assigned : Lexed [.symbol .assign, .integer 0] := Expression.lexed_zero.symbol .assign
  unfold readBinding at fails
  split at fails
  case h_1 name rest =>
    split at fails <;> cases fails
    case h_2 found =>
      simp only [lexed_cons] at lexed
      refine (Expression.viable_read lexed.2.2 found).prepend
        [.identifier name, .symbol .assign] ?_
      rintro completed ⟨value, derives⟩
      exact ⟨name, value, completed, rfl, derives⟩
  case h_2 name rest =>
    -- the first of the two equals signs can be that of the binding
    cases fails
    exact ⟨[.identifier name], [.symbol .assign], [.integer 0], rfl, .assign rest,
      Expression.lexed_zero, name, _, _, rfl, zero⟩
  case h_3 name rest _ _ =>
    cases fails
    have before : .identifier name :: rest = [.identifier name] ++ rest := rfl
    exact .of_before before assigned ⟨name, _, _, rfl, zero⟩
  case h_4 =>
    cases fails
    have named : Lexed [.identifier "a", .symbol .assign, .integer 0] :=
      lexed_cons.2 ⟨(by decide : IsName "a"), assigned⟩
    exact .here _ named ⟨"a", _, _, rfl, zero⟩

/-- A block of nothing. -/
theorem reads_emptyBlock (rest : List Token) :
    Reads (readBlock (.symbol .openBrace :: .symbol .closeBrace :: rest)) [] rest :=
  readBlock_of_readAll (readsAll_nil (closes_closeBrace rest) _ _)

theorem lexed_emptyBlock : Lexed [.symbol .openBrace, .symbol .closeBrace] :=
  (lexed_nil.symbol .closeBrace).symbol .openBrace

mutual

/-- **Where a statement is not complete, the tokens before the mistake can be completed to one.**
It begins with the same keyword, so that the same statements end before it. -/
theorem viable_readBare {tokens : List Token} {mistake : Misread} (lexed : Lexed tokens)
    (fails : readBare tokens = .error mistake) :
    Viable (fun completed => ∃ statement, ∀ rest, Closes rest →
      KeepsEnds tokens (completed ++ rest) ∧ ReadsBare (completed ++ rest) statement rest)
      tokens mistake := by
  unfold readBare at fails
  split at fails
  case h_1 => split at fails <;> cases fails
  case h_2 rest =>
    have alone : ∀ {rest : List Token}, Closes rest → rest.head? ≠ some (.keyword .else) :=
      fun closes => (closes.endsBefore (ifThen (.integer 0) [])).1
    split at fails
    case h_1 found =>
      cases fails
      refine (Expression.viable_read (lexed_cons.1 lexed).2 found).extend [.keyword .if]
        lexed_emptyBlock ?_
      rintro completed ⟨condition, derives⟩
      refine ⟨ifThen condition [], ?_⟩
      intro last closes
      refine ⟨keepsEnds_keyword _ _ _, ?_⟩
      have block := reads_emptyBlock last
      have test := reads_test derives block
      rw [List.cons_append, List.nil_append, List.cons_append, List.append_assoc]
      exact readsBare_ifThen test block (alone closes)
    case h_2 condition behind shorter found =>
      have first := Expression.follows_read (lexed_cons.1 lexed).2 found
      have within := first.lexed (lexed_cons.1 lexed).2
      obtain ⟨test, same, derives⟩ := first
      split at fails
      case h_1 inner found =>
        cases fails
        have whole : .keyword .if :: rest = .keyword .if :: test ++ behind := congrArg _ same
        rw [whole]
        refine (viable_readBlock within found).prepend (.keyword .if :: test) ?_
        rintro completed ⟨block, holds⟩
        refine ⟨ifThen condition block, ?_⟩
        intro last closes
        refine ⟨keepsEnds_keyword _ _ _, ?_⟩
        rw [List.cons_append, List.cons_append, List.append_assoc]
        exact readsBare_ifThen (reads_test derives (holds last)) (holds last) (alone closes)
      case h_2 front read =>
        have block := replays_readBlock within read
        split at fails
        case h_1 => cases fails
        case h_2 consequence other _ skipped =>
          have closed := block.skip skipped
          have outside := closed.lexed within
          split at fails <;> cases fails
          case h_1 inner found =>
            obtain ⟨_, split, braced, rfl, holds⟩ := closed
            have whole : .keyword .if :: rest =
                .keyword .if :: (test ++ (braced ++ [.keyword .else])) ++ other := by
              have behindTest : behind = braced ++ [.keyword .else] ++ other := split
              have behindIf : rest = test ++ behind := same
              rw [behindIf, behindTest]
              simp
            rw [whole]
            refine (viable_readBlock outside found).prepend _ ?_
            rintro completed ⟨alternative, fails⟩
            refine ⟨ifElse condition consequence alternative, ?_⟩
            intro last closes
            refine ⟨keepsEnds_keyword _ _ _, ?_⟩
            have block := holds (.keyword .else :: (completed ++ last))
            have split : .keyword .if :: (test ++ (braced ++ [.keyword .else])) ++ completed ++
                last = .keyword .if ::
                  (test ++ (braced ++ .keyword .else :: (completed ++ last))) := by
              simp
            rw [split]
            exact readsBare_ifElse (reads_test derives block) block (fails last)
  case h_3 k rest _ _ =>
    split at fails
    case h_1 type named =>
      split at fails <;> cases fails
      case h_1 found =>
        obtain rfl := Keyword.eq_keyword_of_dataType? named
        refine (viable_readBinding (lexed_cons.1 lexed).2 found).prepend
          [.keyword type.keyword] ?_
        rintro _ ⟨name, value, inner, rfl, derives⟩
        refine ⟨declare type name value, ?_⟩
        intro last closes
        refine ⟨keepsEnds_keyword _ _ _, ?_⟩
        exact readBare_declare type name
          (derives.reads_of_halts (closes.endsBefore (declare type name value)).1)
    case h_2 => cases fails
  case h_4 => split at fails <;> cases fails
  case h_5 => cases fails
termination_by (tokens.length, 0)
decreasing_by all_goals decreasing_with (subst_vars; simp only [List.length_cons]; omega)

/-- **Where a block is not complete, the tokens before the mistake can be completed to one.** -/
theorem viable_readBlock {tokens : List Token} {mistake : Misread} (lexed : Lexed tokens)
    (fails : readBlock tokens = .error mistake) :
    Viable (fun completed => ∃ block, ∀ rest, Reads (readBlock (completed ++ rest)) block rest)
      tokens mistake := by
  have closing : Lexed [.symbol .closeBrace] := lexed_nil.symbol .closeBrace
  unfold readBlock at fails
  split at fails
  case h_1 rest =>
    split at fails
    case h_1 found =>
      cases fails
      refine (viable_readAll (lexed_cons.1 lexed).2 found).extend [.symbol .openBrace] closing ?_
      rintro completed ⟨block, reads⟩
      refine ⟨block, ?_⟩
      intro last
      rw [List.cons_append, List.nil_append, List.cons_append, List.append_assoc]
      exact readBlock_of_readAll ((reads _ (closes_closeBrace last)).2 _ _)
    case h_2 front found =>
      obtain ⟨taken, same, reads⟩ := replays_readAll (lexed_cons.1 lexed).2 found
      split at fails <;> cases fails
      have before : .symbol .openBrace :: rest = .symbol .openBrace :: taken ++ front.rest :=
        congrArg _ same
      refine .of_before before closing ⟨front.value, ?_⟩
      intro last
      rw [List.append_assoc]
      exact readBlock_of_readAll ((reads _ (closes_closeBrace last)).2 _ _)
  case h_2 =>
    cases fails
    exact .here _ lexed_emptyBlock ⟨[], reads_emptyBlock⟩
termination_by (tokens.length, 0)

/-- **Where statements are not read, the tokens before the mistake can be completed to some.** -/
theorem viable_readAll {bound : ℕ} {tokens : List Token} {within : tokens.length < bound}
    {mistake : Misread} (lexed : Lexed tokens) (fails : readAll tokens within = .error mistake) :
    Viable (fun completed => ∃ statements, ∀ rest, Closes rest →
      KeepsEnds tokens (completed ++ rest) ∧ ReadsAll (completed ++ rest) statements rest)
      tokens mistake := by
  unfold readAll at fails
  split at fails
  case h_1 found =>
    cases fails
    refine (viable_readBare lexed found).prepend [] ?_
    rintro completed ⟨statement, reads⟩
    refine ⟨[statement], ?_⟩
    intro rest closes
    obtain ⟨keeps, first⟩ := reads rest closes
    exact ⟨keeps, (readsAll_nil closes).cons first ((closes.keepsEnds []).bare (by simp))⟩
  case h_2 => cases fails
  case h_3 bare found =>
    have first := follows_first lexed found (replays_readBare lexed found)
    split at fails
    case h_1 statement rest shorter same =>
      rw [same] at first
      have behind := first.lexed lexed
      obtain ⟨taken, split, again⟩ := first
      split at fails <;> cases fails
      case h_1 found =>
        have others := viable_readAll behind found
        rw [split]
        refine others.prepend taken ?_
        rintro completed ⟨statements, reads⟩
        refine ⟨statement :: statements, ?_⟩
        intro last closes
        obtain ⟨keeps, more⟩ := reads last closes
        rw [List.append_assoc, ← split]
        exact again _ _ _ keeps more
termination_by (tokens.length, 1)

end

end Statement

/-! ### Declarations -/

namespace FunctionDecl

open Statement (Closes)

variable {source rest behind : List Token} {function : FunctionDecl}
  {functions : List FunctionDecl} {body : List Statement}

/-- No function begins where nothing follows or a brace is closed. -/
theorem readsAll_nil (closes : Closes rest) : ReadsAll rest [] rest := by
  intro bound within
  have none : read rest = .ok none := by
    cases rest with
    | nil => rfl
    | cons token rest =>
        obtain rfl := closes token rfl
        rfl
  rw [readAll, none]
  exact ⟨within, rfl⟩

/-- Behind its keyword, a function has a signature and a block.  If it is not read, either the
tokens before the mistake can be completed to a signature, or the mistake is that of the block. -/
theorem readDeclaration_cases {tokens : List Token}
    {outcome : Except Misread (Front Token FunctionDecl tokens.length)}
    (h : readDeclaration tokens = outcome) :
    (∃ mistake, outcome = .error mistake ∧ Viable (fun completed => ∃ name parameters returns,
        completed = signature name parameters returns) tokens mistake) ∨
      ∃ name parameters returns behind, tokens = signature name parameters returns ++ behind ∧
        ((∃ mistake, Statement.readBlock behind = .error mistake ∧ outcome = .error mistake) ∨
          ∃ block within, Statement.readBlock behind = .ok block ∧
            outcome = .ok ⟨⟨name, parameters, returns, block.value⟩, block.rest, within⟩) := by
  have listing : Lexed [.symbol .openParen, .symbol .closeParen] :=
    (lexed_nil.symbol .closeParen).symbol .openParen
  unfold readDeclaration at h
  split at h
  case h_1 name rest =>
    have listed := Parameter.follows_readAll (length_lt_succ rest)
    simp only at h
    split at h
    case h_1 =>
      obtain ⟨_, same, rfl⟩ := listed
      have before : .identifier name :: .symbol .openParen :: rest =
          .identifier name :: .symbol .openParen :: Parameter.tokensAll _ ++ _ :=
        congrArg (Token.identifier name :: Token.symbol .openParen :: ·) same
      exact .inl ⟨_, h.symm, .of_before before (lexed_cons.1 listing).2
        ⟨name, _, none, rfl⟩⟩
    case h_2 parameters behind shorter skipped =>
      have closed := listed.skip skipped
      have result := follows_readReturns shorter
      obtain ⟨_, first, _, rfl, rfl⟩ := closed
      obtain ⟨_, second, rfl⟩ := result
      refine .inr ⟨name, parameters, (readReturns behind shorter).value,
        (readReturns behind shorter).rest, ?_, ?_⟩
      · calc
          _ = .identifier name :: .symbol .openParen :: (Parameter.tokensAll parameters ++
              [.symbol .closeParen] ++ (returnTokens (readReturns behind shorter).value ++
                (readReturns behind shorter).rest)) :=
            congrArg (Token.identifier name :: Token.symbol .openParen :: ·)
              (first.trans (congrArg _ second))
          _ = _ := by simp [signature]
      · split at h
        case h_1 mistake found => exact .inl ⟨mistake, found, h.symm⟩
        case h_2 body last less found => exact .inr ⟨⟨body, last, less⟩, _, found, h.symm⟩
  case h_2 name rest _ =>
    have before : .identifier name :: rest = [.identifier name] ++ rest := rfl
    exact .inl ⟨_, h.symm, .of_before before listing ⟨name, [], none, rfl⟩⟩
  case h_3 =>
    have named : Lexed [.identifier "f", .symbol .openParen, .symbol .closeParen] :=
      lexed_cons.2 ⟨(by decide : IsName "f"), listing⟩
    exact .inl ⟨_, h.symm, .here _ named ⟨"f", [], none, rfl⟩⟩

variable {tokens : List Token} {mistake : Misread}

/-- A function is read again behind its keyword, whatever follows. -/
theorem replays_readDeclaration {front : Front Token FunctionDecl tokens.length}
    (lexed : Lexed tokens) (h : readDeclaration tokens = .ok front) :
    front.Follows (fun taken function => ∀ rest,
      Reads (readDeclaration (taken ++ rest)) function rest) tokens := by
  rcases readDeclaration_cases h with ⟨_, same, -⟩ | ⟨name, parameters, returns, behind, rfl, cases⟩
  · cases same
  · rcases cases with ⟨_, -, same⟩ | ⟨block, within, found, same⟩ <;> cases same
    obtain ⟨taken, split, reads⟩ := Statement.replays_readBlock (lexed_append.1 lexed).2 found
    refine ⟨signature name parameters returns ++ taken, ?_, ?_⟩
    · rw [List.append_assoc]
      exact congrArg _ split
    · intro rest
      rw [List.append_assoc]
      exact readDeclaration_of_readBlock name parameters returns (reads rest)

/-- Behind the keyword of a function, the tokens before a mistake can be completed to a function. -/
theorem viable_readDeclaration (lexed : Lexed tokens)
    (fails : readDeclaration tokens = .error mistake) :
    Viable (fun completed => ∃ function, ∀ rest,
      Reads (readDeclaration (completed ++ rest)) function rest) tokens mistake := by
  rcases readDeclaration_cases fails with
    ⟨_, same, viable⟩ | ⟨name, parameters, returns, behind, rfl, cases⟩
  · cases same
    refine viable.extend [] Statement.lexed_emptyBlock ?_
    rintro _ ⟨name, parameters, returns, rfl⟩
    refine ⟨⟨name, parameters, returns, []⟩, ?_⟩
    intro rest
    rw [List.nil_append, List.append_assoc]
    exact readDeclaration_of_readBlock name parameters returns (Statement.reads_emptyBlock rest)
  · rcases cases with ⟨_, found, same⟩ | ⟨_, _, -, same⟩ <;> cases same
    refine (Statement.viable_readBlock (lexed_append.1 lexed).2 found).prepend
      (signature name parameters returns) ?_
    rintro completed ⟨body, reads⟩
    refine ⟨⟨name, parameters, returns, body⟩, ?_⟩
    intro rest
    rw [List.append_assoc]
    exact readDeclaration_of_readBlock name parameters returns (reads rest)

/-- A function is read if its keyword stands in front and a declaration behind that. -/
theorem replays_read {front : Front Token FunctionDecl tokens.length} (lexed : Lexed tokens)
    (h : read tokens = .ok (some front)) :
    front.Follows (fun taken function => ∃ declared, taken = .keyword .func :: declared ∧
      ∀ rest, Reads (readDeclaration (declared ++ rest)) function rest) tokens := by
  unfold read at h
  split at h
  case h_1 rest =>
    split at h <;> cases h
    case h_2 declaration found =>
      obtain ⟨taken, same, reads⟩ := replays_readDeclaration (lexed_cons.1 lexed).2 found
      exact ⟨_, congrArg _ same, taken, rfl, reads⟩
  case h_2 => cases h

/-- Functions are read again where nothing follows or a brace is closed. -/
theorem replays_readAll {bound : ℕ} {within : tokens.length < bound}
    {front : Front Token (List FunctionDecl) bound} (lexed : Lexed tokens)
    (h : readAll tokens within = .ok front) :
    front.Follows (fun taken functions => ∀ rest, Closes rest →
      ReadsAll (taken ++ rest) functions rest) tokens := by
  fun_induction readAll tokens within generalizing front with
  | case1 => cases h
  | case2 =>
      cases h
      exact ⟨[], rfl, fun rest closes => readsAll_nil closes⟩
  | case3 => cases h
  | case4 tokens _ function rest shorter found more read ih =>
      cases h
      have first := replays_read lexed found
      obtain ⟨others, splitMore, inner⟩ := ih (first.lexed lexed) read
      obtain ⟨_, split, declared, rfl, reads⟩ := first
      refine ⟨.keyword .func :: declared ++ others, ?_, ?_⟩
      · rw [split, List.append_assoc]
        exact congrArg _ splitMore
      · intro last closes
        rw [List.append_assoc]
        exact (inner last closes).cons (reads _)

/-- **Where functions are not read, the tokens before the mistake can be completed to some.** -/
theorem viable_readAll {bound : ℕ} {within : tokens.length < bound} (lexed : Lexed tokens)
    (fails : readAll tokens within = .error mistake) :
    Viable (fun completed => ∃ functions, ∀ rest, Closes rest →
      ReadsAll (completed ++ rest) functions rest) tokens mistake := by
  fun_induction readAll tokens within with
  | case1 tokens _ inner found =>
      cases fails
      unfold read at found
      split at found
      case h_1 rest =>
        split at found <;> cases found
        case h_1 declared =>
          refine (viable_readDeclaration (lexed_cons.1 lexed).2 declared).prepend
            [.keyword .func] ?_
          rintro completed ⟨function, reads⟩
          refine ⟨[function], ?_⟩
          intro last closes
          exact (readsAll_nil closes).cons (reads last)
      case h_2 => cases found
  | case2 => cases fails
  | case3 tokens _ function rest shorter found inner failed ih =>
      cases fails
      have first := replays_read lexed found
      have others := ih (first.lexed lexed) failed
      obtain ⟨_, split, declared, rfl, reads⟩ := first
      rw [split]
      refine others.prepend (.keyword .func :: declared) ?_
      rintro completed ⟨functions, more⟩
      refine ⟨function :: functions, ?_⟩
      intro last closes
      rw [List.append_assoc]
      exact (more last closes).cons (reads _)
  | case4 => cases fails

end FunctionDecl

/-! ### Contracts -/

namespace Contract

open Statement (Closes closes_closeBrace)

variable {tokens : List Token} {mistake : Misread}

/-- A contract is read again, whatever follows. -/
theorem replays_read {front : Front Token Contract tokens.length} (lexed : Lexed tokens)
    (h : read tokens = .ok front) :
    front.Follows (fun taken contract => ∀ rest, Reads (read (taken ++ rest)) contract rest)
      tokens := by
  unfold read at h
  split at h
  case h_1 rest =>
    simp only [lexed_cons] at lexed
    split at h
    case h_1 => cases h
    case h_2 functions found =>
      have inside := FunctionDecl.replays_readAll lexed.2.2 found
      split at h <;> cases h
      case h_1 closed skipped =>
        obtain ⟨_, same, taken, rfl, reads⟩ := inside.skip skipped
        refine ⟨.keyword .contract :: .symbol .openBrace :: (taken ++ [.symbol .closeBrace]),
          congrArg (Token.keyword .contract :: Token.symbol .openBrace :: ·) same, ?_⟩
        intro last
        rw [List.cons_append, List.cons_append, List.append_assoc]
        exact read_of_readAll (reads _ (closes_closeBrace last))
  all_goals cases h

/-- A contract of nothing. -/
theorem reads_empty (rest : List Token) :
    Reads (read (.keyword .contract :: .symbol .openBrace :: .symbol .closeBrace :: rest)) ⟨[]⟩
      rest :=
  read_of_readAll (FunctionDecl.readsAll_nil (closes_closeBrace rest))

/-- Where no contract begins, its keyword can be completed to a contract, whether some characters of
it are there or not. -/
theorem begins_insideContract (tokens : List Token) :
    ∃ begun more, Misread.Begins ⟨tokens, Token.insideContract tokens⟩ begun ∧ Lexed more ∧
      begun ++ more = [.keyword .contract, .symbol .openBrace, .symbol .closeBrace] := by
  have whole : Lexed [.keyword .contract, .symbol .openBrace, .symbol .closeBrace] :=
    lexed_cons.2 ⟨trivial, Statement.lexed_emptyBlock⟩
  unfold Token.insideContract
  split
  case h_1 name rest =>
    simp only
    split
    case isTrue word =>
      exact ⟨_, _, .contract (List.isPrefixOf_iff_prefix.1 word) rest, Statement.lexed_emptyBlock,
        rfl⟩
    case isFalse => exact ⟨[], _, .outside _, whole, rfl⟩
  case h_2 => exact ⟨[], _, .outside _, whole, rfl⟩

/-- **Where no contract is read, the tokens before the mistake can be completed to one.** -/
theorem viable_read (lexed : Lexed tokens) (fails : read tokens = .error mistake) :
    Viable (fun completed => ∃ contract, ∀ rest, Reads (read (completed ++ rest)) contract rest)
      tokens mistake := by
  have closing : Lexed [.symbol .closeBrace] := lexed_nil.symbol .closeBrace
  unfold read at fails
  split at fails
  case h_1 rest =>
    simp only [lexed_cons] at lexed
    split at fails
    case h_1 found =>
      cases fails
      refine (FunctionDecl.viable_readAll lexed.2.2 found).extend
        [.keyword .contract, .symbol .openBrace] closing ?_
      rintro completed ⟨functions, reads⟩
      refine ⟨⟨functions⟩, ?_⟩
      intro last
      have split : [.keyword .contract, .symbol .openBrace] ++ (completed ++
          [.symbol .closeBrace]) ++ last = .keyword .contract :: .symbol .openBrace ::
            (completed ++ .symbol .closeBrace :: last) := by
        simp
      rw [split]
      exact read_of_readAll (reads _ (closes_closeBrace last))
    case h_2 functions found =>
      obtain ⟨taken, same, reads⟩ := FunctionDecl.replays_readAll lexed.2.2 found
      split at fails <;> cases fails
      have before : .keyword .contract :: .symbol .openBrace :: rest =
          .keyword .contract :: .symbol .openBrace :: taken ++ functions.rest :=
        congrArg (Token.keyword .contract :: Token.symbol .openBrace :: ·) same
      refine .of_before before closing ⟨⟨functions.value⟩, ?_⟩
      intro last
      rw [List.append_assoc]
      exact read_of_readAll (reads _ (closes_closeBrace last))
  case h_2 rest _ =>
    cases fails
    have before : .keyword .contract :: rest = [.keyword .contract] ++ rest := rfl
    exact .of_before before Statement.lexed_emptyBlock ⟨_, reads_empty⟩
  case h_3 =>
    cases fails
    obtain ⟨begun, more, begins, valid, whole⟩ := begins_insideContract tokens
    refine ⟨[], begun, more, rfl, begins, valid, ⟨[]⟩, ?_⟩
    intro rest
    rw [List.nil_append, whole]
    exact reads_empty rest

end Contract

end Covenant
