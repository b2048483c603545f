/-
**What is read from a text is derived from it.**

Each reader takes some tokens off the front of a list and leaves the rest.  What it takes is a
derivation of what it gives, so where readers call each other the tokens they take are put one
behind the other as in the rules of the grammar.  A reader that goes on behind a left operand is
given the tokens of that operand with it.

Main definitions:

* `Covenant.Front.Follows` — what was taken off some tokens is derived as what was read;
* `Covenant.Expression.Level.ofRank` — the kind of expressions that is read at a rank.

Main results:

* `Expression.follows_read`, `Statement.follows_readAll`, `FunctionDecl.follows_readAll` — each
  reader follows the grammar;
* `Contract.derives_of_ofText`, `Statement.derives_of_listOfText` — a text that is read is made of
  tokens that are derived as what is read;
* `Contract.wellFormed_of_ofText` — what is read from a text is well formed.
-/

import Covenant.Proofs.Contract.Grammar
import Covenant.Proofs.Contract.Lexing

set_option relaxedAutoImplicit false
set_option autoImplicit false

namespace Covenant

/-! ### Reading off the front -/

namespace Front

variable {α : Type} {bound : ℕ} {tokens : List Token} {derives : List Token → α → Prop}

/-- What was taken off some tokens is derived as what was read. -/
def Follows (derives : List Token → α → Prop) (tokens : List Token) (front : Front Token α bound) :
    Prop :=
  ∃ taken, tokens = taken ++ front.rest ∧ derives taken front.value

/-- What is left of tokens of a text are tokens of a text. -/
theorem Follows.lexed {front : Front Token α bound} (follows : front.Follows derives tokens)
    (lexed : Lexed tokens) : Lexed front.rest := by
  obtain ⟨taken, same, -⟩ := follows
  rw [same, lexed_append] at lexed
  exact lexed.2

/-- An item that is skipped is taken as well. -/
theorem Follows.skip {item : Token} {front closed : Front Token α bound}
    (follows : front.Follows derives tokens) (skipped : front.skip? item = some closed) :
    closed.Follows (fun taken value => ∃ inner, taken = inner ++ [item] ∧ derives inner value)
      tokens := by
  obtain ⟨taken, same, inner⟩ := follows
  obtain ⟨value, rest⟩ := eq_of_skip? skipped
  refine ⟨taken ++ [item], ?_, taken, rfl, ?_⟩
  · rw [same, rest, List.append_assoc]
    rfl
  · rw [value]
    exact inner

end Front

/-! ### Expressions -/

namespace Expression

/-- The kind of expressions whose operators outside of parentheses are of at most this rank. -/
def Level.ofRank : ℕ → Level
  | 0 => unary
  | 1 => product
  | 2 => sum
  | 3 => comparison
  | 4 => equality
  | 5 => and
  | _ => expression

theorem Level.operand?_ofRank {rank : ℕ} (low : rank < BinaryOperator.topRank) :
    (ofRank (rank + 1)).operand? = some (ofRank rank) := by
  match rank, low with
  | 0, _ | 1, _ | 2, _ | 3, _ | 4, _ | 5, _ => rfl

theorem Level.mem_operators (op : BinaryOperator) :
    (Symbol.ofBinary op, op) ∈ (ofRank op.rank).operators := by
  cases op <;> decide

/-- A token that is an operator of a rank is the symbol of one. -/
theorem mem_operators_of_operator? {rank : ℕ} {token : Token} {op : BinaryOperator}
    (found : operator? rank token = some op) :
    ∃ symbol, token = .symbol symbol ∧ (symbol, op) ∈ (Level.ofRank rank).operators := by
  cases token with
  | symbol symbol =>
      rw [operator?, Option.filter_eq_some_iff, Symbol.binary?_eq_some_iff, beq_iff_eq] at found
      obtain ⟨rfl, rfl⟩ := found
      exact ⟨_, rfl, Level.mem_operators op⟩
  | _ => cases found

mutual

theorem follows_readRank {rank : ℕ} (low : rank ≤ BinaryOperator.topRank) {tokens : List Token}
    {front : Front Token Expression tokens.length} (lexed : Lexed tokens)
    (h : readRank rank tokens = .ok front) : front.Follows (Derives (.ofRank rank)) tokens := by
  cases rank with
  | zero =>
      rw [readRank] at h
      exact follows_readUnary lexed h
  | succ rank =>
      rw [readRank] at h
      split at h
      case h_1 => cases h
      case h_2 left rest shorter found =>
        cases h
        have first := follows_readRank (Nat.le_of_lt low) lexed found
        have behind := first.lexed lexed
        obtain ⟨taken, same, derives⟩ := first
        have operand := Derives.operand (Level.operand?_ofRank low) derives
        have more := follows_readMore low operand behind shorter
        rw [← same] at more
        exact more
termination_by (tokens.length, rank + 1)

/-- Behind a left operand the tokens of that operand are taken with those that are read. -/
theorem follows_readMore {bound rank : ℕ} (low : rank < BinaryOperator.topRank) {left : Expression}
    {taken tokens : List Token} (derives : left.Derives (.ofRank (rank + 1)) taken)
    (lexed : Lexed tokens) (h : tokens.length < bound) :
    (readMore rank left tokens h).Follows (Derives (.ofRank (rank + 1))) (taken ++ tokens) := by
  match tokens, lexed, h with
  | [], _, h =>
      rw [readMore]
      exact ⟨taken, rfl, derives⟩
  | token :: rest, lexed, h =>
      rw [readMore]
      split
      case h_1 => exact ⟨taken, rfl, derives⟩
      case h_2 op found =>
        split
        case h_1 => exact ⟨taken, rfl, derives⟩
        case h_2 right last shorter read =>
          have second := follows_readRank (Nat.le_of_lt low) (lexed_cons.1 lexed).2 read
          have behind := second.lexed (lexed_cons.1 lexed).2
          obtain ⟨operand, same, inner⟩ := second
          obtain ⟨symbol, rfl, mem⟩ := mem_operators_of_operator? found
          have both := Derives.binary (Level.operand?_ofRank low) mem derives inner
          have more := follows_readMore low both behind
            (length_lt_of_shorter shorter (Nat.lt_of_succ_lt h))
          have whole : taken ++ .symbol symbol :: rest =
              taken ++ .symbol symbol :: operand ++ last := by
            rw [same, List.append_assoc]
            rfl
          rw [whole]
          exact more
termination_by (tokens.length, 0)

theorem follows_readUnary {tokens : List Token} {front : Front Token Expression tokens.length}
    (lexed : Lexed tokens) (h : readUnary tokens = .ok front) :
    front.Follows (Derives .unary) tokens := by
  unfold readUnary at h
  split at h
  case h_1 =>
    cases h
    exact ⟨_, rfl, .least⟩
  case h_2 rest _ =>
    split at h <;> cases h
    case h_1 right behind shorter found =>
      obtain ⟨taken, same, inner⟩ := follows_readUnary (lexed_cons.1 lexed).2 found
      exact ⟨_, congrArg _ same, .minus inner⟩
  case h_3 rest =>
    split at h
    case isTrue => cases h
    case isFalse =>
      split at h <;> cases h
      case h_1 right behind shorter found =>
        obtain ⟨taken, same, inner⟩ := follows_readUnary (lexed_cons.1 lexed).2 found
        exact ⟨_, congrArg _ same, .not inner⟩
  case h_4 rest =>
    split at h
    case h_1 => cases h
    case h_2 front found =>
      split at h <;> cases h
      case h_1 closed skipped =>
        have inside := follows_readRank (Nat.le_refl _) (lexed_cons.1 lexed).2 found
        obtain ⟨_, same, taken, rfl, inner⟩ := inside.skip skipped
        exact ⟨_, congrArg _ same, .operand rfl (.parentheses inner)⟩
  case h_5 value rest =>
    cases h
    have range : value < Text.Decimal.minMagnitude := (lexed_cons.1 lexed).1
    exact ⟨_, rfl, .operand rfl (.integer (Int64.toInt_ofNat_of_lt range))⟩
  case h_6 =>
    cases h
    exact ⟨_, rfl, .operand rfl .true⟩
  case h_7 =>
    cases h
    exact ⟨_, rfl, .operand rfl .false⟩
  case h_8 value rest =>
    cases h
    exact ⟨_, rfl, .operand rfl (.text value)⟩
  case h_9 name rest =>
    cases h
    exact ⟨_, rfl, .operand rfl (.identifier name)⟩
  case h_10 => cases h
termination_by (tokens.length, 0)

end

/-- What is read as an expression is derived as one. -/
theorem follows_read {tokens : List Token} {front : Front Token Expression tokens.length}
    (lexed : Lexed tokens) (h : read tokens = .ok front) :
    front.Follows (Derives .expression) tokens :=
  follows_readRank (Nat.le_refl _) lexed h

end Expression

/-! ### Statements -/

/-- A keyword that names a type is the keyword of that type. -/
theorem Keyword.eq_keyword_of_dataType? {keyword : Keyword} {type : DataType}
    (found : keyword.dataType? = some type) : keyword = type.keyword := by
  cases keyword <;> cases found <;> rfl

namespace Statement

theorem follows_readExpression? {tokens : List Token} {front : Front Token Statement tokens.length}
    (lexed : Lexed tokens) (h : readExpression? tokens = some front) :
    front.Follows Derives tokens := by
  unfold readExpression? at h
  split at h <;> cases h
  case h_1 value found =>
    obtain ⟨taken, same, inner⟩ := Expression.follows_read lexed found
    exact ⟨taken, same, .expression inner⟩

theorem follows_readBinding {tokens : List Token}
    {front : Front Token (String × Expression) tokens.length} (lexed : Lexed tokens)
    (h : readBinding tokens = .ok front) :
    front.Follows (fun taken binding => ∃ inner, taken = .identifier binding.1 ::
      .symbol .assign :: inner ∧ binding.2.Derives .expression inner) tokens := by
  unfold readBinding at h
  split at h
  case h_1 name rest =>
    split at h <;> cases h
    case h_1 value behind shorter found =>
      simp only [lexed_cons] at lexed
      obtain ⟨taken, same, inner⟩ := Expression.follows_read lexed.2.2 found
      exact ⟨_, congrArg (Token.identifier name :: Token.symbol .assign :: ·) same, taken, rfl,
        inner⟩
  all_goals cases h

/-- With its semicolon, if there is one, a statement stands before others. -/
theorem follows_skipSemicolon {bound : ℕ} {tokens : List Token}
    {front : Front Token Statement bound} (follows : front.Follows Derives tokens) :
    (skipSemicolon front).Follows (fun taken statement => ∀ rest others, DerivesAll rest others →
      DerivesAll (taken ++ rest) (statement :: others)) tokens := by
  unfold skipSemicolon
  cases skipped : front.skip? (.symbol .semicolon) with
  | none =>
      obtain ⟨taken, same, inner⟩ := follows
      exact ⟨taken, same, fun _ _ more => .cons inner more⟩
  | some closed =>
      obtain ⟨_, same, taken, rfl, inner⟩ := follows.skip skipped
      refine ⟨_, same, ?_⟩
      intro rest others more
      rw [List.append_assoc]
      exact .semicolon inner more

mutual

theorem follows_readBare {tokens : List Token} {front : Front Token Statement tokens.length}
    (lexed : Lexed tokens) (h : readBare tokens = .ok (some front)) :
    front.Follows Derives tokens := by
  unfold readBare at h
  split at h
  case h_1 rest =>
    split at h <;> cases h
    case h_1 value behind shorter found =>
      obtain ⟨taken, same, inner⟩ := Expression.follows_read (lexed_cons.1 lexed).2 found
      exact ⟨_, congrArg _ same, .return inner⟩
    case h_2 => exact ⟨_, rfl, .returnNothing⟩
  case h_2 rest =>
    split at h
    case h_1 => cases h
    case h_2 condition behind shorter found =>
      have first := Expression.follows_read (lexed_cons.1 lexed).2 found
      have within := first.lexed (lexed_cons.1 lexed).2
      obtain ⟨test, same, derives⟩ := first
      split at h
      case h_1 => cases h
      case h_2 front read =>
        have block := follows_readBlock within read
        split at h
        case h_1 =>
          cases h
          obtain ⟨braced, split, inner⟩ := block
          have whole : rest = test ++ braced ++ front.rest := by
            rw [List.append_assoc, ← split]
            exact same
          exact ⟨_, congrArg _ whole, .ifThen derives inner⟩
        case h_2 consequence other _ skipped =>
          have closed := block.skip skipped
          have outside := closed.lexed within
          split at h
          case h_1 => cases h
          case h_2 alternative last _ readOther =>
            cases h
            obtain ⟨_, split, braced, rfl, inner⟩ := closed
            obtain ⟨bracedOther, splitOther, innerOther⟩ := follows_readBlock outside readOther
            have whole : rest = test ++ (braced ++ .keyword .else :: bracedOther) ++ last := by
              have behindElse : other = bracedOther ++ last := splitOther
              have behindTest : behind = braced ++ [.keyword .else] ++ other := split
              calc
                rest = test ++ behind := same
                _ = test ++ (braced ++ [.keyword .else] ++ (bracedOther ++ last)) := by
                  rw [← behindElse, ← behindTest]
                _ = _ := by simp
            exact ⟨_, congrArg _ whole, .ifElse derives inner innerOther⟩
  case h_3 k rest _ _ =>
    split at h
    case h_1 type named =>
      split at h
      case h_1 => cases h
      case h_2 name value behind shorter found =>
        cases h
        obtain ⟨_, same, taken, rfl, inner⟩ := follows_readBinding (lexed_cons.1 lexed).2 found
        obtain rfl := Keyword.eq_keyword_of_dataType? named
        exact ⟨_, congrArg _ same, .declare type name inner⟩
    case h_2 => exact follows_readExpression? lexed (Except.ok.inj h)
  case h_4 name rest =>
    split at h
    case h_1 value behind shorter found =>
      cases h
      simp only [lexed_cons] at lexed
      obtain ⟨taken, same, inner⟩ := Expression.follows_read lexed.2.2 found
      exact ⟨_, congrArg (Token.identifier name :: Token.symbol .assign :: ·) same,
        .assign name inner⟩
    case h_2 => exact follows_readExpression? lexed (Except.ok.inj h)
  case h_5 => exact follows_readExpression? lexed (Except.ok.inj h)
termination_by (tokens.length, 0)
decreasing_by all_goals decreasing_with (subst_vars; simp only [List.length_cons]; omega)

theorem follows_readBlock {tokens : List Token}
    {front : Front Token (List Statement) tokens.length} (lexed : Lexed tokens)
    (h : readBlock tokens = .ok front) : front.Follows DerivesBlock tokens := by
  unfold readBlock at h
  split at h
  case h_1 rest =>
    split at h
    case h_1 => cases h
    case h_2 front found =>
      have inside := follows_readAll (lexed_cons.1 lexed).2 found
      split at h <;> cases h
      case h_1 skipped =>
        obtain ⟨_, same, taken, rfl, inner⟩ := inside.skip skipped
        exact ⟨_, congrArg _ same, .braces inner⟩
  case h_2 => cases h
termination_by (tokens.length, 0)

/-- What is read as statements is derived as these. -/
theorem follows_readAll {bound : ℕ} {tokens : List Token} {within : tokens.length < bound}
    {front : Front Token (List Statement) bound} (lexed : Lexed tokens)
    (h : readAll tokens within = .ok front) : front.Follows DerivesAll tokens := by
  unfold readAll at h
  split at h
  case h_1 => cases h
  case h_2 =>
    cases h
    exact ⟨[], rfl, .nil⟩
  case h_3 bare found =>
    have first := follows_skipSemicolon (follows_readBare lexed found)
    split at h
    case h_1 statement rest shorter same =>
      rw [same] at first
      have behind := first.lexed lexed
      obtain ⟨taken, split, derives⟩ := first
      split at h <;> cases h
      case h_2 more read =>
        obtain ⟨others, splitMore, inner⟩ := follows_readAll behind read
        refine ⟨taken ++ others, ?_, derives _ _ inner⟩
        rw [split, List.append_assoc]
        exact congrArg _ splitMore
termination_by (tokens.length, 1)

end

end Statement

/-! ### Declarations -/

namespace Parameter

theorem follows_read? {tokens : List Token} {front : Front Token Parameter tokens.length}
    (h : read? tokens = some front) :
    front.Follows (fun taken parameter => taken = parameter.tokens) tokens := by
  unfold read? at h
  split at h
  case h_1 name k rest =>
    obtain ⟨type, named, rfl⟩ := Option.map_eq_some_iff.1 h
    obtain rfl := Keyword.eq_keyword_of_dataType? named
    exact ⟨_, rfl, rfl⟩
  case h_2 => cases h

theorem follows_cons {bound : ℕ} {tokens behind : List Token} {parameter : Parameter}
    {front : Front Token (List Parameter) bound} (first : tokens = parameter.tokens ++ behind)
    (others : front.Follows (fun taken parameters => taken = tokensMore parameters) behind) :
    (front.map (parameter :: ·)).Follows (fun taken parameters => taken = tokensAll parameters)
      tokens := by
  obtain ⟨_, same, rfl⟩ := others
  refine ⟨_, ?_, rfl⟩
  rw [first, same, Front.value_map, Front.rest_map, tokensAll, List.append_assoc]

theorem follows_readMore {bound : ℕ} {tokens : List Token} (within : tokens.length < bound) :
    (readMore tokens within).Follows (fun taken parameters => taken = tokensMore parameters)
      tokens := by
  fun_induction readMore tokens within with
  | case1 rest _ parameter behind shorter found _ ih =>
      obtain ⟨_, first, rfl⟩ := follows_read? found
      obtain ⟨_, same, rfl⟩ := follows_cons first ih
      exact ⟨_, congrArg _ same, rfl⟩
  | case2 => exact ⟨_, rfl, rfl⟩
  | case3 => exact ⟨_, rfl, rfl⟩

/-- What is read as parameters has their tokens. -/
theorem follows_readAll {bound : ℕ} {tokens : List Token} (within : tokens.length < bound) :
    (readAll tokens within).Follows (fun taken parameters => taken = tokensAll parameters)
      tokens := by
  unfold readAll
  split
  case h_1 parameter rest shorter found =>
    obtain ⟨_, first, rfl⟩ := follows_read? found
    exact follows_cons first (follows_readMore _)
  case h_2 => exact ⟨_, rfl, rfl⟩

end Parameter

namespace FunctionDecl

theorem follows_readReturns {bound : ℕ} {tokens : List Token} (within : tokens.length < bound) :
    (readReturns tokens within).Follows (fun taken returns => taken = returnTokens returns)
      tokens := by
  unfold readReturns
  split
  case h_1 k rest _ =>
    split
    case h_1 type named =>
      obtain rfl := Keyword.eq_keyword_of_dataType? named
      exact ⟨_, rfl, rfl⟩
    case h_2 => exact ⟨_, rfl, rfl⟩
  case h_2 => exact ⟨_, rfl, rfl⟩

theorem follows_readDeclaration {tokens : List Token}
    {front : Front Token FunctionDecl tokens.length} (lexed : Lexed tokens)
    (h : readDeclaration tokens = .ok front) :
    front.Follows (fun taken function => function.Derives (.keyword .func :: taken)) tokens := by
  unfold readDeclaration at h
  split at h
  case h_1 name rest =>
    simp only [lexed_cons] at lexed
    have listed := Parameter.follows_readAll (length_lt_succ rest)
    simp only at h
    split at h
    case h_1 => cases h
    case h_2 parameters behind shorter skipped =>
      have closed := listed.skip skipped
      have result := follows_readReturns shorter
      have inside := result.lexed (closed.lexed lexed.2.2)
      obtain ⟨_, first, _, rfl, rfl⟩ := closed
      obtain ⟨_, second, rfl⟩ := result
      split at h <;> cases h
      case h_2 body last _ found =>
        obtain ⟨braced, third, inner⟩ := Statement.follows_readBlock inside found
        have whole : rest = Parameter.tokensAll parameters ++ .symbol .closeParen ::
            (returnTokens (readReturns behind shorter).value ++ braced) ++ last := by
          calc
            rest = Parameter.tokensAll parameters ++ [.symbol .closeParen] ++ behind := first
            _ = Parameter.tokensAll parameters ++ [.symbol .closeParen] ++
                (returnTokens (readReturns behind shorter).value ++ (braced ++ last)) :=
              congrArg _ (second.trans (congrArg _ third))
            _ = _ := by simp
        exact ⟨_, congrArg (Token.identifier name :: Token.symbol .openParen :: ·) whole,
          .function name parameters _ inner⟩
  all_goals cases h

theorem follows_read {tokens : List Token} {front : Front Token FunctionDecl tokens.length}
    (lexed : Lexed tokens) (h : read tokens = .ok (some front)) :
    front.Follows Derives tokens := by
  unfold read at h
  split at h
  case h_1 rest =>
    split at h <;> cases h
    case h_2 declaration found =>
      obtain ⟨taken, same, inner⟩ := follows_readDeclaration (lexed_cons.1 lexed).2 found
      exact ⟨_, congrArg _ same, inner⟩
  case h_2 => cases h

/-- What is read as functions is derived as these. -/
theorem follows_readAll {bound : ℕ} {tokens : List Token} {within : tokens.length < bound}
    {front : Front Token (List FunctionDecl) bound} (lexed : Lexed tokens)
    (h : readAll tokens within = .ok front) : front.Follows DerivesAll tokens := by
  fun_induction readAll tokens within generalizing front with
  | case1 => cases h
  | case2 =>
      cases h
      exact ⟨[], rfl, .nil⟩
  | case3 => cases h
  | case4 tokens _ function rest shorter found more read ih =>
      cases h
      have first := follows_read lexed found
      obtain ⟨others, splitMore, inner⟩ := ih (first.lexed lexed) read
      obtain ⟨taken, split, derives⟩ := first
      refine ⟨taken ++ others, ?_, .cons derives inner⟩
      rw [split, List.append_assoc]
      exact congrArg _ splitMore

end FunctionDecl

/-! ### Whole texts -/

namespace Contract

theorem follows_read {tokens : List Token} {front : Front Token Contract tokens.length}
    (lexed : Lexed tokens) (h : read tokens = .ok front) : front.Follows Derives tokens := by
  unfold read at h
  split at h
  case h_1 rest =>
    simp only [lexed_cons] at lexed
    split at h
    case h_1 => cases h
    case h_2 functions found =>
      have inside := FunctionDecl.follows_readAll lexed.2.2 found
      split at h <;> cases h
      case h_1 closed skipped =>
        obtain ⟨_, same, taken, rfl, inner⟩ := inside.skip skipped
        exact ⟨_, congrArg (Token.keyword .contract :: Token.symbol .openBrace :: ·) same,
          .contract inner⟩
  all_goals cases h

end Contract

/-- If nothing is left of a text behind what a reader takes off its tokens, the text is made of
tokens that are derived as what is read. -/
theorem Token.Scan.layout_of_complete {α : Type} {bound : ℕ} {derives : List Token → α → Prop}
    {source : List Char} {front : Front Token α bound} {value : α}
    (complete : (Token.scan source).complete source front = .ok value)
    (follows : Lexed (Token.scan source).list →
      front.Follows derives (Token.scan source).list) :
    ∃ tokens, Token.Layout source tokens ∧ derives tokens value := by
  unfold Token.Scan.complete at complete
  split at complete <;> cases complete
  case isTrue nothing =>
    have layout := Token.layout_scan nothing.2
    obtain ⟨taken, same, inner⟩ := follows layout.wellFormed
    rw [nothing.1, List.append_nil] at same
    rw [same] at layout
    exact ⟨taken, layout, inner⟩

/-- A text that is read as a contract is made of tokens that are derived as it. -/
theorem Contract.derives_of_ofText {source : String} {contract : Contract}
    (h : ofText source = .ok contract) :
    ∃ tokens, Token.Layout source.toList tokens ∧ contract.Derives tokens := by
  unfold ofText at h
  simp only at h
  split at h
  case h_1 => cases h
  case h_2 front found =>
    exact Token.Scan.layout_of_complete h fun lexed => follows_read lexed found

/-- A text that is read as statements is made of tokens that are derived as these. -/
theorem Statement.derives_of_listOfText {source : String} {statements : List Statement}
    (h : listOfText source = .ok statements) :
    ∃ tokens, Token.Layout source.toList tokens ∧ DerivesAll tokens statements := by
  unfold listOfText at h
  simp only at h
  split at h
  case h_1 => cases h
  case h_2 front found =>
    exact Token.Scan.layout_of_complete h fun lexed => follows_readAll lexed found

/-- A contract that was read from a text is well formed. -/
theorem Contract.wellFormed_of_ofText {source : String} {contract : Contract}
    (h : ofText source = .ok contract) : contract.WellFormed := by
  obtain ⟨tokens, layout, derives⟩ := derives_of_ofText h
  exact derives.wellFormed layout.wellFormed

/-- **What is read from a text is derived from it**: the text is made of tokens, with blanks and
comments between them, and these tokens are derived as what was read, each in its place. -/
theorem reading_sound :
    (∀ source contract, Contract.ofText source = .ok contract →
      ∃ tokens, Token.Layout source.toList tokens ∧ contract.Derives tokens) ∧
    ∀ source statements, Statement.listOfText source = .ok statements →
      ∃ tokens, Token.Layout source.toList tokens ∧ Statement.DerivesAll tokens statements := by
  constructor
  · intro source contract read
    exact Contract.derives_of_ofText read
  · intro source statements read
    exact Statement.derives_of_listOfText read

/-- A text with few blanks, and with comments at its end and before a carriage return. -/
def terse : String :=
  "contract\x7bfunc f(a int)\x7b// least\rreturn - 9223372036854775808-01*2\x7d\x7d//"

/-- The tokens of `terse`. -/
def terseTokens : List Token :=
  [.keyword .contract, .symbol .openBrace, .keyword .func, .identifier "f", .symbol .openParen,
    .identifier "a", .keyword .int, .symbol .closeParen, .symbol .openBrace, .keyword .return,
    .symbol .minus, .minMagnitude, .symbol .minus, .integer 1, .symbol .star, .integer 2,
    .symbol .closeBrace, .symbol .closeBrace]

/-- The contract of `terse`. -/
def terseContract : Contract where
  functions :=
    [{ name := "f"
       parameters := [⟨"a", .int⟩]
       returns := none
       body :=
        [.return (some (.binary (.integer Int64.minValue) .minus
          (.binary (.integer 1) .times (.integer 2))))] }]

/-- The text `terse` is derived as its contract, and statements without semicolons between them are
derived as well. -/
theorem reading_sound_terse :
    (Contract.ofText terse = .ok terseContract ∧
      ∃ tokens, Token.Layout terse.toList tokens ∧ terseContract.Derives tokens) ∧
    Statement.listOfText "a==!b\"//\"" = .ok [.expression (.binary (.identifier "a") .equal
        (.unary .not (.identifier "b"))), .expression (.text "//")] ∧
      ∃ tokens, Token.Layout "a==!b\"//\"".toList tokens ∧
        Statement.DerivesAll tokens [.expression (.binary (.identifier "a") .equal
          (.unary .not (.identifier "b"))), .expression (.text "//")] := by
  have contract : Contract.ofText terse = .ok terseContract :=
    Contract.ofText_of_scan (by decide +kernel : _ = terseTokens ∧ _) ⟨by decide, by cbv⟩
  have statements : Statement.listOfText "a==!b\"//\"" = .ok [.expression (.binary
      (.identifier "a") .equal (.unary .not (.identifier "b"))), .expression (.text "//")] :=
    Statement.listOfText_of_scan (by decide +kernel : _ = [.identifier "a", .symbol .equal,
      .symbol .bang, .identifier "b", .text "//"] ∧ _) ⟨by decide, by cbv⟩
  exact ⟨⟨contract, reading_sound.1 _ _ contract⟩, statements, reading_sound.2 _ _ statements⟩

end Covenant
