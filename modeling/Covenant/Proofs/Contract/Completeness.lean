/-
**What is derived as an expression is read as it.**

In the grammar a binary operator stands behind an expression of its own kind, so that a derivation
begins with the last operator of a chain.  The reader begins at the other end, with the first
operand, and goes on behind it.  Both meet behind every left operand: there the reader holds the
expression that the tokens so far are derived as, and takes the next operator with it on its left.

Soundness says that whatever is read is derived.  With the converse, which is shown here, the
expressions that tokens are derived as are those that are read from them, and since reading has one
result there is at most one: the grammar of expressions is not ambiguous.

An operator that follows an expression is no obstacle if no operand can be read behind it: reading
ends before such an operator as it does where none stands.

Main definitions:

* `Covenant.Expression.Halts` — no operator up to a rank follows together with an operand;
* `Covenant.Expression.Resumes` — reading comes behind some tokens with an expression, and goes on
  from there;
* `Covenant.Expression.Level.rank` — the rank at which a kind of expressions is read.

Main results:

* `Expression.Derives.resumes` — reading comes behind the tokens of a derivation with what they are
  derived as;
* `Expression.reads_read_iff` — **an expression is read from tokens if and only if they are derived
  as it**;
* `Expression.Derives.unique` — the tokens of an expression are derived as no other one.
-/

import Covenant.Proofs.Contract.Soundness

set_option relaxedAutoImplicit false
set_option autoImplicit false

namespace Covenant

namespace Expression

/-- The highest rank of the operators outside of parentheses in an expression of a kind. -/
def Level.rank : Level → ℕ
  | expression => 6
  | and => 5
  | equality => 4
  | comparison => 3
  | sum => 2
  | product => 1
  | unary => 0
  | primary => 0

/-! ### Behind a left operand -/

/-- No operator of a rank up to the given one stands in front of an operand. -/
def Halts (rank : ℕ) (tokens : List Token) : Prop :=
  ∀ (op : BinaryOperator) (behind : List Token), tokens = .symbol (.ofBinary op) :: behind →
    op.rank ≤ rank → ∃ mistake, readUnary behind = .error mistake

/-- Reading at a rank comes behind these tokens with this expression.  It goes on from there with
the operators of the rank if there are any, and tighter ones do not follow. -/
def Resumes : ℕ → List Token → Expression → Prop
  | 0, tokens, value => ∀ rest, Reads (readUnary (tokens ++ rest)) value rest
  | rank + 1, tokens, value => ∀ rest, Halts rank rest →
      ∃ within, readRank (rank + 1) (tokens ++ rest) = .ok (readMore rank value rest within)

variable {rank : ℕ} {tokens first second rest : List Token} {value left right : Expression}

theorem Halts.mono {less : ℕ} (halts : Halts rank rest) (le : less ≤ rank) : Halts less rest :=
  fun op behind front low => halts op behind front (Nat.le_trans low le)

/-- Where no operator follows, none follows with an operand. -/
theorem Stops.halts (stops : Stops rank rest) : Halts rank rest := by
  rintro op behind rfl low
  have none := stops _ rfl op.rank low
  rw [operator?_ofBinary] at none
  cases none

/-- An operator of a higher rank does not matter. -/
theorem halts_operator {op : BinaryOperator} (above : rank < op.rank) :
    Halts rank (.symbol (.ofBinary op) :: rest) :=
  (stops_operator above).halts

theorem eq_symbol_of_operator? {token : Token} {op : BinaryOperator}
    (found : operator? rank token = some op) : token = .symbol (.ofBinary op) ∧ op.rank = rank := by
  cases token with
  | symbol symbol =>
      rw [operator?, Option.filter_eq_some_iff, Symbol.binary?_eq_some_iff, beq_iff_eq] at found
      obtain ⟨rfl, same⟩ := found
      exact ⟨rfl, same⟩
  | _ => cases found

/-- An operator without an operand behind it is left alone. -/
theorem readMore_of_halts {bound : ℕ} (left : Expression) (halts : Halts (rank + 1) rest)
    (within : rest.length < bound) : readMore rank left rest within = ⟨left, rest, within⟩ := by
  cases rest with
  | nil => rw [readMore]
  | cons token behind =>
      rw [readMore]
      split
      case h_1 => rfl
      case h_2 op found =>
        obtain ⟨rfl, same⟩ := eq_symbol_of_operator? found
        obtain ⟨mistake, none⟩ := halts op behind rfl (Nat.le_of_eq same)
        simp only [readRank_error none]

/-- If no operator follows that could be taken, reading ends where it came. -/
theorem Resumes.reads (resumes : Resumes rank tokens value) (halts : Halts rank rest) :
    Reads (readRank rank (tokens ++ rest)) value rest := by
  cases rank with
  | zero =>
      obtain ⟨within, found⟩ := resumes rest
      exact ⟨within, by rw [readRank, found]⟩
  | succ rank =>
      obtain ⟨within, found⟩ := resumes rest (halts.mono (Nat.le_succ _))
      exact ⟨within, found.trans (congrArg _ (readMore_of_halts value halts within))⟩

/-- What is read at a rank is the first operand at the next one. -/
theorem Resumes.succ (resumes : Resumes rank tokens value) : Resumes (rank + 1) tokens value := by
  intro rest halts
  obtain ⟨within, found⟩ := resumes.reads halts
  exact ⟨within, by rw [readRank, found]⟩

/-- Behind a left operand, an operator of the rank is taken together with a right operand. -/
theorem Resumes.binary {op : BinaryOperator} (same : op.rank = rank + 1)
    (before : Resumes (rank + 1) first left) (behind : Resumes rank second right) :
    Resumes (rank + 1) (first ++ .symbol (.ofBinary op) :: second) (.binary left op right) := by
  intro rest halts
  obtain ⟨within, front⟩ :=
    before (.symbol (.ofBinary op) :: (second ++ rest)) (halts_operator (by omega))
  obtain ⟨less, more⟩ := @readMore_operator _ _ _ _ left _ _ same (behind.reads halts) within
  rw [List.append_assoc, List.cons_append, front]
  exact ⟨less, congrArg _ more⟩

/-- Parentheses make an operand of any expression. -/
theorem Resumes.parentheses (inner : Resumes BinaryOperator.topRank tokens value) :
    Resumes 0 (.symbol .openParen :: (tokens ++ [.symbol .closeParen])) value := by
  intro rest
  have closed := inner.reads (stops_symbol .closeParen rfl rest).halts
  rw [List.cons_append, List.append_assoc, List.singleton_append]
  exact readUnary_paren closed

/-! ### Derivations -/

variable {level tighter : Level}

/-- The operators of a kind of expressions are those of its rank, and its operands are read one rank
below. -/
theorem Level.rank_of_mem {symbol : Symbol} {op : BinaryOperator}
    (below : level.operand? = some tighter) (mem : (symbol, op) ∈ level.operators) :
    symbol = .ofBinary op ∧ op.rank = tighter.rank + 1 ∧ level.rank = tighter.rank + 1 := by
  have all : ∀ entry ∈ level.operators, entry.1 = .ofBinary entry.2 ∧
      entry.2.rank = tighter.rank + 1 ∧ level.rank = tighter.rank + 1 := by
    cases level <;> cases below <;> decide
  exact all _ mem

/-- What is derived as an expression does not begin with an equals sign. -/
theorem Derives.startsWithEquals (derives : value.Derives level tokens) (rest : List Token) :
    startsWithEquals (tokens ++ rest) = Bool.false := by
  induction derives generalizing rest with
  | operand _ _ ih => exact ih rest
  | binary _ _ _ _ ih =>
      rw [List.append_assoc]
      exact ih _
  | _ => rfl

/-- What is derived as an expression does not begin with the magnitude of the least integer. -/
theorem Derives.append_ne (derives : value.Derives level tokens) (rest tail : List Token) :
    tokens ++ rest ≠ .minMagnitude :: tail := by
  induction derives generalizing rest with
  | operand _ _ ih => exact ih rest
  | binary _ _ _ _ ih =>
      rw [List.append_assoc]
      exact ih _
  | _ => simp

/-- Reading comes behind the tokens of a derivation with the expression that they are derived as. -/
theorem Derives.resumes (derives : value.Derives level tokens) :
    Resumes level.rank tokens value := by
  induction derives with
  | @operand level _ _ _ below _ ih =>
      -- a primary expression is read by the reader of operands, all others one rank above
      cases level <;> cases below <;> first | exact ih | exact ih.succ
  | binary below mem _ _ before behind =>
      obtain ⟨rfl, same, above⟩ := Level.rank_of_mem below mem
      rw [above] at before ⊢
      exact before.binary same behind
  | not operand ih =>
      intro rest
      exact @readUnary_unary _ .not _ _ (ih rest) (operand.startsWithEquals rest)
        (operand.append_ne rest)
  | minus operand ih =>
      intro rest
      exact @readUnary_unary _ .minus _ _ (ih rest) (operand.startsWithEquals rest)
        (operand.append_ne rest)
  | least =>
      intro rest
      exact ⟨_, readUnary.eq_1 rest⟩
  | @integer magnitude value same =>
      intro rest
      have read : Int64.ofNat magnitude = value := by
        rw [← Int64.ofInt_eq_ofNat, ← same, Int64.ofInt_toInt]
      rw [← read]
      exact ⟨_, readUnary.eq_def _⟩
  | parentheses _ ih => exact ih.parentheses
  | _ =>
      intro rest
      exact ⟨_, readUnary.eq_def _⟩

/-- What is derived as an expression is read if no operator follows with an operand. -/
theorem Derives.reads_of_halts (derives : value.Derives .expression tokens)
    (halts : Halts BinaryOperator.topRank rest) : Reads (read (tokens ++ rest)) value rest :=
  derives.resumes.reads halts

/-- What is derived as an expression is read if no operator follows. -/
theorem Derives.reads_read (derives : value.Derives .expression tokens)
    (stops : Stops BinaryOperator.topRank rest) : Reads (read (tokens ++ rest)) value rest :=
  derives.reads_of_halts stops.halts

theorem stops_nil : Stops rank [] := by
  rintro token ⟨⟩

/-- **An expression is read from tokens of a text, without any left over, if and only if they are
derived as it.** -/
theorem reads_read_iff (lexed : Lexed tokens) :
    Reads (read tokens) value [] ↔ value.Derives .expression tokens := by
  constructor
  · rintro ⟨_, found⟩
    obtain ⟨taken, same, derives⟩ := follows_read lexed found
    rw [List.append_nil] at same
    rw [same]
    exact derives
  · intro derives
    have whole := derives.reads_read stops_nil
    rw [List.append_nil] at whole
    exact whole

/-- The tokens of an expression are derived as no other one. -/
theorem Derives.unique (one : left.Derives level tokens) (other : right.Derives level tokens) :
    left = right := by
  obtain ⟨_, found⟩ := one.resumes.reads stops_nil.halts
  obtain ⟨_, again⟩ := other.resumes.reads stops_nil.halts
  rw [again] at found
  cases found
  rfl

end Expression

end Covenant
