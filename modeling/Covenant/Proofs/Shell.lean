/-
**A line of the shell is compiled as the body of a contract's only function.**

The shell has an entry of its own for statements, and a line is never put between braces.  Still it
means what it would mean there.  The readers look ahead at the end of the line, for an operand, a
semicolon or an `else`, but they find as little before a closing brace as where nothing follows, so
the statements are read again.  The line must be ended by a line feed, because its last piece may be
a comment that would take the braces in.

A line of statements does not begin with the word of a contract either, since no statement does.
The shell therefore never takes such a line for a contract.

Main definitions:

* `Covenant.Shell.contractAround` — a contract with a line in the body of its only function.

Main results:

* `Shell.isContract_eq_false` — no line of statements is taken for a contract;
* `Shell.ofText_contractAround` — statements that are read from a line are the body of the only
  function of this contract;
* `Shell.evaluate_as_contract` — **a line of statements is answered with the code of the function
  that it is in a contract, or with the fault of compiling it**.
-/

import Covenant.Proofs.Contract.Spacing
import Covenant.Proofs.Contract.Viability
import Covenant.Shell

set_option relaxedAutoImplicit false
set_option autoImplicit false

namespace Covenant

namespace Shell

variable {line : String} {body : List Statement} {tokens rest : List Token}

/-! ### The word of a contract -/

/-- No statement begins with the word of a contract. -/
theorem readBare_contract (rest : List Token) :
    Statement.readBare (.keyword .contract :: rest) = .ok none :=
  (Statement.readBare.eq_def _).trans
    (congrArg Except.ok (Statement.readExpression?_eq_none (Expression.readUnary.eq_def _)))

/-- The first token of a line that begins with the word of a contract is this word. -/
theorem scan_of_isContract (begins : isContract line = true) :
    ∃ rest, (Token.scan line.toList).list = .keyword .contract :: rest := by
  have word : line.toList.takeWhile Token.isWordChar = Keyword.contract.spelling.toList :=
    eq_of_beq begins
  have lexes := Token.lexes_keyword .contract (Token.apart_dropWhile line.toList)
  rw [← word, List.takeWhile_append_dropWhile] at lexes
  exact ⟨_, lexes.1⟩

/-- **No line of statements is taken for a contract.** -/
theorem isContract_eq_false (reads : Statement.listOfText line = .ok body) :
    isContract line = false := by
  cases begins : isContract line with
  | false => rfl
  | true =>
      obtain ⟨rest, first⟩ := scan_of_isContract begins
      have all := Statement.reads_of_listOfText reads
      rw [first] at all
      -- reading would end at once, and the word would be left
      obtain ⟨within, found⟩ := all
      rw [Statement.readAll, readBare_contract] at found
      cases found

/-! ### The contract around a line -/

/-- The text before the line. -/
def openingText : String := "contract \x7b func main() \x7b "

/-- A contract with the line in the body of its only function, which is named `main`, has no
parameters and returns nothing. -/
def contractAround (line : String) : String :=
  openingText ++ line ++ "\n\x7d \x7d"

/-- The tokens before the line. -/
def opening : List Token :=
  [.keyword .contract, .symbol .openBrace, .keyword .func, .identifier "main", .symbol .openParen,
    .symbol .closeParen, .symbol .openBrace]

/-- The tokens behind the line. -/
def closing : List Token :=
  [.symbol .closeBrace, .symbol .closeBrace]

theorem lexes_opening (rest : List Char) :
    Token.Lexes (openingText.toList ++ rest) opening rest := by
  have same : openingText.toList ++ rest =
      Keyword.contract.spelling.toList ++ ' ' :: '\x7b' :: ' ' :: (Keyword.func.spelling.toList ++
        ' ' :: ("main".toList ++ '(' :: ')' :: ' ' :: '\x7b' :: ' ' :: rest)) := by
    simp [openingText, Keyword.spelling]
  have named : IsName "main" := by decide
  have block := (@Token.lexes_symbol (' ' :: rest) .openBrace trivial).trans
    (@Token.lexes_space ' ' rfl rest)
  have signature := (Token.lexes_name named (Token.apart_cons '(' rfl _)).trans
    ((Token.lexes_symbol .openParen trivial).trans
      ((Token.lexes_symbol .closeParen trivial).trans ((@Token.lexes_space ' ' rfl _).trans block)))
  have function := (Token.lexes_keyword .func (Token.apart_cons ' ' rfl _)).trans
    ((Token.lexes_space rfl _).trans signature)
  rw [same]
  exact (Token.lexes_keyword .contract (Token.apart_cons ' ' rfl _)).trans
    ((Token.lexes_space rfl _).trans ((Token.lexes_symbol .openBrace trivial).trans
      ((Token.lexes_space rfl _).trans function)))

/-- The text around a line has the tokens of the line between those before and behind it. -/
theorem scan_contractAround (layout : Token.Layout line.toList tokens) :
    (Token.scan (contractAround line).toList).list = opening ++ (tokens ++ closing) ∧
      (Token.scan (contractAround line).toList).stop = [] := by
  have last : Token.Layout ['\n', '\x7d', ' ', '\x7d'] closing :=
    Token.layout_iff.2 (by decide +kernel)
  -- a comment at the end of the line ends before the line feed
  have inner : Token.Pieces ['\n', '\x7d', ' ', '\x7d'] line.toList tokens :=
    (Token.layout_iff_pieces.1 layout).before_lineFeed _
  have behind : Token.Layout (line.toList ++ ['\n', '\x7d', ' ', '\x7d']) (tokens ++ closing) :=
    Token.layout_iff_pieces.2
      (Token.Pieces.append (by rwa [List.append_nil]) (Token.layout_iff_pieces.1 last))
  have same : (contractAround line).toList =
      openingText.toList ++ (line.toList ++ ['\n', '\x7d', ' ', '\x7d']) := by
    simp [contractAround]
  rw [same]
  exact ((lexes_opening _).trans behind.lexes).whole

/-- Statements behind which nothing follows are read as the body of a contract's only function. -/
theorem reads_contractAround (lexed : Lexed tokens)
    (reads : Reads (Statement.readAll tokens (length_lt_succ tokens)) body []) :
    Reads (Contract.read (opening ++ (tokens ++ closing))) ⟨[mainOf body]⟩ [] := by
  obtain ⟨within, found⟩ := reads
  obtain ⟨taken, same, again⟩ := Statement.replays_readAll lexed found
  obtain rfl : tokens = taken := same.trans (List.append_nil taken)
  have inner := (again closing (Statement.closes_closeBrace _)).2
  have declared := FunctionDecl.readDeclaration_of_readBlock "main" [] none
    (Statement.readBlock_of_readAll (inner _ (length_lt_succ _)))
  have none := FunctionDecl.readsAll_nil (Statement.closes_closeBrace [])
  exact Contract.read_of_readAll (none.cons declared)

/-- Statements that are read from a line are the body of the only function of the contract around
it. -/
theorem ofText_contractAround (reads : Statement.listOfText line = .ok body) :
    Contract.ofText (contractAround line) = .ok ⟨[mainOf body]⟩ := by
  obtain ⟨tokens, layout, -⟩ := Statement.derives_of_listOfText reads
  have all := Statement.reads_of_listOfText reads
  rw [(Token.layout_iff.1 layout).1] at all
  exact Contract.ofText_of_scan (scan_contractAround layout)
    (reads_contractAround layout.wellFormed all)

/-! ### The answer -/

/-- **A line of statements is answered with the code of the function that it is in a contract, or
with the fault of compiling it.**  The line is put into the body of the only function of a contract,
and the contract is read with the same statements in it.  The shell does not take the line for a
contract itself.  Its answer begins with the assembly and the hex digits of the code of this
function, and if the function is not compiled, the fault is the answer. -/
theorem evaluate_as_contract (reads : Statement.listOfText line = .ok body) :
    ∃ function : FunctionDecl,
      Contract.ofText ("contract \x7b func main() \x7b " ++ line ++ "\n\x7d \x7d") =
        .ok ⟨[function]⟩ ∧
      function.name = "main" ∧ function.parameters = [] ∧ function.returns = none ∧
      function.body = body ∧
      isContract line = false ∧ evaluate line = evaluateStatements line ∧
      match Compilation.ofFunction function with
      | .error fault => evaluate line = .error (.compile fault)
      | .ok compilation => ∃ more,
          evaluate line = .ok (compilation.code.render ++ compilation.code.hex ++ more) := by
  have other := isContract_eq_false reads
  have answer : evaluate line = evaluateStatements line := by
    rw [evaluate, other]
    rfl
  refine ⟨mainOf body, ofText_contractAround reads, rfl, rfl, rfl, rfl, other, answer, ?_⟩
  rw [answer, evaluateStatements, reads]
  cases compiled : Compilation.ofFunction (mainOf body) with
  | error fault => simp only [compiled]
  | ok compilation =>
      simp only [compiled]
      exact ⟨_, by rw [String.append_assoc]⟩

/-- A line that ends with a comment behind a `return` without a value, and one that is read and not
compiled. -/
theorem evaluate_as_contract_both :
    (∃ compilation more, Contract.ofText
        ("contract \x7b func main() \x7b " ++ "int a = 1 return // a" ++ "\n\x7d \x7d") =
          .ok ⟨[mainOf [.declare .int "a" (.integer 1), .return none]]⟩ ∧
      Compilation.ofFunction (mainOf [.declare .int "a" (.integer 1), .return none]) =
        .ok compilation ∧
      evaluate "int a = 1 return // a" =
        .ok (compilation.code.render ++ compilation.code.hex ++ more)) ∧
    evaluate "a" =
      .error (.compile (.undefinedReference (.expression (.identifier "a")) ⟨"a"⟩)) := by
  constructor
  · have reads : Statement.listOfText "int a = 1 return // a" =
        .ok [.declare .int "a" (.integer 1), .return none] :=
      Statement.listOfText_of_scan
        (by decide +kernel : _ = [.keyword .int, .identifier "a", .symbol .assign, .integer 1,
          .keyword .return] ∧ _)
        ⟨by decide, by cbv⟩
    obtain ⟨⟨name, parameters, returns, body⟩, text, rfl, rfl, rfl, rfl, -, -, answer⟩ :=
      evaluate_as_contract reads
    obtain ⟨compilation, compiled⟩ : ∃ compilation,
        Compilation.ofFunction (mainOf [.declare .int "a" (.integer 1), .return none]) =
          .ok compilation := ⟨_, rfl⟩
    rw [mainOf] at compiled
    simp only [compiled] at answer
    obtain ⟨more, answer⟩ := answer
    exact ⟨compilation, more, text, compiled, answer⟩
  · have reads : Statement.listOfText "a" = .ok [.expression (.identifier "a")] :=
      Statement.listOfText_of_scan (by decide +kernel : _ = [.identifier "a"] ∧ _)
        ⟨by decide, by cbv⟩
    obtain ⟨⟨name, parameters, returns, body⟩, -, rfl, rfl, rfl, rfl, -, -, answer⟩ :=
      evaluate_as_contract reads
    exact answer

end Shell

end Covenant
