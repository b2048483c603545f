/-
**Writing a contract down and reading it back.**

The text of a contract is cut into the tokens of the contract, and reading these gives the contract
back.  Both need only that the contract is well formed, and every contract that was read from a text
is, so the well-formed contracts are those that texts can be read as.

Main results:

* `Contract.ofText_render` — a well-formed contract is read back from its text;
* `Contract.ofText_round_trip` — **what is read from a text is well formed, and what is well formed
  is read back from its text**.
-/

import Covenant.Proofs.Contract.Soundness

set_option relaxedAutoImplicit false
set_option autoImplicit false

namespace Covenant

namespace Contract

/-- A well-formed contract is read back from its text. -/
theorem ofText_render {contract : Contract} (valid : contract.WellFormed) :
    ofText contract.render = .ok contract :=
  ofText_of_scan (lexes_render valid).whole (read_tokens valid)

/-- **What is read from a text is well formed, and what is well formed is read back from its
text.** -/
theorem ofText_round_trip :
    (∀ source contract, ofText source = .ok contract → contract.WellFormed) ∧
      ∀ contract : Contract, contract.WellFormed → ofText contract.render = .ok contract :=
  ⟨fun _ _ read => wellFormed_of_ofText read, fun _ valid => ofText_render valid⟩

/-- A contract whose text has a comment sign and a brace between quotation marks, the least integer,
and a return without a value before a name. -/
def quoting : Contract where
  functions :=
    [{ name := "returned"
       parameters := [⟨"a", .int⟩, ⟨"_b1", .string⟩]
       returns := some .bool
       body :=
        [.declare .string "text" (.text "// \x7d\n"),
          .ifElse (.unary .not (.binary (.identifier "a") .equal (.integer Int64.minValue)))
            [.return none, .assign "a" (.unary .minus (.integer 1))]
            [.expression (.identifier "text")],
          .return (some (.boolean false))] }]

/-- The contract `quoting` is read back from its text, and what was read is well formed. -/
theorem ofText_round_trip_quoting :
    ofText quoting.render = .ok quoting ∧ quoting.WellFormed := by
  have read : ofText quoting.render = .ok quoting := ofText_round_trip.2 quoting (by decide)
  exact ⟨read, ofText_round_trip.1 quoting.render quoting read⟩

end Contract

end Covenant
