/-
**Which names hold a value.**

A name is resolved by the text alone: it stands for what its last declaration above gave it, in
whichever branch that declaration is.  Execution follows one branch only.  So a name may be read
although the declaration that it stands for was skipped.  The flow through a function keeps account
of the names for which this cannot happen.

At every place the flow holds the names that are assured there: on every path that comes to the
place, a value was given to the name since its declaration.  A declaration or an assignment assures
a name.  Behind an `if` the names assured on both ways are assured; on the way that does not run a
block, the names that the block declares are assured no longer, since they stand for declarations in
the block.

Main definitions:

* `Covenant.Flow` — the names that are assured at a place, if any path comes there;
* `Covenant.Flow.after` — the flow behind a statement;
* `Covenant.Flow.admits` — a statement reads assured names only;
* `Covenant.FunctionDecl.readsAssured` — all of a function reads assured names only.
-/

import Covenant.Proofs.Contract.Names

set_option relaxedAutoImplicit false
set_option autoImplicit false

namespace Covenant

/-- The names that are assured at a place, unless no path comes there. -/
inductive Flow where
  | unreached
  | reached (assured : List String)
  deriving DecidableEq

namespace Flow

/-- The name is given a value. -/
def assure (name : String) : Flow → Flow
  | unreached => unreached
  | reached assured => reached (name :: assured)

/-- The names now stand for declarations that were skipped. -/
def forget (names : List String) : Flow → Flow
  | unreached => unreached
  | reached assured => reached (assured.filter (· ∉ names))

/-- Two ways meet. -/
def merge : Flow → Flow → Flow
  | unreached, other => other
  | flow, unreached => flow
  | reached assured, reached others => reached (assured.filter (· ∈ others))

/-- The names are assured, or no path comes here. -/
def assures (names : List String) : Flow → Bool
  | unreached => true
  | reached assured => names.all (· ∈ assured)

mutual

/-- The flow behind a statement. -/
def after (flow : Flow) : Statement → Flow
  | .declare _ name _ => flow.assure name
  | .assign name _ => flow.assure name
  | .return _ => unreached
  | .ifThen _ consequence =>
    (afterAll flow consequence).merge (flow.forget (Statement.declaredAll consequence))
  | .ifElse _ consequence alternative =>
    ((afterAll flow consequence).forget (Statement.declaredAll alternative)).merge
      (afterAll (flow.forget (Statement.declaredAll consequence)) alternative)
  | .expression _ => flow

/-- The flow behind statements. -/
def afterAll (flow : Flow) : List Statement → Flow
  | [] => flow
  | statement :: rest => afterAll (after flow statement) rest

end

mutual

/-- A statement reads assured names only. -/
def admits (flow : Flow) : Statement → Bool
  | .declare _ _ value => flow.assures value.names
  | .assign _ value => flow.assures value.names
  | .return none => true
  | .return (some value) => flow.assures value.names
  | .ifThen condition consequence =>
    flow.assures condition.names && admitsAll flow consequence
  | .ifElse condition consequence alternative =>
    flow.assures condition.names && (admitsAll flow consequence &&
      admitsAll (flow.forget (Statement.declaredAll consequence)) alternative)
  | .expression value => flow.assures value.names

/-- Statements read assured names only. -/
def admitsAll (flow : Flow) : List Statement → Bool
  | [] => true
  | statement :: rest => admits flow statement && admitsAll (after flow statement) rest

end

@[simp] theorem admitsAll_singleton (flow : Flow) (statement : Statement) :
    flow.admitsAll [statement] = flow.admits statement := by
  rw [admitsAll, admitsAll, Bool.and_true]

end Flow

/-- The flow where the body of a function begins: the parameters are assured. -/
def FunctionDecl.flow (function : FunctionDecl) : Flow :=
  .reached (function.parameters.map Parameter.name)

/-- All of a function reads assured names only. -/
def FunctionDecl.readsAssured (function : FunctionDecl) : Bool :=
  function.flow.admitsAll function.body

end Covenant
