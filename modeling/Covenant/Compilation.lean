/-
**Compilations.**

Compiling a contract, or one function by itself, gives its code together with tables that say where
everything is.

Main definitions:

* `Covenant.Compilation` — code and tables;
* `Covenant.Compilation.ofContract`, `Covenant.Compilation.ofFunction` — compiling;
* `Covenant.Compilation.logOfContract` — the events of compiling a contract, which are there even
  where it fails.
-/

import Covenant.Emission.Code
import Covenant.SelectorTable

set_option relaxedAutoImplicit false
set_option autoImplicit false

namespace Covenant

/-- The memory map of a function. -/
structure Scope where
  name : String
  memory : MemoryMap
  deriving DecidableEq

/-- The code of some functions and the tables that go with it. -/
structure Compilation where
  code : Assembly
  /-- The memory map of every function, in the order of declaration. -/
  scopes : List Scope
  /-- The name of every function and the byte where it begins, in the order of declaration. -/
  labels : List (String × Nat)
  selectors : SelectorTable
  deriving DecidableEq

namespace Compilation

/-- The scope of the first function of this name. -/
def scope? (compilation : Compilation) (name : String) : Option Scope :=
  compilation.scopes.find? fun scope => scope.name == name

/-- The byte where the first function of this name begins. -/
def entryPoint? (compilation : Compilation) (name : String) : Option Nat :=
  compilation.labels.lookup name

/-- Compiles the dispatcher and all functions of a contract.  A name that is refused a selector,
because another function has it or none is left, is found before anything else that is wrong. -/
def ofContract (contract : Contract) : Except CompileError Compilation :=
  let names := contract.functions.map FunctionDecl.name
  match SelectorTable.empty.insertAll names with
  | .error name => .error (.duplicateFunction name)
  | .ok selectors =>
    let emission := contract.emit
    match emission.result with
    | .error fault => .error fault
    | .ok memories =>
      .ok { code := ⟨Emission.Item.lines emission.items⟩
            scopes := List.zipWith Scope.mk names memories
            labels := contract.labels
            selectors }

/-- Compiles a function by itself, beginning at byte zero. -/
def ofFunction (function : FunctionDecl) : Except CompileError Compilation :=
  let emission := function.emit 0
  match emission.result with
  | .error fault => .error fault
  | .ok memory =>
    .ok { code := ⟨Emission.Item.lines emission.items⟩
          scopes := [⟨function.name, memory⟩]
          labels := [(function.name, 0)]
          selectors := ⟨[(function.name, 0)]⟩ }

/-- The events of compiling a contract. -/
def logOfContract (contract : Contract) : List Event :=
  match SelectorTable.empty.insertAll (contract.functions.map FunctionDecl.name) with
  | .error _ => []
  | .ok _ => Emission.Item.events 0 contract.emit.items

/-- The events of compiling a function by itself. -/
def logOfFunction (function : FunctionDecl) : List Event :=
  Emission.Item.events 0 (function.emit 0).items

end Compilation

end Covenant
