/-
**Skipping JSON values.**

A member that nobody asked for is skipped.  Its text must still be JSON, though escapes in its
strings need not denote characters and its numbers may have any magnitude.  Values are nested to
any depth, so the brackets that are open are kept on a stack, and the text is gone through one
character at a time.

Main definitions:

* `Covenant.Json.Skip.State`, `Covenant.Json.Skip.step` — the automaton;
* `Covenant.Json.skipValue` — what is left behind the value at the front of a text.
-/

import Covenant.Json.Fault
import Covenant.Text.Hex

set_option relaxedAutoImplicit false
set_option autoImplicit false

namespace Covenant.Json.Skip

/-! ### States -/

/-- The brackets that may be open. -/
inductive Bracket where
  | array | object
  deriving DecidableEq, Repr

/-- Where in a value the text stands. -/
inductive Mode where
  /-- A value must follow. -/
  | value
  /-- The innermost bracket has just been opened. -/
  | opened
  /-- The name of a member must follow. -/
  | name
  /-- The colon behind a name must follow. -/
  | colon
  /-- The rest of `null`, `true` or `false` must follow. -/
  | literal (rest : List Char)
  /-- Behind the sign of a number. -/
  | sign
  /-- Behind a zero that begins a number. -/
  | zero
  /-- Behind a digit before the decimal point. -/
  | whole
  /-- Behind the decimal point. -/
  | point
  /-- Behind a digit after the decimal point. -/
  | fraction
  /-- Behind the letter of an exponent. -/
  | exponent
  /-- Behind the sign of an exponent. -/
  | exponentSign
  /-- Behind a digit of an exponent. -/
  | exponentDigits
  /-- Inside a string, which may be the name of a member. -/
  | text (isName : Bool)
  /-- Behind a backslash in a string. -/
  | escape (isName : Bool)
  /-- Inside the four bytes behind a `u`, of which some are left and one may have been bad. -/
  | unit (isName : Bool) (left : Nat) (bad : Bool)
  /-- Behind a value inside a bracket. -/
  | behind
  deriving DecidableEq

/-- The mode and the brackets that are open, the innermost first. -/
structure State where
  mode : Mode
  brackets : List Bracket

/-- What a character does. -/
inductive Move where
  /-- It is taken, and more follows. -/
  | next (state : State)
  /-- It is the last of the value. -/
  | last
  /-- It no longer belongs to the value. -/
  | beyond
  /-- It cannot stand here. -/
  | fault

/-! ### Steps -/

/-- The move to another mode. -/
def State.to (state : State) (mode : Mode) : Move :=
  .next ⟨mode, state.brackets⟩

/-- The move of the last character of a value inside these brackets. -/
def close (brackets : List Bracket) : Move :=
  if brackets.isEmpty then .last else .next ⟨.behind, brackets⟩

/-- The move of a character at which a value must begin. -/
def beginValue (state : State) (c : Char) : Move :=
  if isSpace c then state.to .value
  else if c = 'n' then state.to (.literal ['u', 'l', 'l'])
  else if c = 't' then state.to (.literal ['r', 'u', 'e'])
  else if c = 'f' then state.to (.literal ['a', 'l', 's', 'e'])
  else if c = '-' then state.to .sign
  else if c = '0' then state.to .zero
  else if c.isDigit then state.to .whole
  else if c = '"' then state.to (.text false)
  else if c = '[' then .next ⟨.opened, .array :: state.brackets⟩
  else if c = '\x7b' then .next ⟨.opened, .object :: state.brackets⟩
  else .fault

/-- The move of a character behind a value inside a bracket. -/
def afterValue (brackets : List Bracket) (c : Char) : Move :=
  if isSpace c then .next ⟨.behind, brackets⟩
  else
    match brackets, c with
    | .array :: _, ',' => .next ⟨.value, brackets⟩
    | .object :: _, ',' => .next ⟨.name, brackets⟩
    | .array :: outer, ']' => close outer
    | .object :: outer, '\x7d' => close outer
    | _, _ => .fault

/-- The move of a character that ends a number without belonging to it. -/
def afterNumber (brackets : List Bracket) (c : Char) : Move :=
  if brackets.isEmpty then .beyond else afterValue brackets c

/-- The move of a character where an object's member, or its end if `mayClose`, must follow. -/
def beginMember (state : State) (mayClose : Bool) (c : Char) : Move :=
  if isSpace c then .next state
  else if c = '"' then state.to (.text true)
  else if c = '\x7d' ∧ mayClose then close (state.brackets.drop 1)
  else .fault

/-- What follows a string. -/
def afterText (state : State) (isName : Bool) : Move :=
  if isName then state.to .colon else close state.brackets

/-- The move of a character. -/
def step (state : State) (c : Char) : Move :=
  match state.mode with
  | .value => beginValue state c
  | .opened =>
    match state.brackets with
    | .array :: outer =>
      if isSpace c then .next state
      else if c = ']' then close outer
      else beginValue state c
    | _ => beginMember state true c
  | .name => beginMember state false c
  | .colon =>
    if isSpace c then .next state else if c = ':' then state.to .value else .fault
  | .literal (expected :: rest) =>
    if c ≠ expected then .fault
    else if rest.isEmpty then close state.brackets
    else state.to (.literal rest)
  | .literal [] => .fault
  | .sign =>
    if c = '0' then state.to .zero else if c.isDigit then state.to .whole else .fault
  | .zero =>
    if c.isDigit then .fault
    else if c = '.' then state.to .point
    else if c = 'e' ∨ c = 'E' then state.to .exponent
    else afterNumber state.brackets c
  | .whole =>
    if c.isDigit then .next state
    else if c = '.' then state.to .point
    else if c = 'e' ∨ c = 'E' then state.to .exponent
    else afterNumber state.brackets c
  | .point => if c.isDigit then state.to .fraction else .fault
  | .fraction =>
    if c.isDigit then .next state
    else if c = 'e' ∨ c = 'E' then state.to .exponent
    else afterNumber state.brackets c
  | .exponent =>
    if c = '+' ∨ c = '-' then state.to .exponentSign
    else if c.isDigit then state.to .exponentDigits
    else .fault
  | .exponentSign => if c.isDigit then state.to .exponentDigits else .fault
  | .exponentDigits => if c.isDigit then .next state else afterNumber state.brackets c
  | .text isName =>
    if c = '"' then afterText state isName
    else if c = '\\' then state.to (.escape isName)
    else if c.toNat < 0x20 then .fault
    else .next state
  | .escape isName =>
    if c = 'u' then state.to (.unit isName 4 false)
    else if c ∈ ['"', '\\', '/', 'b', 'f', 'n', 'r', 't'] then state.to (.text isName)
    else .fault
  | .unit isName left bad =>
    let bad := bad || !Text.Hex.isDigit c
    if c.utf8Size < left then state.to (.unit isName (left - c.utf8Size) bad)
    else if bad then .fault
    else state.to (.text isName)
  | .behind => afterValue state.brackets c

/-- The outcome where the text ends: a number that is complete and in no bracket is a value. -/
def atEnd (state : State) : Except Fault Unit :=
  match state.mode with
  | .zero | .whole | .fraction | .exponentDigits =>
    if state.brackets.isEmpty then .ok () else .error .endOfText
  | .sign | .point | .exponent | .exponentSign => .error .malformed
  | _ => .error .endOfText

/-! ### Skipping -/

/-- Goes through a text from a state on. -/
def run (state : State) (cs : List Char) : Except Fault (Front Char Unit (cs.length + 1)) :=
  match cs with
  | [] => (atEnd state).map fun _ => ⟨(), [], Nat.lt_succ_self _⟩
  | c :: rest =>
    match step state c with
    | .fault => .error .malformed
    | .last => .ok ⟨(), rest, Nat.lt_succ_of_lt (Nat.lt_succ_self _)⟩
    | .beyond => .ok ⟨(), c :: rest, Nat.lt_succ_self _⟩
    | .next state => (run state rest).map fun front => front.widen (Nat.le_succ _)

end Covenant.Json.Skip

namespace Covenant.Json

/-- Skips the value at the front of a text. -/
def skipValue : Reader Unit := fun cs =>
  match cs with
  | [] => .error .endOfText
  | c :: rest =>
    match Skip.beginValue ⟨.value, []⟩ c with
    | .next state => Skip.run state rest
    | _ => .error .malformed

end Covenant.Json
