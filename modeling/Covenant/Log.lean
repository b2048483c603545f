/-
**The text of the log.**

Main definitions:

* `Covenant.Event.render` — an event as a line of the log;
* `Covenant.Level.isShown`, `Covenant.Event.renderAll` — the events that a verbosity shows.
-/

import Covenant.Emission

set_option relaxedAutoImplicit false
set_option autoImplicit false

namespace Covenant

namespace Level

/-- The name of a level, in a column of five characters. -/
def column : Level → String
  | error => "ERROR"
  | warn => " WARN"
  | info => " INFO"
  | debug => "DEBUG"
  | trace => "TRACE"

/-- The verbosity from which on a level is shown. -/
def threshold : Level → Nat
  | error => 0
  | warn => 0
  | info => 1
  | debug => 2
  | trace => 3

/-- The level is shown at this verbosity. -/
def isShown (verbosity : Nat) (level : Level) : Bool :=
  level.threshold ≤ verbosity

end Level

namespace Event

/-- How a character of a message is shown.  The control characters that steer a terminal are
escaped, so that no message can. -/
def showChar (c : Char) : List Char :=
  if c = '\x1b' ∨ c = '\x07' ∨ c = '\x08' ∨ c = '\x0c' ∨ c = '\x7f' then
    ['\\', 'x'] ++ Text.Hex.byteDigits (UInt8.ofNat c.toNat)
  else if 0x80 ≤ c.toNat ∧ c.toNat ≤ 0x9f then
    ['\\', 'u', '\x7b'] ++ Nat.toDigits 16 c.toNat ++ ['\x7d']
  else [c]

/-- An event as a line of the log. -/
def render (event : Event) : String :=
  event.level.column ++ " " ++ String.ofList (event.message.toList.flatMap showChar) ++
    String.join (event.fields.map fun (name, value) => " " ++ name ++ "=" ++ value) ++ "\n"

/-- The lines of the events that this verbosity shows. -/
def renderAll (verbosity : Nat) (events : List Event) : String :=
  String.join ((events.filter fun event => event.level.isShown verbosity).map render)

end Event

end Covenant
