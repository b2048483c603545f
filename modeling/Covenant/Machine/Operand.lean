/-
**Operands.**

An operand is a typed value that one word of code carries.  A boolean is the last byte of its word,
an integer the whole word, a text stands at the front of its word and raw bytes at the end.  The
word keeps neither the kind nor the length, so it is read back under a given kind, and the zeros
that fill it are lost.

Main definitions:

* `Covenant.Machine.Operand`, `Covenant.Machine.Operand.Kind` — the typed values;
* `Covenant.Machine.Operand.render` — a value as shown in messages and notes;
* `Covenant.Machine.Operand.encode` — the word of a value, or `Operand.Oversize`;
* `Covenant.Machine.Operand.decode` — the value of a word, or `Operand.Unreadable`.
-/

import Covenant.Machine.Word
import Covenant.Text.Decimal
import Covenant.Text.Quoted
import Covenant.Text.Utf8

set_option relaxedAutoImplicit false
set_option autoImplicit false

namespace Covenant.Machine

/-- A typed value that fits one word, or is refused. -/
inductive Operand where
  | boolean (value : Bool)
  | text (value : String)
  | integer (value : Int64)
  | bytes (value : List UInt8)
  deriving DecidableEq

namespace Operand

/-- The four kinds of operand. -/
inductive Kind where
  | boolean
  | text
  | integer
  | bytes
  deriving DecidableEq, Repr

/-- The name of a kind. -/
def Kind.name : Kind → String
  | .boolean => "boolean"
  | .text => "text"
  | .integer => "integer"
  | .bytes => "bytes"

/-- The kind of an operand. -/
def kind : Operand → Kind
  | .boolean _ => .boolean
  | .text _ => .text
  | .integer _ => .integer
  | .bytes _ => .bytes

/-! ### Text of a value -/

/-- The name of a truth value. -/
def renderBool (value : Bool) : String :=
  if value then "true" else "false"

/-- An operand as shown in messages and notes. -/
def render : Operand → String
  | .boolean value => renderBool value
  | .text value => Text.Quoted.text value
  | .integer value => Text.Decimal.ofInt value.toInt
  | .bytes value => "0x" ++ Text.Hex.encode value

/-! ### Encoding -/

/-- A text or byte sequence of more than eight bytes, which no word holds. -/
structure Oversize where
  kind : Kind
  length : Nat
  operand : Operand
  deriving DecidableEq

/-- The report on an operand that is too long. -/
def Oversize.message (fault : Oversize) : String :=
  "length of a " ++ fault.kind.name ++ " operand must not exceed 8 bytes, but " ++
    fault.operand.render ++ " is " ++ Text.Decimal.ofNat fault.length ++ " bytes"

/-- The word of an operand. -/
def encode : Operand → Except Oversize Word
  | .boolean value => .ok (.ofNat (if value then 1 else 0))
  | .integer value => .ok (.ofInt64 value)
  | .text value =>
    let bytes := Text.Utf8.encode value
    if h : bytes.length ≤ Word.size then .ok (.leftJustified bytes h)
    else .error ⟨.text, bytes.length, .text value⟩
  | .bytes value =>
    if h : value.length ≤ Word.size then .ok (.rightJustified value h)
    else .error ⟨.bytes, value.length, .bytes value⟩

/-! ### Decoding -/

/-- A word that holds no value of the kind asked for. -/
inductive Unreadable where
  | notBoolean (word : Word)
  | invalidText (word : Word)
  deriving DecidableEq

/-- The report on a word that cannot be read. -/
def Unreadable.message : Unreadable → String
  | .notBoolean word => "word 0x" ++ word.hex ++ " is not a boolean"
  | .invalidText word => "word 0x" ++ word.hex ++ " is not valid text"

/-- The value of the given kind that a word holds.  A text ends before the zeros at the end of the
word, and raw bytes begin after the zeros at its front. -/
def decode (word : Word) : Kind → Except Unreadable Operand
  | .boolean =>
    if word.toNat = 0 then .ok (.boolean false)
    else if word.toNat = 1 then .ok (.boolean true)
    else .error (.notBoolean word)
  | .integer => .ok (.integer word.toInt64)
  | .text =>
    match Text.Utf8.decode? word.withoutTrailingZeros with
    | some value => .ok (.text value)
    | none => .error (.invalidText word)
  | .bytes => .ok (.bytes word.withoutLeadingZeros)

end Operand

end Covenant.Machine
