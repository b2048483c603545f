/-
**Failures.**

Main definitions:

* `Covenant.Failure` — whatever can go wrong on the way from a text to its result;
* `Covenant.Failure.message` — the report on it.
-/

import Covenant.Assembly.Reader
import Covenant.Compilation
import Covenant.Contract.Reader

set_option relaxedAutoImplicit false
set_option autoImplicit false

namespace Covenant

/-- The report on a text that is not the hexadecimal text of bytecode. -/
def Text.Hex.Fault.message : Text.Hex.Fault → String
  | .oddLength => "invalid hex bytecode: Odd number of digits"
  | .invalidDigit byte position =>
    "invalid hex bytecode: Invalid character " ++ Text.Quoted.character (Char.ofUInt8 byte) ++
      " at position " ++ Text.Decimal.ofNat position

/-- Whatever can go wrong on the way from a text to its result. -/
inductive Failure where
  | parse (mistake : ParseError)
  | compile (fault : CompileError)
  | assembly (fault : Assembly.Fault)
  | decode (fault : Machine.Bytecode.Fault)
  | hex (fault : Text.Hex.Fault)
  /-- There is no file of this name. -/
  | missingFile
  /-- The name is that of a directory. -/
  | directory
  /-- The input, or the file, is no UTF-8 text. -/
  | invalidUtf8
  deriving DecidableEq

/-- The report on a failure. -/
def Failure.message : Failure → String
  | parse mistake => mistake.message
  | compile fault => fault.message
  | assembly fault => fault.message
  | decode fault => fault.message
  | hex fault => fault.message
  | missingFile => "No such file or directory (os error 2)"
  | directory => "Is a directory (os error 21)"
  | invalidUtf8 => "stream did not contain valid UTF-8"

end Covenant
