/-
**Reading JSON text as a value of a type.**

Strings, lists, names out of a list, and records are read.  A record is an object, whose unknown
members are skipped, or an array of its fields in order.  Some fields may be absent; in an array
only the last ones can be.

Main definitions:

* `Covenant.Json.readText`, `Covenant.Json.readList`, `Covenant.Json.readVariant`,
  `Covenant.Json.readOptional` — reading strings, lists, one of some names, and what may be null;
* `Covenant.Json.Field`, `Covenant.Json.readRecord` — reading records;
* `Covenant.Json.readWhole` — reading a whole text.
-/

import Covenant.Json.Number
import Covenant.Json.Skip
import Covenant.Json.Text

set_option relaxedAutoImplicit false
set_option autoImplicit false

namespace Covenant.Json

/-! ### Values of another type -/

/-- Reads the rest of `null`, `true` or `false`. -/
def readLiteral (expected cs : List Char) : Except Fault (Front Char Unit (cs.length + 1)) :=
  match expected, cs with
  | [], cs => .ok ⟨(), cs, Nat.lt_succ_self _⟩
  | _ :: _, [] => .error .endOfText
  | e :: expected, c :: cs =>
    if c = e then (readLiteral expected cs).map fun front => front.widen (Nat.le_succ _)
    else .error .malformed

/-- The fault of a reading, or the given one where it has none. -/
def faultOr {α : Type} (fault : Fault) : Except Fault α → Fault
  | .error first => first
  | .ok _ => fault

/-- Why a text that begins with no blank does not begin with a value of the type asked for.  It is
of another type only if it is a complete string, number, `null`, `true` or `false`, or opens a
bracket. -/
def mismatch (cs : List Char) : Fault :=
  match cs with
  | [] => .endOfText
  | 'n' :: rest => faultOr .wrongType (readLiteral ['u', 'l', 'l'] rest)
  | 't' :: rest => faultOr .wrongType (readLiteral ['r', 'u', 'e'] rest)
  | 'f' :: rest => faultOr .wrongType (readLiteral ['a', 'l', 's', 'e'] rest)
  | '"' :: rest => faultOr .wrongType (Text.readBehindQuote rest)
  | '-' :: rest => Number.fault rest
  | '[' :: _ => .wrongType
  | '\x7b' :: _ => .wrongType
  | c :: rest => if c.isDigit then Number.fault (c :: rest) else .malformed

/-! ### Simple values -/

/-- Reads a string. -/
def readText : Reader String := fun cs =>
  match h : skipSpace cs with
  | '"' :: rest =>
    (Text.readBehindQuote rest).map fun front =>
      front.widen (Nat.le_of_lt (length_lt_of_skipSpace h))
  | other => .error (mismatch other)

/-- Reads `null`. -/
def readNull : Reader Unit := fun cs =>
  match h : skipSpace cs with
  | 'n' :: rest =>
    (readLiteral ['u', 'l', 'l'] rest).map fun front => front.widen (length_lt_of_skipSpace h)
  | other => .error (mismatch other)

/-- Takes the given character, blanks before it included. -/
def readMark (mark : Char) : Reader Unit := fun cs =>
  match h : skipSpace cs with
  | [] => .error .endOfText
  | c :: rest =>
    if c = mark then .ok ⟨(), rest, length_lt_of_skipSpace h⟩ else .error .malformed

/-- Reads a string that is one of some names, and gives what it stands for. -/
def readName {α : Type} (table : List (String × α)) : Reader α := fun cs =>
  match readText cs with
  | .error fault => .error fault
  | .ok front =>
    match table.lookup front.value with
    | some a => .ok (front.map fun _ => a)
    | none => .error .wrongType

/-- Reads the name of a member that is one of some names.  Only a string can name a member, so any
other value there makes the text no JSON. -/
def readTag {α : Type} (table : List (String × α)) : Reader α := fun cs =>
  match skipSpace cs with
  | [] => .error .endOfText
  | '"' :: _ => readName table cs
  | _ => .error .malformed

/-- Reads one of some variants that carry no data: its name, or an object whose only member has
that name and is null. -/
def readVariant {α : Type} (table : List (String × α)) : Reader α := fun cs =>
  match h : skipSpace cs with
  | [] => .error .endOfText
  | '"' :: _ => readName table cs
  | '\x7b' :: rest =>
    have := length_lt_of_skipSpace h
    match readTag table rest with
    | .error fault => .error fault
    | .ok ⟨a, rest, _⟩ =>
      match readMark ':' rest with
      | .error fault => .error fault
      | .ok ⟨_, rest, _⟩ =>
        match readNull rest with
        | .error fault => .error fault
        | .ok ⟨_, rest, _⟩ =>
          match readMark '\x7d' rest with
          | .error fault => .error fault
          | .ok ⟨_, rest, _⟩ => .ok ⟨a, rest, by omega⟩
  | _ => .error .malformed

/-- Reads null, or else a value. -/
def readOptional {α : Type} (reader : Reader α) : Reader (Option α) := fun cs =>
  match skipSpace cs with
  | 'n' :: _ => (readNull cs).map (Front.map fun _ => none)
  | _ => reader.map some cs

/-! ### Lists -/

/-- Goes to the next element of a list or the next field of a record in brackets: behind the
opening bracket it stands at once, later behind a comma.  There is none at the closing bracket,
which is taken. -/
def nextElement (first : Bool) (cs : List Char) :
    Except Fault (Front Char Bool (cs.length + 1)) :=
  match h : skipSpace cs with
  | [] => .error .endOfText
  | ']' :: rest => .ok ⟨false, rest, Nat.lt_succ_of_lt (length_lt_of_skipSpace h)⟩
  | c :: rest =>
    if first then .ok ⟨true, c :: rest, by
        have := length_lt_of_skipSpace h
        simp only [List.length_cons]
        omega⟩
    else if c = ',' then
      match h' : skipSpace rest with
      | [] => .error .endOfText
      | ']' :: _ => .error .malformed
      | d :: rest' =>
        .ok ⟨true, d :: rest', by
          have := length_lt_of_skipSpace h
          have := length_lt_of_skipSpace h'
          simp only [List.length_cons]
          omega⟩
    else .error .malformed

/-- Reads the elements of a list up to its closing bracket. -/
def readElements {α : Type} {bound : Nat} (reader : Reader α) (first : Bool) (cs : List Char)
    (h : cs.length < bound) : Except Fault (Front Char (List α) bound) :=
  match nextElement first cs with
  | .error fault => .error fault
  | .ok ⟨false, rest, _⟩ => .ok ⟨[], rest, by omega⟩
  | .ok ⟨true, rest, _⟩ =>
    match reader rest with
    | .error fault => .error fault
    | .ok ⟨a, rest, _⟩ =>
      match readElements reader false rest (by omega) with
      | .error fault => .error fault
      | .ok front => .ok (front.map (a :: ·))
termination_by cs.length

/-- Reads a list. -/
def readList {α : Type} (reader : Reader α) : Reader (List α) := fun cs =>
  match h : skipSpace cs with
  | '[' :: rest => readElements reader true rest (length_lt_of_skipSpace h)
  | other => .error (mismatch other)

/-! ### Records -/

/-- A field of a record, the fields read so far being kept in a `σ`. -/
structure Field (σ : Type) where
  name : String
  /-- The field may be absent. -/
  optional : Bool
  /-- The field has been read. -/
  isRead : σ → Bool
  /-- Reads the field. -/
  read : σ → Reader σ

/-- Reads the fields of a record from an array that has been opened. -/
def readInOrder {σ : Type} (first : Bool) (state : σ) (fields : List (Field σ)) (cs : List Char) :
    Except Fault (Front Char σ (cs.length + 1)) :=
  match fields with
  | [] =>
    (readMark ']' cs).map fun front => (front.map fun _ => state).widen (Nat.le_succ _)
  | field :: more =>
    match nextElement first cs with
    | .error fault => .error fault
    | .ok ⟨false, rest, h⟩ =>
      if (field :: more).all Field.optional then .ok ⟨state, rest, h⟩ else .error .wrongType
    | .ok ⟨true, rest, _⟩ =>
      match field.read state rest with
      | .error fault => .error fault
      | .ok ⟨state, rest, _⟩ =>
        (readInOrder false state more rest).map fun front => front.widen (by omega)

/-- Goes to the name of the next member of an object, behind its quote: behind the opening brace
it stands at once, later behind a comma.  There is none at the closing brace, which is taken. -/
def nextMember (first : Bool) (cs : List Char) : Except Fault (Front Char Bool cs.length) :=
  match h : skipSpace cs with
  | [] => .error .endOfText
  | '\x7d' :: rest => .ok ⟨false, rest, length_lt_of_skipSpace h⟩
  | c :: rest =>
    if first then
      if c = '"' then .ok ⟨true, rest, length_lt_of_skipSpace h⟩ else .error .malformed
    else if c = ',' then
      match h' : skipSpace rest with
      | [] => .error .endOfText
      | '"' :: rest' =>
        .ok ⟨true, rest', Nat.lt_trans (length_lt_of_skipSpace h') (length_lt_of_skipSpace h)⟩
      | _ => .error .malformed
    else .error .malformed

/-- Reads the value of a member behind its name: a field that is known, and once only. -/
def readMember {σ : Type} (fields : List (Field σ)) (state : σ) (name : String) : Reader σ :=
  fun cs =>
    match fields.find? fun field => field.name == name with
    | some field =>
      if field.isRead state then .error .wrongType
      else
        match readMark ':' cs with
        | .error fault => .error fault
        | .ok ⟨_, rest, _⟩ =>
          (field.read state rest).map fun front => front.widen (by omega)
    | none =>
      match readMark ':' cs with
      | .error fault => .error fault
      | .ok ⟨_, rest, _⟩ =>
        (skipValue rest).map fun front => (front.map fun _ => state).widen (by omega)

/-- Reads the members of an object up to its closing brace. -/
def readMembers {σ : Type} {bound : Nat} (fields : List (Field σ)) (first : Bool) (state : σ)
    (cs : List Char) (h : cs.length < bound) : Except Fault (Front Char σ bound) :=
  match nextMember first cs with
  | .error fault => .error fault
  | .ok ⟨false, rest, _⟩ => .ok ⟨state, rest, by omega⟩
  | .ok ⟨true, rest, _⟩ =>
    match Text.readBehindQuote rest with
    | .error fault => .error fault
    | .ok ⟨name, rest, _⟩ =>
      match readMember fields state name rest with
      | .error fault => .error fault
      | .ok ⟨state, rest, _⟩ => readMembers fields false state rest (by omega)
termination_by cs.length

/-- Reads a record from its fields; `finish` gives the record if none is missing. -/
def readRecord {σ α : Type} (fields : List (Field σ)) (start : σ) (finish : σ → Option α) :
    Reader α := fun cs =>
  match h : skipSpace cs with
  | '[' :: rest =>
    match readInOrder true start fields rest with
    | .error fault => .error fault
    | .ok ⟨state, rest, _⟩ =>
      match finish state with
      | some a => .ok ⟨a, rest, by have := length_lt_of_skipSpace h; omega⟩
      | none => .error .wrongType
  | '\x7b' :: rest =>
    match readMembers fields true start rest (length_lt_of_skipSpace h) with
    | .error fault => .error fault
    | .ok ⟨state, rest, h⟩ =>
      match finish state with
      | some a => .ok ⟨a, rest, h⟩
      | none => .error .wrongType
  | other => .error (mismatch other)

/-! ### Whole texts -/

/-- Reads a text that holds one value and blanks around it. -/
def readWhole {α : Type} (reader : Reader α) (text : String) : Except Fault α :=
  match reader text.toList with
  | .error fault => .error fault
  | .ok front => if (skipSpace front.rest).isEmpty then .ok front.value else .error .malformed

end Covenant.Json
