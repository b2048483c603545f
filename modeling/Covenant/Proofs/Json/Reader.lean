/-
**Reading JSON text that holds a value.**

A reader of a type goes wrong in many ways, but on a text of a value of that type it goes right: it
takes the text, whatever blanks stand in it and whatever follows.  Readers are built from readers,
and so are these facts.

Main definitions:

* `Covenant.Json.Reader.Takes` — a reader takes every text of a value, and gives something for it;
* `Covenant.Json.Fills` — the members of an object are fields of a record, none of them twice.

Main results:

* `Json.Text.readBehindQuote_write` — **every string is read back from its JSON text**;
* `Json.takes_readText`, `Json.takes_readVariant`, `Json.takes_readList`, `Json.takes_readRecord` —
  what the readers take;
* `Json.readWhole_of_takes` — a text of a value is read as what its reader gives for it.
-/

import Covenant.Json.Reader
import Covenant.Proofs.Front
import Covenant.Proofs.Json.Layout
import Covenant.Proofs.Text.Hex

set_option relaxedAutoImplicit false
set_option autoImplicit false

namespace Covenant.Json

/-! ### Strings -/

namespace Text

variable {rest : List Char}

/-- The digits of two bytes are read as the number that the bytes are. -/
theorem readUnit_digits (high low : UInt8) (rest : List Char) :
    Reads (readUnit (Text.Hex.digits [high, low] ++ rest)) (256 * high.toNat + low.toNat) rest := by
  have number : Text.Hex.value (Text.Hex.digits [high, low]) = 256 * high.toNat + low.toNat := by
    rw [Text.Hex.value_digits]
    simp
  have all : (Text.Hex.digits [high, low]).all Text.Hex.isDigit = true :=
    List.all_eq_true.2 fun _ mem => Text.Hex.isDigit_of_mem_digits mem
  simp only [Text.Hex.digits_cons, Text.Hex.digits_nil] at number all ⊢
  generalize Nat.digitChar (high.toNat / 16) = a at number all ⊢
  generalize Nat.digitChar (high.toNat % 16) = b at number all ⊢
  generalize Nat.digitChar (low.toNat / 16) = c at number all ⊢
  generalize Nat.digitChar (low.toNat % 16) = d at number all ⊢
  -- every character takes a byte, so four of them are enough
  have long : ¬ Text.Utf8.size ((a :: b :: c :: d :: rest).take 4) < 4 := by
    have := a.utf8Size_pos
    have := b.utf8Size_pos
    have := c.utf8Size_pos
    have := d.utf8Size_pos
    simp
    omega
  change Reads (readUnit (a :: b :: c :: d :: rest)) _ rest
  rw [readUnit, if_neg long, if_pos all, number]
  exact ⟨_, rfl⟩

/-- A control character is read from its number. -/
theorem readEscape_control {c : Char} (control : c.toNat < 0x20) (rest : List Char) :
    Reads (readEscape ('u' :: '0' :: '0' ::
      (Text.Hex.byteDigits (UInt8.ofNat c.toNat) ++ rest))) c rest := by
  obtain ⟨within, read⟩ := readUnit_digits 0 (UInt8.ofNat c.toNat) rest
  have number : 256 * (0 : UInt8).toNat + (UInt8.ofNat c.toNat).toNat = c.toNat := by
    rw [UInt8.toNat_ofNat', UInt8.toNat_zero]
    omega
  have low : isLowUnit c.toNat = false := by
    rw [isLowUnit, Bool.and_eq_false_iff]
    left
    exact decide_eq_false (by omega)
  have high : isHighUnit c.toNat = false := by
    rw [isHighUnit, Bool.and_eq_false_iff]
    left
    exact decide_eq_false (by omega)
  change readUnit ('0' :: '0' :: (Text.Hex.byteDigits (UInt8.ofNat c.toNat) ++ rest)) = _ at read
  rw [readEscape, read]
  simp only [number, low, high, Char.ofNat_toNat]
  exact ⟨_, rfl⟩

/-- A character is written as it is, or else as a backslash and what is read behind one. -/
theorem escape_cases (c : Char) :
    (escape c = [c] ∧ c ≠ '"' ∧ c ≠ '\\' ∧ ¬ c.toNat < 0x20) ∨
      ∃ code, escape c = '\\' :: code ∧ ∀ rest, Reads (readEscape (code ++ rest)) c rest := by
  unfold escape
  split
  case isTrue h =>
    right
    rcases h with rfl | rfl <;> exact ⟨_, rfl, fun rest => ⟨_, rfl⟩⟩
  case isFalse special =>
    rw [not_or] at special
    iterate 5
      split
      · right
        subst_vars
        exact ⟨_, rfl, fun rest => ⟨_, rfl⟩⟩
    split
    case isTrue control =>
      right
      exact ⟨_, rfl, fun rest => readEscape_control control rest⟩
    case isFalse visible => exact .inl ⟨rfl, special.1, special.2, visible⟩

/-- The text of some characters is read up to the closing quote. -/
theorem readChars_escape (cs : List Char) (rest : List Char) :
    Reads (readChars (cs.flatMap escape ++ '"' :: rest)) cs rest := by
  induction cs with
  | nil =>
      rw [List.flatMap_nil, List.nil_append, readChars]
      exact ⟨_, rfl⟩
  | cons c cs ih =>
      rw [List.flatMap_cons, List.append_assoc]
      generalize cs.flatMap escape ++ '"' :: rest = more at ih ⊢
      obtain ⟨within, read⟩ := ih
      rcases escape_cases c with ⟨plain, noQuote, noBackslash, visible⟩ | ⟨code, escaped, behind⟩
      · rw [plain, List.singleton_append, readChars]
        · rw [if_neg visible, read]
          exact ⟨_, rfl⟩
        · exact noQuote
        · exact noBackslash
      · obtain ⟨shorter, back⟩ := behind more
        rw [escaped, List.cons_append, readChars, back]
        simp only [read]
        exact ⟨_, rfl⟩

/-- Behind its opening quote, the text of a string is read as the string. -/
theorem readBehindQuote_write (s : String) (rest : List Char) :
    Reads (readBehindQuote (s.toList.flatMap escape ++ '"' :: rest)) s rest := by
  have reads := (readChars_escape s.toList rest).map String.ofList
  rw [String.ofList_toList] at reads
  exact reads

theorem toList_write_append (s : String) (rest : List Char) :
    (write s).toList ++ rest = '"' :: (s.toList.flatMap escape ++ '"' :: rest) := by
  rw [write, String.toList_ofList, List.append_assoc]
  rfl

end Text

/-! ### Blanks -/

theorem skipSpace_append {gap : List Char} (blank : Blank gap) (cs : List Char) :
    skipSpace (gap ++ cs) = skipSpace cs :=
  List.dropWhile_append_of_pos blank

theorem skipSpace_cons {c : Char} (noSpace : isSpace c = false) (cs : List Char) :
    skipSpace (c :: cs) = c :: cs :=
  List.dropWhile_cons_of_neg (by simp [noSpace])

theorem skipSpace_gap {gap : List Char} {c : Char} (blank : Blank gap)
    (noSpace : isSpace c = false) (cs : List Char) : skipSpace (gap ++ c :: cs) = c :: cs := by
  rw [skipSpace_append blank, skipSpace_cons noSpace]

/-- A text of a value begins with a quote or a bracket. -/
theorem Written.exists_front {value : Value} {text : List Char} (written : Written value text) :
    ∃ c more, text = c :: more ∧ c ∈ ['"', '[', '\x7b'] := by
  cases written with
  | string s =>
      have same := Text.toList_write_append s []
      rw [List.append_nil] at same
      exact ⟨'"', _, same, by simp⟩
  | array enclosed => cases enclosed <;> exact ⟨'[', _, rfl, by simp⟩
  | object enclosed => cases enclosed <;> exact ⟨'\x7b', _, rfl, by simp⟩

/-- Before a text of a value only the blanks are skipped. -/
theorem Written.skipSpace_eq {value : Value} {gap text : List Char} (written : Written value text)
    (blank : Blank gap) (rest : List Char) :
    skipSpace (gap ++ (text ++ rest)) = text ++ rest := by
  obtain ⟨c, more, rfl, mem⟩ := written.exists_front
  rw [skipSpace_append blank, List.cons_append, skipSpace_cons]
  simp only [List.mem_cons, List.not_mem_nil, or_false] at mem
  rcases mem with rfl | rfl | rfl <;> rfl

/-! ### Simple values -/

variable {α β σ : Type} {cs rest : List Char}

/-- A reader takes every text of a value, blanks before it included, whatever follows, and gives
this for it. -/
def Reader.Takes (reader : Reader α) (value : Value) (a : α) : Prop :=
  ∀ gap text rest, Blank gap → Written value text → Reads (reader (gap ++ (text ++ rest))) a rest

theorem Reader.Takes.map {reader : Reader α} {value : Value} {a : α} (takes : reader.Takes value a)
    (f : α → β) : (reader.map f).Takes value (f a) :=
  fun gap text rest blank written => (takes gap text rest blank written).map f

/-- What a string is read as, known by what stands behind the blanks. -/
theorem reads_readText {inner : List Char} {s : String} (front : skipSpace cs = '"' :: inner)
    (read : Reads (Text.readBehindQuote inner) s rest) : Reads (readText cs) s rest := by
  unfold readText
  split
  case h_1 same =>
    rw [front] at same
    cases same
    exact read.widen _
  case h_2 other =>
    exact absurd front (other _)

theorem takes_readText (s : String) : readText.Takes (.string s) s := by
  intro gap text rest blank written
  have front := written.skipSpace_eq blank rest
  cases written
  rw [Text.toList_write_append] at front ⊢
  exact reads_readText front (Text.readBehindQuote_write s rest)

/-- Behind the blanks, the mark is taken. -/
theorem reads_readMark {mark : Char} (front : skipSpace cs = mark :: rest) :
    Reads (readMark mark cs) () rest := by
  unfold readMark
  split
  case h_1 none =>
    rw [front] at none
    cases none
  case h_2 same =>
    rw [front] at same
    cases same
    rw [if_pos rfl]
    exact ⟨_, rfl⟩

/-- A name out of a table is read as what it stands for. -/
theorem reads_readVariant {table : List (String × α)} {inner : List Char} {name : String} {a : α}
    (front : skipSpace cs = '"' :: inner) (read : Reads (readText cs) name rest)
    (entry : table.lookup name = some a) : Reads (readVariant table cs) a rest := by
  obtain ⟨within, found⟩ := read
  unfold readVariant
  split
  case h_2 =>
    rw [readName, found]
    simp only [entry]
    exact ⟨_, rfl⟩
  all_goals simp_all

theorem takes_readVariant {table : List (String × α)} {name : String} {a : α}
    (entry : table.lookup name = some a) : (readVariant table).Takes (.string name) a := by
  intro gap text rest blank written
  have front := written.skipSpace_eq blank rest
  have read := takes_readText name gap text rest blank written
  cases written
  exact reads_readVariant (front.trans (Text.toList_write_append name rest)) read entry

/-- What is not null is read as it is without the possibility of null. -/
theorem takes_readOptional {reader : Reader α} {value : Value} {a : α}
    (takes : reader.Takes value a) : (readOptional reader).Takes value (some a) := by
  intro gap text rest blank written
  have front := written.skipSpace_eq blank rest
  obtain ⟨c, more, rfl, mem⟩ := written.exists_front
  have reads := takes.map some gap _ rest blank written
  unfold readOptional
  split
  case h_1 same =>
    rw [front] at same
    cases same
    simp at mem
  case h_2 => exact reads

/-! ### Lists -/

theorem reads_nextElement_close (first : Bool) (front : skipSpace cs = ']' :: rest) :
    Reads (nextElement first cs) false rest := by
  unfold nextElement
  split
  case h_2 same =>
    rw [front] at same
    cases same
    exact ⟨_, rfl⟩
  all_goals simp_all

/-- Behind the opening bracket an element stands at once. -/
theorem Written.reads_nextElement_first {value : Value} {text : List Char}
    (written : Written value text) (front : skipSpace cs = text ++ rest) :
    Reads (nextElement true cs) true (text ++ rest) := by
  obtain ⟨c, more, rfl, mem⟩ := written.exists_front
  rw [List.cons_append] at front ⊢
  unfold nextElement
  split
  case h_1 same =>
    rw [front] at same
    cases same
  case h_2 same =>
    rw [front] at same
    cases same
    simp at mem
  case h_3 same =>
    rw [front] at same
    cases same
    exact ⟨_, rfl⟩

/-- Later it stands behind a comma. -/
theorem Written.reads_nextElement_comma {value : Value} {text gap : List Char}
    (written : Written value text) (blank : Blank gap)
    (comma : skipSpace cs = ',' :: (gap ++ (text ++ rest))) :
    Reads (nextElement false cs) true (text ++ rest) := by
  have front := written.skipSpace_eq blank rest
  obtain ⟨c, more, rfl, mem⟩ := written.exists_front
  unfold nextElement
  split
  case h_1 same =>
    rw [comma] at same
    cases same
  case h_2 same =>
    rw [comma] at same
    cases same
  case h_3 same =>
    rw [comma] at same
    cases same
    simp only [Bool.false_eq_true, if_false, if_true]
    split
    case h_1 same =>
      rw [front] at same
      cases same
    case h_2 same =>
      rw [front] at same
      cases same
      simp at mem
    case h_3 same =>
      rw [front] at same
      cases same
      exact ⟨_, rfl⟩

/-- At the closing bracket there is no element. -/
theorem reads_readElements_nil {reader : Reader α} {first : Bool} {bound : ℕ}
    (front : skipSpace cs = ']' :: rest) (h : cs.length < bound) :
    Reads (readElements reader first cs h) [] rest := by
  obtain ⟨_, found⟩ := reads_nextElement_close first front
  rw [readElements, found]
  exact ⟨_, rfl⟩

/-- An element and those behind it are read one after the other. -/
theorem reads_readElements_cons {reader : Reader α} {first : Bool} {bound : ℕ} {a : α}
    {as : List α} {front behind : List Char} (next : Reads (nextElement first cs) true front)
    (element : Reads (reader front) a behind)
    (others : ∀ bound (h : behind.length < bound),
      Reads (readElements reader false behind h) as rest)
    (h : cs.length < bound) : Reads (readElements reader first cs h) (a :: as) rest := by
  obtain ⟨_, found⟩ := next
  obtain ⟨_, read⟩ := element
  rw [readElements, found]
  simp only [read]
  obtain ⟨_, more⟩ := others bound (by omega)
  rw [more]
  exact ⟨_, rfl⟩

/-- The elements behind another one are read up to the closing bracket. -/
theorem reads_readElements_items {reader : Reader α} {toValue : α → Value}
    (takes : ∀ a, reader.Takes (toValue a) a) {as : List α} {text : List Char}
    (items : Items Written ']' (as.map toValue) text) (rest : List Char) {bound : ℕ}
    (h : (text ++ rest).length < bound) :
    Reads (readElements reader false (text ++ rest) h) as rest := by
  induction as generalizing text bound with
  | nil =>
      cases items with
      | @close gap blank =>
          refine reads_readElements_nil ?_ h
          rw [List.append_assoc]
          exact skipSpace_gap blank rfl rest
  | cons a as ih =>
      cases items with
      | @more gap gap' text tail _ _ before behind written others =>
          have comma : skipSpace (gap ++ ',' :: (gap' ++ (text ++ tail)) ++ rest) =
              ',' :: (gap' ++ (text ++ (tail ++ rest))) := by
            rw [List.append_assoc, List.cons_append, skipSpace_gap before rfl, List.append_assoc,
              List.append_assoc]
          exact reads_readElements_cons (written.reads_nextElement_comma behind comma)
            (takes a [] text _ blank_nil written) (fun _ less => ih others less) h

theorem reads_readList {reader : Reader α} {as : List α} {inner : List Char}
    (front : skipSpace cs = '[' :: inner)
    (elements : ∀ bound (h : inner.length < bound),
      Reads (readElements reader true inner h) as rest) :
    Reads (readList reader cs) as rest := by
  unfold readList
  split
  case h_1 same =>
    rw [front] at same
    cases same
    exact elements _ _
  case h_2 other => exact absurd front (other _)

/-- A list is read if its elements are. -/
theorem takes_readList {reader : Reader α} {toValue : α → Value}
    (takes : ∀ a, reader.Takes (toValue a) a) (as : List α) :
    (readList reader).Takes (.array (as.map toValue)) as := by
  intro gap text rest blank written
  have front := written.skipSpace_eq blank rest
  cases written with
  | array enclosed =>
      cases as with
      | nil =>
          cases enclosed with
          | @empty gap blank =>
              refine reads_readList front fun bound h => reads_readElements_nil ?_ h
              rw [List.append_eq, List.append_assoc]
              exact skipSpace_gap blank rfl rest
      | cons a as =>
          cases enclosed with
          | @nonempty gap text tail _ _ blank written others =>
              refine reads_readList front fun bound h => ?_
              have next : skipSpace (gap ++ (text ++ tail) ++ rest) = text ++ (tail ++ rest) := by
                rw [List.append_assoc, List.append_assoc, written.skipSpace_eq blank]
              exact reads_readElements_cons (written.reads_nextElement_first next)
                (takes a [] text _ blank_nil written)
                (fun _ less => reads_readElements_items takes others rest less) h

/-! ### Records -/

/-- The members are fields of a record, none of them twice, and reading their values turns the
first state into the last. -/
inductive Fills (fields : List (Field σ)) : σ → List (String × Value) → σ → Prop where
  | nil (state : σ) : Fills fields state [] state
  | cons {state next final : σ} {name : String} {value : Value} {members : List (String × Value)}
      {field : Field σ} (known : fields.find? (fun field => field.name == name) = some field)
      (unread : field.isRead state = false) (takes : (field.read state).Takes value next)
      (others : Fills fields next members final) :
      Fills fields state ((name, value) :: members) final

theorem reads_nextMember_close (first : Bool) (front : skipSpace cs = '\x7d' :: rest) :
    Reads (nextMember first cs) false rest := by
  unfold nextMember
  split
  case h_2 same =>
    rw [front] at same
    cases same
    exact ⟨_, rfl⟩
  all_goals simp_all

/-- Behind the opening brace the name of a member stands at once. -/
theorem reads_nextMember_first (front : skipSpace cs = '"' :: rest) :
    Reads (nextMember true cs) true rest := by
  unfold nextMember
  split
  case h_3 same =>
    rw [front] at same
    cases same
    exact ⟨_, rfl⟩
  all_goals simp_all

/-- Later it stands behind a comma. -/
theorem reads_nextMember_comma {behind : List Char} (comma : skipSpace cs = ',' :: behind)
    (front : skipSpace behind = '"' :: rest) : Reads (nextMember false cs) true rest := by
  unfold nextMember
  split
  case h_3 same =>
    rw [comma] at same
    cases same
    simp only [Bool.false_eq_true, if_false, if_true]
    split
    case h_2 same =>
      rw [front] at same
      cases same
      exact ⟨_, rfl⟩
    all_goals simp_all
  all_goals simp_all

variable {fields : List (Field σ)} {state next final : σ}

/-- At the closing brace there is no member. -/
theorem reads_readMembers_nil {first : Bool} {bound : ℕ} (front : skipSpace cs = '\x7d' :: rest)
    (h : cs.length < bound) : Reads (readMembers fields first state cs h) state rest := by
  obtain ⟨_, found⟩ := reads_nextMember_close first front
  rw [readMembers, found]
  exact ⟨_, rfl⟩

/-- A member that is a field is read, and those behind it are read after it. -/
theorem reads_readMembers_cons {first : Bool} {bound : ℕ} {name : String} {value : Value}
    {field : Field σ} {text : List Char} (tail : List Char)
    (known : fields.find? (fun field => field.name == name) = some field)
    (unread : field.isRead state = false) (takes : (field.read state).Takes value next)
    (member : Member Written (name, value) text)
    (begins : ∀ inner, text ++ tail = '"' :: inner → Reads (nextMember first cs) true inner)
    (others : ∀ bound (h : tail.length < bound),
      Reads (readMembers fields false next tail h) final rest)
    (h : cs.length < bound) : Reads (readMembers fields first state cs h) final rest := by
  cases member with
  | @member gap gap' text _ name before behind written =>
      have whole : (Text.write name).toList ++ (gap ++ ':' :: (gap' ++ text)) ++ tail =
          '"' :: (name.toList.flatMap Text.escape ++
            '"' :: (gap ++ ':' :: (gap' ++ text) ++ tail)) := by
        rw [List.append_assoc, Text.toList_write_append]
      have colon : skipSpace (gap ++ ':' :: (gap' ++ text) ++ tail) =
          ':' :: (gap' ++ (text ++ tail)) := by
        rw [List.append_assoc, List.cons_append, skipSpace_gap before rfl, List.append_assoc]
      obtain ⟨shorter, found⟩ := begins _ whole
      have less : tail.length < cs.length := by
        simp only [List.length_append, List.length_cons] at shorter
        omega
      obtain ⟨_, named⟩ :=
        Text.readBehindQuote_write name (gap ++ ':' :: (gap' ++ text) ++ tail)
      obtain ⟨_, marked⟩ := reads_readMark colon
      obtain ⟨_, read⟩ := takes gap' text tail behind written
      rw [readMembers, found]
      simp only [named, readMember, known, unread, Bool.false_eq_true, if_false, marked, read,
        Except.map]
      exact others bound (Nat.lt_trans less h)

/-- The members behind another one are read up to the closing brace. -/
theorem reads_readMembers_items {members : List (String × Value)}
    (fills : Fills fields state members final) {text : List Char}
    (items : Items (Member Written) '\x7d' members text) (rest : List Char) {bound : ℕ}
    (h : (text ++ rest).length < bound) :
    Reads (readMembers fields false state (text ++ rest) h) final rest := by
  induction fills generalizing text bound with
  | nil state =>
      cases items with
      | @close gap blank =>
          refine reads_readMembers_nil ?_ h
          rw [List.append_assoc]
          exact skipSpace_gap blank rfl rest
  | cons known unread takes _ ih =>
      cases items with
      | @more gap gap' text tail _ _ before behind member others =>
          refine reads_readMembers_cons (tail ++ rest) known unread takes member ?_
            (fun _ less => ih others less) h
          intro inner same
          have comma : skipSpace (gap ++ ',' :: (gap' ++ (text ++ tail)) ++ rest) =
              ',' :: (gap' ++ (text ++ (tail ++ rest))) := by
            rw [List.append_assoc, List.cons_append, skipSpace_gap before rfl, List.append_assoc,
              List.append_assoc]
          refine reads_nextMember_comma comma ?_
          rw [skipSpace_append behind, same, skipSpace_cons rfl]

theorem reads_readRecord {start : σ} {finish : σ → Option α} {a : α} {inner : List Char}
    (front : skipSpace cs = '\x7b' :: inner)
    (members : ∀ bound (h : inner.length < bound),
      Reads (readMembers fields true start inner h) final rest)
    (finished : finish final = some a) : Reads (readRecord fields start finish cs) a rest := by
  unfold readRecord
  split
  case h_1 same =>
    rw [front] at same
    cases same
  case h_2 same =>
    rw [front] at same
    cases same
    obtain ⟨_, found⟩ := members _ (length_lt_of_skipSpace front)
    rw [found]
    simp only [finished]
    exact ⟨_, rfl⟩
  case h_3 other => exact absurd front (other _)

/-- An object is read as a record if its members fill the fields of a complete one. -/
theorem takes_readRecord {start : σ} {finish : σ → Option α} {members : List (String × Value)}
    {a : α} (fills : Fills fields start members final) (finished : finish final = some a) :
    (readRecord fields start finish).Takes (.object members) a := by
  intro gap text rest blank written
  have front := written.skipSpace_eq blank rest
  cases written with
  | object enclosed =>
      cases enclosed with
      | @empty gap blank =>
          cases fills
          refine reads_readRecord front (fun bound h => reads_readMembers_nil ?_ h) finished
          rw [List.append_eq, List.append_assoc]
          exact skipSpace_gap blank rfl rest
      | @nonempty gap text tail _ _ blank member others =>
          cases fills with
          | cons known unread takes more =>
              refine reads_readRecord front (fun bound h => ?_) finished
              refine reads_readMembers_cons (tail ++ rest) known unread takes member ?_
                (fun _ less => reads_readMembers_items more others rest less) h
              intro inner same
              refine reads_nextMember_first ?_
              rw [List.append_eq, List.append_assoc, List.append_assoc, skipSpace_append blank,
                same, skipSpace_cons rfl]

/-! ### Whole texts -/

/-- A text of a value is read as what its reader gives for it. -/
theorem readWhole_of_takes {reader : Reader α} {value : Value} {a : α}
    (takes : reader.Takes value a) {text : String} (written : Written value text.toList) :
    readWhole reader text = .ok a := by
  have reads := takes [] text.toList [] blank_nil written
  rw [List.nil_append, List.append_nil] at reads
  obtain ⟨_, read⟩ := reads
  rw [readWhole, read]
  rfl

end Covenant.Json
