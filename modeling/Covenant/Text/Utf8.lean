/-
**Text as UTF-8 bytes.**

Main definitions:

* `Covenant.Text.Utf8.encode`, `Covenant.Text.Utf8.decode?` — the bytes of a text, and the text of
  bytes where there is one;
* `Covenant.Text.Utf8.size` — the number of bytes of a list of characters.

Main results:

* `Covenant.Text.Utf8.decode?_eq_some_iff` — the bytes that decode are those some text encodes to.
-/

set_option relaxedAutoImplicit false
set_option autoImplicit false

namespace Covenant.Text.Utf8

/-- The bytes of a text. -/
def encode (s : String) : List UInt8 :=
  s.toList.flatMap String.utf8EncodeChar

/-- The text whose bytes these are, if they are valid. -/
def decode? (bytes : List UInt8) : Option String :=
  String.fromUTF8? bytes.toByteArray

theorem toByteArray_encode (s : String) : (encode s).toByteArray = s.toByteArray := by
  have h := String.toByteArray_ofList (l := s.toList)
  rw [String.ofList_toList] at h
  rw [h]
  simp [encode, List.utf8Encode]

theorem decode?_encode (s : String) : decode? (encode s) = some s := by
  have valid : s.toByteArray.IsValidUTF8 := s.isValidUTF8
  simp only [decode?, toByteArray_encode, String.fromUTF8?, valid, dite_true]
  rfl

theorem eq_encode_of_decode? {bytes : List UInt8} {s : String} (h : decode? bytes = some s) :
    bytes = encode s := by
  unfold decode? String.fromUTF8? at h
  split at h
  · cases h
    have same := congrArg (fun b => b.data.toList)
      (toByteArray_encode (String.fromUTF8 bytes.toByteArray ‹_›))
    simpa [String.fromUTF8, List.data_toByteArray] using same.symm
  · cases h

/-- Exactly the bytes of a text decode to it. -/
theorem decode?_eq_some_iff {bytes : List UInt8} {s : String} :
    decode? bytes = some s ↔ bytes = encode s :=
  ⟨eq_encode_of_decode?, fun h => h ▸ decode?_encode s⟩

/-! ### Sizes -/

/-- The number of bytes that a list of characters takes. -/
def size (cs : List Char) : Nat :=
  cs.foldr (fun c n => c.utf8Size + n) 0

@[simp] theorem size_nil : size [] = 0 := rfl

@[simp] theorem size_cons (c : Char) (cs : List Char) : size (c :: cs) = c.utf8Size + size cs := rfl

@[simp] theorem size_append (cs ds : List Char) : size (cs ++ ds) = size cs + size ds := by
  induction cs with
  | nil => simp
  | cons c cs ih => simp [ih, Nat.add_assoc]

/-- A text has as many bytes as its characters take. -/
theorem length_encode (s : String) : (encode s).length = size s.toList := by
  unfold encode
  induction s.toList with
  | nil => rfl
  | cons c cs ih => simp [ih]

end Covenant.Text.Utf8
