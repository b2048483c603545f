/-
**A text is cut between its pieces.**

The pieces of a text are its blanks, its comments and its tokens.  Whether some characters are a
piece depends on what follows them, but on no more than the first character of it, so that a text
can be taken apart at a place between two pieces and put together again around something else.

The places between pieces are known without reading the text from the left: they are those where no
token and no comment reaches across.  One direction is that a cut which lies between no pieces goes
through one.  The other one needs that a text cannot be taken to pieces in two ways, and this holds
because the length of the piece at its front can be computed.

Main definitions:

* `Covenant.Token.Piece`, `Covenant.Token.Pieces` — a text is one piece, or whole pieces, where it
  goes on in a given way;
* `Covenant.Token.Divides` — a cut through a text goes through a token or a comment.

Main results:

* `Token.layout_iff_pieces` — a text is made of tokens if it is made of pieces;
* `Token.Pieces.divides_or_append`, `Token.Pieces.not_divides` — **a cut that divides no piece lies
  between pieces**, and a cut between pieces divides none.
-/

import Covenant.Proofs.Contract.Lexing

set_option relaxedAutoImplicit false
set_option autoImplicit false

namespace Covenant.Token

/-! ### Pieces -/

/-- The text is one blank, one comment or one token where it goes on like this, and these are the
tokens in it. -/
inductive Piece : List Char → List Char → List Token → Prop where
  | blank {c : Char} (blank : c ∈ [' ', '\t', '\r', '\n']) (rest : List Char) : Piece [c] rest []
  | comment {body rest : List Char} (inside : ∀ c ∈ body, c ≠ '\n' ∧ c ≠ '\r')
      (ends : ∀ c ∈ rest.head?, c = '\n' ∨ c = '\r') : Piece ('/' :: '/' :: body) rest []
  | token {token : Token} {spelling rest : List Char} (spells : token.Spells spelling)
      (ends : token.Ends rest) : Piece spelling rest [token]

/-- The text is made of whole pieces where it goes on like this, and these are the tokens in it. -/
inductive Pieces (rest : List Char) : List Char → List Token → Prop where
  | nil : Pieces rest [] []
  | cons {text front : List Char} {these tokens : List Token}
      (piece : Piece text (front ++ rest) these) (more : Pieces rest front tokens) :
      Pieces rest (text ++ front) (these ++ tokens)

variable {text spelling source front back rest other : List Char}
  {these tokens others : List Token}

/-- The characters of a token are a word, a text between quotation marks, or a symbol. -/
inductive Form : List Char → List Char → Prop where
  | word {text rest : List Char} (nonempty : text ≠ []) (run : ∀ c ∈ text, isWordChar c = true)
      (apart : Apart rest) : Form text rest
  | quoted {value rest : List Char} (unquoted : '"' ∉ value) : Form ('"' :: (value ++ ['"'])) rest
  | symbol (symbol : Symbol) {rest : List Char} (ends : symbol.Ends rest) :
      Form symbol.spelling rest

theorem Spells.form {token : Token} (spells : token.Spells spelling) (ends : token.Ends rest) :
    Form spelling rest := by
  cases token with
  | keyword k =>
      rw [show spelling = k.spelling.toList from spells]
      cases k <;> exact .word (by decide) (List.all_eq_true.1 (by decide)) ends
  | identifier name =>
      obtain ⟨⟨-, head, letters⟩, rfl⟩ := spells
      refine .word ?_ letters ends
      intro none
      rw [none] at head
      cases head
  | integer value =>
      obtain ⟨nonempty, digits, -⟩ := spells
      exact .word nonempty (fun c mem => isWordChar_of_isDigit (digits c mem)) ends
  | minMagnitude =>
      rw [show spelling = "9223372036854775808".toList from spells]
      exact .word (by decide) (List.all_eq_true.1 (by decide)) ends
  | text value =>
      obtain ⟨unquoted, rfl⟩ := spells
      exact .quoted unquoted
  | symbol s =>
      rw [show spelling = s.spelling from spells]
      exact .symbol s ends

theorem Form.ne_nil (form : Form text rest) : text ≠ [] := by
  cases form with
  | word nonempty => exact nonempty
  | quoted => simp
  | symbol s => cases s <;> simp [Symbol.spelling]

theorem Piece.ne_nil (piece : Piece text rest these) : text ≠ [] := by
  cases piece with
  | blank => simp
  | comment => simp
  | token spells ends => exact (spells.form ends).ne_nil

/-- Whole pieces before others. -/
theorem Pieces.append (first : Pieces (back ++ rest) front tokens)
    (second : Pieces rest back others) : Pieces rest (front ++ back) (tokens ++ others) := by
  induction first with
  | nil => exact second
  | cons piece _ ih =>
      rw [List.append_assoc, List.append_assoc]
      refine .cons ?_ ih
      rwa [List.append_assoc]

theorem Pieces.tokens_eq_nil (pieces : Pieces rest [] tokens) : tokens = [] := by
  generalize same : ([] : List Char) = text at pieces
  cases pieces with
  | nil => rfl
  | cons piece => exact absurd (List.append_eq_nil_iff.1 same.symm).1 piece.ne_nil

/-! ### Layout -/

/-- A gap is made of pieces without tokens. -/
theorem Gap.pieces (gap : Gap source rest) : ∃ front, source = front ++ rest ∧
    Pieces rest front [] := by
  induction gap with
  | refl rest => exact ⟨[], rfl, .nil⟩
  | blank blank _ ih =>
      obtain ⟨front, rfl, more⟩ := ih
      exact ⟨_, rfl, .cons (.blank blank _) more⟩
  | @comment body _ _ inside ends _ ih =>
      obtain ⟨front, rfl, more⟩ := ih
      exact ⟨('/' :: '/' :: body) ++ front, by simp, .cons (.comment inside ends) more⟩

theorem Gap.trans {middle : List Char} (first : Gap source middle) (second : Gap middle rest) :
    Gap source rest := by
  induction first with
  | refl => exact second
  | blank blank _ ih => exact .blank blank (ih second)
  | comment inside ends _ ih => exact .comment inside ends (ih second)

/-- A gap before a text adds no tokens to it. -/
theorem Layout.of_gap (gap : Gap source rest) (layout : Layout rest tokens) :
    Layout source tokens := by
  cases layout with
  | nil more => exact .nil (gap.trans more)
  | cons more spells ends behind => exact .cons (gap.trans more) spells ends behind

/-- **A text is made of tokens if it is made of pieces** with these tokens, and nothing follows. -/
theorem layout_iff_pieces : Layout source tokens ↔ Pieces [] source tokens := by
  constructor
  · intro layout
    induction layout with
    | nil gap =>
        obtain ⟨front, rfl, pieces⟩ := gap.pieces
        rwa [List.append_nil]
    | @cons token tokens source spelling rest gap spells ends _ ih =>
        obtain ⟨front, rfl, pieces⟩ := gap.pieces
        have one : Pieces [] (spelling ++ rest) (token :: tokens) :=
          .cons (.token spells (by rwa [List.append_nil])) ih
        rw [← List.nil_append (token :: tokens)]
        exact Pieces.append (by rwa [List.append_nil]) one
  · intro pieces
    induction pieces with
    | nil => exact .nil (.refl [])
    | cons piece _ ih =>
        rw [List.append_nil] at piece
        cases piece with
        | blank blank => exact ih.of_gap (.blank blank (.refl _))
        | comment inside ends => exact ih.of_gap (.comment inside ends (.refl _))
        | token spells ends => exact .cons (.refl _) spells ends ih

/-! ### Cuts -/

/-- A token or a comment of the text begins before the cut and ends behind it. -/
def Divides (front back : List Char) : Prop :=
  ∃ before first second after tokens these, front = before ++ first ∧ back = second ++ after ∧
    first ≠ [] ∧ second ≠ [] ∧ Pieces (first ++ back) before tokens ∧
    Piece (first ++ second) after these

/-- What is divided behind a piece is divided. -/
theorem Divides.append (divides : Divides front back)
    (piece : Piece text (front ++ back) these) : Divides (text ++ front) back := by
  obtain ⟨before, first, second, after, tokens, others, rfl, rfl, begun, left, pieces, across⟩ :=
    divides
  rw [List.append_assoc] at piece
  exact ⟨text ++ before, first, second, after, these ++ tokens, others,
    (List.append_assoc _ _ _).symm, rfl, begun, left, .cons piece pieces, across⟩

/-- **A cut that divides nothing lies between pieces**, and the tokens are cut there as well. -/
theorem Pieces.divides_or_append (pieces : Pieces [] (front ++ back) tokens) :
    Divides front back ∨ ∃ before behind, tokens = before ++ behind ∧ Pieces back front before ∧
      Pieces [] back behind := by
  generalize same : front ++ back = source at pieces
  induction pieces generalizing front with
  | nil =>
      obtain ⟨rfl, rfl⟩ := List.append_eq_nil_iff.1 same
      exact .inr ⟨[], [], rfl, .nil, .nil⟩
  | @cons text source these tokens piece more ih =>
      rw [List.append_nil] at piece
      rcases List.append_eq_append_iff.1 same with ⟨second, rfl, rfl⟩ | ⟨later, rfl, rfl⟩
      · -- the cut lies in the piece or at one of its ends
        by_cases begun : front = []
        · subst begun
          refine .inr ⟨[], these ++ tokens, rfl, .nil, .cons ?_ more⟩
          rwa [List.append_nil]
        by_cases left : second = []
        · subst left
          rw [List.append_nil] at piece
          have alone := @Pieces.cons source front [] these [] piece .nil
          rw [List.append_nil, List.append_nil] at alone
          exact .inr ⟨these, tokens, rfl, alone, more⟩
        · exact .inl ⟨[], front, second, source, [], these, rfl, rfl, begun, left, .nil, piece⟩
      · rcases ih rfl with divides | ⟨before, behind, rfl, first, last⟩
        · exact .inl (divides.append piece)
        · exact .inr ⟨these ++ before, behind, by rw [List.append_assoc], .cons piece first, last⟩

/-! ### Only these cuts -/

/-- The number of characters of the piece at the front of a text. -/
def pieceLength : List Char → ℕ
  | [] => 0
  | c :: cs =>
    if isSpace c then 1
    else if isWordChar c then (cs.takeWhile isWordChar).length + 1
    else if c = '"' then (cs.takeWhile (· != '"')).length + 2
    else
      match c, cs with
      | '/', '/' :: comment => (comment.takeWhile fun d => d != '\n' && d != '\r').length + 2
      | _, _ => (Symbol.front? (c :: cs)).elim 0 fun found => found.1.spelling.length

/-- What is taken of a text up to the first character that is not in it. -/
theorem takeWhile_append {p : Char → Bool} (run : ∀ c ∈ front, p c = true)
    (stops : ∀ c ∈ rest.head?, p c = false) : (front ++ rest).takeWhile p = front := by
  rw [List.takeWhile_append_of_pos run]
  cases rest with
  | nil => exact List.append_nil _
  | cons c rest =>
      rw [List.takeWhile_cons_of_neg (by simp [stops c rfl]), List.append_nil]

theorem isSpace_of_isWordChar {c : Char} (word : isWordChar c = true) : isSpace c = false := by
  cases space : isSpace c with
  | false => rfl
  | true =>
      have blank := isSpace_iff.1 space
      simp only [List.mem_cons, List.not_mem_nil, or_false] at blank
      rcases blank with rfl | rfl | rfl | rfl <;> cases word

theorem Form.pieceLength_eq (form : Form text rest) : pieceLength (text ++ rest) = text.length := by
  cases form with
  | @word text rest nonempty run apart =>
      obtain ⟨c, letters, rfl⟩ := List.exists_cons_of_ne_nil nonempty
      rw [List.forall_mem_cons] at run
      rw [List.cons_append, pieceLength.eq_def]
      simp only [isSpace_of_isWordChar run.1, run.1, takeWhile_append run.2 apart, if_true,
        Bool.false_eq_true, if_false, List.length_cons]
  | @quoted value rest unquoted =>
      have inner : ∀ c ∈ value, (c != '"') = true := by
        intro c mem
        rw [bne_iff_ne]
        rintro rfl
        exact unquoted mem
      have taken := @takeWhile_append value ('"' :: rest) _ inner (by simp)
      have noSpace : isSpace '"' = false := rfl
      have noWord : isWordChar '"' = false := rfl
      rw [List.cons_append, List.append_assoc, List.singleton_append, pieceLength.eq_def]
      simp [noSpace, noWord, taken]
  | @symbol s rest ends =>
      have front := Symbol.front?_spelling ends
      cases s with
      | slash =>
          rw [Symbol.spelling, List.singleton_append] at front ⊢
          rw [pieceLength.eq_def]
          cases rest with
          | nil => rfl
          | cons c rest =>
              have other : c ≠ '/' := fun same => ends rest (by rw [same])
              simp [front, other, isSpace, isWordChar, Symbol.spelling]
      | _ =>
          rw [Symbol.spelling] at front ⊢
          simp only [List.cons_append, List.nil_append] at front ⊢
          rw [pieceLength.eq_def]
          simp [front, isSpace, isWordChar, Symbol.spelling]

theorem Piece.pieceLength_eq (piece : Piece text rest these) :
    pieceLength (text ++ rest) = text.length := by
  cases piece with
  | @blank c blank rest =>
      have space := isSpace_iff.2 blank
      rw [List.singleton_append, pieceLength.eq_def]
      simp [space]
  | @comment body rest inside ends =>
      have inner : ∀ c ∈ body, (c != '\n' && c != '\r') = true := by
        intro c mem
        simp [inside c mem]
      have taken := @takeWhile_append body rest _ inner (by
        intro c mem
        rcases ends c mem with rfl | rfl <;> rfl)
      have noSpace : isSpace '/' = false := rfl
      have noWord : isWordChar '/' = false := rfl
      rw [List.cons_append, List.cons_append, pieceLength.eq_def]
      simp [noSpace, noWord, taken]
  | token spells ends => exact (spells.form ends).pieceLength_eq

/-- Two pieces at the front of the same text are the same characters. -/
theorem Piece.unique {after : List Char} {those : List Token} (piece : Piece text rest these)
    (another : Piece other after those) (same : text ++ rest = other ++ after) : text = other := by
  have length := piece.pieceLength_eq
  rw [same, another.pieceLength_eq] at length
  exact (List.append_inj same length.symm).1

/-- No cut between pieces divides one. -/
theorem Pieces.not_divides (pieces : Pieces back front tokens) : ¬ Divides front back := by
  rintro ⟨before, first, second, after, others, those, rfl, rfl, begun, left, inner, across⟩
  generalize same : before ++ first = front at pieces
  induction pieces generalizing before others with
  | nil => exact begun (List.append_eq_nil_iff.1 same).2
  | @cons text front these tokens piece more ih =>
      cases inner with
      | nil =>
          -- the divided piece would be the one at the front, and longer than it
          rw [List.nil_append] at same
          subst same
          have whole := congrArg List.length (piece.unique across (by simp))
          simp only [List.length_append] at whole
          exact left (List.eq_nil_of_length_eq_zero (by omega))
      | @cons next before _ _ nextPiece inner =>
          rw [List.append_assoc] at same
          obtain rfl : text = next := piece.unique nextPiece (by simp [← List.append_assoc, same])
          exact ih _ _ inner (List.append_cancel_left same)

end Covenant.Token
