/-
**Blanks and comments between tokens mean nothing.**

Further blanks and comments may be put into a text wherever this divides no token and no comment,
and the text is read as before.  There is nothing to be said about the readers: they see the same
tokens.  What has to be shown is that every piece of the text stays a piece next to what was put in.

No token goes on with a blank, so a filler that begins with a blank leaves the token before it
alone.  A comment does go on with it, up to the end of the line.  If it is put in at the end of a
comment, the filler is taken into the comment up to its own first line end, and what is left of it
from there on is a filler again.

Main definitions:

* `Covenant.Token.Filler` — blanks, and comments with their line ends.

Main results:

* `Token.Filler.divide` — a filler is on one line, or goes on as a filler behind its first line;
* `Token.Pieces.insert` — a text keeps its tokens if a filler is put between its pieces;
* `ofText_insert` — **a text that is read is read as the same with a filler put in**.
-/

import Covenant.Proofs.Contract.Pieces
import Covenant.Proofs.Contract.Soundness
import Covenant.Proofs.Contract.StatementEnd

set_option relaxedAutoImplicit false
set_option autoImplicit false

namespace Covenant

namespace Token

/-! ### Fillers -/

/-- The text consists of blanks, and of comments with a line end behind each of them. -/
inductive Filler : List Char → Prop where
  | nil : Filler []
  | blank {c : Char} {gap : List Char} (blank : c ∈ [' ', '\t', '\r', '\n']) (more : Filler gap) :
      Filler (c :: gap)
  | comment {body gap : List Char} {c : Char} (inside : ∀ d ∈ body, d ≠ '\n' ∧ d ≠ '\r')
      (closing : c = '\n' ∨ c = '\r') (more : Filler gap) :
      Filler ('/' :: '/' :: (body ++ c :: gap))

variable {text front back gap rest other : List Char} {these tokens others : List Token}

theorem mem_blanks {c : Char} (closing : c = '\n' ∨ c = '\r') : c ∈ [' ', '\t', '\r', '\n'] := by
  rcases closing with rfl | rfl <;> simp

/-- A filler is made of pieces without tokens, whatever follows. -/
theorem Filler.pieces (filler : Filler gap) : Pieces rest gap [] := by
  induction filler with
  | nil => exact .nil
  | blank blank _ ih => exact .cons (.blank blank _) ih
  | @comment body gap c inside closing _ ih =>
      have line : Piece ('/' :: '/' :: body) ([c] ++ gap ++ rest) [] :=
        .comment inside (by rintro d ⟨⟩; exact closing)
      exact .cons line (.cons (.blank (mem_blanks closing) _) ih)

/-- A filler is on one line, or it goes on as a filler behind its first line. -/
theorem Filler.divide (filler : Filler gap) : (∀ c ∈ gap, c ≠ '\n' ∧ c ≠ '\r') ∨
    ∃ line c more, gap = line ++ c :: more ∧ (∀ d ∈ line, d ≠ '\n' ∧ d ≠ '\r') ∧
      (c = '\n' ∨ c = '\r') ∧ Filler more := by
  induction filler with
  | nil => exact .inl (by simp)
  | @blank c gap blank more ih =>
      by_cases closing : c = '\n' ∨ c = '\r'
      · exact .inr ⟨[], c, gap, rfl, by simp, closing, more⟩
      · rw [not_or] at closing
        rcases ih with line | ⟨line, d, others, rfl, inside, ends, filler⟩
        · exact .inl (List.forall_mem_cons.2 ⟨closing, line⟩)
        · exact .inr ⟨c :: line, d, others, rfl, List.forall_mem_cons.2 ⟨closing, inside⟩, ends,
            filler⟩
  | @comment body gap c inside closing more _ =>
      refine .inr ⟨'/' :: '/' :: body, c, gap, rfl, ?_, closing, more⟩
      simpa using inside

/-! ### Putting in -/

/-- Whether a token is complete shows in the character behind it. -/
theorem Ends.of_head? {token : Token} (ends : token.Ends rest) (same : rest.head? = other.head?) :
    token.Ends other := by
  have differs : ∀ {c : Char}, (∀ more, rest ≠ c :: more) → ∀ more, other ≠ c :: more := by
    rintro c apart more rfl
    obtain ⟨tail, front⟩ := List.head?_eq_some_iff.1 same
    exact apart tail front
  cases token with
  | symbol s => cases s <;> first | trivial | exact differs ends
  | text value => trivial
  | _ =>
      intro c mem
      rw [← same] at mem
      exact ends c mem

/-- A token is complete before a blank. -/
theorem ends_blank {c : Char} (token : Token) (blank : c ∈ [' ', '\t', '\r', '\n'])
    (rest : List Char) : token.Ends (c :: rest) := by
  have other : isWordChar c = false ∧ c ≠ '=' ∧ c ≠ '/' := by
    simp only [List.mem_cons, List.not_mem_nil, or_false] at blank
    rcases blank with rfl | rfl | rfl | rfl <;> simp [isWordChar]
  cases token with
  | symbol s => cases s <;> simp [Ends, Symbol.Ends, other]
  | text value => trivial
  | _ => exact apart_cons c other.1 rest

/-- Whether a text is one piece shows in the character behind it. -/
theorem Piece.of_head? (piece : Piece text rest these) (same : rest.head? = other.head?) :
    Piece text other these := by
  cases piece with
  | blank blank => exact .blank blank other
  | comment inside ends => exact .comment inside (by rwa [same] at ends)
  | token spells ends => exact .token spells (ends.of_head? same)

/-- A text made of whole pieces stays so before a line feed. -/
theorem Pieces.before_lineFeed (pieces : Pieces rest front tokens) (more : List Char) :
    Pieces ('\n' :: more) front tokens := by
  induction pieces with
  | nil => exact .nil
  | @cons text front these tokens piece _ ih =>
      refine .cons ?_ ih
      cases front with
      | cons next front => exact piece.of_head? rfl
      | nil =>
          cases piece with
          | blank blank => exact .blank blank _
          | comment inside _ => exact .comment inside (by rintro c ⟨⟩; exact .inl rfl)
          | token spells _ => exact .token spells (ends_blank _ (by simp) more)

/-- A filler behind a comment is taken into it up to its first line end. -/
theorem Filler.pieces_comment {body : List Char} (filler : Filler gap)
    (inside : ∀ c ∈ body, c ≠ '\n' ∧ c ≠ '\r') (ends : ∀ c ∈ back.head?, c = '\n' ∨ c = '\r') :
    Pieces back ('/' :: '/' :: (body ++ gap)) [] := by
  rcases filler.divide with line | ⟨line, c, more, rfl, begun, closing, left⟩
  · have whole : Piece ('/' :: '/' :: (body ++ gap)) ([] ++ back) [] :=
      .comment (List.forall_mem_append.2 ⟨inside, line⟩) ends
    have alone := Pieces.cons whole .nil
    rwa [List.append_nil] at alone
  · have first : Piece ('/' :: '/' :: (body ++ line)) ([c] ++ more ++ back) [] :=
      .comment (List.forall_mem_append.2 ⟨inside, begun⟩) (by rintro d ⟨⟩; exact closing)
    have all := Pieces.cons first (.cons (.blank (mem_blanks closing) _) left.pieces)
    simpa using all

/-- **A text keeps its tokens if a filler that begins with a blank is put between its pieces.** -/
theorem Pieces.insert {c : Char} (before : Pieces back front tokens)
    (blank : c ∈ [' ', '\t', '\r', '\n']) (filler : Filler (c :: gap)) :
    Pieces back (front ++ c :: gap) tokens := by
  induction before with
  | nil => exact filler.pieces
  | @cons text front these tokens piece more ih =>
      rw [List.append_assoc]
      cases front with
      | cons next front =>
          refine .cons (piece.of_head? ?_) ih
          simp
      | nil =>
          -- the filler is put behind this piece, and nothing else is before the cut
          rw [more.tokens_eq_nil]
          cases piece with
          | blank space => exact .cons (.blank space _) filler.pieces
          | comment inside ends => exact filler.pieces_comment inside ends
          | token spells _ => exact .cons (.token spells (ends_blank _ blank _)) filler.pieces

end Token

/-! ### Reading -/

/-- The tokens of a text that is read as a contract are read as it. -/
theorem Contract.reads_of_ofText {source : String} {contract : Contract}
    (h : ofText source = .ok contract) :
    Reads (read (Token.scan source.toList).list) contract [] := by
  unfold ofText at h
  simp only at h
  split at h
  case h_1 => cases h
  case h_2 front found =>
    unfold Token.Scan.complete at h
    split at h <;> cases h
    case isTrue nothing =>
      obtain ⟨value, rest, within⟩ := front
      obtain ⟨rfl, -⟩ := nothing
      exact ⟨within, found⟩

/-- The tokens of a text that statements are read from are read as these. -/
theorem Statement.reads_of_listOfText {source : String} {statements : List Statement}
    (h : listOfText source = .ok statements) :
    Reads (readAll (Token.scan source.toList).list (length_lt_succ _)) statements [] := by
  obtain ⟨⟨value, rest, within⟩, found, rfl, rfl⟩ := exists_readAll_of_listOfText h
  exact ⟨within, found⟩

/-- Only the tokens of a text matter, if it is made of tokens. -/
theorem Contract.ofText_of_layout {source other : String} {contract : Contract}
    (h : ofText source = .ok contract) {tokens : List Token}
    (layout : Token.Layout source.toList tokens) (again : Token.Layout other.toList tokens) :
    ofText other = .ok contract := by
  have reads := reads_of_ofText h
  rw [(Token.layout_iff.1 layout).1] at reads
  exact ofText_of_scan (Token.layout_iff.1 again) reads

/-- Only the tokens of statements matter as well. -/
theorem Statement.listOfText_of_layout {source other : String} {statements : List Statement}
    (h : listOfText source = .ok statements) {tokens : List Token}
    (layout : Token.Layout source.toList tokens) (again : Token.Layout other.toList tokens) :
    listOfText other = .ok statements := by
  have reads := reads_of_listOfText h
  rw [(Token.layout_iff.1 layout).1] at reads
  exact listOfText_of_scan (Token.layout_iff.1 again) reads

/-- **A text that is read is read as the same with a filler put in**, if the cut divides no token
and no comment, and the filler begins with a blank and ends its comments. -/
theorem ofText_insert {front back gap : String} (uncut : ¬ Token.Divides front.toList back.toList)
    (begins : ∃ c ∈ gap.toList.head?, c ∈ [' ', '\t', '\r', '\n'])
    (filler : Token.Filler gap.toList) :
    (∀ contract, Contract.ofText (front ++ back) = .ok contract →
      Contract.ofText (front ++ gap ++ back) = Contract.ofText (front ++ back)) ∧
    ∀ statements, Statement.listOfText (front ++ back) = .ok statements →
      Statement.listOfText (front ++ gap ++ back) = Statement.listOfText (front ++ back) := by
  have keeps : ∀ tokens, Token.Layout (front ++ back).toList tokens →
      Token.Layout (front ++ gap ++ back).toList tokens := by
    intro tokens layout
    rw [Token.layout_iff_pieces, String.toList_append] at layout
    obtain ⟨before, behind, rfl, first, last⟩ := layout.divides_or_append.resolve_left uncut
    obtain ⟨c, head, blank⟩ := begins
    obtain ⟨more, same⟩ := List.head?_eq_some_iff.1 head
    rw [same] at filler
    rw [Token.layout_iff_pieces, String.toList_append, String.toList_append, same]
    exact Token.Pieces.append (by rw [List.append_nil]; exact first.insert blank filler) last
  constructor
  · intro contract read
    obtain ⟨tokens, layout, -⟩ := Contract.derives_of_ofText read
    rw [read]
    exact Contract.ofText_of_layout read layout (keeps tokens layout)
  · intro statements read
    obtain ⟨tokens, layout, -⟩ := Statement.derives_of_listOfText read
    rw [read]
    exact Statement.listOfText_of_layout read layout (keeps tokens layout)

/-- A comment, with a blank before it and a carriage return behind it, is put in before a line
feed. -/
theorem ofText_insert_comment :
    Contract.ofText ("contract \x7b func f() \x7b return" ++ " // one\r" ++ "\n1 \x7d \x7d") = .ok
      ⟨[⟨"f", [], none, [.return (some (.integer 1))]⟩]⟩ ∧
    Statement.listOfText ("a // b" ++ " // one\r" ++ "\n+ c") =
      .ok [.expression (.binary (.identifier "a") .plus (.identifier "c"))] := by
  -- what stands before a line feed is not divided there if it is made of tokens by itself
  have uncut : ∀ (front back : String), (Token.scan front.toList).stop = [] →
      ¬ Token.Divides front.toList ("\n" ++ back).toList := by
    intro front back complete
    have pieces := Token.layout_iff_pieces.1 (Token.layout_iff.2 ⟨rfl, complete⟩)
    rw [String.toList_append]
    exact (pieces.before_lineFeed back.toList).not_divides
  have filler : Token.Filler " // one\r".toList :=
    @Token.Filler.blank ' ' _ (by simp)
      (@Token.Filler.comment [' ', 'o', 'n', 'e'] [] '\r' (by simp) (.inr rfl) .nil)
  have begins : ∃ c ∈ " // one\r".toList.head?, c ∈ [' ', '\t', '\r', '\n'] :=
    ⟨' ', rfl, by simp⟩
  constructor
  · have read : Contract.ofText ("contract \x7b func f() \x7b return" ++ "\n1 \x7d \x7d") = .ok
        ⟨[⟨"f", [], none, [.return (some (.integer 1))]⟩]⟩ :=
      Contract.ofText_of_scan (by decide +kernel : _ = [.keyword .contract, .symbol .openBrace,
        .keyword .func, .identifier "f", .symbol .openParen, .symbol .closeParen,
        .symbol .openBrace, .keyword .return, .integer 1, .symbol .closeBrace,
        .symbol .closeBrace] ∧ _)
        ⟨by decide, by cbv⟩
    have cut := uncut "contract \x7b func f() \x7b return" "1 \x7d \x7d" (by decide +kernel)
    exact ((ofText_insert cut begins filler).1 _ read).trans read
  · have read : Statement.listOfText ("a // b" ++ "\n+ c") =
        .ok [.expression (.binary (.identifier "a") .plus (.identifier "c"))] :=
      Statement.listOfText_of_scan
        (by decide +kernel : _ = [.identifier "a", .symbol .plus, .identifier "c"] ∧ _)
        ⟨by decide, by cbv⟩
    have cut := uncut "a // b" "+ c" (by decide +kernel)
    exact ((ofText_insert cut begins filler).2 _ read).trans read

end Covenant
