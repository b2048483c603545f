/-
**A mistake is reported where the text goes wrong.**

A report gives the line and the column of a place in the text and the word that stands there.  What
stands before that place is no mistake: it can be completed to a text that is read.  So whoever
reads the report need not look for the mistake further up.

The tokens before a mistake can be completed, as was shown for the readers.  In the text, the
completion begins with a line feed, which ends whatever token or comment stands last before the
mistake, and leaves the pieces before it as they are.

Main definitions:

* `Covenant.ParseError.Finds` — the word that is reported to be found at the front of a text;
* `Covenant.ParseError.Denotes` — a report is about the place between two parts of a text.

Main results:

* `Token.exists_pieces_of_scan` — a text can be cut where one of its tokens begins;
* `Token.exists_layout_of_viable` — where tokens can be completed, the text of them can be;
* `ParseError.denotes_locate` — a mistake is reported where it lies;
* `ofText_error_viable` — **for every text that is not read, the report is about a place before
  which the text can be completed to one that is read**.
-/

import Covenant.Proofs.Contract.Spacing
import Covenant.Proofs.Contract.Viability
import Mathlib.Data.List.TakeWhile

set_option relaxedAutoImplicit false
set_option autoImplicit false

namespace Covenant

namespace Token

variable {source front place rest other text : List Char} {tokens before : List Token}

/-! ### Cutting a text before a token -/

/-- The last tokens are found without those before them. -/
theorem Scan.sourceOfLast_cons {located : Located} {others : List Located} {count : ℕ}
    (stop : List Char) (le : count ≤ others.length) :
    (⟨located :: others, stop⟩ : Scan).sourceOfLast count =
      (⟨others, stop⟩ : Scan).sourceOfLast count := by
  have later : (located :: others).length - count = (others.length - count) + 1 := by
    rw [List.length_cons]
    omega
  rw [sourceOfLast, sourceOfLast, later, List.drop_succ_cons]

/-- Where the first token of a text begins, or behind its gaps if there is none. -/
theorem sourceOfLast_scan (source : List Char) :
    (scan source).sourceOfLast (scan source).list.length = skipGap source := by
  rw [scan_of_skipGap rfl]
  split <;> simp [Scan.sourceOfLast, Scan.list]

/-- **A text can be cut where one of its tokens begins, or behind the last of them**: the tokens
before are those of pieces up to there. -/
theorem exists_pieces_of_scan {behind : List Token}
    (split : (scan source).list = before ++ behind) : ∃ front place,
      source = front ++ place ∧ place = (scan source).sourceOfLast behind.length ∧
        Pieces place front before ∧ ∀ token ∈ behind.head?, ∃ spelling rest,
          place = spelling ++ rest ∧ token.Spells spelling := by
  obtain ⟨gap, same, pieces⟩ := (gap_skipGap source).pieces
  induction before generalizing source gap with
  | nil =>
      rw [List.nil_append] at split
      refine ⟨gap, skipGap source, same, ?_, pieces, ?_⟩
      · rw [← split, sourceOfLast_scan]
      · rw [← split, scan_of_skipGap rfl]
        intro token mem
        split at mem
        case h_1 => cases mem
        case h_2 first rest shorter found =>
          cases mem
          obtain ⟨spelling, spelled, spells, -⟩ := spells_of_front? (skipGap_ne source) found
          exact ⟨spelling, rest, spelled, spells⟩
  | cons first before ih =>
      rw [scan_of_skipGap rfl] at split ⊢
      cases found : front? (skipGap source) with
      | none =>
          rw [found] at split
          cases split
      | some front =>
          obtain ⟨token, rest, shorter⟩ := front
          rw [found] at split
          obtain rfl : token = first := (List.cons.inj split).1
          have later : (scan rest).list = before ++ behind := (List.cons.inj split).2
          obtain ⟨spelling, spelled, spells, ends⟩ := spells_of_front? (skipGap_ne source) found
          obtain ⟨within, again, more⟩ := (gap_skipGap rest).pieces
          obtain ⟨front, place, whole, here, inner, begins⟩ := ih later within again more
          have few : behind.length ≤ (scan rest).tokens.length := by
            have all := congrArg List.length later
            rw [Scan.list, List.length_map, List.length_append] at all
            omega
          refine ⟨gap ++ (spelling ++ front), place, ?_, ?_, ?_, begins⟩
          · rw [same, spelled, whole]
            simp
          · rw [here]
            exact (Scan.sourceOfLast_cons _ few).symm
          · have one : Pieces place (spelling ++ front) (token :: before) :=
              .cons (.token spells (by rwa [← whole])) inner
            rw [spelled, whole, ← List.append_assoc] at pieces
            rw [← List.nil_append (token :: before)]
            exact pieces.append one

/-! ### Completing a text -/

theorem exists_spells {token : Token} (valid : token.WellFormed) :
    ∃ spelling, token.Spells spelling := by
  cases token with
  | keyword k => exact ⟨_, rfl⟩
  | identifier name => exact ⟨_, valid, rfl⟩
  | integer value =>
      exact ⟨Nat.toDigits 10 value, Nat.toDigits_ne_nil, isDigit_of_mem_toDigits,
        Text.Decimal.value_toDigits value, lt_minMagnitude_iff.1 valid⟩
  | minMagnitude => exact ⟨_, rfl⟩
  | text value => exact ⟨_, valid, rfl⟩
  | symbol s => exact ⟨_, rfl⟩

/-- Tokens of a text can be written, each on a line of its own. -/
theorem exists_pieces (lexed : Lexed tokens) : ∃ text, Pieces [] ('\n' :: text) tokens := by
  induction tokens with
  | nil => exact ⟨[], .cons (.blank (by simp) _) .nil⟩
  | cons token tokens ih =>
      obtain ⟨valid, lexed⟩ := lexed_cons.1 lexed
      obtain ⟨text, pieces⟩ := ih lexed
      obtain ⟨spelling, spells⟩ := exists_spells valid
      have blank : Piece ['\n'] (spelling ++ '\n' :: text ++ []) [] := .blank (by simp) _
      have word : Piece spelling ('\n' :: text ++ []) [token] :=
        .token spells (ends_blank token (by simp) _)
      exact ⟨spelling ++ '\n' :: text, .cons blank (.cons word pieces)⟩

/-- Whether pieces stay pieces shows in the character behind them, and a line feed changes none. -/
theorem Pieces.of_append (pieces : Pieces (text ++ rest) front tokens) (more : List Char) :
    Pieces (text ++ '\n' :: more) front tokens := by
  cases text with
  | nil => exact pieces.before_lineFeed more
  | cons c text =>
      generalize same : c :: text ++ rest = behind at pieces
      have begins : behind.head? = some c := by rw [← same]; rfl
      clear same
      induction pieces with
      | nil => exact .nil
      | @cons first front these tokens piece _ ih =>
          refine .cons (piece.of_head? ?_) ih
          cases front with
          | nil => exact begins
          | cons => rfl

/-- The characters before a mistake in a token are a token as well. -/
theorem exists_begun {mistake : Misread} {begun : List Token} (begins : mistake.Begins begun)
    (spelled : ∀ token ∈ mistake.rest.head?, ∃ spelling rest,
      place = spelling ++ rest ∧ token.Spells spelling) :
    ∃ text, place = text ++ place.drop mistake.inside ∧
      ∀ more, Pieces ('\n' :: more) text begun := by
  have alone : ∀ {token : Token} {spelling : List Char} (_ : token.Spells spelling)
      (more : List Char), Pieces ('\n' :: more) spelling [token] := by
    intro token spelling spells more
    have piece : Piece spelling ([] ++ '\n' :: more) [token] :=
      .token spells (ends_blank token (by simp) more)
    have whole := Pieces.cons piece .nil
    rwa [List.append_nil] at whole
  cases begins with
  | outside rest => exact ⟨[], rfl, fun _ => .nil⟩
  | assign rest =>
      obtain ⟨_, behind, rfl, rfl⟩ := spelled _ rfl
      exact ⟨['='], rfl, alone rfl⟩
  | @contract name word rest =>
      obtain ⟨_, behind, rfl, -, rfl⟩ := spelled _ rfl
      obtain ⟨others, same⟩ := word
      refine ⟨Keyword.contract.spelling.toList, ?_, alone rfl⟩
      rw [← same, List.append_assoc, List.drop_left]

/-- The tokens of a text are well formed, as far as there are any. -/
theorem lexed_scan (source : List Char) : Lexed (scan source).list := by
  fun_induction scan source with
  | case1 => simp [Lexed, Scan.list]
  | case2 cs token rest shorter found more ih =>
      obtain ⟨spelling, -, spells, -⟩ := spells_of_front? (skipGap_ne cs) found
      exact lexed_cons.2 ⟨spells.wellFormed, ih⟩

/-- **Where the tokens before a mistake can be completed, the text before it can be.** -/
theorem exists_layout_of_viable {accepts : List Token → Prop} {mistake : Misread}
    (viable : mistake.Viable accepts (scan source).list) : ∃ front place more tokens,
      source = front ++ place ∧
        place = ((scan source).sourceOfLast mistake.rest.length).drop mistake.inside ∧
          Layout (front ++ more) tokens ∧ accepts tokens := by
  obtain ⟨before, begun, more, split, begins, lexed, accepted⟩ := viable
  obtain ⟨front, place, whole, here, pieces, spelled⟩ := exists_pieces_of_scan split
  obtain ⟨text, cut, alone⟩ := exists_begun begins spelled
  obtain ⟨completion, last⟩ := exists_pieces lexed
  rw [cut] at pieces
  rw [← here]
  refine ⟨front ++ text, _, '\n' :: completion, _, ?_, rfl, layout_iff_pieces.2 ?_, accepted⟩
  · rw [List.append_assoc, ← cut]
    exact whole
  · have inner : Pieces [] (text ++ '\n' :: completion) (begun ++ more) :=
      Pieces.append (by rw [List.append_nil]; exact alone completion) last
    rw [List.append_assoc]
    refine Pieces.append ?_ inner
    rw [List.append_nil]
    exact pieces.of_append completion

end Token

/-! ### Places -/

theorem Text.Utf8.size_reverse (cs : List Char) : size cs.reverse = size cs := by
  induction cs with
  | nil => rfl
  | cons c cs ih =>
      rw [List.reverse_cons, size_append, ih, size_cons, size_cons, size_nil]
      omega

namespace ParseError

/-- What is reported to be found at the front of a text: its first word, or its end if there is no
word. -/
inductive Finds : List Char → String → Prop where
  | nothing {rest : List Char} (blank : ∀ c ∈ rest, Text.isBlank c = true) :
      Finds rest "end of input"
  | word {blanks word rest : List Char} (blank : ∀ c ∈ blanks, Text.isBlank c = true)
      (nonempty : word ≠ []) (solid : ∀ c ∈ word, Text.isBlank c = false)
      (ends : ∀ c ∈ rest.head?, Text.isBlank c = true) :
      Finds (blanks ++ (word ++ rest)) ("`" ++ String.ofList word ++ "`")

/-- The report is about the place between two parts of a text.  The line is the number of line feeds
before it, and the column the number of bytes behind the last of them, both counted from one. -/
structure Denotes (mistake : ParseError) (before after : List Char) : Prop where
  line : mistake.line = before.count '\n' + 1
  column : ∃ lines inLine, before = lines ++ inLine ∧ (∀ c ∈ lines.getLast?, c = '\n') ∧
    '\n' ∉ inLine ∧ mistake.column = Text.Utf8.size inLine + 1
  found : Finds after mistake.found

theorem finds_firstWord (rest : List Char) :
    Finds rest (match Text.firstWord rest with
      | [] => "end of input"
      | word => "`" ++ String.ofList word ++ "`") := by
  cases behind : rest.dropWhile Text.isBlank with
  | nil =>
      have word : Text.firstWord rest = [] := by
        rw [Text.firstWord, Text.trimFront, behind]
        rfl
      rw [word]
      exact .nothing (List.dropWhile_eq_nil_iff.1 behind)
  | cons c more =>
      have first : Text.isBlank c = false := by
        have stops := List.head?_dropWhile_not Text.isBlank rest
        rw [behind] at stops
        exact stops
      have word : Text.firstWord rest = c :: more.takeWhile fun d => !Text.isBlank d := by
        rw [Text.firstWord, Text.trimFront, behind, List.takeWhile_cons_of_pos (by simp [first])]
      have whole : rest.takeWhile Text.isBlank ++ ((c :: more.takeWhile fun d => !Text.isBlank d) ++
          more.dropWhile fun d => !Text.isBlank d) = rest := by
        rw [List.cons_append, List.takeWhile_append_dropWhile, ← behind,
          List.takeWhile_append_dropWhile]
      have blank : ∀ d ∈ rest.takeWhile Text.isBlank, Text.isBlank d = true :=
        List.all_eq_true.1 List.all_takeWhile
      have solid : ∀ d ∈ c :: more.takeWhile fun d => !Text.isBlank d, Text.isBlank d = false := by
        refine List.forall_mem_cons.2 ⟨first, ?_⟩
        intro d mem
        simpa using List.all_eq_true.1 List.all_takeWhile d mem
      have ends : ∀ d ∈ (more.dropWhile fun d => !Text.isBlank d).head?,
          Text.isBlank d = true := by
        intro d mem
        have stops := List.head?_dropWhile_not (fun d => !Text.isBlank d) more
        rw [Option.mem_def.1 mem] at stops
        simpa using stops
      have finds := Finds.word blank (List.cons_ne_nil c _) solid ends
      rw [whole] at finds
      rw [word]
      exact finds

/-- A mistake is reported where it lies. -/
theorem denotes_locate (before after : List Char) :
    (locate (before ++ after) after).Denotes before after := by
  have consumed : (before ++ after).take ((before ++ after).length - after.length) = before := by
    rw [List.length_append, Nat.add_sub_cancel, List.take_left]
  rw [locate, consumed]
  refine ⟨rfl, ?_, finds_firstWord after⟩
  refine ⟨(before.reverse.dropWhile (· != '\n')).reverse,
    (before.reverse.takeWhile (· != '\n')).reverse, ?_, ?_, ?_, ?_⟩
  · rw [← List.reverse_append, List.takeWhile_append_dropWhile, List.reverse_reverse]
  · intro c mem
    have stops := List.head?_dropWhile_not (· != '\n') before.reverse
    rw [List.getLast?_reverse] at mem
    rw [Option.mem_def.1 mem] at stops
    simpa using stops
  · intro mem
    have inner := List.all_eq_true.1 (@List.all_takeWhile _ (· != '\n') before.reverse)
    simpa using inner _ (List.mem_reverse.1 mem)
  · rw [Text.Utf8.size_reverse]

end ParseError

/-! ### Whole texts -/

/-- **The report on a viable mistake is about a place before which the text can be completed.** -/
theorem Misread.Viable.exists_completion {source : String} {mistake : Misread}
    {accepts : List Token → Prop}
    (viable : mistake.Viable accepts (Token.scan source.toList).list) :
    ∃ before after : String, source = before ++ after ∧
      ((Token.scan source.toList).locate source.toList mistake).Denotes before.toList after.toList ∧
        ∃ (more : String) (tokens : List Token),
          Token.Layout (before ++ more).toList tokens ∧ accepts tokens := by
  obtain ⟨front, place, more, tokens, split, here, layout, accepted⟩ :=
    Token.exists_layout_of_viable viable
  refine ⟨String.ofList front, String.ofList place, ?_, ?_, String.ofList more, tokens, ?_,
    accepted⟩
  · rw [← String.ofList_append, ← split, String.ofList_toList]
  · rw [Token.Scan.locate, ← here, split, String.toList_ofList, String.toList_ofList]
    exact ParseError.denotes_locate front place
  · rw [← String.ofList_append, String.toList_ofList]
    exact layout

/-- Where something is left behind what was read, the tokens before are complete already. -/
theorem Front.Follows.viable {α : Type} {bound : ℕ} {tokens : List Token}
    {derives : List Token → α → Prop} {accepts : List Token → Prop} {front : Front Token α bound}
    (follows : front.Follows derives tokens)
    (accepted : ∀ taken, derives taken front.value → accepts taken) :
    Misread.Viable accepts tokens ⟨front.rest, 0⟩ := by
  obtain ⟨taken, same, derived⟩ := follows
  have nothing : Lexed [] := by simp [Lexed]
  refine .of_before same nothing ?_
  rw [List.append_nil]
  exact accepted taken derived

theorem Token.Scan.eq_of_complete {α : Type} {bound : ℕ} {scan : Scan} {source : List Char}
    {front : Front Token α bound} {error : ParseError}
    (h : scan.complete source front = .error error) :
    error = scan.locate source ⟨front.rest, 0⟩ := by
  unfold complete at h
  split at h <;> cases h
  rfl

/-- The mistake in a text that is not read as a contract, or behind the contract in it. -/
theorem Contract.viable_of_ofText {source : String} {error : ParseError}
    (h : ofText source = .error error) : ∃ mistake : Misread,
      error = (Token.scan source.toList).locate source.toList mistake ∧
        mistake.Viable (fun completed => ∃ contract, Reads (read completed) contract [])
          (Token.scan source.toList).list := by
  have lexed := Token.lexed_scan source.toList
  unfold ofText at h
  simp only at h
  split at h
  case h_1 mistake fails =>
    cases h
    refine ⟨mistake, rfl, (viable_read lexed fails).prepend [] ?_⟩
    rintro completed ⟨contract, reads⟩
    have whole := reads []
    rw [List.append_nil] at whole
    exact ⟨contract, whole⟩
  case h_2 front found =>
    refine ⟨_, Token.Scan.eq_of_complete h, (replays_read lexed found).viable ?_⟩
    intro taken reads
    have whole := reads []
    rw [List.append_nil] at whole
    exact ⟨front.value, whole⟩

/-- The mistake in a text that is not read as statements, or behind the statements in it. -/
theorem Statement.viable_of_listOfText {source : String} {error : ParseError}
    (h : listOfText source = .error error) : ∃ mistake : Misread,
      error = (Token.scan source.toList).locate source.toList mistake ∧
        mistake.Viable (fun completed => ∃ statements, ReadsAll completed statements [])
          (Token.scan source.toList).list := by
  have lexed := Token.lexed_scan source.toList
  have closes : Closes [] := by
    rintro token ⟨⟩
  unfold listOfText at h
  simp only at h
  split at h
  case h_1 mistake fails =>
    cases h
    refine ⟨mistake, rfl, (viable_readAll lexed fails).prepend [] ?_⟩
    rintro completed ⟨statements, reads⟩
    have whole := (reads [] closes).2
    rw [List.append_nil] at whole
    exact ⟨statements, whole⟩
  case h_2 front found =>
    refine ⟨_, Token.Scan.eq_of_complete h, (replays_readAll lexed found).viable ?_⟩
    intro taken reads
    have whole := (reads [] closes).2
    rw [List.append_nil] at whole
    exact ⟨front.value, whole⟩

/-- **A mistake is never reported behind the place where the text goes wrong.**  If a text is not
read, the report is about a place in it, and the text before that place can be completed to one that
is read.  This holds of contracts and of statements. -/
theorem ofText_error_viable :
    (∀ source error, Contract.ofText source = .error error → ∃ before after : String,
      source = before ++ after ∧ error.Denotes before.toList after.toList ∧
        ∃ more contract, Contract.ofText (before ++ more) = .ok contract) ∧
    ∀ source error, Statement.listOfText source = .error error → ∃ before after : String,
      source = before ++ after ∧ error.Denotes before.toList after.toList ∧
        ∃ more statements, Statement.listOfText (before ++ more) = .ok statements := by
  constructor
  · intro source error fails
    obtain ⟨mistake, rfl, viable⟩ := Contract.viable_of_ofText fails
    obtain ⟨before, after, split, place, more, tokens, layout, contract, reads⟩ :=
      viable.exists_completion
    exact ⟨before, after, split, place, more, contract,
      Contract.ofText_of_scan (Token.layout_iff.1 layout) reads⟩
  · intro source error fails
    obtain ⟨mistake, rfl, viable⟩ := Statement.viable_of_listOfText fails
    obtain ⟨before, after, split, place, more, tokens, layout, statements, reads⟩ :=
      viable.exists_completion
    exact ⟨before, after, split, place, more, statements,
      Statement.listOfText_of_scan (Token.layout_iff.1 layout) (reads _ _)⟩

/-- A text is not read as a contract if its tokens are not. -/
theorem Contract.ofText_of_error {source : String} {tokens : List Token} {mistake : Misread}
    (scanned : (Token.scan source.toList).list = tokens) (fails : read tokens = .error mistake) :
    ofText source = .error ((Token.scan source.toList).locate source.toList mistake) := by
  subst scanned
  simp only [ofText, fails]

/-- A text is not read as statements if its tokens are not. -/
theorem Statement.listOfText_of_error {source : String} {tokens : List Token} {mistake : Misread}
    (scanned : (Token.scan source.toList).list = tokens)
    (fails : readAll tokens (length_lt_succ tokens) = .error mistake) :
    listOfText source = .error ((Token.scan source.toList).locate source.toList mistake) := by
  subst scanned
  have behind : readAll (Token.scan source.toList).list (Nat.lt_succ_self _) = .error mistake :=
    fails
  simp only [listOfText, behind]

/-- A name is missing in a function, and an equals sign is one too many behind another line. -/
theorem ofText_error_viable_binding :
    (Contract.ofText "contract \x7b\n  func f() \x7b\n    int = 3\n  \x7d\n\x7d" =
        .error ⟨3, 9, "`=`"⟩ ∧ ∃ before after : String,
      "contract \x7b\n  func f() \x7b\n    int = 3\n  \x7d\n\x7d" = before ++ after ∧
        ParseError.Denotes ⟨3, 9, "`=`"⟩ before.toList after.toList ∧
          ∃ more contract, Contract.ofText (before ++ more) = .ok contract) ∧
    Statement.listOfText "a = 1\nint a == 1" = .error ⟨2, 8, "`=`"⟩ ∧
      ∃ before after : String, "a = 1\nint a == 1" = before ++ after ∧
        ParseError.Denotes ⟨2, 8, "`=`"⟩ before.toList after.toList ∧
          ∃ more statements, Statement.listOfText (before ++ more) = .ok statements := by
  have unnamed : Contract.ofText "contract \x7b\n  func f() \x7b\n    int = 3\n  \x7d\n\x7d" =
      .error ⟨3, 9, "`=`"⟩ := by
    have scanned : (Token.scan
        "contract \x7b\n  func f() \x7b\n    int = 3\n  \x7d\n\x7d".toList).list =
          [.keyword .contract, .symbol .openBrace, .keyword .func, .identifier "f",
            .symbol .openParen, .symbol .closeParen, .symbol .openBrace, .keyword .int,
            .symbol .assign, .integer 3, .symbol .closeBrace, .symbol .closeBrace] := by
      decide +kernel
    exact (Contract.ofText_of_error scanned (by cbv)).trans (by decide +kernel)
  have doubled : Statement.listOfText "a = 1\nint a == 1" = .error ⟨2, 8, "`=`"⟩ := by
    have scanned : (Token.scan "a = 1\nint a == 1".toList).list =
        [.identifier "a", .symbol .assign, .integer 1, .keyword .int, .identifier "a",
          .symbol .equal, .integer 1] := by
      decide +kernel
    exact (Statement.listOfText_of_error scanned (by cbv)).trans (by decide +kernel)
  exact ⟨⟨unnamed, ofText_error_viable.1 _ _ unnamed⟩, doubled,
    ofText_error_viable.2 _ _ doubled⟩

end Covenant
