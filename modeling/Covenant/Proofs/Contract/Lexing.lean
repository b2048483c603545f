/-
**How a text is made of tokens.**

The scanner cuts a text from the left to the right, and what it finds depends on how it looks for
it.  Here it is said without a scanner what the tokens of a text are: the text is their spellings,
one behind the other, with gaps between them, so that every character belongs to one token or one
gap.  A word must not go on behind its last character, and a symbol must not become a longer one.

Main definitions:

* `Covenant.Token.Gap` — a text begins with blanks and comments;
* `Covenant.Token.Spells` — the characters of a token;
* `Covenant.Token.Ends` — a token is complete where the text goes on like this;
* `Covenant.Token.Layout` — a text is made of these tokens.

Main results:

* `Token.spells_of_front?` — what is found at the front of a text is spelled there;
* `Token.Layout.wellFormed` — the tokens that a text is made of are well formed;
* `Token.layout_iff` — **a text is made of the tokens that the scanner finds, if it finds no end
  before that of the text, and of no others**.
-/

import Covenant.Proofs.Contract.Scanning
import Mathlib.Data.Int.Notation

set_option relaxedAutoImplicit false
set_option autoImplicit false

namespace Covenant

namespace Token

/-! ### Gaps -/

/-- A text begins with blanks and comments, and this is left behind them.  A comment runs up to the
next line feed or carriage return, or to the end of the text. -/
inductive Gap : List Char → List Char → Prop where
  | refl (rest : List Char) : Gap rest rest
  | blank {c : Char} {source rest : List Char} (blank : c ∈ [' ', '\t', '\r', '\n'])
      (more : Gap source rest) : Gap (c :: source) rest
  | comment {body source rest : List Char} (inside : ∀ c ∈ body, c ≠ '\n' ∧ c ≠ '\r')
      (ends : ∀ c ∈ source.head?, c = '\n' ∨ c = '\r') (more : Gap source rest) :
      Gap ('/' :: '/' :: (body ++ source)) rest

theorem isSpace_iff {c : Char} : isSpace c = true ↔ c ∈ [' ', '\t', '\r', '\n'] := by
  simp [isSpace, or_assoc]

/-- What is skipped is a gap, behind the rest of the comment in which the text begins. -/
theorem gap_skip (insideComment : Bool) (cs : List Char) : ∃ body source, cs = body ++ source ∧
    (∀ c ∈ body, c ≠ '\n' ∧ c ≠ '\r') ∧
    (if insideComment then ∀ c ∈ source.head?, c = '\n' ∨ c = '\r' else body = []) ∧
    Gap source (skip insideComment cs) := by
  fun_induction skip insideComment cs with
  | case1 insideComment =>
      refine ⟨[], [], rfl, by simp, ?_, .refl []⟩
      cases insideComment <;> simp
  | case2 c cs ih =>
      by_cases line : c = '\n' ∨ c = '\r'
      · -- the comment ends before this character, which is a blank
        have closed : (c != '\n' && c != '\r') = false := by
          rcases line with rfl | rfl <;> rfl
        rw [closed] at ih ⊢
        obtain ⟨body, source, rfl, -, rfl, gap⟩ := ih
        refine ⟨[], c :: source, rfl, by simp, ?_, .blank ?_ gap⟩
        · rintro first ⟨⟩
          exact line
        · rcases line with rfl | rfl <;> simp
      · rw [not_or] at line
        have inner : (c != '\n' && c != '\r') = true := by simp [line.1, line.2]
        rw [inner] at ih ⊢
        obtain ⟨body, source, rfl, inside, ends, gap⟩ := ih
        exact ⟨c :: body, source, rfl, List.forall_mem_cons.2 ⟨line, inside⟩, ends, gap⟩
  | case3 insideComment c cs outside space ih =>
      obtain ⟨body, source, rfl, -, rfl, gap⟩ := ih
      refine ⟨[], c :: source, rfl, by simp, ?_, .blank (isSpace_iff.1 space) gap⟩
      rw [if_neg outside]
  | case4 insideComment outside comment _ ih =>
      obtain ⟨body, source, rfl, inside, ends, gap⟩ := ih
      refine ⟨[], _, rfl, by simp, ?_, .comment inside ends gap⟩
      rw [if_neg outside]
  | case5 insideComment c cs outside =>
      refine ⟨[], c :: cs, rfl, by simp, ?_, .refl _⟩
      rw [if_neg outside]

/-- What is skipped at the front of a text is a gap. -/
theorem gap_skipGap (cs : List Char) : Gap cs (skipGap cs) := by
  obtain ⟨body, source, rfl, -, rfl, gap⟩ := gap_skip false cs
  exact gap

/-- No comment begins behind what is skipped. -/
theorem skipGap_ne (cs more : List Char) : skipGap cs ≠ '/' :: '/' :: more := by
  rw [skipGap]
  fun_induction skip false cs with
  | case1 => simp
  | case2 c cs ih => exact ih
  | case3 insideComment c cs _ _ ih => exact ih
  | case4 insideComment _ comment _ ih => exact ih
  | case5 insideComment c cs _ _ other =>
      intro same
      cases same
      exact other more rfl rfl

theorem skip_comment {body source : List Char} (inside : ∀ c ∈ body, c ≠ '\n' ∧ c ≠ '\r') :
    skip true (body ++ source) = skip true source := by
  induction body with
  | nil => rfl
  | cons c body ih =>
      rw [List.forall_mem_cons] at inside
      have inner : (c != '\n' && c != '\r') = true := by simp [inside.1]
      rw [List.cons_append, skip.eq_def]
      simp only [if_pos, inner]
      exact ih inside.2

/-- A gap is skipped. -/
theorem Gap.skipGap_eq {source rest : List Char} (gap : Gap source rest) :
    skipGap source = skipGap rest := by
  induction gap with
  | refl => rfl
  | @blank c source rest blank _ ih =>
      rw [← ih, skipGap, skip.eq_def]
      simp [isSpace_iff.2 blank, skipGap]
  | @comment body source rest inside ends _ ih =>
      have opened : skipGap ('/' :: '/' :: (body ++ source)) = skip true (body ++ source) := by
        have noSpace : isSpace '/' = false := rfl
        rw [skipGap, skip.eq_def]
        simp [noSpace]
      rw [opened, skip_comment inside, ← ih]
      -- the comment ends at a blank, which would be skipped outside of it as well
      cases source with
      | nil => rfl
      | cons c source =>
          rw [skipGap, skip.eq_def, skip.eq_def]
          rcases ends c rfl with rfl | rfl <;> rfl

/-! ### Spellings -/

/-- The characters of a token.  The value of a literal is at most the greatest integer. -/
def Spells : Token → List Char → Prop
  | keyword k, spelling => spelling = k.spelling.toList
  | identifier name, spelling => IsName name ∧ spelling = name.toList
  | integer value, spelling => spelling ≠ [] ∧ (∀ c ∈ spelling, c.isDigit = true) ∧
      Text.Decimal.value spelling = value ∧ (value : ℤ) ≤ Int64.maxValue.toInt
  | minMagnitude, spelling => spelling = "9223372036854775808".toList
  | text value, spelling => '"' ∉ value.toList ∧ spelling = '"' :: (value.toList ++ ['"'])
  | symbol s, spelling => spelling = s.spelling

/-- A token is complete where the text goes on like this. -/
def Ends : Token → List Char → Prop
  | symbol s, rest => s.Ends rest
  | text _, _ => True
  | _, rest => Apart rest

/-- A text is made of these tokens, with gaps before, between and behind them. -/
inductive Layout : List Char → List Token → Prop where
  | nil {source : List Char} (gap : Gap source []) : Layout source []
  | cons {token : Token} {tokens : List Token} {source spelling rest : List Char}
      (gap : Gap source (spelling ++ rest)) (spells : token.Spells spelling)
      (ends : token.Ends rest) (more : Layout rest tokens) : Layout source (token :: tokens)

/-- The literals are those up to the greatest integer. -/
theorem lt_minMagnitude_iff {value : ℕ} :
    value < Text.Decimal.minMagnitude ↔ (value : ℤ) ≤ Int64.maxValue.toInt := by
  have greatest : Int64.maxValue.toInt = 9223372036854775807 := rfl
  rw [greatest, Text.Decimal.minMagnitude]
  omega

/-- What a word is, it spells. -/
theorem spells_of_ofWord? {word : List Char} {token : Token} (nonempty : word ≠ [])
    (run : ∀ c ∈ word, isWordChar c = true) (same : ofWord? word = some token) :
    token.Spells word ∧ ∀ rest, Apart rest → token.Ends rest := by
  cases word with
  | nil => exact absurd rfl nonempty
  | cons first letters =>
      unfold ofWord? at same
      split at same
      case isTrue =>
        split at same
        case isTrue inside =>
          cases same
          exact ⟨⟨nonempty, List.all_eq_true.1 inside.1, rfl, lt_minMagnitude_iff.1 inside.2⟩,
            fun _ apart => apart⟩
        case isFalse =>
          split at same <;> cases same
          case isTrue magnitude => exact ⟨magnitude, fun _ apart => apart⟩
      case isFalse noDigit =>
        split at same
        case h_1 k found =>
          cases same
          have spelled := Keyword.ofSpelling?_eq_some_iff.1 found
          exact ⟨by rw [Spells, spelled, String.toList_ofList], fun _ apart => apart⟩
        case h_2 unreserved =>
          cases same
          refine ⟨⟨⟨unreserved, ?_, ?_⟩, String.toList_ofList.symm⟩, fun _ apart => apart⟩
          · -- the first character is a word character and no digit
            have front := run first (.head _)
            simp only [List.headD_cons, Bool.not_eq_true] at noDigit
            rw [String.toList_ofList]
            simpa [isWordChar, Char.isAlphanum, noDigit] using front
          · rw [String.toList_ofList]
            exact run

end Token

/-- A symbol that is found is spelled there and ends there, unless a comment begins there. -/
theorem Symbol.spelling_of_front? {cs rest : List Char} {symbol : Symbol}
    (noComment : ∀ more, cs ≠ '/' :: '/' :: more) (found : front? cs = some (symbol, rest)) :
    cs = symbol.spelling ++ rest ∧ symbol.Ends rest := by
  unfold front? at found
  split at found <;> cases found
  case h_18 =>
    refine ⟨rfl, ?_⟩
    rintro more rfl
    exact noComment more rfl
  all_goals first
    | exact ⟨rfl, trivial⟩
    | exact ⟨rfl, by assumption⟩

namespace Token

/-- What is found at the front of a text is spelled there and ends there, unless a comment begins
there. -/
theorem spells_of_front? {cs rest : List Char} {token : Token} {shorter : rest.length < cs.length}
    (noComment : ∀ more, cs ≠ '/' :: '/' :: more)
    (found : front? cs = some ⟨token, rest, shorter⟩) :
    ∃ spelling, cs = spelling ++ rest ∧ token.Spells spelling ∧ token.Ends rest := by
  cases cs with
  | nil => cases found
  | cons c behind =>
      rw [front?] at found
      split at found
      case isTrue letter =>
        obtain ⟨word, same, split⟩ := Option.map_eq_some_iff.1 found
        cases split
        have run : ∀ d ∈ c :: behind.takeWhile isWordChar, isWordChar d = true :=
          List.forall_mem_cons.2 ⟨letter, List.all_eq_true.1 List.all_takeWhile⟩
        obtain ⟨spells, ends⟩ := spells_of_ofWord? (by simp) run same
        refine ⟨_, ?_, spells, ends _ (apart_dropWhile behind)⟩
        rw [List.cons_append, List.takeWhile_append_dropWhile]
      case isFalse =>
        split at found
        case isTrue quote =>
          subst quote
          split at found
          case h_1 closing others same =>
            cases found
            have stops := List.head?_dropWhile_not (· != '"') behind
            rw [same] at stops
            obtain rfl : closing = '"' := by simpa using stops
            have inner := List.all_eq_true.1 (@List.all_takeWhile _ (· != '"') behind)
            refine ⟨_, ?_, ⟨?_, rfl⟩, trivial⟩
            · rw [String.toList_ofList, List.cons_append, List.append_assoc, List.singleton_append,
                ← same, List.takeWhile_append_dropWhile]
            · rw [String.toList_ofList]
              intro mem
              simpa using inner _ mem
          case h_2 => cases found
        case isFalse =>
          split at found <;> cases found
          case h_1 symbol same =>
            obtain ⟨spelled, ends⟩ := Symbol.spelling_of_front? noComment same
            exact ⟨_, spelled, rfl, ends⟩

/-- A text in which the scanner finds no end before its own is made of the tokens found. -/
theorem layout_scan {cs : List Char} (complete : (scan cs).stop = []) :
    Layout cs (scan cs).list := by
  fun_induction scan cs with
  | case1 cs =>
      have nothing : skipGap cs = [] := complete
      have gap := gap_skipGap cs
      rw [nothing] at gap
      exact .nil gap
  | case2 cs token rest shorter found more ih =>
      obtain ⟨spelling, same, spells, ends⟩ := spells_of_front? (skipGap_ne cs) found
      have gap := gap_skipGap cs
      rw [same] at gap
      exact .cons gap spells ends (ih complete)

/-- A token that is spelled is well formed. -/
theorem Spells.wellFormed {token : Token} {spelling : List Char} (spells : token.Spells spelling) :
    token.WellFormed := by
  cases token with
  | identifier name => exact spells.1
  | integer value => exact lt_minMagnitude_iff.2 spells.2.2.2
  | text value => exact spells.1
  | _ => trivial

/-- The tokens that a text is made of are well formed. -/
theorem Layout.wellFormed {source : List Char} {tokens : List Token}
    (layout : Layout source tokens) : ∀ token ∈ tokens, token.WellFormed := by
  induction layout with
  | nil => simp
  | cons _ spells _ _ ih => exact List.forall_mem_cons.2 ⟨spells.wellFormed, ih⟩

/-! ### Nothing else -/

variable {source spelling rest : List Char}

theorem Gap.lexes (gap : Gap source rest) : Lexes source [] rest := by
  have scans : scan source = scan rest :=
    (scan_of_skipGap gap.skipGap_eq).trans (scan_of_skipGap rfl).symm
  rw [Lexes, scans]
  exact ⟨rfl, rfl⟩

/-- A token that is spelled at the front of a text, and ends there, is cut off. -/
theorem lexes_of_spells {token : Token} (spells : token.Spells spelling) (ends : token.Ends rest) :
    Lexes (spelling ++ rest) [token] rest := by
  cases token with
  | keyword k =>
      rw [show spelling = k.spelling.toList from spells]
      exact lexes_keyword k ends
  | identifier name =>
      obtain ⟨valid, rfl⟩ := spells
      exact lexes_name valid ends
  | integer value =>
      obtain ⟨nonempty, digits, rfl, range⟩ := spells
      exact lexes_word nonempty (fun c mem => isWordChar_of_isDigit (digits c mem))
        (ofWord?_digits nonempty digits (lt_minMagnitude_iff.2 range)) ends
  | minMagnitude =>
      rw [show spelling = minMagnitudeDigits from spells]
      exact lexes_minMagnitude ends
  | text value =>
      obtain ⟨unquoted, rfl⟩ := spells
      rw [List.cons_append, List.append_assoc]
      exact lexes_text unquoted
  | symbol s =>
      rw [show spelling = s.spelling from spells]
      exact lexes_symbol s ends

/-- What a text is made of is cut off from it, and nothing is left. -/
theorem Layout.lexes {tokens : List Token} (layout : Layout source tokens) :
    Lexes source tokens [] := by
  induction layout with
  | nil gap => exact gap.lexes
  | cons gap spells ends _ ih => exact gap.lexes.trans ((lexes_of_spells spells ends).trans ih)

/-- **A text is made of the tokens that the scanner finds, if it finds no end before that of the
text, and of no others.** -/
theorem layout_iff {tokens : List Token} :
    Layout source tokens ↔ (scan source).list = tokens ∧ (scan source).stop = [] := by
  constructor
  · intro layout
    exact layout.lexes.whole
  · rintro ⟨rfl, complete⟩
    exact layout_scan complete

end Token

end Covenant
