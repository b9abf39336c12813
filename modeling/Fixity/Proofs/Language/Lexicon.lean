/-
  Fixity.Proofs.Language.Lexicon
  ────────────────────────────────
  **WHAT THE TOKENS OF A TEXT SPELL.**

  A token that was cut from a text is a word, a numeral or a punctuation character, and
  its text is no more than that.  So what reading takes from a token can be written where
  reading puts it: an identifier is a name that is not reserved, a number carries no sign
  and is a binary64 value unless it is too large, and an operator is one symbol or two
  operator characters that do not start a comment.

  Places are not spoken of, so no bound on the length of the text is used.  What a token
  remembers is taken from the text behind it (`Scanner.trailing`).

  Main results: `isName_of_lexeme`, `number_of_lexeme` and `isInfix_of_operator?`.
-/
import Fixity.Proofs.Language.Places
import Fixity.Proofs.Language.Written
import Fixity.Proofs.Scanning.Spacing
import Fixity.Proofs.Scanning.Words

namespace Fixity

open Operator (isOperatorChar)

/-! ## §1. Linked lists, token by token. -/

namespace Linked

variable {token : Token} {rest tokens : List Token}

/-- A token that is not the end is a lexeme that starts no comment. -/
theorem head (h : Linked (token :: rest)) (hkind : token.kind ≠ .eof) :
    token.IsLexeme ∧ token.StartsNoComment := by
  cases h with
  | last hmark => exact absurd hmark hkind
  | cons lexeme plain _ _ => exact ⟨lexeme, plain⟩

/-- Every token but the end is a lexeme. -/
theorem isLexeme (h : Linked tokens) (hmem : token ∈ tokens) (hkind : token.kind ≠ .eof) :
    token.IsLexeme := by
  induction h with
  | last hmark => exact absurd (List.mem_singleton.1 hmem ▸ hmark) hkind
  | cons lexeme _ _ _ ih =>
      rcases List.mem_cons.1 hmem with rfl | hmem
      · exact lexeme
      · exact ih hmem

/-- Moving on keeps a list linked. -/
theorem advance {cursor : Cursor} (h : Linked cursor.tokens) : Linked cursor.advance.tokens := by
  unfold Cursor.advance
  split
  · next hcons =>
    rw [hcons] at h
    cases h with
    | cons _ _ _ hrest => exact hrest
  · exact h

/-- Other places do not unlink a list. -/
theorem respaced (h : Linked tokens) : Linked (tokens.map Token.respaced) := by
  induction h with
  | last hmark => exact .last hmark
  | cons lexeme plain announces _ ih => exact .cons lexeme plain announces ih

end Linked

/-! ## §2. Words and numerals. -/

variable {token : Token}

/-- An identifier is a name that is not reserved. -/
theorem isName_of_lexeme (h : token.IsLexeme) (hkind : token.kind = .identifier) :
    isName token.text = true := by
  unfold Token.IsLexeme at h
  rw [hkind] at h
  obtain ⟨c, rest, htext, ⟨hstart, htake, -, hword⟩ | ⟨-, -, -, hnumber⟩ | ⟨-, -, -, -, -, hmark⟩⟩ :=
    cases_of_split? h
  -- the word takes the whole text, so every character of it can stand in a word
  · have hrest : rest.all isWordPart = true := by
      rw [htext] at htake
      rw [(List.cons.inj htake).2]
      exact List.all_takeWhile
    rw [String.ofList_toList] at hword
    unfold isName
    rw [htext]
    simp [hstart, hrest, ← hword]
  · exact absurd hnumber nofun
  · exact absurd hmark.symm (ofPunctuation_ne c).2.1

/-- A decimal without a sign is not negative. -/
theorem Number.ofDecimal_false (digits : Nat) (exponent : Int) :
    ofDecimal false digits exponent = .infinite false
      ∨ ∃ units, ofDecimal false digits exponent = .finite false units := by
  have hratio (numerator denominator : Nat) :
      ofRatio false numerator denominator = .infinite false
        ∨ ∃ units, ofRatio false numerator denominator = .finite false units := by
    simp only [ofRatio]
    split
    · exact .inr ⟨_, rfl⟩
    · exact .inl rfl
  cases exponent with
  | ofNat exponent =>
      simp only [ofDecimal]
      split
      · exact .inr ⟨_, rfl⟩
      · split
        · exact .inl rfl
        · exact hratio _ _
  | negSucc less =>
      simp only [ofDecimal]
      split
      · exact .inr ⟨_, rfl⟩
      · exact hratio _ _

/-- A numeral is a row of digits, perhaps with a point and more digits. -/
theorem shape_of_isWord {word : String} (h : IsWord .number word) :
    ∃ digits, digits ≠ [] ∧ Number.IsDigits digits
      ∧ (word.toList = digits
        ∨ ∃ fraction, Number.IsDigits fraction ∧ word.toList = digits ++ '.' :: fraction) := by
  obtain ⟨c, rest, htext, ⟨-, -, -, hword⟩ | ⟨-, digit, hnumber, -⟩ | ⟨-, -, -, -, -, hmark⟩⟩ :=
    cases_of_split? h
  · exact absurd hword.symm (ofWord_ne _).1
  · obtain ⟨digits, hdigits, hshape⟩ := splitNumber_shape word.toList
    rw [hnumber] at hshape
    refine ⟨digits, ?_, hdigits, ?_⟩
    -- the numeral starts with a digit, and a point is none
    · rintro rfl
      obtain hnil | ⟨fraction, -, -, hpoint⟩ := hshape
      · exact absurd (htext.symm.trans hnil) nofun
      · rw [(List.cons.inj (htext.symm.trans hpoint)).1] at digit
        exact absurd digit (by decide)
    · exact hshape.imp id fun ⟨fraction, _, hfraction, hpoint⟩ => ⟨fraction, hfraction, hpoint⟩
  · exact absurd hmark.symm (ofPunctuation_ne c).1

/-- A numeral has a value, which is a decimal without a sign. -/
theorem ofText?_of_lexeme (h : token.IsLexeme) (hkind : token.kind = .number) :
    ∃ n exponent, Number.ofText? token.text = some (Number.ofDecimal false n exponent) := by
  have hword : IsWord .number token.text := by
    unfold Token.IsLexeme at h
    rwa [hkind] at h
  obtain ⟨digits, hne, hdigits, hshape⟩ := shape_of_isWord hword
  unfold Number.ofText?
  obtain htext | ⟨fraction, hfraction, htext⟩ := hshape
  · rw [htext, Number.ofChars?_digits hne hdigits]
    exact ⟨_, _, rfl⟩
  · rw [htext, Number.ofChars?_point hne hdigits hfraction]
    exact ⟨_, _, rfl⟩

/-- The value of a numeral is a plain number, or too large for one. -/
theorem number_of_lexeme (h : token.IsLexeme) (hkind : token.kind = .number) {value : Number}
    (hvalue : Number.ofText? token.text = some value) :
    value = .infinite false ∨ value.isPlain = true := by
  obtain ⟨n, exponent, hdecimal⟩ := ofText?_of_lexeme h hkind
  rw [hdecimal] at hvalue
  cases hvalue
  obtain hlarge | ⟨units, hunits⟩ := Number.ofDecimal_false n exponent
  · exact .inl hlarge
  · rw [hunits] at hdecimal ⊢
    exact .inr (Number.isBinary64_of_ofText? hdecimal)

/-! ## §3. Operators. -/

/-- A symbol of a text is a punctuation character of no other use. -/
theorem isInfix_of_symbol {c : Char} (h : token.IsLexeme) (hsymbol : token.IsSymbol c) :
    isInfix (String.singleton c) = true := by
  unfold Token.IsLexeme at h
  have hletters : (String.singleton c).toList = [c] := by simp
  rw [hsymbol.1, hsymbol.2, hletters] at h
  obtain ⟨d, rest, htext, ⟨-, -, -, hword⟩ | ⟨-, -, -, hnumber⟩
    | ⟨hstart, punctuation, -, -, -, hkind⟩⟩ := cases_of_split? h
  · exact absurd hword.symm (ofWord_ne _).2.1
  · exact absurd hnumber nofun
  · cases htext
    unfold isInfix
    rw [hletters]
    simp [punctuation, hstart, ← hkind]

/-- An operator that starts at a token of a text is one symbol, or two operator
characters that do not start a comment. -/
theorem isInfix_of_operator? {cursor : Cursor} {operator : OperatorReading}
    (linked : Linked cursor.tokens) (h : cursor.operator? = some operator) :
    isInfix operator.spelling = true := by
  obtain ⟨file, tokens⟩ := cursor
  obtain ⟨token, rest, rfl⟩ : ∃ token rest, tokens = token :: rest := by
    cases linked with
    | last _ => exact ⟨_, _, rfl⟩
    | cons _ _ _ _ => exact ⟨_, _, rfl⟩
  by_cases hkind : token.kind = .symbol
  · obtain ⟨lexeme, plain⟩ := linked.head (by simp [hkind])
    obtain ⟨c, hsymbol⟩ := lexeme.symbol hkind
    rw [Language.operator?_symbol hsymbol] at h
    cases hpartner : token.trailing.filter fun d => isOperatorChar c && isOperatorChar d with
    | none =>
        rw [hpartner] at h
        cases h
        exact isInfix_of_symbol lexeme hsymbol
    | some d =>
        rw [hpartner] at h
        cases h
        obtain ⟨htrail, hboth⟩ := Option.filter_eq_some_iff.1 hpartner
        obtain ⟨hc, hd⟩ := Bool.and_eq_true_iff.1 hboth
        -- two slashes would have been a comment
        have hslashes : startsComment [c, d] = false := by
          rw [Bool.eq_false_iff]
          intro hcomment
          unfold startsComment at hcomment
          split at hcomment
          · next heq =>
            cases heq
            exact plain hsymbol htrail
          · exact absurd hcomment nofun
        unfold isInfix
        simp [hc, hd, hslashes]
  · simp [Cursor.operator?, Language.currentOf?_cons, hkind] at h

/-! ## §4. Precedences. -/

/-- A precedence that is taken from a number is one from 1 to 18. -/
theorem isValidPrecedence_of_precedence? {value : Number} {precedence : UInt32}
    (h : Grammar.precedence? value = some precedence) : Operator.isValidPrecedence precedence = true := by
  obtain ⟨-, hlow, hhigh⟩ := Language.precedence?_eq_some_iff.1 h
  have hlow' : (1 : UInt32).toNat ≤ precedence.toNat := hlow
  have hhigh' : precedence.toNat ≤ (18 : UInt32).toNat := hhigh
  simp [Operator.isValidPrecedence, Operator.loosest, Operator.tightest,
    UInt32.le_iff_toNat_le.2 hlow', UInt32.le_iff_toNat_le.2 hhigh']

end Fixity
