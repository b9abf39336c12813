/-
  Fixity.Proofs.Scanning.Cut
  ────────────────────────────────
  **WHAT A LIST OF TOKENS CUT FROM A TEXT LOOKS LIKE.**

  A list that was cut from a text has one end mark, at its end.  Every other token
  is the lexeme that its text spells.  And the character that a token remembers
  is an operator character exactly when the NEXT TOKEN is that character and
  starts where the first one ends: neither a blank nor a comment lies between.

  Places are words of thirty two bits, so the last point needs the text to be
  shorter than 2³² bytes.

  Main results: `Scanner.scan_induction` (what a scan that gives tokens goes through) and
  `cut_of_tokenize` (every list of tokens of such a text is so).
-/
import Fixity.Scanner
import Fixity.Proofs.Scanning.Pieces

namespace Fixity

open Text (byteLength isBlank)
open Operator (isOperatorChar)

/-! ## §1. Tokens and their neighbours. -/

namespace Token

/-- A symbol that is one given character. -/
def IsSymbol (token : Token) (c : Char) : Prop :=
  token.kind = .symbol ∧ token.text = String.singleton c

/-- A token that ends where the next one starts. -/
def Touches (token next : Token) : Prop := token.stop = next.start

/-- A token whose text is one lexeme, and of its kind. -/
def IsLexeme (token : Token) : Prop :=
  split? token.text.toList = some (⟨some token.kind, token.text.toList⟩, [])

/-- A token that remembers an operator character just when that is the next token. -/
def Joins (token next : Token) : Prop :=
  ∀ c, isOperatorChar c = true →
    (token.trailing = some c ↔ token.Touches next ∧ next.IsSymbol c)

end Token

/-! ## §2. What one lexeme can be. -/

/-- No lexeme marks the end. -/
theorem kind_ne_eof_of_split? {text left : List Char} {lexeme : Lexeme}
    (h : split? text = some (lexeme, left)) : lexeme.kind? ≠ some .eof := by
  obtain ⟨kind?, piece⟩ := lexeme
  rintro rfl
  obtain ⟨c, rest, -, ⟨-, -, -, hkind⟩ | ⟨-, -, -, hkind⟩ | ⟨-, -, -, -, -, hkind⟩⟩ :=
    cases_of_split? h
  · exact (ofWord_ne _).2.2 hkind.symm
  · exact absurd hkind nofun
  · exact (ofPunctuation_ne c).2.2 hkind.symm

/-- A symbol is one character. -/
theorem symbol_of_split? {text left piece : List Char}
    (h : split? text = some (⟨some .symbol, piece⟩, left)) :
    ∃ c, piece = [c] ∧ text = c :: left ∧ startsComment text = false := by
  obtain ⟨c, rest, rfl, ⟨-, -, -, hkind⟩ | ⟨-, -, -, hkind⟩ | ⟨-, -, plain, rfl, rfl, -⟩⟩ :=
    cases_of_split? h
  · exact absurd hkind.symm (ofWord_ne _).2.1
  · exact absurd hkind nofun
  · exact ⟨c, rfl, rfl, plain⟩

theorem Token.IsLexeme.symbol {token : Token} (h : token.IsLexeme)
    (hkind : token.kind = .symbol) : ∃ c, token.IsSymbol c := by
  unfold Token.IsLexeme at h
  rw [hkind] at h
  obtain ⟨c, hpiece, -, -⟩ := symbol_of_split? h
  refine ⟨c, hkind, ?_⟩
  rw [← String.toList_inj, hpiece]
  simp

/-! ## §3. The whole list. -/

/-- A list of tokens as a text gives it. -/
inductive Cut : List Token → Prop
  /-- The end mark. -/
  | last {mark : Token} : mark.kind = .eof → Cut [mark]
  /-- A token before other tokens. -/
  | cons {token next : Token} {rest : List Token} :
      token.IsLexeme → token.Joins next → Cut (next :: rest) → Cut (token :: next :: rest)

namespace Cut

theorem ne_nil {tokens : List Token} (h : Cut tokens) : tokens ≠ [] := by
  cases h <;> simp

theorem length_pos {tokens : List Token} (h : Cut tokens) : 0 < tokens.length :=
  List.length_pos_iff.2 h.ne_nil

/-- A bound that the tokens do not pass leaves room for one of them. -/
theorem exists_bound {tokens : List Token} {bound : Nat} (h : Cut tokens)
    (hbound : tokens.length ≤ bound) : ∃ fewer, bound = fewer + 1 :=
  Nat.exists_eq_add_one.2 (Nat.lt_of_lt_of_le h.length_pos hbound)

/-- A token that does not mark the end has a list after it. -/
theorem tail {token : Token} {rest : List Token} (h : Cut (token :: rest))
    (hkind : token.kind ≠ .eof) : Cut rest := by
  cases h with
  | last hmark => exact absurd hmark hkind
  | cons _ _ hrest => exact hrest

/-- What is left of a list at any place is a list of the same text. -/
theorem suffix {tokens rest : List Token} (h : Cut tokens) (hsuffix : rest <:+ tokens)
    (hne : rest ≠ []) : Cut rest := by
  induction h with
  | last hmark =>
      rcases List.suffix_cons_iff.1 hsuffix with rfl | hnil
      · exact .last hmark
      · exact absurd (List.suffix_nil.1 hnil) hne
  | cons hlex hjoins hrest ih =>
      rcases List.suffix_cons_iff.1 hsuffix with rfl | hmore
      · exact .cons hlex hjoins hrest
      · exact ih hmore

/-- A token with others after it is no end mark. -/
theorem kind_ne_eof {token next : Token} {rest : List Token} (h : Cut (token :: next :: rest)) :
    token.kind ≠ .eof := by
  cases h with
  | cons hlex _ _ =>
      intro hkind
      exact kind_ne_eof_of_split? hlex (by simp [hkind])

/-- The end mark is the last token. -/
theorem eq_nil_of_eof {token : Token} {rest : List Token} (h : Cut (token :: rest))
    (hkind : token.kind = .eof) : rest = [] := by
  cases rest with
  | nil => rfl
  | cons next rest => exact absurd hkind h.kind_ne_eof

end Cut

/-! ## §4. One step of a scanner. -/

namespace Scanner

/-- A token is taken and the scanner goes on after it. -/
theorem tokens?_token {scanner : Scanner} {kind : Kind} {piece left : List Char}
    (h : split? scanner.rest = some (⟨some kind, piece⟩, left)) :
    scanner.tokens?
      = (scanner.past piece left).tokens?.map (scanner.token kind piece left :: ·) := by
  rw [tokens?]
  split
  · next hnone => simp [h] at hnone
  · next lexeme left' hsome =>
    rw [h] at hsome
    cases hsome
    rfl

/-- A gap is passed over. -/
theorem tokens?_gap {scanner : Scanner} {piece left : List Char}
    (h : split? scanner.rest = some (⟨none, piece⟩, left)) :
    scanner.tokens? = (scanner.past piece left).tokens? := by
  rw [tokens?]
  split
  · next hnone => simp [h] at hnone
  · next lexeme left' hsome =>
    rw [h] at hsome
    cases hsome
    rfl

/-- What the first token of a list tells about the text: either the text is over, or
it starts with a gap, or with that token. -/
theorem tokens?_cases {scanner : Scanner} {next : Token} {rest : List Token}
    (h : scanner.tokens? = .ok (next :: rest)) :
    (scanner.rest = [] ∧ next = scanner.endToken ∧ rest = [])
      ∨ (∃ piece left, split? scanner.rest = some (⟨none, piece⟩, left)
          ∧ (scanner.past piece left).tokens? = .ok (next :: rest))
      ∨ (∃ kind piece left, split? scanner.rest = some (⟨some kind, piece⟩, left)
          ∧ next = scanner.token kind piece left
          ∧ (scanner.past piece left).tokens? = .ok rest) := by
  rcases hsplit : split? scanner.rest with _ | ⟨⟨_ | kind, piece⟩, left⟩
  case none =>
    rw [tokens?] at h
    split at h
    · split at h
      · next hend =>
        cases h
        exact .inl ⟨List.isEmpty_iff.1 hend, rfl, rfl⟩
      · cases h
    · next hsome => simp [hsplit] at hsome
  case some.none =>
    rw [tokens?_gap hsplit] at h
    exact .inr (.inl ⟨piece, left, rfl, h⟩)
  case some.some =>
    rw [tokens?_token hsplit] at h
    cases hrest : (scanner.past piece left).tokens? with
    | error e =>
        rw [hrest] at h
        cases h
    | ok tokens =>
        rw [hrest] at h
        cases h
        exact .inr (.inr ⟨kind, piece, left, rfl, rfl, hrest⟩)

/-- Induction over a scan that gives tokens: the text is over, or a gap is passed, or a token
is taken. -/
@[elab_as_elim]
theorem scan_induction
    {motive : (scanner : Scanner) → (tokens : List Token) → scanner.tokens? = .ok tokens → Prop}
    (last : ∀ (scanner : Scanner) (_ : scanner.rest = [])
      (h : scanner.tokens? = .ok [scanner.endToken]), motive scanner [scanner.endToken] h)
    (gap : ∀ (scanner : Scanner) (piece left : List Char) (tokens : List Token)
      (_ : split? scanner.rest = some (⟨none, piece⟩, left))
      (hmore : (scanner.past piece left).tokens? = .ok tokens)
      (h : scanner.tokens? = .ok tokens),
      motive (scanner.past piece left) tokens hmore → motive scanner tokens h)
    (token : ∀ (scanner : Scanner) (kind : Kind) (piece left : List Char) (tokens : List Token)
      (_ : split? scanner.rest = some (⟨some kind, piece⟩, left))
      (hmore : (scanner.past piece left).tokens? = .ok tokens)
      (h : scanner.tokens? = .ok (scanner.token kind piece left :: tokens)),
      motive (scanner.past piece left) tokens hmore →
      motive scanner (scanner.token kind piece left :: tokens) h)
    {scanner : Scanner} {tokens : List Token} (h : scanner.tokens? = .ok tokens) :
    motive scanner tokens h := by
  -- each step leaves a shorter text
  induction hlength : scanner.rest.length using Nat.strong_induction_on
    generalizing scanner tokens with
  | h length ih =>
      subst hlength
      obtain ⟨next, rest, rfl⟩ := List.exists_cons_of_ne_nil (tokens?_ne_nil h)
      rcases tokens?_cases h with ⟨hrest, rfl, rfl⟩ | ⟨piece, left, taken, hmore⟩
        | ⟨kind, piece, left, taken, rfl, hmore⟩
      · exact last scanner hrest h
      · exact gap scanner piece left _ taken hmore h
          (ih left.length (length_lt_of_split? taken) hmore rfl)
      · exact token scanner kind piece left rest taken hmore h
          (ih left.length (length_lt_of_split? taken) hmore rfl)

/-! ## §5. The first token of a text. -/

/-- No token starts before the place of the scanner, nor beyond the end. -/
theorem start_of_tokens? {scanner : Scanner} {tokens : List Token}
    (h : scanner.tokens? = .ok tokens) :
    ∀ token ∈ tokens, ∃ n, token.start = UInt32.ofNat n ∧ scanner.offset ≤ n
      ∧ n ≤ scanner.offset + byteLength scanner.rest := by
  induction h using scan_induction with
  | last scanner =>
      simp only [List.mem_singleton, forall_eq]
      exact ⟨scanner.offset, rfl, Nat.le_refl _, Nat.le_add_right _ _⟩
  | gap scanner piece left tokens taken _ _ ih =>
      have hsplit := congrArg byteLength (append_of_split? taken)
      simp only [Text.byteLength_append] at hsplit
      intro token hmem
      obtain ⟨n, hn, hlow, hhigh⟩ := ih token hmem
      simp only [past] at hlow hhigh
      exact ⟨n, hn, by omega, by omega⟩
  | token scanner kind piece left tokens taken _ _ ih =>
      have hsplit := congrArg byteLength (append_of_split? taken)
      simp only [Text.byteLength_append] at hsplit
      intro token hmem
      rcases List.mem_cons.1 hmem with rfl | hmem
      · exact ⟨scanner.offset, rfl, Nat.le_refl _, Nat.le_add_right _ _⟩
      · obtain ⟨n, hn, hlow, hhigh⟩ := ih token hmem
        simp only [past] at hlow hhigh
        exact ⟨n, hn, by omega, by omega⟩

/-- An operator character that stands next is the next token, and that starts here. -/
theorem next_of_trailing {scanner : Scanner} {next : Token} {rest : List Token} {c : Char}
    (h : scanner.tokens? = .ok (next :: rest)) (hc : isOperatorChar c = true)
    (htrail : trailing scanner.rest = some c) :
    UInt32.ofNat scanner.offset = next.start ∧ next.IsSymbol c := by
  obtain ⟨left, hrest, plain⟩ : ∃ left, scanner.rest = c :: left
      ∧ startsComment (c :: left) = false := by
    unfold trailing at htrail
    split at htrail
    · simp at htrail
    · next plain =>
      obtain ⟨left, hleft⟩ := List.head?_eq_some_iff.1 htrail
      exact ⟨left, hleft, by rw [← hleft]; simpa using plain⟩
  have hsplit := split?_operator hc plain
  rw [← hrest] at hsplit
  -- the character is in the text, so neither the end nor a gap can come first
  rcases tokens?_cases h with ⟨hnil, -, -⟩ | ⟨_, _, hgap, -⟩ | ⟨_, _, _, htoken, rfl, -⟩
  · rw [hrest] at hnil
    exact absurd hnil nofun
  · rw [hsplit] at hgap
    exact absurd hgap (by simp)
  · rw [hsplit] at htoken
    cases htoken
    exact ⟨rfl, rfl, String.singleton_eq_ofList.symm⟩

/-- An operator character stands next just when the next token is that character and
starts here. -/
theorem trailing_iff {scanner : Scanner} {next : Token} {rest : List Token} {c : Char}
    (h : scanner.tokens? = .ok (next :: rest)) (hc : isOperatorChar c = true)
    (bound : scanner.offset + byteLength scanner.rest < 4294967296) :
    trailing scanner.rest = some c
      ↔ UInt32.ofNat scanner.offset = next.start ∧ next.IsSymbol c := by
  constructor
  · exact next_of_trailing h hc
  · intro hgiven
    obtain ⟨hstart, hkind, htext⟩ := hgiven
    rcases tokens?_cases h with ⟨-, rfl, -⟩ | ⟨piece, left, hgap, htail⟩
      | ⟨kind, piece, left, htoken, rfl, -⟩
    · exact absurd hkind nofun
    · -- a gap would put the token further on
      have hsplit := congrArg byteLength (append_of_split? hgap)
      simp only [Text.byteLength_append] at hsplit
      have hpos : 0 < byteLength piece := by
        have := Text.length_le_byteLength piece
        have := List.length_pos_iff.2 (text_ne_nil_of_split? hgap)
        simp only at this
        omega
      obtain ⟨n, hn, hlow, hhigh⟩ := start_of_tokens? htail next (by simp)
      simp only [past] at hlow hhigh
      -- places below 2³² are equal only if the numbers are
      rw [hn] at hstart
      have hnat := congrArg UInt32.toNat hstart
      rw [UInt32.toNat_ofNat_of_lt' (by simp only [UInt32.size]; omega),
        UInt32.toNat_ofNat_of_lt' (by simp only [UInt32.size]; omega)] at hnat
      omega
    · simp only [token] at hkind htext
      subst hkind
      obtain ⟨d, rfl, hrest, plain⟩ := symbol_of_split? htoken
      rw [String.singleton_eq_ofList, String.ofList_inj] at htext
      cases htext
      rw [trailing, plain, hrest]
      rfl

/-! ## §6. Every list of tokens of a text. -/

theorem cut_of_tokens? {scanner : Scanner} {tokens : List Token}
    (h : scanner.tokens? = .ok tokens)
    (bound : scanner.offset + byteLength scanner.rest < 4294967296) : Cut tokens := by
  induction h using scan_induction with
  | last scanner => exact .last rfl
  | gap scanner piece left tokens taken _ _ ih =>
      have hsplit := congrArg byteLength (append_of_split? taken)
      simp only [Text.byteLength_append] at hsplit
      exact ih (by simp only [past]; omega)
  | token scanner kind piece left tokens taken hmore _ ih =>
      have hsplit := congrArg byteLength (append_of_split? taken)
      simp only [Text.byteLength_append] at hsplit
      have hbound : (scanner.past piece left).offset
          + byteLength (scanner.past piece left).rest < 4294967296 := by
        simp only [past]
        omega
      obtain ⟨next, rest, rfl⟩ := List.exists_cons_of_ne_nil (tokens?_ne_nil hmore)
      -- the token is its own lexeme, and it remembers what comes next
      refine .cons ?_ ?_ (ih hbound)
      · simpa [Token.IsLexeme, Scanner.token] using split?_self taken
      · intro c hc
        exact trailing_iff hmore hc hbound

end Scanner

/-- The tokens of a text of less than 2³² bytes. -/
theorem cut_of_tokenize {file source : String} {tokens : List Token}
    (h : tokenize file source = .ok tokens) (bound : byteLength source.toList < 4294967296) :
    Cut tokens :=
  Scanner.cut_of_tokens? h (by simpa [Scanner.start] using bound)

end Fixity
