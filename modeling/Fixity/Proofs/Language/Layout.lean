/-
  Fixity.Proofs.Language.Layout
  ────────────────────────────────
  **LAYOUT DOES NOT MATTER, EXCEPT BETWEEN OPERATOR CHARACTERS.**

  Two texts of the same words, token by token, differ in what stands between the
  words: blanks, comments, or nothing.  That makes a difference in ONE place only,
  between two symbols of the operator alphabet, which are one operator when nothing
  stands between them.  If the same pairs of such symbols touch in both texts, both are
  read the same, down to the token at which reading stops.

  The character that a token remembers is what carries the difference.  It looks
  different from text to text, but an operator character in it is the next token, and
  touches: a comment, a blank of several bytes or the end of the text never shows as one.

  Main results: `partner?_iff` (a token goes together with the next one just when both are
  symbols of the alphabet and touch) and `layout_irrelevant`.
-/
import Fixity.Proofs.Language.Programs
import Fixity.Proofs.Language.Views

namespace Fixity

open Operator (isOperatorChar)
open Text (byteLength)

/-! ## §1. The words of a text and the pairs of symbols that touch. -/

namespace Token

/-- The word that a token is, whatever stands around it. -/
def word (token : Token) : Kind × String := (token.kind, token.text)

/-- A symbol of the operator alphabet. -/
def IsOperatorSymbol (token : Token) : Prop := ∃ c ∈ Operator.alphabet, token.IsSymbol c

instance (token : Token) (c : Char) : Decidable (token.IsSymbol c) :=
  inferInstanceAs (Decidable (_ ∧ _))

instance (token : Token) : Decidable token.IsOperatorSymbol :=
  decidable_of_iff (Operator.alphabet.any fun c => token.IsSymbol c)
    (by simp [IsOperatorSymbol])

instance (token next : Token) : Decidable (token.Touches next) :=
  inferInstanceAs (Decidable (token.stop = next.start))

end Token

/-- Two lists of tokens with the same kinds and texts. -/
def SameWords (tokens others : List Token) : Prop :=
  tokens.map Token.word = others.map Token.word

/-- Two lists of tokens in which the same neighbours touch, of those where both are symbols
of the operator alphabet. -/
def SameGlue : List Token → List Token → Prop
  | token :: next :: rest, token' :: next' :: rest' =>
    (token.IsOperatorSymbol → next.IsOperatorSymbol →
        (token.Touches next ↔ token'.Touches next'))
      ∧ SameGlue (next :: rest) (next' :: rest')
  | _, _ => True

instance decidableSameGlue : ∀ tokens others : List Token, Decidable (SameGlue tokens others)
  | _ :: next :: rest, _ :: next' :: rest' =>
    have := decidableSameGlue (next :: rest) (next' :: rest')
    inferInstanceAs (Decidable (_ ∧ _))
  | [], _ => .isTrue trivial
  | [_], _ => .isTrue trivial
  | _ :: _ :: _, [] => .isTrue trivial
  | _ :: _ :: _, [_] => .isTrue trivial

/-! ## §2. What a token goes together with. -/

namespace Token

theorem isOperatorSymbol_of_isSymbol {token : Token} {c : Char} (h : token.IsSymbol c)
    (hc : isOperatorChar c = true) : token.IsOperatorSymbol :=
  ⟨c, List.contains_iff_mem.1 hc, h⟩

/-- A token goes together with the next one just when both are symbols of the alphabet and
touch. -/
theorem partner?_iff {token next : Token} {rest : List Token} {d : Char}
    (cut : Cut (token :: next :: rest)) :
    token.partner? = some d
      ↔ token.IsOperatorSymbol ∧ next.IsSymbol d ∧ isOperatorChar d = true
          ∧ token.Touches next := by
  obtain ⟨lexeme, joins⟩ : token.IsLexeme ∧ token.Joins next := by
    cases cut with
    | cons lexeme joins _ => exact ⟨lexeme, joins⟩
  rw [partner?_eq_some_iff]
  constructor
  · rintro ⟨c, hkind, hfirst, hc, htrail, hd⟩
    obtain ⟨htouch, hnext⟩ := (joins d hd).1 htrail
    -- a symbol that was cut from a text is its first character
    obtain ⟨c', hsymbol⟩ := lexeme.symbol hkind
    have hcc : c' = c := by
      have hfirst : (String.singleton c').toList.head? = some c := hsymbol.2 ▸ hfirst
      simpa using hfirst
    exact ⟨isOperatorSymbol_of_isSymbol (hcc ▸ hsymbol) hc, hnext, hd, htouch⟩
  · rintro ⟨⟨c, hmem, hsymbol⟩, hnext, hd, htouch⟩
    refine ⟨c, hsymbol.1, ?_, List.contains_iff_mem.2 hmem, (joins d hd).2 ⟨htouch, hnext⟩, hd⟩
    rw [hsymbol.2]
    simp

/-- The same words are symbols of the alphabet together. -/
theorem isSymbol_congr {token token' : Token} (h : token.word = token'.word) (c : Char) :
    token.IsSymbol c ↔ token'.IsSymbol c := by
  obtain ⟨hkind, htext⟩ := Prod.mk.inj h
  unfold IsSymbol
  rw [hkind, htext]

theorem isOperatorSymbol_congr {token token' : Token} (h : token.word = token'.word) :
    token.IsOperatorSymbol ↔ token'.IsOperatorSymbol :=
  exists_congr fun c => and_congr_right fun _ => isSymbol_congr h c

/-- What does not stand before a symbol of the alphabet goes together with nothing. -/
theorem partner?_of_kind {token : Token} (h : token.kind ≠ .symbol) : token.partner? = none :=
  if_neg h

end Token

/-! ## §3. Texts of the same words. -/

/-- Lists of the same words, in which the same symbols touch, look the same. -/
theorem view_eq_of_words {tokens others : List Token} (cut : Cut tokens) :
    Cut others → SameWords tokens others → SameGlue tokens others →
      tokens.map Token.view = others.map Token.view := by
  induction cut generalizing others with
  | @last mark hmark =>
      intro cut' words _
      obtain ⟨mark', rest', rfl, hword, hrest⟩ := List.map_eq_cons_iff.1 words.symm
      cases List.map_eq_nil_iff.1 hrest
      obtain ⟨hkind, htext⟩ := Prod.mk.inj hword
      have hpartner : mark.partner? = none := Token.partner?_of_kind (by simp [hmark])
      have hpartner' : mark'.partner? = none := Token.partner?_of_kind (by simp [hkind, hmark])
      simp [Token.view, hkind, htext, hpartner, hpartner']
  | @cons token next rest lexeme joins cut ih =>
      intro cut' words glue
      obtain ⟨token', _, rfl, hword, hrest⟩ := List.map_eq_cons_iff.1 words.symm
      obtain ⟨next', rest', rfl, hnext, -⟩ := List.map_eq_cons_iff.1 hrest
      obtain ⟨hglue, glue⟩ := glue
      have whole := Cut.cons lexeme joins cut
      obtain ⟨hkind, htext⟩ := Prod.mk.inj hword
      -- the two go together with the same character, since the next words are the same
      have hpartner : token.partner? = token'.partner? := by
        apply Option.ext
        intro d
        rw [Token.partner?_iff whole, Token.partner?_iff cut',
          ← Token.isOperatorSymbol_congr hword.symm, Token.isSymbol_congr hnext]
        refine and_congr_right fun hsymbol => and_congr_right fun hnext' =>
          and_congr_right fun hd => ?_
        exact hglue hsymbol (Token.isOperatorSymbol_of_isSymbol hnext' hd)
      have hview : token.view = token'.view := by
        simp [Token.view, hkind, htext, hpartner]
      have htail : (next :: rest).map Token.view = (next' :: rest').map Token.view :=
        ih (cut'.tail cut'.kind_ne_eof) hrest.symm glue
      show token.view :: (next :: rest).map Token.view
        = token'.view :: (next' :: rest').map Token.view
      rw [hview, htail]

namespace Language

/-- **Layout does not matter, except between operator characters.**  Two texts of the same
words, in which the same neighbouring symbols of the operator alphabet touch, are read
the same from every table: as equal forms, or with the same fault at the start of the
tokens of one index; and both leave the same table. -/
theorem layout_irrelevant {file first second : String} {tokens others : List Token}
    (h : tokenize file first = .ok tokens) (h' : tokenize file second = .ok others)
    (bounded : byteLength first.toList < 4294967296)
    (bounded' : byteLength second.toList < 4294967296)
    (words : SameWords tokens others) (glue : SameGlue tokens others)
    (table : Operator.Table) :
    ReadAlike file tokens others (Program.ofSource file first table)
      (Program.ofSource file second table) := by
  have cut := cut_of_tokenize h bounded
  have cut' := cut_of_tokenize h' bounded'
  rw [ofSource_of_tokenize h, ofSource_of_tokenize h']
  exact readAlike_of_view_eq file table cut.ne_nil (view_eq_of_words cut cut' words glue)

/-- A comment and a line break go where a blank goes, but a blank between `<` and `=` makes
two operators of one. -/
theorem comment_before_operator :
    ∃ tokens others, tokenize "sel" "a<=b" = .ok tokens
      ∧ tokenize "sel" "a // less\n<= b" = .ok others
      ∧ SameWords tokens others ∧ SameGlue tokens others
      ∧ ReadAlike "sel" tokens others (Program.ofSource "sel" "a<=b" .standard)
          (Program.ofSource "sel" "a // less\n<= b" .standard)
      ∧ (Program.ofSource "sel" "a<=b" .standard).result
          = .ok [.expression ⟨.anonymous, .binary "<=" (.scalar "a") (.scalar "b")⟩]
      ∧ (Program.ofSource "sel" "a< =b" .standard).result
          = .ok [.expression ⟨.anonymous,
              .binary "<" (.scalar "a") (.unary '=' (.scalar "b"))⟩] := by
  have h : tokenize "sel" "a<=b" = .ok
      [⟨.identifier, "a", 0, 1, some '<'⟩, ⟨.symbol, "<", 1, 2, some '='⟩,
        ⟨.symbol, "=", 2, 3, some 'b'⟩, ⟨.identifier, "b", 3, 4, none⟩,
        ⟨.eof, "EOF", 4, 4, none⟩] := by decide +kernel
  have h' : tokenize "sel" "a // less\n<= b" = .ok
      [⟨.identifier, "a", 0, 1, some ' '⟩, ⟨.symbol, "<", 10, 11, some '='⟩,
        ⟨.symbol, "=", 11, 12, some ' '⟩, ⟨.identifier, "b", 13, 14, none⟩,
        ⟨.eof, "EOF", 14, 14, none⟩] := by decide +kernel
  exact ⟨_, _, h, h', rfl, by decide, layout_irrelevant h h' (by decide) (by decide) rfl (by decide)
    .standard, by decide +kernel, by decide +kernel⟩

end Language
end Fixity
