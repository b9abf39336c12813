/-
  Fixity.Proofs.Language.Decided
  ────────────────────────────────
  **AN ERROR IS DECIDED BY THE TEXT UP TO ITS TOKEN.**

  A program that fails at one of its tokens has read that token and the ones before it,
  each with the character that it remembers, and nothing else.  So every text that starts
  with the same tokens fails in the same way and leaves the same table, whatever comes
  after them.

  The place of the error says which token it is, since no two tokens of a text start at
  one place.  If it is not the end mark, then more text after the line that the text ends
  with does not change the tokens up to it, and so cannot save it.

  Main results: `fails_of_front` (a list of tokens), `starts_ascending` (the tokens of a
  text start one after the other) and `error_decided`.
-/
import Fixity.Proofs.Language.Offending
import Fixity.Proofs.Language.Programs
import Fixity.Proofs.Reading.Front
import Fixity.Proofs.Scanning.Seam

namespace Fixity.Language

open Grammar Read
open Text (byteLength)

variable {file : String} {tokens others : List Token} {table : Operator.Table} {error : Error}
variable {token : Token} {k : Nat}

/-! ## §1. The token of an error. -/

/-- Tokens that start one after the other. -/
def Ascending (tokens : List Token) : Prop :=
  tokens.Pairwise fun token next => token.start < next.start

/-- The tokens of a text start one after the other: none but the end mark is empty. -/
theorem starts_ascending {source : String} (bounded : byteLength source.toList < 4294967296)
    (h : tokenize file source = .ok tokens) : Ascending tokens := by
  have hsegmentation := (segmentation_iff file bounded).2 ⟨tokens, h, rfl⟩
  obtain ⟨front, hfront, hall⟩ := hsegmentation.tokens
  have hordered := hsegmentation.ordered
  have hstarts : (tokens.map Token.segment).Pairwise fun segment next =>
      segment.start < next.start := by
    rw [hfront, List.pairwise_append] at hordered ⊢
    obtain ⟨hinside, -, hlast⟩ := hordered
    refine ⟨hinside.imp_of_mem fun hmem _ hle => ?_, List.pairwise_singleton _ _,
      fun segment hmem next hnext => ?_⟩
    · exact Nat.lt_of_lt_of_le (hall _ hmem).2 hle
    · exact Nat.lt_of_lt_of_le (hall _ hmem).2 (hlast segment hmem next hnext)
  exact (List.pairwise_map.1 hstarts).imp fun hlt => UInt32.lt_iff_toNat_lt.2 hlt

/-- Where a token starts says which one it is. -/
theorem drop_of_start {other : Token} {rest : List Token} (ascending : Ascending tokens)
    (hsuffix : other :: rest <:+ tokens) (hk : tokens[k]? = some token)
    (hstart : other.start = token.start) : other :: rest = tokens.drop k := by
  obtain ⟨front, rfl⟩ := hsuffix
  obtain ⟨hlt, rfl⟩ := List.getElem?_eq_some_iff.1 hk
  have hinside : front.length < (front ++ other :: rest).length := by simp
  have hother : (front ++ other :: rest)[front.length] = other := by simp
  have hpair := List.pairwise_iff_getElem.1 ascending
  obtain hbefore | rfl | hbehind := Nat.lt_trichotomy k front.length
  · have hless := hpair k front.length hlt hinside hbefore
    rw [hother, hstart] at hless
    exact absurd hless (UInt32.lt_irrefl _)
  · exact (List.drop_left ..).symm
  · have hless := hpair front.length k hinside hlt hbehind
    rw [hother, hstart] at hless
    exact absurd hless (UInt32.lt_irrefl _)

/-- A token that is not the end mark stands before it. -/
theorem lt_of_located {front : List Token} {mark : Token} (hmark : mark.kind = .eof)
    (hk : (front ++ [mark])[k]? = some token) (solid : token.kind ≠ .eof) : k < front.length := by
  obtain ⟨hlt, -⟩ := List.getElem?_eq_some_iff.1 hk
  rw [List.length_append, List.length_singleton] at hlt
  by_cases hlast : k = front.length
  · rw [hlast, List.getElem?_concat_length] at hk
    exact absurd (Option.some.inj hk ▸ hmark) solid
  · omega

/-! ## §2. Lists with a common front. -/

/-- A list of tokens that fails at one of them fails like every list with the same tokens up to
that one. -/
theorem fails_of_front (hne : tokens.drop (k + 1) ≠ [])
    (same : others.take (k + 1) = tokens.take (k + 1))
    {t : ReadState} (h : Fails (forms .standard) ⟨⟨file, tokens⟩, table⟩ error t)
    (hstop : t.cursor.tokens = tokens.drop k) :
    ∃ u, Fails (forms .standard) ⟨⟨file, others⟩, table⟩ error u ∧ t.table = u.table := by
  have hlength : k + 1 < tokens.length := by
    rw [ne_eq, List.drop_eq_nil_iff] at hne
    omega
  have hfront : tokens.take (k + 1) ≠ [] := by
    intro hnil
    have hzero := congrArg List.length hnil
    rw [List.length_take, List.length_nil] at hzero
    omega
  obtain ⟨first, front, htake⟩ := List.exists_cons_of_ne_nil hfront
  have hshared : Shared (tokens.drop (k + 1)) (others.drop (k + 1)) (k + 1)
      ⟨⟨file, tokens⟩, table⟩ ⟨⟨file, others⟩, table⟩ := by
    refine ⟨⟨first, front, ?_, ?_, ?_⟩, hne, rfl, rfl⟩
    · show tokens = _
      rw [← htake, List.take_append_drop]
    · show others = _
      rw [← htake, ← same, List.take_append_drop]
    · have hcount := congrArg List.length htake
      rw [List.length_take, List.length_cons] at hcount
      omega
  have inside : Inside (tokens.drop (k + 1)) t := by
    unfold Inside
    rw [hstop, List.length_drop, List.length_drop]
    omega
  exact tracks_forms.fails hshared h inside

/-- A program that fails at a token other than the end mark, in a list with that mark at its
end, is the same outcome on every list with the same tokens up to that one. -/
theorem ofTokens_of_front (ascending : Ascending tokens)
    (ended : ∃ before mark, tokens = before ++ [mark] ∧ mark.kind = .eof)
    (fails : (Program.ofTokens file tokens table).result = .error error)
    (located : tokens[k]? = some token) (solid : token.kind ≠ .eof)
    (placed : error.position = ⟨token.start, file⟩)
    (same : others.take (k + 1) = tokens.take (k + 1)) :
    Program.ofTokens file others table = Program.ofTokens file tokens table := by
  obtain ⟨before, mark, hbefore, hmark⟩ := ended
  have hne : tokens ≠ [] := by
    rw [hbefore]
    exact List.append_ne_nil_of_right_ne_nil _ (List.cons_ne_nil _ _)
  obtain ⟨t, hfails, -⟩ := fails_of_ofTokens fails
  obtain ⟨hwithin, hpoints⟩ := within_of_fails hne hfails
  -- the error points at the token that reading stopped on, so that is the one
  have hstop : t.cursor.tokens = tokens.drop k := by
    obtain ⟨⟨file', left⟩, table'⟩ := t
    obtain ⟨rfl, hsuffix, hsome⟩ := hwithin
    obtain ⟨other, rest, rfl⟩ := List.exists_cons_of_ne_nil hsome
    refine drop_of_start ascending hsuffix located ?_
    have hposition : error.position = ⟨other.start, file'⟩ := hpoints.position
    exact (Position.mk.inj (hposition.symm.trans placed)).1
  have hbehind : tokens.drop (k + 1) ≠ [] := by
    intro hnil
    have hle := List.drop_eq_nil_iff.1 hnil
    rw [hbefore] at located hle
    have hlt := lt_of_located hmark located solid
    rw [List.length_append, List.length_singleton] at hle
    omega
  obtain ⟨u, hfails', htable⟩ := fails_of_front hbehind same hfails hstop
  unfold Program.ofTokens
  rw [show (forms .standard).run ⟨⟨file, tokens⟩, table⟩ = _ from hfails,
    show (forms .standard).run ⟨⟨file, others⟩, table⟩ = _ from hfails']
  dsimp only
  rw [htable]

/-! ## §3. Texts. -/

/-- **An error is decided by the text up to the offending token.**  A text that fails at a
token other than the end mark fails like every text with the same tokens up to that one,
with the same error and the same table; in particular it does so with any further lines
after it, unless these hold a character that starts no token. -/
theorem error_decided {first : String} (bounded : byteLength first.toList < 4294967296)
    (tokenizes : tokenize file first = .ok tokens)
    (fails : (Program.ofSource file first table).result = .error error)
    (located : tokens[k]? = some token) (solid : token.kind ≠ .eof)
    (placed : error.position = ⟨token.start, file⟩) :
    (∀ second others, tokenize file second = .ok others →
      others.take (k + 1) = tokens.take (k + 1) →
      Program.ofSource file second table = Program.ofSource file first table)
    ∧ (first.toList.getLast? = some '\n' → ∀ more,
      (∃ lexical, Program.ofSource file (first ++ more) table = ⟨.error lexical, table⟩)
        ∨ Program.ofSource file (first ++ more) table = Program.ofSource file first table) := by
  have ascending := starts_ascending bounded tokenizes
  have ended := Scanner.tokens?_eq_append tokenizes
  rw [ofSource_of_tokenize tokenizes] at fails ⊢
  have hfront (others : List Token) (same : others.take (k + 1) = tokens.take (k + 1)) :
      Program.ofTokens file others table = Program.ofTokens file tokens table :=
    ofTokens_of_front ascending ended fails located solid placed same
  constructor
  · intro second others hothers same
    rw [ofSource_of_tokenize hothers]
    exact hfront others same
  · intro closed more
    obtain ⟨front, mark, rfl, hmark, hmore⟩ := tokenize_further closed tokenizes
    have hinside := lt_of_located hmark located solid
    cases hnext : (Scanner.mk file (byteLength first.toList) more.toList).tokens? with
    | error lexical =>
        refine .inl ⟨lexical, ?_⟩
        rw [Program.ofSource, hmore, hnext]
        rfl
    | ok next =>
        have hjoined : tokenize file (first ++ more) = .ok (front ++ next) := by
          rw [hmore, hnext]
          rfl
        refine .inr ?_
        rw [ofSource_of_tokenize hjoined]
        apply hfront
        rw [List.take_append_of_le_length (by omega), List.take_append_of_le_length (by omega)]

/-- An argument without a comma in front of it, behind a definition: neither a parenthesis
nor anything else on the next lines saves it. -/
theorem missing_comma_decided :
    Program.ofSource "sel" "func binary ~ 5 (x, y) x; f(a b\n" .standard
        = ⟨.error ⟨.expectedCommaOrParen "b", ⟨30, "sel"⟩⟩, Operator.Table.standard.declare "~" 5⟩
    ∧ (∃ tokens, tokenize "sel" "func binary ~ 5 (x, y) x; f(a b\n" = .ok tokens
        ∧ tokens[14]? = some ⟨.identifier, "b", 30, 31, some '\n'⟩)
    ∧ Program.ofSource "sel" "func binary ~ 5 (x, y) x; f(a b\n) ~ while \x7b" .standard
        = Program.ofSource "sel" "func binary ~ 5 (x, y) x; f(a b\n" .standard
    ∧ ∀ more, (∃ lexical, Program.ofSource "sel"
          ("func binary ~ 5 (x, y) x; f(a b\n" ++ more) .standard = ⟨.error lexical, .standard⟩)
        ∨ Program.ofSource "sel" ("func binary ~ 5 (x, y) x; f(a b\n" ++ more) .standard
          = Program.ofSource "sel" "func binary ~ 5 (x, y) x; f(a b\n" .standard := by
  have hfails : Program.ofSource "sel" "func binary ~ 5 (x, y) x; f(a b\n" .standard
      = ⟨.error ⟨.expectedCommaOrParen "b", ⟨30, "sel"⟩⟩,
        Operator.Table.standard.declare "~" 5⟩ := by decide +kernel
  obtain ⟨tokens, htokens⟩ : ∃ tokens,
      tokenize "sel" "func binary ~ 5 (x, y) x; f(a b\n" = .ok tokens :=
    exists_tokens (by decide +kernel)
  obtain ⟨others, hothers⟩ : ∃ others,
      tokenize "sel" "func binary ~ 5 (x, y) x; f(a b\n) ~ while \x7b" = .ok others :=
    exists_tokens (by decide +kernel)
  have hlocated : tokens[14]? = some ⟨.identifier, "b", 30, 31, some '\n'⟩ := by
    have hone : (tokenize "sel" "func binary ~ 5 (x, y) x; f(a b\n").map (·[14]?)
        = .ok (some ⟨.identifier, "b", 30, 31, some '\n'⟩) := by decide +kernel
    rw [htokens] at hone
    exact Except.ok.inj hone
  have hsame : others.take 15 = tokens.take 15 := by
    have hboth : (tokenize "sel" "func binary ~ 5 (x, y) x; f(a b\n) ~ while \x7b").map
          (List.take 15)
        = (tokenize "sel" "func binary ~ 5 (x, y) x; f(a b\n").map (List.take 15) := by
      decide +kernel
    rw [htokens, hothers] at hboth
    exact Except.ok.inj hboth
  obtain ⟨hsecond, hmore⟩ := error_decided (by decide) htokens (congrArg Outcome.result hfails)
    hlocated (by decide) rfl
  exact ⟨hfails, ⟨tokens, htokens, hlocated⟩, hsecond _ others hothers hsame, hmore (by decide)⟩

end Fixity.Language
