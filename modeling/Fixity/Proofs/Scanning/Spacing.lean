/-
  Fixity.Proofs.Scanning.Spacing
  ────────────────────────────────
  **TOKENS APART FROM THEIR PLACES.**

  Places are words of thirty two bits, so in a text of 2³² bytes or more they wrap
  around, and tokens far from each other may seem to touch.  The character that a
  token remembers is taken from the text behind the token (`Scanner.trailing`), not
  from a place.  So it does not deceive: an operator character there is the next token.

  A list of tokens that is linked in this way becomes a list as a short text gives it
  when its tokens are moved to places that say which of them touch.  What is known of
  short texts and does not speak of places is then known of every list that
  `tokenize` gives.

  No bound on the length is used for this, only where the remembered character comes
  from.  Below 2³² bytes that is the place where the token stops (`trailing_of_tokenize`);
  beyond, nothing is said of a scan that looks the character up by its place.

  Main results: `linked_of_tokenize` (every list of tokens of a text is linked) and
  `cut_respaced` (with other places it is a list as a short text gives it).
-/
import Fixity.Proofs.Scanning.Cut

namespace Fixity

open Operator (isOperatorChar)

/-! ## §1. What a token remembers. -/

namespace Token

/-- A slash that does not remember another one: it starts no comment. -/
def StartsNoComment (token : Token) : Prop :=
  token.IsSymbol '/' → token.trailing ≠ some '/'

/-- A token whose operator character, if it remembers one, is the next token. -/
def Announces (token next : Token) : Prop :=
  ∀ c, isOperatorChar c = true → token.trailing = some c → next.IsSymbol c

end Token

/-- A list of tokens as `tokenize` gives it, if its places are not looked at. -/
inductive Linked : List Token → Prop
  /-- The end mark. -/
  | last {mark : Token} : mark.kind = .eof → Linked [mark]
  /-- A token before other tokens. -/
  | cons {token next : Token} {rest : List Token} :
      token.IsLexeme → token.StartsNoComment → token.Announces next → Linked (next :: rest) →
      Linked (token :: next :: rest)

/-- No character follows a slash that starts a comment with another slash. -/
theorem startsNoComment_of_split? {scanner : Scanner} {left piece : List Char} {kind : Kind}
    (h : split? scanner.rest = some (⟨some kind, piece⟩, left)) :
    (scanner.token kind piece left).StartsNoComment := by
  rintro ⟨hkind, htext⟩ htrail
  cases hkind
  obtain ⟨c, rfl, hrest, plain⟩ := symbol_of_split? h
  have htext : String.ofList [c] = String.singleton '/' := htext
  have hc : c = '/' := String.singleton_inj.1 (String.singleton_eq_ofList.trans htext)
  have hleft : left.head? = some '/' := by
    have htrail : Scanner.trailing left = some '/' := htrail
    unfold Scanner.trailing at htrail
    split at htrail
    · exact absurd htrail nofun
    · exact htrail
  -- two slashes would have been a comment, and no token
  obtain ⟨more, rfl⟩ := List.head?_eq_some_iff.1 hleft
  rw [hrest, hc] at plain
  exact absurd plain (by simp [startsComment])

theorem Scanner.linked_of_tokens? {scanner : Scanner} {tokens : List Token}
    (h : scanner.tokens? = .ok tokens) : Linked tokens := by
  induction h using scan_induction with
  | last scanner => exact .last rfl
  | gap _ _ _ _ _ _ _ ih => exact ih
  | token scanner kind piece left tokens taken hmore _ ih =>
      obtain ⟨next, rest, rfl⟩ := List.exists_cons_of_ne_nil (tokens?_ne_nil hmore)
      refine .cons ?_ (startsNoComment_of_split? taken) ?_ ih
      · simpa [Token.IsLexeme, Scanner.token] using split?_self taken
      · exact fun c hc htrail => (next_of_trailing hmore hc htrail).2

/-- The tokens of a text are linked. -/
theorem linked_of_tokenize {file source : String} {tokens : List Token}
    (h : tokenize file source = .ok tokens) : Linked tokens :=
  Scanner.linked_of_tokens? h

/-! ## §2. Places that say which tokens touch. -/

/-- A token at the place zero, which it leaves unless it remembers an operator character. -/
def Token.respaced (token : Token) : Token :=
  { token with
    start := 0
    stop := if (token.trailing.filter isOperatorChar).isSome then 0 else 1 }

/-- Tokens that are linked touch at their new places just when the one remembers the other. -/
theorem joins_respaced {token next : Token} (h : token.Announces next) :
    token.respaced.Joins next.respaced := by
  intro c hc
  constructor
  · intro htrail
    have htrail : token.trailing = some c := htrail
    refine ⟨?_, h c hc htrail⟩
    show (if (token.trailing.filter isOperatorChar).isSome then (0 : UInt32) else 1) = 0
    rw [htrail, if_pos (by simp [Option.filter, hc])]
  · rintro ⟨htouch, hnext⟩
    have htouch : (if (token.trailing.filter isOperatorChar).isSome then (0 : UInt32) else 1) = 0 :=
      htouch
    split at htouch
    · next hsome =>
      -- the operator character that the token remembers is the next token, so it is `c`
      obtain ⟨d, hd⟩ := Option.isSome_iff_exists.1 hsome
      obtain ⟨htrail, hoperator⟩ := Option.filter_eq_some_iff.1 hd
      have hdc : d = c := String.singleton_inj.1 ((h d hoperator htrail).2.symm.trans hnext.2)
      exact hdc ▸ htrail
    · exact absurd htouch (by decide)

/-- With these places a linked list is one that a short text gives. -/
theorem Linked.cut_respaced {tokens : List Token} (h : Linked tokens) :
    Cut (tokens.map Token.respaced) := by
  induction h with
  | last hmark => exact .last hmark
  | cons lexeme _ announces _ ih => exact .cons lexeme (joins_respaced announces) ih

end Fixity
