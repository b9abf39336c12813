/-
  Fixity.Proofs.Language.Gluing
  ────────────────────────────────
  **AN OPERATOR IS WHAT THE TOKENS SAY.**

  A cursor sees one token and the character right behind it in the text.  From these two it
  decides whether an operator has one character or two, and then it moves over as many
  tokens:

      a<=b        the cursor before `<` sees `<=` and takes two tokens
      a< =b       it sees `<` and takes one
      a/ // x     so it does here, although two slashes follow

  The character is read off the text, the token behind it comes from the scan, and nothing
  in the cursor makes the two agree.  They do: a character right behind a token that is no
  blank is the first one of the next token, which starts there; an operator character is
  that whole token.  So two operator characters go together exactly when they are tokens
  that touch, and what is moved over is the spelling, character by character.

  Main results: `trailing_of_tokenize` (the character that a token remembers stands where
  the token stops), `operator?_eq_some_iff` (which operator stands at a token),
  `spans_of_operator?` (what is moved over) and `gluing_agrees`.
-/
import Fixity.Proofs.Language.Layout
import Fixity.Proofs.Scanning.Segmentation

namespace Fixity

open Operator (isOperatorChar)
open Text (byteLength isBlank)

/-! ## §1. The character behind a token. -/

namespace Scanner

/-- A character that stands next and is no blank is the first one of the next token, which
starts here. -/
theorem next_of_solid {scanner : Scanner} {next : Token} {rest : List Token} {d : Char}
    (h : scanner.tokens? = .ok (next :: rest)) (htrail : trailing scanner.rest = some d)
    (solid : isBlank d = false) :
    UInt32.ofNat scanner.offset = next.start ∧ next.text.toList.head? = some d := by
  unfold trailing at htrail
  split at htrail
  · cases htrail
  · next plain =>
    obtain ⟨left, hleft⟩ := List.head?_eq_some_iff.1 htrail
    rcases tokens?_cases h with ⟨hnil, -, -⟩ | ⟨piece, after, hgap, -⟩
      | ⟨kind, piece, after, htoken, rfl, -⟩
    · rw [hleft] at hnil
      cases hnil
    · -- a gap would start with a blank or with two slashes
      obtain ⟨c, more, htext, -, -, ⟨blank, -, -⟩ | ⟨-, comment, -, -⟩⟩ := cases_of_gap hgap
      · obtain ⟨rfl, -⟩ := List.cons.inj (hleft.symm.trans htext)
        rw [solid] at blank
        cases blank
      · exact absurd comment plain
    · have happend := append_of_split? htoken
      obtain ⟨c, more, rfl⟩ := List.exists_cons_of_ne_nil (text_ne_nil_of_split? htoken)
      rw [hleft] at happend
      obtain ⟨rfl, -⟩ := List.cons.inj happend
      exact ⟨rfl, by simp [token]⟩

/-- The character that a token of a text remembers is a blank, or the next token starts with
it right there. -/
theorem next_of_trails {scanner : Scanner} {tokens : List Token}
    (h : scanner.tokens? = .ok tokens) :
    ∀ front token rest, tokens = front ++ token :: rest → ∀ d, token.trailing = some d →
      isBlank d = true ∨ ∃ next more, rest = next :: more ∧ token.Touches next
        ∧ next.text.toList.head? = some d := by
  induction h using scan_induction with
  | last scanner =>
      intro front token rest hsplit d htrail
      cases front with
      | nil =>
          obtain ⟨rfl, -⟩ := List.cons.inj hsplit
          cases htrail
      | cons first front => simp at hsplit
  | gap _ _ _ _ _ _ _ ih => exact ih
  | token scanner kind piece left tokens taken hmore _ ih =>
      intro front token rest hsplit d htrail
      cases front with
      | cons first front => exact ih front token rest (List.cons.inj hsplit).2 d htrail
      | nil =>
          obtain ⟨rfl, rfl⟩ := List.cons.inj hsplit
          obtain ⟨next, more, rfl⟩ := List.exists_cons_of_ne_nil (tokens?_ne_nil hmore)
          cases blank : isBlank d with
          | true => exact .inl rfl
          | false =>
              obtain ⟨hstart, hhead⟩ := next_of_solid hmore htrail blank
              exact .inr ⟨next, more, rfl, hstart, hhead⟩

end Scanner

/-- **A token of a text remembers what stands where it stops**: the character at that byte,
or nothing if a comment starts there or the text ends. -/
theorem trailing_of_tokenize {file source : String} {tokens : List Token} {token : Token}
    (h : tokenize file source = .ok tokens) (bound : byteLength source.toList < 4294967296)
    (hmem : token ∈ tokens) :
    token.trailing = Scanner.trailing (Text.dropBytes token.stop.toNat source.toList) := by
  -- below the bound, a place that the scan comes to is a word
  have hdrop {place : Scanner} (hplace : place.OnBoundary source.toList) :
      Text.dropBytes (UInt32.ofNat place.offset).toNat source.toList = place.rest := by
    obtain ⟨before, hsource, hoffset⟩ := hplace
    have hlt : place.offset < 4294967296 := by
      rw [hsource, Text.byteLength_append] at bound
      omega
    rw [UInt32.toNat_ofNat_of_lt' hlt, hoffset, hsource, Text.dropBytes_byteLength_append]
  obtain ⟨place, hvisits, ⟨hnil, rfl⟩ | ⟨kind, piece, left, taken, rfl⟩⟩ :=
    Scanner.taken_of_mem h hmem
  · show none = Scanner.trailing (Text.dropBytes (UInt32.ofNat place.offset).toNat _)
    rw [hdrop hvisits.onBoundary, hnil]
    rfl
  · -- the token stops where the scan goes on
    have hnext := Scanner.StepsTo.onBoundary ⟨_, left, taken, rfl⟩ hvisits.onBoundary
    show Scanner.trailing left
      = Scanner.trailing (Text.dropBytes (UInt32.ofNat (place.past piece left).offset).toNat _)
    rw [hdrop hnext]
    rfl

/-! ## §2. Parts of a text. -/

/-- Two parts of a text, the second of which starts where the first one ends, are one part. -/
theorem PartOf.append {source first second after after' : List Char} {a b c : Nat}
    (h : PartOf source a b first after) (h' : PartOf source b c second after') :
    PartOf source a c (first ++ second) after' := by
  obtain ⟨before, hsource, rfl, rfl⟩ := h
  obtain ⟨before', hsource', hstart, rfl⟩ := h'
  rw [← Text.byteLength_append] at hstart
  have hsame : before' ++ (second ++ after') = before ++ first ++ after := by
    rw [← hsource', hsource, List.append_assoc]
  obtain ⟨rfl, -⟩ := append_inj_of_byteLength hsame hstart
  refine ⟨before, by rw [hsource', List.append_assoc, List.append_assoc], rfl, ?_⟩
  simp only [Text.byteLength_append, Nat.add_assoc]

/-- Two parts that start at one place of a text. -/
theorem PartOf.same_rest {source first second after after' : List Char} {a b c : Nat}
    (h : PartOf source a b first after) (h' : PartOf source a c second after') :
    first ++ after = second ++ after' := by
  obtain ⟨before, rfl, rfl, -⟩ := h
  exact h'.rest_eq.1

/-- A gap that is not empty starts with a blank or with two slashes. -/
theorem Gap.starts {gap after : List Char} (h : Gap gap after) (hne : gap ≠ []) :
    (∃ c rest, gap ++ after = c :: rest ∧ isBlank c = true)
      ∨ startsComment (gap ++ after) = true := by
  cases h with
  | nil => exact absurd rfl hne
  | blank hc => exact .inl ⟨_, _, rfl, hc⟩
  | comment hcomment =>
      rw [List.append_assoc]
      exact .inr hcomment.starts

/-- A symbol of a text is a character of it, at its place, and starts no comment. -/
theorem part_of_isSymbol {file source : String} {tokens : List Token} {token : Token} {c : Char}
    (h : tokenize file source = .ok tokens) (bound : byteLength source.toList < 4294967296)
    (hmem : token ∈ tokens) (hsymbol : token.IsSymbol c) :
    ∃ after, PartOf source.toList token.start.toNat token.stop.toNat [c] after
      ∧ startsComment (c :: after) = false := by
  have hsegmentation := (segmentation_iff file bound).2 ⟨tokens, h, rfl⟩
  obtain ⟨front, hfront, hall⟩ := hsegmentation.tokens
  have hsegment : token.segment ∈ tokens.map Token.segment := List.mem_map_of_mem hmem
  have hstands : token.segment ∈ front := by
    rw [hfront] at hsegment
    rcases List.mem_append.1 hsegment with hsegment | hsegment
    · exact hsegment
    · have hkind : token.kind = .eof :=
        congrArg Segment.kind (List.mem_singleton.1 hsegment)
      rw [hsymbol.1] at hkind
      cases hkind
  obtain ⟨⟨text, after, hpart, htext, -⟩, hlt⟩ := hall _ hstands
  have hletters : text = [c] := by
    have heq : String.ofList text = String.ofList [c] := by
      rw [← htext, ← String.singleton_eq_ofList]
      exact hsymbol.2
    exact String.ofList_inj.1 heq
  subst hletters
  obtain ⟨before, hsource, hstart, hstop⟩ := hpart
  have plain := hsegmentation.startsNoComment hsegment hsource hstart.symm hlt
  exact ⟨after, ⟨before, hsource, hstart, hstop⟩, plain⟩

namespace Language

variable {file source : String} {input rest : List Token} {token : Token} {c d : Char}

/-! ## §3. Which operator stands at a token. -/

/-- Two symbols of the operator alphabet that touch. -/
def Glued (c d : Char) (input : List Token) : Prop :=
  ∃ first second rest, input = first :: second :: rest ∧ first.IsSymbol c ∧ second.IsSymbol d
    ∧ isOperatorChar c = true ∧ isOperatorChar d = true ∧ first.Touches second

/-- A symbol is glued to what it goes together with. -/
theorem glued_iff_partner? (cut : Cut (token :: rest)) (h : token.IsSymbol c) :
    Glued c d (token :: rest) ↔ token.partner? = some d := by
  constructor
  · rintro ⟨first, second, more, hinput, -, hsecond, hc, hd, touches⟩
    cases hinput
    exact (Token.partner?_iff cut).2
      ⟨Token.isOperatorSymbol_of_isSymbol h hc, hsecond, hd, touches⟩
  · intro hpartner
    cases rest with
    | nil =>
        -- a token that nothing follows marks the end
        cases cut with
        | last hmark =>
            rw [h.1] at hmark
            cases hmark
    | cons next more =>
        obtain ⟨⟨c', hmem, hsymbol⟩, hnext, hd, touches⟩ := (Token.partner?_iff cut).1 hpartner
        have hsame : c' = c := String.singleton_inj.1 (hsymbol.2.symm.trans h.2)
        exact ⟨token, next, more, rfl, h, hnext, List.contains_iff_mem.2 (hsame ▸ hmem), hd,
          touches⟩

/-- The operator at a symbol: with its partner, or alone. -/
theorem operator?_of_isSymbol (h : token.IsSymbol c) :
    Cursor.operator? ⟨file, token :: rest⟩
      = some ((token.partner?.map fun d => ⟨String.ofList [c, d], 2⟩).getD
          ⟨String.singleton c, 1⟩) := by
  have hhead : (String.singleton c).toList.head? = some c := by simp
  have hpartner : token.partner?
      = token.trailing.filter fun d => isOperatorChar c && isOperatorChar d := by
    rw [Token.partner?, if_pos h.1, h.2, hhead, Option.bind_some]
  rw [operator?_symbol h, ← hpartner]
  cases token.partner? <;> rfl

/-- A token of a text is a symbol, or no operator starts with it. -/
theorem symbol_or_none (file : String) (cut : Cut (token :: rest)) :
    (∃ c, token.IsSymbol c)
      ∨ token.kind ≠ .symbol ∧ Cursor.operator? ⟨file, token :: rest⟩ = none := by
  by_cases hkind : token.kind = .symbol
  · obtain ⟨c, after, first, hsymbol, hfirst⟩ := sign_of_lead cut hkind
    cases hfirst
    exact .inl ⟨c, hsymbol⟩
  · refine .inr ⟨hkind, ?_⟩
    rw [Cursor.operator?_cons, Token.View.operator?]
    exact if_neg hkind

/-- Only symbols start operators. -/
theorem operator?_eq_none_iff (cut : Cut (token :: rest)) :
    Cursor.operator? ⟨file, token :: rest⟩ = none ↔ token.kind ≠ .symbol := by
  rcases symbol_or_none file cut with ⟨c, hsymbol⟩ | ⟨hkind, hnone⟩
  · rw [operator?_of_isSymbol hsymbol]
    exact ⟨fun h => absurd h (Option.some_ne_none _), fun h => absurd hsymbol.1 h⟩
  · exact ⟨fun _ => hkind, fun _ => hnone⟩

/-- **Which operator stands at a token**: two symbols of the alphabet that touch, or any one
symbol that is not the first of two such. -/
theorem operator?_eq_some_iff (cut : Cut (token :: rest)) {operator : OperatorReading} :
    Cursor.operator? ⟨file, token :: rest⟩ = some operator
      ↔ (∃ c d, Glued c d (token :: rest) ∧ operator = ⟨String.ofList [c, d], 2⟩)
        ∨ ∃ c, token.IsSymbol c ∧ (∀ d, ¬ Glued c d (token :: rest))
            ∧ operator = ⟨String.singleton c, 1⟩ := by
  constructor
  · intro h
    rcases symbol_or_none file cut with ⟨c, hsymbol⟩ | ⟨-, hnone⟩
    · rw [operator?_of_isSymbol hsymbol] at h
      cases hpartner : token.partner? with
      | some d =>
          rw [hpartner] at h
          cases h
          exact .inl ⟨c, d, (glued_iff_partner? cut hsymbol).2 hpartner, rfl⟩
      | none =>
          rw [hpartner] at h
          cases h
          refine .inr ⟨c, hsymbol, fun d hglued => ?_, rfl⟩
          rw [glued_iff_partner? cut hsymbol, hpartner] at hglued
          cases hglued
    · rw [hnone] at h
      cases h
  · rintro (⟨c, d, hglued, rfl⟩ | ⟨c, hsymbol, hapart, rfl⟩)
    · have hsymbol : token.IsSymbol c := by
        obtain ⟨first, second, more, hinput, hfirst, -⟩ := hglued
        cases hinput
        exact hfirst
      rw [operator?_of_isSymbol hsymbol, (glued_iff_partner? cut hsymbol).1 hglued]
      rfl
    · have hpartner : token.partner? = none :=
        Option.eq_none_iff_forall_ne_some.2 fun d hd =>
          hapart d ((glued_iff_partner? cut hsymbol).2 hd)
      rw [operator?_of_isSymbol hsymbol, hpartner]
      rfl

/-! ## §4. What is moved over. -/

/-- The tokens that an operator takes, and what they are in the text. -/
structure Spans (file : String) (source : List Char) (input : List Token)
    (operator : OperatorReading) (taken left : List Token) : Prop where
  /-- They come first. -/
  split : input = taken ++ left
  /-- There are as many as the operator is wide. -/
  width : taken.length = operator.width
  /-- Moving over the operator leaves the others. -/
  moved : Cursor.advanceBy operator.width ⟨file, input⟩ = ⟨file, left⟩
  /-- From the start of the first to the end of the last the text is the spelling. -/
  part : ∃ first last after, taken.head? = some first ∧ taken.getLast? = some last
    ∧ PartOf source first.start.toNat last.stop.toNat operator.spelling.toList after

/-- What is moved over is the spelling, character by character. -/
theorem spans_of_operator? {tokens front : List Token} {operator : OperatorReading}
    (h : tokenize file source = .ok tokens) (bound : byteLength source.toList < 4294967296)
    (hat : tokens = front ++ token :: rest)
    (hoperator : Cursor.operator? ⟨file, token :: rest⟩ = some operator) :
    ∃ taken left, Spans file source.toList (token :: rest) operator taken left := by
  have cut : Cut (token :: rest) :=
    (cut_of_tokenize h bound).suffix ⟨front, hat.symm⟩ (List.cons_ne_nil _ _)
  have hmem : ∀ other ∈ token :: rest, other ∈ tokens := fun other hother => by
    rw [hat]
    exact List.mem_append_right front hother
  rcases (operator?_eq_some_iff cut).1 hoperator with
    ⟨c, d, ⟨first, second, more, hinput, hfirst, hsecond, -, -, touches⟩, rfl⟩
      | ⟨c, hsymbol, -, rfl⟩
  · cases hinput
    have cut₁ := cut.tail (by simp [hfirst.1])
    have cut₂ := cut₁.tail (by simp [hsecond.1])
    obtain ⟨after, hpart, -⟩ := part_of_isSymbol h bound (hmem token (by simp)) hfirst
    obtain ⟨after', hpart', -⟩ := part_of_isSymbol h bound (hmem second (by simp)) hsecond
    have touches : token.stop = second.start := touches
    rw [← touches] at hpart'
    refine ⟨[token, second], more, rfl, rfl, ?_, token, second, after', rfl, rfl, ?_⟩
    · simp only [Cursor.advanceBy, advance_cons _ cut₁.ne_nil, advance_cons _ cut₂.ne_nil]
    · rw [String.toList_ofList]
      exact hpart.append hpart'
  · have cut₁ := cut.tail (by simp [hsymbol.1])
    obtain ⟨after, hpart, -⟩ := part_of_isSymbol h bound (hmem token (by simp)) hsymbol
    refine ⟨[token], rest, rfl, rfl, ?_, token, token, after, rfl, rfl, ?_⟩
    · simp only [Cursor.advanceBy, advance_cons _ cut₁.ne_nil]
    · rw [String.singleton_eq_ofList, String.toList_ofList]
      exact hpart

/-- A blank or a comment between two symbols keeps them apart. -/
theorem not_glued_of_gap {tokens front : List Token} {gap after : List Char} {stop : Nat}
    (h : tokenize file source = .ok tokens) (bound : byteLength source.toList < 4294967296)
    (hat : tokens = front ++ token :: rest)
    (hpart : PartOf source.toList token.stop.toNat stop gap after) (hgap : Gap gap after)
    (hne : gap ≠ []) : ¬ Glued c d (token :: rest) := by
  rintro ⟨first, second, more, hinput, -, hsecond, -, hd, touches⟩
  cases hinput
  have hmem : second ∈ tokens := by
    rw [hat]
    simp
  obtain ⟨after', hpart', plain⟩ := part_of_isSymbol h bound hmem hsecond
  have touches : token.stop = second.start := touches
  rw [← touches] at hpart'
  -- the gap and the second symbol would start at one place
  have hrest : gap ++ after = d :: after' := hpart.same_rest hpart'
  rcases hgap.starts hne with ⟨e, left, hblank, blank⟩ | hcomment
  · obtain ⟨rfl, -⟩ := List.cons.inj (hblank.symm.trans hrest)
    rw [(class_of_isOperatorChar hd).2.2.1] at blank
    cases blank
  · rw [hrest, plain] at hcomment
    cases hcomment

/-! ## §5. Gluing agrees with the tokens. -/

/-- **An operator is what the tokens say.**  At every token of a text the cursor sees two
characters exactly when the token and the next one are symbols of the operator alphabet and
touch, one character exactly when the token is any other symbol, and no operator before any
other token.  Moving over what it sees takes tokens that are the spelling in the text.  A
blank or a comment behind a symbol leaves it alone.  And a character behind a token that is no
blank is the first one of the next token, and the whole of it if it is an operator
character. -/
theorem gluing_agrees {tokens front : List Token}
    (h : tokenize file source = .ok tokens) (bound : byteLength source.toList < 4294967296)
    (hat : tokens = front ++ token :: rest) :
    (∀ operator, Cursor.operator? ⟨file, token :: rest⟩ = some operator
        ↔ (∃ c d, Glued c d (token :: rest) ∧ operator = ⟨String.ofList [c, d], 2⟩)
          ∨ ∃ c, token.IsSymbol c ∧ (∀ d, ¬ Glued c d (token :: rest))
              ∧ operator = ⟨String.singleton c, 1⟩)
    ∧ (Cursor.operator? ⟨file, token :: rest⟩ = none ↔ token.kind ≠ .symbol)
    ∧ (∀ operator, Cursor.operator? ⟨file, token :: rest⟩ = some operator →
        ∃ taken left, Spans file source.toList (token :: rest) operator taken left)
    ∧ (∀ c stop gap after, token.IsSymbol c →
        PartOf source.toList token.stop.toNat stop gap after → Gap gap after → gap ≠ [] →
        Cursor.operator? ⟨file, token :: rest⟩ = some ⟨String.singleton c, 1⟩)
    ∧ ∀ d, token.trailing = some d →
        isBlank d = true ∨ ∃ next more, rest = next :: more ∧ token.Touches next
          ∧ next.text.toList.head? = some d ∧ (isOperatorChar d = true → next.IsSymbol d) := by
  have cut : Cut (token :: rest) :=
    (cut_of_tokenize h bound).suffix ⟨front, hat.symm⟩ (List.cons_ne_nil _ _)
  refine ⟨fun operator => operator?_eq_some_iff cut, operator?_eq_none_iff cut,
    fun operator => spans_of_operator? h bound hat, ?_, ?_⟩
  · intro c stop gap after hsymbol hpart hgap hne
    exact (operator?_eq_some_iff cut).2
      (.inr ⟨c, hsymbol, fun d => not_glued_of_gap h bound hat hpart hgap hne, rfl⟩)
  · intro d htrail
    rcases Scanner.next_of_trails h front token rest hat d htrail with
      blank | ⟨next, more, rfl, touches, hhead⟩
    · exact .inl blank
    · refine .inr ⟨next, more, rfl, touches, hhead, fun hd => ?_⟩
      cases cut with
      | cons _ joins _ => exact ((joins d hd).1 htrail).2

/-- Two characters that touch, and one with a comment behind it in place of a slash. -/
theorem comment_behind_operator :
    ∃ tokens, tokenize "sel" "a<=b</// x\n=c" = .ok tokens
      ∧ byteLength "a<=b</// x\n=c".toList < 4294967296
      ∧ (∃ taken left, Spans "sel" "a<=b</// x\n=c".toList (tokens.drop 1) ⟨"<=", 2⟩ taken left)
      ∧ Cursor.operator? ⟨"sel", tokens.drop 1⟩ = some ⟨"<=", 2⟩
      ∧ Cursor.operator? ⟨"sel", tokens.drop 4⟩ = some ⟨"<", 1⟩
      ∧ Cursor.operator? ⟨"sel", tokens.drop 3⟩ = none
      ∧ ∃ next more, tokens.drop 1 = next :: more ∧ next.IsSymbol '<' := by
  let tokens : List Token := [⟨.identifier, "a", 0, 1, some '<'⟩, ⟨.symbol, "<", 1, 2, some '='⟩,
    ⟨.symbol, "=", 2, 3, some 'b'⟩, ⟨.identifier, "b", 3, 4, some '<'⟩,
    ⟨.symbol, "<", 4, 5, none⟩, ⟨.symbol, "=", 11, 12, some 'c'⟩,
    ⟨.identifier, "c", 12, 13, none⟩, ⟨.eof, "EOF", 13, 13, none⟩]
  have htokens : tokenize "sel" "a<=b</// x\n=c" = .ok tokens := by decide +kernel
  have bound : byteLength "a<=b</// x\n=c".toList < 4294967296 := by decide
  -- the theorem at the tokens `a`, `<`, `b` and `<`
  have hfirst := gluing_agrees htokens bound
    (show tokens = [] ++ ⟨.identifier, "a", 0, 1, some '<'⟩ :: tokens.drop 1 from rfl)
  have hpair := gluing_agrees htokens bound
    (show tokens = tokens.take 1 ++ ⟨.symbol, "<", 1, 2, some '='⟩ :: tokens.drop 2 from rfl)
  have hname := gluing_agrees htokens bound
    (show tokens = tokens.take 3 ++ ⟨.identifier, "b", 3, 4, some '<'⟩ :: tokens.drop 4 from rfl)
  have hsingle := gluing_agrees htokens bound
    (show tokens = tokens.take 4 ++ ⟨.symbol, "<", 4, 5, none⟩ :: tokens.drop 5 from rfl)
  have hglued : Cursor.operator? ⟨"sel", tokens.drop 1⟩ = some ⟨"<=", 2⟩ :=
    (hpair.1 _).2 (.inl ⟨'<', '=', ⟨_, _, _, rfl, ⟨rfl, rfl⟩, ⟨rfl, rfl⟩, rfl, rfl, rfl⟩, rfl⟩)
  -- the gap is the comment with its newline
  have hcomment : IsComment "/// x".toList "\n=c".toList :=
    ⟨"/ x".toList, rfl, by simp, fun c hc => (Option.some.inj hc).symm⟩
  have hgap : Gap "/// x\n".toList "=c".toList :=
    show Gap ("/// x".toList ++ ['\n']) "=c".toList from .comment hcomment (.blank rfl .nil)
  have hpart : PartOf "a<=b</// x\n=c".toList 5 11 "/// x\n".toList "=c".toList :=
    ⟨"a<=b<".toList, rfl, by decide, by decide⟩
  have halone : Cursor.operator? ⟨"sel", tokens.drop 4⟩ = some ⟨"<", 1⟩ :=
    hsingle.2.2.2.1 '<' 11 _ _ ⟨rfl, rfl⟩ hpart hgap (by decide)
  have hnone : Cursor.operator? ⟨"sel", tokens.drop 3⟩ = none := hname.2.1.2 (by decide)
  refine ⟨tokens, htokens, bound, hpair.2.2.1 _ hglued, hglued, halone, hnone, ?_⟩
  rcases hfirst.2.2.2.2 '<' rfl with blank | ⟨next, more, hnext, -, -, hsymbol⟩
  · exact absurd blank (by decide)
  · exact ⟨next, more, hnext, hsymbol rfl⟩

end Language
end Fixity
