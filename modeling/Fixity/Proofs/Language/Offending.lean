/-
  Fixity.Proofs.Language.Offending
  ────────────────────────────────
  **ERRORS POINT AT THE OFFENDING TOKEN.**

  The error of a text stands at a boundary between characters of that text, in the file
  that was named.  It is where a token starts, or where a character starts none; and if
  it shows a piece of the text, the text goes on with that piece from there, or is over
  and the piece is the end mark.

  A construct that is read by itself points at the token where it stops, whatever was
  read or failed before, and has not moved back.

  Main results: `located_of_ofSource` (a text) and `stopped_of_fails` (a construct),
  together `errors_point`.
-/
import Fixity.Proofs.Reading.Blame
import Fixity.Proofs.Reading.Invariant
import Fixity.Proofs.Scanning.Segmentation

namespace Fixity

open Text (byteLength)

/-! ## §1. Where an error stands in a text. -/

/-- The start of a token of a text, or of a character that starts none. -/
def Offends (file source : String) (error : Error) (after : List Char) : Prop :=
  (∃ tokens token, tokenize file source = .ok tokens ∧ token ∈ tokens
    ∧ token.start = error.position.offset)
  ∨ ∃ c rest, after = c :: rest ∧ split? after = none
    ∧ error.fault = .unrecognisedToken (String.singleton c)

/-- An error between two parts of a text. -/
structure Located (file source : String) (error : Error) (before after : List Char) : Prop where
  /-- The file is the one that was named. -/
  named : error.position.file = file
  /-- The place is where the second part starts. -/
  place : source.toList = before ++ after ∧ error.position.offset.toNat = byteLength before
  /-- A token starts there, or a character that starts none. -/
  start : Offends file source error after
  /-- What the error shows stands there. -/
  shown : ∀ text, error.fault.shown? = some text →
    text.toList <+: after ∨ (text = Token.eofText ∧ after = [])
  /-- A block is unterminated at the end. -/
  ended : error.fault = .unterminatedBlock → after = []

/-- No token is the end of a text. -/
theorem Stands.kind_ne_eof {kind : Kind} {text after : List Char} (h : Stands kind text after) :
    kind ≠ .eof := by
  cases h with
  | word => exact (ofWord_ne _).2.2
  | numeral => nofun
  | mark => exact (ofPunctuation_ne _).2.2

/-- A token of a text stands there, or marks its end. -/
theorem cut_of_mem {file source : String} {tokens : List Token} {token : Token}
    (bound : byteLength source.toList < 4294967296) (h : tokenize file source = .ok tokens)
    (hmem : token ∈ tokens) :
    ∃ before after, source.toList = before ++ after ∧ token.start.toNat = byteLength before
      ∧ (token.text.toList <+: after ∨ (token.text = Token.eofText ∧ after = []))
      ∧ (token.kind = .eof → after = []) := by
  have hsegmentation := (segmentation_iff file bound).2 ⟨tokens, h, rfl⟩
  obtain ⟨front, hfront, hall⟩ := hsegmentation.tokens
  have hsegment : token.segment ∈ front ++ [.endMark source.toList] :=
    hfront ▸ List.mem_map_of_mem hmem
  rcases List.mem_append.1 hsegment with hsegment | hsegment
  · obtain ⟨⟨text, after, ⟨before, hsource, hstart, -⟩, htext, hstands⟩, -⟩ := hall _ hsegment
    refine ⟨before, text ++ after, hsource, hstart.symm, .inl ⟨after, ?_⟩, ?_⟩
    · have hlist : token.text.toList = text := by
        rw [show token.text = String.ofList text from htext, String.toList_ofList]
      rw [hlist]
    · exact fun hkind => absurd hkind hstands.kind_ne_eof
  · have hmark : token.segment = .endMark source.toList := List.mem_singleton.1 hsegment
    have htext : token.text = Token.eofText := congrArg Segment.text hmark
    have hstart : token.start.toNat = byteLength source.toList := congrArg Segment.start hmark
    exact ⟨source.toList, [], (List.append_nil _).symm, hstart, .inr ⟨htext, rfl⟩, fun _ => rfl⟩

/-! ## §2. The errors of a text. -/

open Read Grammar

/-- A place in a list of tokens, on a token, in a given file. -/
structure Within (file : String) (tokens : List Token) (state : ReadState) : Prop where
  /-- The file. -/
  file : state.cursor.file = file
  /-- What is left of the list. -/
  suffix : state.cursor.tokens <:+ tokens
  /-- There is a token. -/
  some : state.cursor.tokens ≠ []

/-- Moving stays in the list. -/
theorem Within.advance {file : String} {tokens : List Token} {s : ReadState}
    (h : Within file tokens s) :
    Within file tokens { s with cursor := s.cursor.advance } := by
  refine ⟨(Cursor.file_advance _).trans h.file,
    (Cursor.tokens_advance_suffix _).trans h.suffix, ?_⟩
  show s.cursor.advance.tokens ≠ []
  unfold Cursor.advance
  split
  · simp
  · exact h.some

/-- A program that fails stops on one of its tokens, and points at that. -/
theorem within_of_fails {file : String} {tokens : List Token} {table : Operator.Table}
    {error : Error} {t : ReadState} (hne : tokens ≠ [])
    (h : Fails (forms .standard) ⟨⟨file, tokens⟩, table⟩ error t) :
    Within file tokens t ∧ Points t error := by
  have alike : Alike (Both (Within file tokens)) Eq :=
    alike_both Within.advance fun _ _ hdeclare => ⟨hdeclare.1, hdeclare.2, hdeclare.3⟩
  have hstart : Within file tokens ⟨⟨file, tokens⟩, table⟩ := ⟨rfl, List.suffix_refl _, hne⟩
  exact ⟨((alike.forms_inStep .standard).keeps hstart).2 h, blames_forms _ h⟩

/-- A program fails where its reading does, with the table that this leaves. -/
theorem fails_of_ofTokens {file : String} {tokens : List Token} {table : Operator.Table}
    {error : Error} (h : (Program.ofTokens file tokens table).result = .error error) :
    ∃ t, Fails (forms .standard) ⟨⟨file, tokens⟩, table⟩ error t
      ∧ (Program.ofTokens file tokens table).table = t.table := by
  unfold Program.ofTokens at h ⊢
  split at h
  · cases h
  · next found t hrun =>
    cases h
    exact ⟨t, hrun, rfl⟩

/-- The token that a program stops on. -/
theorem points_of_ofTokens {file : String} {tokens : List Token} {table : Operator.Table}
    {error : Error} (hne : tokens ≠ [])
    (h : (Program.ofTokens file tokens table).result = .error error) :
    ∃ token ∈ tokens, error.position = ⟨token.start, file⟩
      ∧ (∀ text, error.fault.shown? = some text → text = token.text)
      ∧ (error.fault = .unterminatedBlock → token.kind = .eof)
      ∧ (∀ text, error.fault = .badNumber text →
          token.kind = .number ∧ Number.ofText? token.text = none) := by
  obtain ⟨t, hfails, -⟩ := fails_of_ofTokens h
  obtain ⟨hwithin, hpoints⟩ := within_of_fails hne hfails
  obtain ⟨⟨file', left⟩, table'⟩ := t
  obtain ⟨rfl, hsuffix, hsome⟩ := hwithin
  obtain ⟨token, more, rfl⟩ := List.exists_cons_of_ne_nil hsome
  refine ⟨token, hsuffix.subset List.mem_cons_self, hpoints.position, hpoints.shown,
    hpoints.ended, fun text htext => ?_⟩
  obtain ⟨hkind, hnone⟩ := hpoints.number text htext
  rw [number?_eq, if_pos hkind] at hnone
  exact ⟨hkind, hnone⟩

/-- The error of a text stands where a token starts, or a character that starts none. -/
theorem located_of_ofSource {file source : String} {table : Operator.Table} {error : Error}
    (bound : byteLength source.toList < 4294967296)
    (h : (Program.ofSource file source table).result = .error error) :
    ∃ before after, Located file source error before after := by
  unfold Program.ofSource at h
  cases htokens : tokenize file source with
  | error found =>
      rw [htokens] at h
      cases h
      obtain ⟨place, c, rest, hvisits, hplace, hnone, rfl⟩ := Scanner.visits_of_error htokens
      obtain ⟨before, hsource, hoffset⟩ := hvisits.onBoundary
      have hhead : place.head = c := by simp [Scanner.head, hplace]
      refine ⟨before, place.rest, hvisits.file, ⟨hsource, ?_⟩, .inr ⟨c, rest, hplace, hnone, ?_⟩,
        fun text htext => .inl ?_, fun hfault => absurd hfault (by simp [Scanner.unrecognised])⟩
      · have hle := congrArg byteLength hsource
        rw [Text.byteLength_append] at hle
        show (UInt32.ofNat place.offset).toNat = _
        rw [UInt32.toNat_ofNat_of_lt' (by simp only [UInt32.size]; omega), hoffset]
      · show Fault.unrecognisedToken (String.singleton place.head) = _
        rw [hhead]
      · have hshown : String.singleton place.head = text := Option.some.inj htext
        rw [← hshown, hhead, hplace]
        exact ⟨rest, by simp⟩
  | ok tokens =>
      rw [htokens] at h
      obtain ⟨token, hmem, hposition, hshown, hended, -⟩ :=
        points_of_ofTokens (Scanner.tokens?_ne_nil htokens) h
      obtain ⟨before, after, hsource, hstart, htext, heof⟩ := cut_of_mem bound htokens hmem
      have hoffset : error.position.offset = token.start := by rw [hposition]
      refine ⟨before, after, by rw [hposition], ⟨hsource, by rw [hoffset, hstart]⟩,
        .inl ⟨tokens, token, htokens, hmem, hoffset.symm⟩, fun text hgiven => ?_,
        fun hfault => heof (hended hfault)⟩
      rw [hshown text hgiven]
      exact htext

/-! ## §3. Constructs that are read by themselves. -/

/-- What can be read by itself, with the choice of the language. -/
inductive Public : {α : Type} → Read α → Prop
  /-- An expression, an operand, a block, or what one production reads. -/
  | construct (production : Production) : Public (read .standard production)
  /-- The operators and operands after an expression. -/
  | climb (loosest : UInt32) (left : Expr) : Public (achieve .standard (.climb loosest left))
  /-- The head of a definition. -/
  | heading : Public heading
  | definition : Public (definition .standard)
  /-- An expression or a block that stands by itself. -/
  | freeExpression : Public (freeExpression .standard)
  | form : Public (form .standard)
  | forms : Public (forms .standard)
  /-- A token that is needed. -/
  | take (needed : Kind) (shown : String) : Public (take needed shown)
  | identifier : Public identifier

/-- A state that reading stopped in with an error, from another state. -/
structure Stopped (before after : ReadState) (error : Error) : Prop where
  /-- The error is placed at the current token. -/
  position : error.position = after.cursor.position
  /-- If it shows a token, it is that one. -/
  shown : ∀ text, error.fault.shown? = some text → text = after.cursor.text
  /-- The cursor has not moved back. -/
  suffix : after.cursor.tokens <:+ before.cursor.tokens

variable {α : Type} {p : Read α} {s t : ReadState} {error : Error}

/-- What can be read by itself keeps what moving and declaring keep. -/
theorem Public.keeps (h : Public p) {I : ReadState → Prop} (alike : Alike (Both I) Eq) :
    Keeps I p := by
  cases h with
  | construct production => exact (alike.read_inStep _ production).keeps
  | climb loosest left => exact (alike.achieve_inStep _ _).keeps
  | heading => exact alike.heading_inStep.keeps
  | definition => exact (alike.definition_inStep _).keeps
  | freeExpression => exact (alike.freeExpression_inStep _).keeps
  | form => exact (alike.form_inStep _).keeps
  | forms => exact (alike.forms_inStep _).keeps
  | take needed shown => exact (alike.take_inStep needed shown).keeps
  | identifier => exact alike.identifier_inStep.keeps

/-- What can be read by itself points at the token where it stops. -/
theorem Public.blames (h : Public p) (hfails : Fails p s error t) :
    error.position = t.cursor.position
      ∧ ∀ text, error.fault.shown? = some text → text = t.cursor.text := by
  have hblames (hp : Blames p) : error.position = t.cursor.position
      ∧ ∀ text, error.fault.shown? = some text → text = t.cursor.text :=
    ⟨(hp s hfails).position, (hp s hfails).shown⟩
  cases h with
  | construct production =>
      by_cases hproduction : production = .number
      · subst hproduction
        obtain ⟨rfl, rfl⟩ := fails_read_number hfails
        exact ⟨rfl, fun text htext => (Option.some.inj htext).symm⟩
      · exact hblames (blames_read hproduction)
  | climb loosest left => exact hblames (blames_achieve nofun)
  | heading => exact hblames blames_heading
  | definition => exact hblames blames_definition
  | freeExpression => exact hblames blames_freeExpression
  | form => exact hblames blames_form
  | forms => exact hblames blames_forms
  | take needed shown => exact hblames (blames_take needed shown)
  | identifier => exact hblames blames_identifier

/-- A construct that fails leaves the cursor at the token that the error is about. -/
theorem stopped_of_fails (h : Public p) (hfails : Fails p s error t) : Stopped s t error := by
  have alike : Alike (Both fun t => t.cursor.tokens <:+ s.cursor.tokens) Eq :=
    alike_both (fun hsuffix => (Cursor.tokens_advance_suffix _).trans hsuffix)
      fun _ _ hsuffix => hsuffix
  exact ⟨(h.blames hfails).1, (h.blames hfails).2,
    (h.keeps alike (List.suffix_refl s.cursor.tokens)).2 hfails⟩

/-- The error of a text points at the token or the character that is wrong, and what is
read by itself stops at the token that its error is about. -/
theorem errors_point {file? : Option String} {source : String} {table : Operator.Table}
    (bound : byteLength source.toList < 4294967296) :
    (∀ error, (Program.ofSource (file?.getD defaultFile) source table).result = .error error →
      ∃ before after, Located (file?.getD defaultFile) source error before after)
    ∧ ∀ {α : Type} {p : Read α}, Public p → ∀ s error t, Fails p s error t → Stopped s t error :=
  ⟨fun _ h => located_of_ofSource bound h, fun h _ _ _ hfails => stopped_of_fails h hfails⟩

/-- An argument and a parameter without a comma in front of them. -/
theorem argument_without_comma :
    (∃ before after, Located defaultFile "f(1 2"
      ⟨.expectedCommaOrParen "2", ⟨4, defaultFile⟩⟩ before after)
    ∧ ∃ s t, Fails heading s ⟨.expectedParamOrParen "y", ⟨4, "sel"⟩⟩ t
        ∧ Stopped s t ⟨.expectedParamOrParen "y", ⟨4, "sel"⟩⟩ ∧ t.cursor.text = "y" := by
  have hpoint := @errors_point none "f(1 2" .standard (by decide)
  refine ⟨hpoint.1 _ (by decide +kernel), ?_⟩
  let tokens : List Token := [⟨.identifier, "g", 0, 1, some '('⟩,
    ⟨.openParen, "(", 1, 2, some 'x'⟩, ⟨.identifier, "x", 2, 3, some ' '⟩,
    ⟨.identifier, "y", 4, 5, none⟩, ⟨.eof, "EOF", 5, 5, none⟩]
  have hfails : Fails heading ⟨⟨"sel", tokens⟩, .standard⟩
      ⟨.expectedParamOrParen "y", ⟨4, "sel"⟩⟩ ⟨⟨"sel", tokens.drop 3⟩, .standard⟩ := by
    unfold Fails
    rfl
  exact ⟨_, _, hfails, hpoint.2 .heading _ _ _ hfails, rfl⟩

end Fixity
