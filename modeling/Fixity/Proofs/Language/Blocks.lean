/-
  Fixity.Proofs.Language.Blocks
  ────────────────────────────────
  **A BLOCK AND A PROGRAM READ THEIR STATEMENTS ALIKE.**

  A program and the inside of a block are both rows of bodies, but their semicolons are not
  the same.  A program may have any number of them before every form; a block has at most
  one, and only behind a statement:

      a; b c           three forms as a program, three statements between braces
      ; a     a;; b    a program each, but nothing that can stand between braces

  Where no semicolon comes first and none follows another one, both rows are cut at the same
  places: a body is over at the brace that closes just as it is over at the end of a text.

  Main results: `statements_of_forms` (expressions before the end of a text are statements
  before a brace) and `block_of_program`.
-/
import Mathlib.Data.List.Chain
import Fixity.Proofs.Language.Joining
import Fixity.Proofs.Language.Passing
import Fixity.Proofs.Language.Programs
import Fixity.Proofs.Language.Views
import Fixity.Proofs.Scanning.Enclosing

namespace Fixity.Language

open Text (byteLength)

variable {file source : String} {table last : Operator.Table}
  {input rest next tokens others more : List Token} {forms : List Form}

/-! ## §1. Semicolons that are apart. -/

/-- No semicolon follows another one. -/
def SemicolonsApart (tokens : List Token) : Prop :=
  tokens.IsChain fun token next => ¬ (token.kind = .semicolon ∧ next.kind = .semicolon)

instance (tokens : List Token) : Decidable (SemicolonsApart tokens) :=
  inferInstanceAs (Decidable (List.IsChain _ tokens))

namespace SemicolonsApart

/-- What is left behind a phrase has its semicolons apart as well. -/
theorem passed (h : SemicolonsApart input) (hpassed : Passed input rest) : SemicolonsApart rest := by
  obtain ⟨used, rfl, -⟩ := hpassed
  exact List.IsChain.right_of_append h

/-- Behind a semicolon stands none. -/
theorem lead_ne (h : SemicolonsApart input) (hmark : Mark .semicolon input rest) :
    lead rest ≠ .semicolon := by
  obtain ⟨token, hkind, rfl⟩ := hmark
  cases rest with
  | nil => exact nofun
  | cons next rest => exact fun hnext => (List.isChain_cons_cons.1 h).1 ⟨hkind, hnext⟩

/-- Only the kinds of the tokens matter. -/
theorem map {move : Token → Token} (hmove : ∀ token, (move token).kind = token.kind)
    (h : SemicolonsApart tokens) : SemicolonsApart (tokens.map move) := by
  refine List.isChain_map_of_isChain move (fun token next hapart => ?_) h
  rw [hmove, hmove]
  exact hapart

end SemicolonsApart

/-- Tokens that stand further on start alike. -/
theorem lead_later (distance : Nat) (tokens : List Token) :
    lead (tokens.map (Token.later distance)) = lead tokens := by
  cases tokens <;> rfl

/-! ## §2. Forms are statements. -/

/-- The inside of a block before which a semicolon may be left over from the statement in
front of it. -/
def Remainder (table : Operator.Table) (es : List Expr) (input rest : List Token) : Prop :=
  Derives table (.statements es) input rest
    ∨ ∃ next, Mark .semicolon input next ∧ Derives table (.statements es) next rest

/-- A body and what remains of the block behind it. -/
theorem Remainder.statement {e : Expr} {es : List Expr} {after : List Token}
    (h : Derives table (.body e) input after) (hrest : Remainder table es after rest) :
    Derives table (.statements (e :: es)) input rest := by
  rcases hrest with hstatements | ⟨next, hmark, hstatements⟩
  · exact .statement h hstatements
  · exact .separated h hmark hstatements

/-- Expressions up to the end of a text, whose semicolons are apart, are the statements of a
block up to a brace in the place of the end; if a semicolon comes first, behind it. -/
theorem statements_of_forms {mark : Token} (hclose : Mark .closeBlock more rest)
    (h : Forms table input forms last [mark])
    (expressions : ∀ form ∈ forms, ∃ function, form = .expression function)
    (apart : SemicolonsApart input) :
    last = table ∧ ∀ {input' : List Token}, Seam more input input' →
      Remainder table (forms.map fun form => form.function.body) input' rest
        ∧ (lead input ≠ .semicolon →
            Derives table (.statements (forms.map fun form => form.function.body)) input' rest) := by
  have hmore : lead more ∉ continuing := by
    rw [hclose.lead]
    decide
  generalize hmark : [mark] = left at h
  -- the induction is on the forms; a body is taken at the seam just as before it
  induction h with
  | nil =>
      subst hmark
      refine ⟨rfl, fun {input'} seam => ?_⟩
      rw [seam.eq_more]
      exact ⟨.inl (.closed hclose), fun _ => .closed hclose⟩
  | skip hsemicolon _ ih =>
      have hlead := apart.lead_ne hsemicolon
      obtain ⟨rfl, hnext⟩ := ih expressions (apart.passed (hsemicolon.passed (by simp))) hmark
      refine ⟨rfl, fun {input'} seam => ?_⟩
      obtain ⟨next', hsemicolon', seam'⟩ := hsemicolon.seam seam (by simp)
      exact ⟨.inr ⟨next', hsemicolon', (hnext seam').2 hlead⟩,
        fun hne => absurd hsemicolon.lead hne⟩
  | definition =>
      obtain ⟨function, hform⟩ := expressions _ List.mem_cons_self
      cases hform
  | expression hbody _ ih =>
      obtain ⟨rfl, hafter⟩ :=
        ih (fun form hmem => expressions form (List.mem_cons_of_mem _ hmem))
          (apart.passed hbody.passed) hmark
      refine ⟨rfl, fun {input'} seam => ?_⟩
      obtain ⟨after', hbody', seam'⟩ := hbody.seam hmore seam
      have hall := Remainder.statement hbody' (hafter seam').1
      exact ⟨.inl hall, fun _ => hall⟩

/-! ## §3. A program between braces. -/

/-- Tokens that look the same are the same forms. -/
theorem Accepts.of_view_eq (cut : Cut tokens) (cut' : Cut others)
    (same : tokens.map Token.view = others.map Token.view) (h : Accepts table tokens forms last) :
    Accepts table others forms last := by
  have halike := readAlike_of_view_eq "" table cut.ne_nil same
  rw [(ofTokens_ok_iff cut).2 h] at halike
  have hresult : (Program.ofTokens "" others table).result = .ok forms := halike.ok rfl
  have htable : last = (Program.ofTokens "" others table).table := halike.1
  have hread : Program.ofTokens "" others table = ⟨.ok forms, last⟩ := by
    rw [htable, ← hresult]
  exact (ofTokens_ok_iff cut').1 hread

/-- **A block and a program read their statements alike.**  If a text is a program of
expressions only, with no semicolon first and none behind another one, then between braces,
behind a newline, it is one block of their bodies, in order; and neither changes the table. -/
theorem block_of_program (htokens : tokenize file source = .ok tokens)
    (bound : byteLength source.toList + 3 < 4294967296)
    (h : Program.ofSource file source table = ⟨.ok forms, last⟩)
    (expressions : ∀ form ∈ forms, ∃ function, form = .expression function)
    (hlead : lead tokens ≠ .semicolon) (apart : SemicolonsApart tokens) :
    last = table
      ∧ Program.ofSource file ("\x7b" ++ source ++ "\n\x7d") table
          = ⟨.ok [.expression
              ⟨.anonymous, .block (forms.map fun form => form.function.body)⟩], table⟩ := by
  have hletters : "\x7b" ++ source ++ "\n\x7d" = between 1 '\x7b' '\x7d' source := by
    rw [← String.toList_inj, toList_between]
    simp
  have hbytes : byteLength (between 1 '\x7b' '\x7d' source).toList = byteLength source.toList + 3 := by
    have hbrace : '\x7b'.utf8Size = 1 ∧ '\n'.utf8Size = 1 ∧ '\x7d'.utf8Size = 1 := by decide
    simp [toList_between, hbrace]
    omega
  -- the tokens inside are the same forms, one byte further on
  have cut := cut_of_tokenize htokens (by omega)
  have cut' : Cut (tokens.map (Token.later 1)) := cut_later htokens (by omega)
  rw [ofSource_of_tokenize htokens, ofTokens_ok_iff cut] at h
  obtain ⟨mark, hmark, hforms⟩ := h.of_view_eq cut cut' (by rw [List.map_map]; rfl)
  obtain ⟨found, henclosed, hyields⟩ :=
    Scanner.yields_between htokens (show Kind.ofPunctuation '\x7b' ≠ .symbol by decide)
      (show Kind.ofPunctuation '\x7d' ≠ .symbol by decide) 1 0 []
  rw [List.append_nil] at hyields
  obtain ⟨last', hlast', hwhole⟩ := hyields.tokenize
  obtain ⟨opens, inner, closes, rfl, hopens, hcloses, hseam⟩ := henclosed
  obtain ⟨opening, rfl, hopening⟩ := hopens.exists_single
  obtain ⟨closing, rfl, hclosing⟩ := hcloses.exists_single
  have hclose : Mark .closeBlock (closing :: [last']) [last'] := ⟨closing, hclosing, rfl⟩
  obtain ⟨hlast, hinside⟩ := statements_of_forms hclose hforms expressions (apart.map fun _ => rfl)
  have hstatements := (hinside (hseam (closing :: [last']))).2 (by rwa [lead_later])
  refine ⟨hlast, ?_⟩
  rw [hletters, ofSource_of_tokenize hwhole,
    ofTokens_ok_iff (cut_of_tokenize hwhole (by omega)), List.append_assoc, List.append_assoc]
  exact ⟨last', hlast', .expression (.block ⟨opening, hopening, rfl⟩ hstatements) .nil⟩

/-- Two expressions with a semicolon behind the first and none behind the second, which ends
with a block of its own, before an expression whose comment runs up to the newline. -/
theorem block_of_three :
    ∃ tokens forms, tokenize "sel" "a; while b \x7bc\x7d d // last" = .ok tokens
      ∧ Program.ofSource "sel" "a; while b \x7bc\x7d d // last" .standard = ⟨.ok forms, .standard⟩
      ∧ SemicolonsApart tokens
      ∧ Program.ofSource "sel" "\x7ba; while b \x7bc\x7d d // last\n\x7d" .standard
          = ⟨.ok [.expression ⟨.anonymous, .block [.scalar "a",
              .whileLoop (.scalar "b") (.block [.scalar "c"]), .scalar "d"]⟩], .standard⟩ := by
  let tokens : List Token := [⟨.identifier, "a", 0, 1, some ';'⟩, ⟨.semicolon, ";", 1, 2, some ' '⟩,
    ⟨.whileWord, "while", 3, 8, some ' '⟩, ⟨.identifier, "b", 9, 10, some ' '⟩,
    ⟨.openBlock, "\x7b", 11, 12, some 'c'⟩, ⟨.identifier, "c", 12, 13, some '\x7d'⟩,
    ⟨.closeBlock, "\x7d", 13, 14, some ' '⟩, ⟨.identifier, "d", 15, 16, some ' '⟩,
    ⟨.eof, "EOF", 24, 24, none⟩]
  let forms : List Form := [.expression ⟨.anonymous, .scalar "a"⟩,
    .expression ⟨.anonymous, .whileLoop (.scalar "b") (.block [.scalar "c"])⟩,
    .expression ⟨.anonymous, .scalar "d"⟩]
  have htokens : tokenize "sel" "a; while b \x7bc\x7d d // last" = .ok tokens := by
    decide +kernel
  have hforms : Program.ofSource "sel" "a; while b \x7bc\x7d d // last" .standard
      = ⟨.ok forms, .standard⟩ := by
    decide +kernel
  have apart : SemicolonsApart tokens := by decide
  have hexpressions : ∀ form ∈ forms, ∃ function, form = .expression function := by
    intro form hmem
    cases form with
    | definition function => exact absurd hmem (by simp [forms])
    | expression function => exact ⟨function, rfl⟩
  have hblock := block_of_program htokens (by decide) hforms hexpressions (by decide) apart
  exact ⟨tokens, forms, htokens, hforms, apart, hblock.2⟩

end Fixity.Language
