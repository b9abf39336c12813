/-
  Fixity.Proofs.Language.Closing
  ────────────────────────────────
  **WHAT IS NOT FINISHED CAN BE FINISHED.**

  A text that ends inside a block is the beginning of a program.  Each phrase that was
  begun is finished by a few words of its own: a block by its brace, parentheses, an index
  and arguments by what closes them, a condition by `then` and a number, the head of a loop
  by the bounds that are missing and a body.  The words of an inner phrase come first.

  No phrase takes the words that are meant for another one.  What is written after a
  phrase is never a token that the phrase could go on over, so an operator chain, an
  index or a choice that ends there is over.

  Main results: `Unfinished.closable` (the words that finish a phrase),
  `UnfinishedForms.exists_closers` (those that finish forms) and
  `completable_of_unfinished` (the text that a program can go on from).
-/
import Fixity.Proofs.Language.Declared
import Fixity.Proofs.Language.RoundTrip

namespace Fixity.Language

open Operator (isOperatorChar)
open Text (byteLength)

variable {table : Operator.Table} {region larger : Region} {words follow : List String}
  {input inner next rest more input' : List Token}

/-! ## §1. Words that no phrase goes on over. -/

/-- Words stop what stands before them if the first of them does, and those after them do
if there are none. -/
theorem stops_append (h : leadOf words ∉ continuing) (h' : leadOf follow ∉ continuing) :
    leadOf (words ++ follow) ∉ continuing := by
  cases words with
  | nil => exact h'
  | cons word words => exact h

/-- Words that can stand behind tokens to finish them. -/
structure Closers (words : List String) (input : List Token) : Prop where
  /-- They are cut into tokens again. -/
  cuttable : AllCuttable words
  /-- No phrase goes on over them. -/
  stops : leadOf words ∉ continuing
  /-- A token takes at most seven bytes to finish what it begins, and the last one none. -/
  short : byteLength (behind words) < 7 * input.length

/-- What finishes the phrase around a part, behind the words that finish the part. -/
def tails : List (List String) :=
  [[], ["\x7d"], [")"], ["]"], ["then", "0"], [",", "0", "0"], ["0"], [")", "0"]]

theorem closers_of_mem_tails (h : words ∈ tails) :
    AllCuttable words ∧ leadOf words ∉ continuing ∧ byteLength (behind words) ≤ 7 := by
  have htails : ∀ words ∈ tails, (∀ word ∈ words, IsWord (leadOf [word]) word)
      ∧ leadOf words ∉ continuing ∧ byteLength (behind words) ≤ 7 := by decide
  obtain ⟨hwords, hstops, hshort⟩ := htails words h
  exact ⟨fun word hmem => .inl ⟨_, hwords word hmem⟩, hstops, hshort⟩

/-! ## §2. Phrases that words finish. -/

/-- The tokens up to a place are a phrase of a kind.  Arguments and statements are so if
what closes them stands at that place. -/
def Finished (table : Operator.Table) : Region → List Token → List Token → Prop
  | .body, input, rest => ∃ e, Derives table (.body e) input rest
  | .expression, input, rest => ∃ e, Derives table (.expression e) input rest
  | .operand, input, rest => ∃ e, Derives table (.operand e) input rest
  | .primary, input, rest => ∃ e, Derives table (.primary e) input rest
  | .links, input, rest => ∃ links, Derives table (.links links) input rest
  | .indices, input, rest => ∃ e es, Derives table (.indices (e :: es)) input rest
  | .arguments, input, rest =>
      ∀ {last}, Mark .closeParen rest last → ∃ es, Derives table (.arguments es) input last
  | .statements, input, rest =>
      ∀ {last}, Mark .closeBlock rest last → ∃ es, Derives table (.statements es) input last

/-- There are words that finish a phrase, whatever stops it after them. -/
def Closable (table : Operator.Table) (region : Region) (input : List Token) : Prop :=
  Cut input → ∃ closers, Closers closers input ∧
    ∀ {follow : List String} {more input' : List Token}, leadOf follow ∉ continuing →
      Laid (closers ++ follow) more → Seam more input input' →
      ∃ rest, Finished table region input' rest ∧ Laid follow rest

/-- A phrase around a part: it begins before a seam as it does before the end, and once the
part is finished, the words finish it. -/
def Encloses (table : Operator.Table) (region larger : Region) (words : List String)
    (input inner : List Token) : Prop :=
  ∀ {more input' : List Token}, lead more ∉ continuing → Seam more input input' →
    ∃ inner', Seam more inner inner' ∧ ∀ {follow : List String} {rest : List Token},
      leadOf follow ∉ continuing → Finished table region inner' rest →
      Laid (words ++ follow) rest → ∃ last, Finished table larger input' last ∧ Laid follow last

namespace Closable

/-- What finishes a part finishes the phrase around it with a few words more. -/
theorem extend (h : Closable table region inner) (words : List String) (hwords : words ∈ tails)
    (hpassed : Passed input inner)
    (hlength : byteLength (behind words) + 7 * inner.length ≤ 7 * input.length)
    (hphrase : Encloses table region larger words input inner) :
    Closable table larger input := by
  intro cut
  obtain ⟨closers, ⟨hcuttable, hstops, hshort⟩, hcloses⟩ := h (hpassed.cut cut)
  obtain ⟨hcuttable', hstops', -⟩ := closers_of_mem_tails hwords
  refine ⟨closers ++ words,
    ⟨hcuttable.append hcuttable', stops_append hstops hstops', ?_⟩, ?_⟩
  · rw [behind_append, Text.byteLength_append]
    omega
  · intro follow more input' hfollow hlaid seam
    rw [List.append_assoc] at hlaid
    have hmore : lead more ∉ continuing := by
      rw [hlaid.lead]
      exact stops_append hstops (stops_append hstops' hfollow)
    -- the part is finished first, and then the phrase around it
    obtain ⟨inner', seam', hlarger⟩ := hphrase hmore seam
    obtain ⟨rest, hfinished, hlaid'⟩ := hcloses (stops_append hstops' hfollow) hlaid seam'
    exact hlarger hfollow hfinished hlaid'

/-- A phrase that is over with its last part. -/
theorem part (h : Closable table region inner) (hpassed : Passed input inner)
    (hphrase : ∀ {more input'}, lead more ∉ continuing → Seam more input input' →
      ∃ inner', Seam more inner inner' ∧ ∀ {rest}, lead rest ∉ continuing →
        Finished table region inner' rest → Finished table larger input' rest) :
    Closable table larger input := by
  have hlength := hpassed.length_le
  refine h.extend [] (by decide) hpassed ?_ fun hmore seam => ?_
  · show 0 + 7 * inner.length ≤ _
    omega
  · obtain ⟨inner', seam', hlarger⟩ := hphrase hmore seam
    refine ⟨inner', seam', fun hfollow hfinished hlaid => ⟨_, hlarger ?_ hfinished, hlaid⟩⟩
    rw [hlaid.lead]
    exact hfollow

/-- A phrase that is nothing but its part. -/
theorem imp (h : Closable table region input)
    (hphrase : ∀ {input' rest}, lead rest ∉ continuing → Finished table region input' rest →
      Finished table larger input' rest) : Closable table larger input :=
  h.part (.refl input) fun _ seam => ⟨_, seam, hphrase⟩

/-- A phrase that starts with a token of its own, and goes on after the part. -/
theorem frame {property : Token → Prop} (h : Closable table region inner) (words : List String)
    (hfirst : Leads property input next)
    (plain : ∀ token, property token → token.kind ≠ .funcWord ∧ token.kind ≠ .eof)
    (hpassed : Passed next inner) (hwords : words ∈ tails)
    (hphrase : Encloses table region larger words input inner) :
    Closable table larger input := by
  refine h.extend words hwords ((hfirst.passed plain).trans hpassed) ?_ hphrase
  -- that token pays for the words
  have hlength := hpassed.length_le
  have hone := hfirst.length
  obtain ⟨-, -, hshort⟩ := closers_of_mem_tails hwords
  omega

end Closable

/-! ## §3. The number that stands for what is missing. -/

theorem spells_zero : Number.Spells "0" (.finite false 0) := by
  constructor
  · decide
  · decide

/-- A zero is an expression, if nothing goes on after it. -/
theorem expression_of_zero (hfollow : leadOf follow ∉ continuing)
    (h : Laid ("0" :: follow) input) : ∃ e, Passes table (.expression e) follow input := by
  obtain ⟨rest, hnumeral, hlaid⟩ := h.numeral spells_zero
  have hprimary : Passes table (.primary _) follow input := ⟨rest, .number hnumeral, hlaid⟩
  exact ⟨_, hprimary.expression (ne_of_mem_of_not_mem (by decide) hfollow).symm⟩

/-- It is a body as well. -/
theorem body_of_zero (hfollow : leadOf follow ∉ continuing) (h : Laid ("0" :: follow) input) :
    ∃ e, Passes table (.body e) follow input := by
  obtain ⟨e, rest, hzero, hlaid⟩ := expression_of_zero hfollow h
  exact ⟨e, rest, .plain hzero, hlaid⟩

/-- Operands and operators are a chain where nothing goes on after them. -/
theorem expression_of_links {first : Expr} {links : List Link} (hrest : lead rest ∉ continuing)
    (hfirst : Derives table (.operand first) input next)
    (hlinks : Derives table (.links links) next rest) :
    ∃ e, Derives table (.expression e) input rest := by
  obtain ⟨tree, hgrouped⟩ := Grouped.exists_tree first links
  have hlead : lead rest ≠ .symbol := (ne_of_mem_of_not_mem (by decide) hrest).symm
  exact ⟨tree, .chain hfirst hlinks (ends_of_lead hlead) hgrouped⟩

namespace Closable

variable {e c a b d : Expr} {name spelling : String} {precedence : UInt32}
  {named sign after last other step body : List Token}

/-! ## §4. Bodies and blocks. -/

theorem plain (h : Closable table .expression input) : Closable table .body input := by
  refine h.imp ?_
  rintro input' rest - ⟨e, h⟩
  exact ⟨e, .plain h⟩

theorem block (hopen : Mark .openBlock input inner) (h : Closable table .statements inner) :
    Closable table .body input := by
  refine h.frame ["\x7d"] hopen (by simp +contextual) (.refl _) (by decide) fun _ seam => ?_
  obtain ⟨inner', hopen', seam⟩ := hopen.seam seam (by simp)
  refine ⟨inner', seam, fun _ hfinished hlaid => ?_⟩
  obtain ⟨last, hclose, hlaid⟩ := hlaid.mark isWord_closeBlock
  obtain ⟨es, h⟩ := hfinished hclose
  exact ⟨last, ⟨_, .block hopen' h⟩, hlaid⟩

/-- The statements are over, and the brace of their block is all that is missing. -/
theorem ends (hlead : lead input = .eof) : Closable table .statements input := by
  intro cut
  obtain ⟨mark, rest, rfl⟩ := List.exists_cons_of_ne_nil cut.ne_nil
  cases cut.eq_nil_of_eof hlead
  refine ⟨[], ⟨.nil, by decide, Nat.zero_lt_succ _⟩, fun _ hlaid seam => ?_⟩
  cases seam with
  | stop _ => exact ⟨_, fun hclose => ⟨[], .closed hclose⟩, hlaid⟩
  | step _ seam => exact absurd rfl seam.ne_nil

theorem statement (h : Closable table .body input) : Closable table .statements input := by
  refine h.imp ?_
  rintro input' rest - ⟨e, h⟩ last hclose
  exact ⟨_, .statement h (.closed hclose)⟩

theorem laterStatement (hbody : Derives table (.body e) input after)
    (h : Closable table .statements after) : Closable table .statements input := by
  refine h.part hbody.passed fun hmore seam => ?_
  obtain ⟨after', hbody', seam⟩ := hbody.seam hmore seam
  refine ⟨after', seam, fun _ hfinished _ hclose => ?_⟩
  obtain ⟨es, h⟩ := hfinished hclose
  exact ⟨_, .statement hbody' h⟩

theorem separated (hbody : Derives table (.body e) input after) (hmark : Mark .semicolon after next)
    (h : Closable table .statements next) : Closable table .statements input := by
  refine h.part (hbody.passed.trans (hmark.passed (by simp))) fun hmore seam => ?_
  obtain ⟨after', hbody', seam⟩ := hbody.seam hmore seam
  obtain ⟨next', hmark', seam⟩ := hmark.seam seam (by simp)
  refine ⟨next', seam, fun _ hfinished _ hclose => ?_⟩
  obtain ⟨es, h⟩ := hfinished hclose
  exact ⟨_, .separated hbody' hmark' h⟩

/-! ## §5. Chains of operators. -/

theorem first (h : Closable table .operand input) : Closable table .expression input := by
  refine h.imp ?_
  rintro input' rest hrest ⟨e, h⟩
  exact expression_of_links hrest h .noLink

theorem chain (hfirst : Derives table (.operand e) input after)
    (h : Closable table .links after) : Closable table .expression input := by
  refine h.part hfirst.passed fun hmore seam => ?_
  obtain ⟨after', hfirst', seam⟩ := hfirst.seam hmore seam
  refine ⟨after', seam, ?_⟩
  rintro rest hrest ⟨links, h⟩
  exact expression_of_links hrest hfirst' h

theorem right (hspelled : Spelled input spelling next)
    (hlookup : table.lookup spelling = some precedence) (h : Closable table .operand next) :
    Closable table .links input := by
  refine h.part hspelled.passed fun hmore seam => ?_
  obtain ⟨next', hspelled', seam⟩ := hspelled.seam_of_stops hmore seam
  refine ⟨next', seam, ?_⟩
  rintro rest - ⟨e, h⟩
  exact ⟨_, .link hspelled' hlookup h .noLink⟩

theorem laterLink (hspelled : Spelled input spelling next)
    (hlookup : table.lookup spelling = some precedence)
    (hoperand : Derives table (.operand e) next after) (h : Closable table .links after) :
    Closable table .links input := by
  refine h.part (hspelled.passed.trans hoperand.passed) fun hmore seam => ?_
  obtain ⟨next', hspelled', seam⟩ := hspelled.seam_of_stops hmore seam
  obtain ⟨after', hoperand', seam⟩ := hoperand.seam hmore seam
  refine ⟨after', seam, ?_⟩
  rintro rest - ⟨links, h⟩
  exact ⟨_, .link hspelled' hlookup hoperand' h⟩

theorem unsigned (h : Closable table .primary input) : Closable table .operand input := by
  refine h.imp ?_
  rintro input' rest - ⟨e, h⟩
  exact ⟨e, .unsigned h⟩

theorem signed {c : Char} (hsign : Sign c input next) (hc : isOperatorChar c = true)
    (h : Closable table .operand next) : Closable table .operand input := by
  refine h.part hsign.passed fun _ seam => ?_
  obtain ⟨next', hsign', seam⟩ := hsign.seam seam
  refine ⟨next', seam, ?_⟩
  rintro rest - ⟨e, h⟩
  exact ⟨_, .signed hsign' hc h⟩

/-! ## §6. Parentheses, indices and arguments. -/

theorem paren (hopen : Mark .openParen input inner) (h : Closable table .expression inner) :
    Closable table .primary input := by
  refine h.frame [")"] hopen (by simp +contextual) (.refl _) (by decide) fun _ seam => ?_
  obtain ⟨inner', hopen', seam⟩ := hopen.seam seam (by simp)
  refine ⟨inner', seam, ?_⟩
  rintro follow rest - ⟨e, h⟩ hlaid
  obtain ⟨last, hclose, hlaid⟩ := hlaid.mark isWord_closeParen
  exact ⟨last, ⟨e, .paren hopen' h hclose⟩, hlaid⟩

theorem element (hname : Name name input next) (h : Closable table .indices next) :
    Closable table .primary input := by
  refine h.part hname.passed fun _ seam => ?_
  obtain ⟨next', hname', seam⟩ := hname.seam seam
  refine ⟨next', seam, ?_⟩
  rintro rest hrest ⟨e, es, h⟩
  exact ⟨_, .element hname' h (ne_of_mem_of_not_mem (by decide) hrest).symm⟩

theorem index (hopen : Mark .openBracket input inner) (h : Closable table .expression inner) :
    Closable table .indices input := by
  refine h.frame ["]"] hopen (by simp +contextual) (.refl _) (by decide) fun _ seam => ?_
  obtain ⟨inner', hopen', seam⟩ := hopen.seam seam (by simp)
  refine ⟨inner', seam, ?_⟩
  rintro follow rest - ⟨e, h⟩ hlaid
  obtain ⟨last, hclose, hlaid⟩ := hlaid.mark isWord_closeBracket
  exact ⟨last, ⟨e, [], .index hopen' h hclose .noIndex⟩, hlaid⟩

theorem laterIndex (hopen : Mark .openBracket input inner)
    (hindex : Derives table (.expression e) inner after) (hclose : Mark .closeBracket after next)
    (h : Closable table .indices next) : Closable table .indices input := by
  refine h.part ((hopen.passed (by simp)).trans
    (hindex.passed.trans (hclose.passed (by simp)))) fun hmore seam => ?_
  obtain ⟨inner', hopen', seam⟩ := hopen.seam seam (by simp)
  obtain ⟨after', hindex', seam⟩ := hindex.seam hmore seam
  obtain ⟨next', hclose', seam⟩ := hclose.seam seam (by simp)
  refine ⟨next', seam, ?_⟩
  rintro rest - ⟨e, es, h⟩
  exact ⟨_, _, .index hopen' hindex' hclose' h⟩

theorem call (hname : Name name input next) (hopen : Mark .openParen next inner)
    (h : Closable table .arguments inner) : Closable table .primary input := by
  refine h.frame [")"] hname (by simp +contextual) (hopen.passed (by simp)) (by decide)
    fun _ seam => ?_
  obtain ⟨next', hname', seam⟩ := hname.seam seam
  obtain ⟨inner', hopen', seam⟩ := hopen.seam seam (by simp)
  refine ⟨inner', seam, fun _ hfinished hlaid => ?_⟩
  obtain ⟨last, hclose, hlaid⟩ := hlaid.mark isWord_closeParen
  obtain ⟨es, h⟩ := hfinished hclose
  exact ⟨last, ⟨_, .call hname' hopen' h⟩, hlaid⟩

theorem argument (h : Closable table .expression input) : Closable table .arguments input := by
  refine h.imp ?_
  rintro input' rest - ⟨e, h⟩ last hclose
  exact ⟨_, .lastArgument h hclose⟩

theorem laterArgument (hargument : Derives table (.expression e) input after)
    (hcomma : Mark .comma after next) (h : Closable table .arguments next) :
    Closable table .arguments input := by
  refine h.part (hargument.passed.trans (hcomma.passed (by simp))) fun hmore seam => ?_
  obtain ⟨after', hargument', seam⟩ := hargument.seam hmore seam
  obtain ⟨next', hcomma', seam⟩ := hcomma.seam seam (by simp)
  refine ⟨next', seam, fun _ hfinished _ hclose => ?_⟩
  obtain ⟨es, h⟩ := hfinished hclose
  exact ⟨_, .argument hargument' hcomma' h⟩

/-! ## §7. Choices. -/

theorem condition (hword : Mark .ifWord input inner) (h : Closable table .expression inner) :
    Closable table .primary input := by
  refine h.frame ["then", "0"] hword (by simp +contextual) (.refl _) (by decide) fun _ seam => ?_
  obtain ⟨inner', hword', seam⟩ := hword.seam seam (by simp)
  refine ⟨inner', seam, ?_⟩
  rintro follow rest hfollow ⟨c, h⟩ hlaid
  obtain ⟨next', hthen, hlaid⟩ := hlaid.mark (show IsWord .thenWord "then" by decide)
  obtain ⟨e, last, hbody, hlaid⟩ := body_of_zero hfollow hlaid
  have hlast : lead last ≠ .elseWord := by
    rw [hlaid.lead]
    exact (ne_of_mem_of_not_mem (by decide) hfollow).symm
  exact ⟨last, ⟨_, .branch hword' h hthen hbody hlast⟩, hlaid⟩

theorem consequent (hword : Mark .ifWord input inner)
    (hcondition : Derives table (.expression c) inner after) (hthen : Mark .thenWord after next)
    (h : Closable table .body next) : Closable table .primary input := by
  refine h.part ((hword.passed (by simp)).trans
    (hcondition.passed.trans (hthen.passed (by simp)))) fun hmore seam => ?_
  obtain ⟨inner', hword', seam⟩ := hword.seam seam (by simp)
  obtain ⟨after', hcondition', seam⟩ := hcondition.seam hmore seam
  obtain ⟨next', hthen', seam⟩ := hthen.seam seam (by simp)
  refine ⟨next', seam, ?_⟩
  rintro rest hrest ⟨e, h⟩
  exact ⟨_, .branch hword' hcondition' hthen' h (ne_of_mem_of_not_mem (by decide) hrest).symm⟩

theorem alternative (hword : Mark .ifWord input inner)
    (hcondition : Derives table (.expression c) inner after) (hthen : Mark .thenWord after next)
    (hbody : Derives table (.body e) next other) (helse : Mark .elseWord other last)
    (h : Closable table .body last) : Closable table .primary input := by
  refine h.part ((hword.passed (by simp)).trans (hcondition.passed.trans
    ((hthen.passed (by simp)).trans (hbody.passed.trans (helse.passed (by simp))))))
    fun hmore seam => ?_
  obtain ⟨inner', hword', seam⟩ := hword.seam seam (by simp)
  obtain ⟨after', hcondition', seam⟩ := hcondition.seam hmore seam
  obtain ⟨next', hthen', seam⟩ := hthen.seam seam (by simp)
  obtain ⟨other', hbody', seam⟩ := hbody.seam hmore seam
  obtain ⟨last', helse', seam⟩ := helse.seam seam (by simp)
  refine ⟨last', seam, ?_⟩
  rintro rest - ⟨e, h⟩
  exact ⟨_, .branchElse hword' hcondition' hthen' hbody' helse' h⟩

/-! ## §8. Loops. -/

theorem countFirst (hword : Mark .forWord input named) (hname : Name name named sign)
    (hsign : Sign '=' sign inner) (h : Closable table .expression inner) :
    Closable table .primary input := by
  refine h.frame [",", "0", "0"] hword (by simp +contextual) (hname.passed.trans hsign.passed)
    (by decide) fun _ seam => ?_
  obtain ⟨named', hword', seam⟩ := hword.seam seam (by simp)
  obtain ⟨sign', hname', seam⟩ := hname.seam seam
  obtain ⟨inner', hsign', seam⟩ := hsign.seam seam
  refine ⟨inner', seam, ?_⟩
  rintro follow rest hfollow ⟨a, h⟩ hlaid
  obtain ⟨next', hcomma, hlaid⟩ := hlaid.mark isWord_comma
  -- the last bound is followed by the body, which is a number as well
  have hzero : leadOf (["0"] ++ follow) ∉ continuing := stops_append (by decide) hfollow
  obtain ⟨b, last', hlast, hlaid⟩ := expression_of_zero hzero hlaid
  obtain ⟨e, last, hbody, hlaid⟩ := body_of_zero hfollow hlaid
  exact ⟨last, ⟨_, .countLoop hword' hname' hsign' h hcomma hlast hbody⟩, hlaid⟩

theorem countLast (hword : Mark .forWord input named) (hname : Name name named sign)
    (hsign : Sign '=' sign inner) (hfirst : Derives table (.expression a) inner after)
    (hcomma : Mark .comma after next) (h : Closable table .expression next) :
    Closable table .primary input := by
  refine h.frame ["0"] hword (by simp +contextual) (hname.passed.trans (hsign.passed.trans
    (hfirst.passed.trans (hcomma.passed (by simp))))) (by decide) fun hmore seam => ?_
  obtain ⟨named', hword', seam⟩ := hword.seam seam (by simp)
  obtain ⟨sign', hname', seam⟩ := hname.seam seam
  obtain ⟨inner', hsign', seam⟩ := hsign.seam seam
  obtain ⟨after', hfirst', seam⟩ := hfirst.seam hmore seam
  obtain ⟨next', hcomma', seam⟩ := hcomma.seam seam (by simp)
  refine ⟨next', seam, ?_⟩
  rintro follow rest hfollow ⟨b, h⟩ hlaid
  obtain ⟨e, last, hbody, hlaid⟩ := body_of_zero hfollow hlaid
  exact ⟨last, ⟨_, .countLoop hword' hname' hsign' hfirst' hcomma' h hbody⟩, hlaid⟩

theorem countStep (hword : Mark .forWord input named) (hname : Name name named sign)
    (hsign : Sign '=' sign inner) (hfirst : Derives table (.expression a) inner after)
    (hcomma : Mark .comma after next) (hlast : Derives table (.expression b) next last)
    (hcomma₂ : Mark .comma last step) (h : Closable table .expression step) :
    Closable table .primary input := by
  refine h.frame ["0"] hword (by simp +contextual) (hname.passed.trans (hsign.passed.trans
    (hfirst.passed.trans ((hcomma.passed (by simp)).trans (hlast.passed.trans
      (hcomma₂.passed (by simp))))))) (by decide) fun hmore seam => ?_
  obtain ⟨named', hword', seam⟩ := hword.seam seam (by simp)
  obtain ⟨sign', hname', seam⟩ := hname.seam seam
  obtain ⟨inner', hsign', seam⟩ := hsign.seam seam
  obtain ⟨after', hfirst', seam⟩ := hfirst.seam hmore seam
  obtain ⟨next', hcomma', seam⟩ := hcomma.seam seam (by simp)
  obtain ⟨last', hlast', seam⟩ := hlast.seam hmore seam
  obtain ⟨step', hcomma₂', seam⟩ := hcomma₂.seam seam (by simp)
  refine ⟨step', seam, ?_⟩
  rintro follow rest hfollow ⟨d, h⟩ hlaid
  obtain ⟨e, rest', hbody, hlaid⟩ := body_of_zero hfollow hlaid
  exact ⟨rest',
    ⟨_, .countLoopStep hword' hname' hsign' hfirst' hcomma' hlast' hcomma₂' h hbody⟩, hlaid⟩

theorem countBody (hword : Mark .forWord input named) (hname : Name name named sign)
    (hsign : Sign '=' sign inner) (hfirst : Derives table (.expression a) inner after)
    (hcomma : Mark .comma after next) (hlast : Derives table (.expression b) next last)
    (h : Closable table .body last) : Closable table .primary input := by
  refine h.part ((hword.passed (by simp)).trans (hname.passed.trans (hsign.passed.trans
    (hfirst.passed.trans ((hcomma.passed (by simp)).trans hlast.passed)))))
    fun hmore seam => ?_
  obtain ⟨named', hword', seam⟩ := hword.seam seam (by simp)
  obtain ⟨sign', hname', seam⟩ := hname.seam seam
  obtain ⟨inner', hsign', seam⟩ := hsign.seam seam
  obtain ⟨after', hfirst', seam⟩ := hfirst.seam hmore seam
  obtain ⟨next', hcomma', seam⟩ := hcomma.seam seam (by simp)
  obtain ⟨last', hlast', seam⟩ := hlast.seam hmore seam
  refine ⟨last', seam, ?_⟩
  rintro rest - ⟨e, h⟩
  exact ⟨_, .countLoop hword' hname' hsign' hfirst' hcomma' hlast' h⟩

theorem countStepBody (hword : Mark .forWord input named) (hname : Name name named sign)
    (hsign : Sign '=' sign inner) (hfirst : Derives table (.expression a) inner after)
    (hcomma : Mark .comma after next) (hlast : Derives table (.expression b) next last)
    (hcomma₂ : Mark .comma last step) (hstep : Derives table (.expression d) step body)
    (h : Closable table .body body) : Closable table .primary input := by
  refine h.part ((hword.passed (by simp)).trans (hname.passed.trans (hsign.passed.trans
    (hfirst.passed.trans ((hcomma.passed (by simp)).trans (hlast.passed.trans
      ((hcomma₂.passed (by simp)).trans hstep.passed))))))) fun hmore seam => ?_
  obtain ⟨named', hword', seam⟩ := hword.seam seam (by simp)
  obtain ⟨sign', hname', seam⟩ := hname.seam seam
  obtain ⟨inner', hsign', seam⟩ := hsign.seam seam
  obtain ⟨after', hfirst', seam⟩ := hfirst.seam hmore seam
  obtain ⟨next', hcomma', seam⟩ := hcomma.seam seam (by simp)
  obtain ⟨last', hlast', seam⟩ := hlast.seam hmore seam
  obtain ⟨step', hcomma₂', seam⟩ := hcomma₂.seam seam (by simp)
  obtain ⟨body', hstep', seam⟩ := hstep.seam hmore seam
  refine ⟨body', seam, ?_⟩
  rintro rest - ⟨e, h⟩
  exact ⟨_, .countLoopStep hword' hname' hsign' hfirst' hcomma' hlast' hcomma₂' hstep' h⟩

theorem whileCondition (hword : Mark .whileWord input inner)
    (h : Closable table .expression inner) : Closable table .primary input := by
  refine h.frame ["0"] hword (by simp +contextual) (.refl _) (by decide) fun _ seam => ?_
  obtain ⟨inner', hword', seam⟩ := hword.seam seam (by simp)
  refine ⟨inner', seam, ?_⟩
  rintro follow rest hfollow ⟨c, h⟩ hlaid
  obtain ⟨e, last, hbody, hlaid⟩ := body_of_zero hfollow hlaid
  exact ⟨last, ⟨_, .whileLoop hword' h hbody⟩, hlaid⟩

theorem whileBody (hword : Mark .whileWord input inner)
    (hcondition : Derives table (.expression c) inner after) (h : Closable table .body after) :
    Closable table .primary input := by
  refine h.part ((hword.passed (by simp)).trans hcondition.passed) fun hmore seam => ?_
  obtain ⟨inner', hword', seam⟩ := hword.seam seam (by simp)
  obtain ⟨after', hcondition', seam⟩ := hcondition.seam hmore seam
  refine ⟨after', seam, ?_⟩
  rintro rest - ⟨e, h⟩
  exact ⟨_, .whileLoop hword' hcondition' h⟩

theorem times (hword : Mark .reptWord input next) (hopen : Mark .openParen next inner)
    (h : Closable table .expression inner) : Closable table .primary input := by
  refine h.frame [")", "0"] hword (by simp +contextual) (hopen.passed (by simp)) (by decide)
    fun _ seam => ?_
  obtain ⟨next', hword', seam⟩ := hword.seam seam (by simp)
  obtain ⟨inner', hopen', seam⟩ := hopen.seam seam (by simp)
  refine ⟨inner', seam, ?_⟩
  rintro follow rest hfollow ⟨c, h⟩ hlaid
  obtain ⟨last', hclose, hlaid⟩ := hlaid.mark isWord_closeParen
  obtain ⟨e, last, hbody, hlaid⟩ := body_of_zero hfollow hlaid
  exact ⟨last, ⟨_, .repeatLoop hword' hopen' h hclose hbody⟩, hlaid⟩

theorem repeatBody (hword : Mark .reptWord input next) (hopen : Mark .openParen next inner)
    (htimes : Derives table (.expression c) inner after) (hclose : Mark .closeParen after last)
    (h : Closable table .body last) : Closable table .primary input := by
  refine h.part ((hword.passed (by simp)).trans ((hopen.passed (by simp)).trans
    (htimes.passed.trans (hclose.passed (by simp))))) fun hmore seam => ?_
  obtain ⟨next', hword', seam⟩ := hword.seam seam (by simp)
  obtain ⟨inner', hopen', seam⟩ := hopen.seam seam (by simp)
  obtain ⟨after', htimes', seam⟩ := htimes.seam hmore seam
  obtain ⟨last', hclose', seam⟩ := hclose.seam seam (by simp)
  refine ⟨last', seam, ?_⟩
  rintro rest - ⟨e, h⟩
  exact ⟨_, .repeatLoop hword' hopen' htimes' hclose' h⟩

end Closable

/-! ## §9. Phrases, forms and programs. -/

/-- **A phrase that breaks off inside a block is finished by some words.** -/
theorem Unfinished.closable (h : Unfinished table region input) : Closable table region input := by
  -- on the relation: what breaks off is finished first, and what stands before it stays
  induction h with
  | plain _ ih => exact ih.plain
  | block hopen _ ih => exact .block hopen ih
  | ends hlead => exact .ends hlead
  | statement _ ih => exact ih.statement
  | laterStatement hbody _ ih => exact .laterStatement hbody ih
  | separated hbody hmark _ ih => exact .separated hbody hmark ih
  | first _ ih => exact ih.first
  | chain hfirst _ ih => exact .chain hfirst ih
  | right hspelled hlookup _ ih => exact .right hspelled hlookup ih
  | laterLink hspelled hlookup hoperand _ ih => exact .laterLink hspelled hlookup hoperand ih
  | unsigned _ ih => exact ih.unsigned
  | signed hsign hc _ ih => exact .signed hsign hc ih
  | paren hopen _ ih => exact .paren hopen ih
  | element hname _ ih => exact .element hname ih
  | index hopen _ ih => exact .index hopen ih
  | laterIndex hopen hindex hclose _ ih => exact .laterIndex hopen hindex hclose ih
  | call hname hopen _ ih => exact .call hname hopen ih
  | argument _ ih => exact ih.argument
  | laterArgument hargument hcomma _ ih => exact .laterArgument hargument hcomma ih
  | condition hword _ ih => exact .condition hword ih
  | consequent hword hcondition hthen _ ih => exact .consequent hword hcondition hthen ih
  | alternative hword hcondition hthen hbody helse _ ih =>
      exact .alternative hword hcondition hthen hbody helse ih
  | countFirst hword hname hsign _ ih => exact .countFirst hword hname hsign ih
  | countLast hword hname hsign hfirst hcomma _ ih =>
      exact .countLast hword hname hsign hfirst hcomma ih
  | countStep hword hname hsign hfirst hcomma hlast hcomma₂ _ ih =>
      exact .countStep hword hname hsign hfirst hcomma hlast hcomma₂ ih
  | countBody hword hname hsign hfirst hcomma hlast _ ih =>
      exact .countBody hword hname hsign hfirst hcomma hlast ih
  | countStepBody hword hname hsign hfirst hcomma hlast hcomma₂ hstep _ ih =>
      exact .countStepBody hword hname hsign hfirst hcomma hlast hcomma₂ hstep ih
  | whileCondition hword _ ih => exact .whileCondition hword ih
  | whileBody hword hcondition _ ih => exact .whileBody hword hcondition ih
  | times hword hopen _ ih => exact .times hword hopen ih
  | repeatBody hword hopen htimes hclose _ ih => exact .repeatBody hword hopen htimes hclose ih

/-- Words that finish a part of the tokens are few enough for all of them. -/
theorem Closers.of_le {closers : List String} (h : Closers closers rest)
    (hlength : rest.length ≤ input.length) : Closers closers input where
  cuttable := h.cuttable
  stops := h.stops
  short := by
    have hshort := h.short
    omega

/-- Words in place of the end mark make tokens a program. -/
def Completes (table : Operator.Table) (input : List Token) (closers : List String) : Prop :=
  ∀ {more input' : List Token}, Laid closers more → Seam more input input' →
    ∃ forms last, Accepts table input' forms last

/-- The last body of a program, and nothing after it. -/
theorem Closable.exists_body (h : Closable table .body input) (cut : Cut input) :
    ∃ closers, Closers closers input ∧ ∀ {more input' : List Token}, Laid closers more →
      Seam more input input' →
      ∃ e mark, mark.kind = Kind.eof ∧ Derives table (.body e) input' [mark] := by
  obtain ⟨closers, hclosers, hcloses⟩ := h cut
  refine ⟨closers, hclosers, fun hlaid seam => ?_⟩
  rw [← List.append_nil closers] at hlaid
  obtain ⟨rest, ⟨e, hbody⟩, hlaid'⟩ := hcloses (by decide) hlaid seam
  cases hlaid' with
  | last hmark => exact ⟨e, _, hmark, hbody⟩

/-- **Forms of which the last is not finished are made a program by some words.** -/
theorem UnfinishedForms.exists_closers {entries : List Operator.Entry}
    (h : UnfinishedForms table input entries) :
    Cut input → ∃ closers, Closers closers input ∧ Completes table input closers := by
  -- on the forms: the words that finish the last one stand behind all of them
  induction h with
  | skip hmark _ ih =>
      intro cut
      obtain ⟨closers, hclosers, hcompletes⟩ := ih (hmark.cut cut (by simp))
      have hlength := (hmark.passed (by simp)).length_le
      refine ⟨closers, hclosers.of_le hlength, fun hlaid seam => ?_⟩
      obtain ⟨next', hmark', seam⟩ := hmark.seam seam (by simp)
      obtain ⟨forms, last, mark, heof, hforms⟩ := hcompletes hlaid seam
      exact ⟨forms, last, mark, heof, .skip hmark' hforms⟩
  | definition hfunc hheading hbody _ ih =>
      intro cut
      have cut' := hheading.cut (hfunc.cut cut (by simp))
      obtain ⟨closers, hclosers, hcompletes⟩ := ih (hbody.cut cut')
      refine ⟨closers, hclosers.of_le ?_, fun hlaid seam => ?_⟩
      · have h₁ := Leads.length hfunc
        have h₂ := hheading.length
        have h₃ := hbody.passed.length_le
        omega
      · have hmore : lead _ ∉ continuing := hlaid.lead ▸ hclosers.stops
        obtain ⟨next', hfunc', seam⟩ := hfunc.seam seam (by simp)
        obtain ⟨after', hheading', seam⟩ := hheading.seam seam
        obtain ⟨rest', hbody', seam⟩ := hbody.seam hmore seam
        obtain ⟨forms, last, mark, heof, hforms⟩ := hcompletes hlaid seam
        exact ⟨_, last, mark, heof, .definition hfunc' hheading' hbody' hforms⟩
  | expression hbody _ ih =>
      intro cut
      obtain ⟨closers, hclosers, hcompletes⟩ := ih (hbody.cut cut)
      refine ⟨closers, hclosers.of_le hbody.passed.length_le, fun hlaid seam => ?_⟩
      have hmore : lead _ ∉ continuing := hlaid.lead ▸ hclosers.stops
      obtain ⟨rest', hbody', seam⟩ := hbody.seam hmore seam
      obtain ⟨forms, last, mark, heof, hforms⟩ := hcompletes hlaid seam
      exact ⟨_, last, mark, heof, .expression hbody' hforms⟩
  | lastDefinition hfunc hheading hbody =>
      intro cut
      have cut' := hheading.cut (hfunc.cut cut (by simp))
      obtain ⟨closers, hclosers, hcloses⟩ := hbody.closable.exists_body cut'
      refine ⟨closers, hclosers.of_le ?_, fun hlaid seam => ?_⟩
      · have h₁ := Leads.length hfunc
        have h₂ := hheading.length
        omega
      · obtain ⟨next', hfunc', seam⟩ := hfunc.seam seam (by simp)
        obtain ⟨after', hheading', seam⟩ := hheading.seam seam
        obtain ⟨e, mark, heof, hbody'⟩ := hcloses hlaid seam
        exact ⟨_, _, mark, heof, .definition hfunc' hheading' hbody' .nil⟩
  | lastExpression hbody =>
      intro cut
      obtain ⟨closers, hclosers, hcloses⟩ := hbody.closable.exists_body cut
      refine ⟨closers, hclosers, fun hlaid seam => ?_⟩
      obtain ⟨e, mark, heof, hbody'⟩ := hcloses hlaid seam
      exact ⟨_, _, mark, heof, .expression hbody' .nil⟩

/-- Some text after a text makes it a program, and its places still fit thirty two bits. -/
def Completable (file source : String) (table : Operator.Table) : Prop :=
  ∃ more forms last, byteLength (source ++ more).toList < 4294967296
    ∧ Program.ofSource file (source ++ more) table = ⟨.ok forms, last⟩

/-- A text that ends inside a block is the beginning of a program: a line of words after it
makes it one, with at most seven bytes for each token. -/
theorem completable_of_unfinished {file source : String} {tokens : List Token}
    {entries : List Operator.Entry} (tokenizes : tokenize file source = .ok tokens)
    (h : UnfinishedForms table tokens entries) (bounded : byteLength source.toList < 536870912) :
    Completable file source table := by
  obtain ⟨closers, hclosers, hcompletes⟩ :=
    h.exists_closers (cut_of_tokenize tokenizes (by omega))
  obtain ⟨more, joined, hjoined, seam, hlaid⟩ := tokenize_words_after hclosers.cuttable tokenizes
  obtain ⟨forms, last, haccepts⟩ := hcompletes hlaid seam
  have hlength : byteLength (source ++ "\n" ++ " ".intercalate closers).toList < 4294967296 := by
    have htokens := Scanner.length_tokens?_le tokenizes
    have hwords := byteLength_words_le closers
    have hshort := hclosers.short
    have hnewline : byteLength "\n".toList = 1 := by decide
    simp only [Scanner.start] at htokens
    rw [String.toList_append, String.toList_append, Text.byteLength_append,
      Text.byteLength_append, hnewline]
    omega
  rw [String.append_assoc] at hjoined hlength
  refine ⟨_, forms, last, hlength, ?_⟩
  rw [ofSource_of_tokenize hjoined]
  exact (ofTokens_ok_iff (cut_of_tokenize hjoined hlength)).2 haccepts

end Fixity.Language
