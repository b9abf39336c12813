/-
  Fixity.Proofs.Language.Unfinished
  ────────────────────────────────
  **TEXTS THAT END INSIDE A BLOCK.**

  One fault asks for more text: that a text ends inside a block.  Where it is found,
  the tokens from the start of the phrase to their end are the beginning of that
  phrase: what stands before the open block is complete, one part of the phrase
  after the other, and the part that is not complete holds the open block.  This is
  a relation like the grammar itself, with one rule for each part that a phrase can
  break off in.

  No part of a phrase declares anything, so the table is the one it started with.

  Main result: `unfinished_descend` (where reading meets the end inside a block, the
  phrase that was asked for is unfinished there).
-/
import Fixity.Proofs.Language.Soundness
import Fixity.Proofs.Reading.Failure

namespace Fixity.Language

open Operator (isOperatorChar)
open Grammar Read

/-! ## §1. Phrases that are not finished. -/

/-- The kinds of phrase that tokens can break off in. -/
inductive Region where
  | body | expression | operand | primary | links | indices | arguments | statements
deriving DecidableEq

/-- The tokens are the beginning of a phrase, and they end inside a block of it. -/
inductive Unfinished (table : Operator.Table) : Region → List Token → Prop
  /- Bodies. -/
  | plain {input} : Unfinished table .expression input → Unfinished table .body input
  | block {input inner} :
      Mark .openBlock input inner → Unfinished table .statements inner →
      Unfinished table .body input
  | ends {input} : lead input = .eof → Unfinished table .statements input
  | statement {input} : Unfinished table .body input → Unfinished table .statements input
  | laterStatement {e input after} :
      Derives table (.body e) input after → Unfinished table .statements after →
      Unfinished table .statements input
  | separated {e input after next} :
      Derives table (.body e) input after → Mark .semicolon after next →
      Unfinished table .statements next → Unfinished table .statements input
  /- Chains. -/
  | first {input} : Unfinished table .operand input → Unfinished table .expression input
  | chain {e input after} :
      Derives table (.operand e) input after → Unfinished table .links after →
      Unfinished table .expression input
  | right {spelling precedence input next} :
      Spelled input spelling next → table.lookup spelling = some precedence →
      Unfinished table .operand next → Unfinished table .links input
  | laterLink {spelling precedence e input next after} :
      Spelled input spelling next → table.lookup spelling = some precedence →
      Derives table (.operand e) next after → Unfinished table .links after →
      Unfinished table .links input
  | unsigned {input} : Unfinished table .primary input → Unfinished table .operand input
  | signed {c input next} :
      Sign c input next → isOperatorChar c = true → Unfinished table .operand next →
      Unfinished table .operand input
  /- Parentheses, indices and arguments. -/
  | paren {input inner} :
      Mark .openParen input inner → Unfinished table .expression inner →
      Unfinished table .primary input
  | element {name input next} :
      Name name input next → Unfinished table .indices next → Unfinished table .primary input
  | index {input inner} :
      Mark .openBracket input inner → Unfinished table .expression inner →
      Unfinished table .indices input
  | laterIndex {e input inner after next} :
      Mark .openBracket input inner → Derives table (.expression e) inner after →
      Mark .closeBracket after next → Unfinished table .indices next →
      Unfinished table .indices input
  | call {name input next inner} :
      Name name input next → Mark .openParen next inner → Unfinished table .arguments inner →
      Unfinished table .primary input
  | argument {input} : Unfinished table .expression input → Unfinished table .arguments input
  | laterArgument {e input after next} :
      Derives table (.expression e) input after → Mark .comma after next →
      Unfinished table .arguments next → Unfinished table .arguments input
  /- Choices and loops. -/
  | condition {input inner} :
      Mark .ifWord input inner → Unfinished table .expression inner →
      Unfinished table .primary input
  | consequent {c input inner after next} :
      Mark .ifWord input inner → Derives table (.expression c) inner after →
      Mark .thenWord after next → Unfinished table .body next → Unfinished table .primary input
  | alternative {c e input inner after next other last} :
      Mark .ifWord input inner → Derives table (.expression c) inner after →
      Mark .thenWord after next → Derives table (.body e) next other →
      Mark .elseWord other last → Unfinished table .body last → Unfinished table .primary input
  | countFirst {name input named sign inner} :
      Mark .forWord input named → Name name named sign → Sign '=' sign inner →
      Unfinished table .expression inner → Unfinished table .primary input
  | countLast {name a input named sign inner after next} :
      Mark .forWord input named → Name name named sign → Sign '=' sign inner →
      Derives table (.expression a) inner after → Mark .comma after next →
      Unfinished table .expression next → Unfinished table .primary input
  | countStep {name a b input named sign inner after next last step} :
      Mark .forWord input named → Name name named sign → Sign '=' sign inner →
      Derives table (.expression a) inner after → Mark .comma after next →
      Derives table (.expression b) next last → Mark .comma last step →
      Unfinished table .expression step → Unfinished table .primary input
  | countBody {name a b input named sign inner after next last} :
      Mark .forWord input named → Name name named sign → Sign '=' sign inner →
      Derives table (.expression a) inner after → Mark .comma after next →
      Derives table (.expression b) next last → Unfinished table .body last →
      Unfinished table .primary input
  | countStepBody {name a b d input named sign inner after next last step body} :
      Mark .forWord input named → Name name named sign → Sign '=' sign inner →
      Derives table (.expression a) inner after → Mark .comma after next →
      Derives table (.expression b) next last → Mark .comma last step →
      Derives table (.expression d) step body → Unfinished table .body body →
      Unfinished table .primary input
  | whileCondition {input inner} :
      Mark .whileWord input inner → Unfinished table .expression inner →
      Unfinished table .primary input
  | whileBody {c input inner after} :
      Mark .whileWord input inner → Derives table (.expression c) inner after →
      Unfinished table .body after → Unfinished table .primary input
  | times {input next inner} :
      Mark .reptWord input next → Mark .openParen next inner →
      Unfinished table .expression inner → Unfinished table .primary input
  | repeatBody {c input next inner after last} :
      Mark .reptWord input next → Mark .openParen next inner →
      Derives table (.expression c) inner after → Mark .closeParen after last →
      Unfinished table .body last → Unfinished table .primary input

variable {file : String} {table : Operator.Table} {input rest : List Token} {t : ReadState}

/-- Operators with their operands may stand before the links that are not finished. -/
theorem unfinished_links {links : List Link} (h : Derives table (.links links) input rest)
    (h' : Unfinished table .links rest) : Unfinished table .links input := by
  induction links generalizing input with
  | nil =>
      cases h
      exact h'
  | cons first links ih =>
      cases h with
      | link hspelled hlookup hoperand hmore =>
          exact .laterLink hspelled hlookup hoperand (ih hmore)

/-! ## §2. Levels. -/

/-- The kind of phrase that a production reads. -/
def regionOf : Production → Region
  | .expression => .expression
  | .unary => .operand
  | .block => .body
  | _ => .primary

/-- What a goal asks for is not finished. -/
def OpenAt (table : Operator.Table) : Goal → List Token → Prop
  | .read production, input => Unfinished table (regionOf production) input
  | .climb _ _, input => Unfinished table .links input

/-- What the first token picks is a primary expression. -/
theorem regionOf_of_standard {kind : Kind} {production : Production}
    (h : Choice.standard kind = some production) : regionOf production = .primary := by
  cases kind <;> cases h <;> rfl

/-- Reading met the end inside a block: the phrase is not finished, and the table is the
one at its start. -/
def Left (table : Operator.Table) (region : Region) (input : List Token) (t : ReadState) : Prop :=
  Unfinished table region input ∧ t.table = table

/-- A sound level that meets the end inside a block only where its goal is unfinished. -/
structure Breaking (level : Level) : Prop where
  /-- What the level gives meets the goal. -/
  sound : Sound level
  /-- Where the level below meets the end inside a block, the goal is unfinished. -/
  below : ∀ {file : String} {table : Operator.Table} {goal : Goal} {input : List Token}
    {t : ReadState}, Cut input → RunsOut (level.below goal) (place file table input) t →
    Asked goal input → OpenAt table goal input ∧ t.table = table

variable {level : Level}

namespace Breaking

theorem expression (breaking : Breaking level) (cut : Cut input)
    (h : RunsOut level.expression (place file table input) t) : Left table .expression input t :=
  breaking.below cut h (.inr (by simp))

theorem unary (breaking : Breaking level) (cut : Cut input)
    (h : RunsOut level.unary (place file table input) t) : Left table .operand input t :=
  breaking.below cut h (.inr (by simp))

theorem block (breaking : Breaking level) (cut : Cut input)
    (h : RunsOut level.block (place file table input) t) : Left table .body input t :=
  breaking.below cut h (.inr (by simp))

end Breaking

/-- A phrase that is left open is so in a larger one. -/
theorem Left.imp {region larger : Region} {input' : List Token} (h : Left table region input t)
    (rule : Unfinished table region input → Unfinished table larger input') :
    Left table larger input' t :=
  ⟨rule h.1, h.2⟩

/-! ## §3. Operands and chains. -/

theorem primary_unfinished (breaking : Breaking level) (cut : Cut input)
    (h : RunsOut (primary level) (place file table input) t) : Left table .primary input t := by
  simp only [primary, runsOut_bind, runsOut_kind, gives_kind, false_or] at h
  obtain ⟨_, _, ⟨rfl, rfl⟩, h⟩ := h
  rw [breaking.sound.choice] at h
  split at h
  · next production hchoice =>
    have hopen := breaking.below cut h (.inl hchoice)
    rw [OpenAt, regionOf_of_standard hchoice] at hopen
    exact hopen
  · simp at h

theorem unary_unfinished (breaking : Breaking level) (cut : Cut input)
    (h : RunsOut (unary level) (place file table input) t) : Left table .operand input t := by
  simp only [unary, runsOut_bind, runsOut_kind, gives_kind, false_or, runsOut_ite] at h
  obtain ⟨_, _, ⟨rfl, rfl⟩, ⟨hkind, h⟩ | ⟨-, h⟩⟩ := h
  · obtain ⟨c, rest, hsign⟩ := sign_of_lead cut hkind
    simp only [runsOut_text, gives_text, false_or] at h
    obtain ⟨_, _, ⟨rfl, rfl⟩, h⟩ := h
    rw [hsign.text, signOf?_singleton] at h
    split at h
    · next c' hc =>
      split at hc
      · next hc' =>
        simp only [runsOut_bind, runsOut_advance, gives_advance_place hsign.mark cut (by simp),
          bind_pure_comp, runsOut_map, false_or] at h
        obtain ⟨_, _, rfl, h⟩ := h
        exact (breaking.unary (hsign.cut cut) h).imp (.signed hsign hc')
      · cases hc
    · simp at h
  · exact (primary_unfinished breaking cut h).imp .unsigned

/-- The right side of an operator breaks off in its operand or in what is tighter. -/
theorem rightSide_unfinished (breaking : Breaking level) (cut : Cut input) {precedence : UInt32}
    (h : RunsOut (rightSide level precedence) (place file table input) t) :
    Left table .operand input t
      ∨ ∃ operand mid, Derives table (.operand operand) input mid ∧ Left table .links mid t := by
  simp only [rightSide, runsOut_bind, runsOut_get, gives_get, runsOut_ite, runsOut_pure, false_or,
    and_false, or_false] at h
  -- either the operand breaks off, or the operand is read and what is tighter breaks off
  obtain h | ⟨operand, _, hoperand, _, _, ⟨rfl, rfl⟩, -, h⟩ := h
  · exact .inl (breaking.unary cut h)
  · obtain ⟨mid, cut', rfl, hderives⟩ := breaking.sound.unary cut hoperand
    exact .inr ⟨operand, mid, hderives, breaking.below cut' h trivial⟩

/-- A round of climbing breaks off in the right side of its operator. -/
theorem link_unfinished (breaking : Breaking level) (cut : Cut input) {loosest : UInt32}
    (h : RunsOut (link level loosest) (place file table input) t) : Left table .links input t := by
  simp only [link, runsOut_bind, runsOut_get, gives_get, false_or] at h
  obtain ⟨_, _, ⟨rfl, rfl⟩, h⟩ := h
  split at h
  · next operator precedence hahead =>
    obtain ⟨hlookup, next, hspelled, cut', hadvance⟩ := spelled_of_infixAhead? cut hahead
    simp only [runsOut_ite, runsOut_bind, runsOut_advanceBy, gives_advanceBy, hadvance,
      bind_pure_comp, runsOut_map, runsOut_pure, and_false, or_false, false_or] at h
    obtain ⟨-, _, _, rfl, h⟩ := h
    obtain hoperand | ⟨operand, mid, hoperand, hlinks⟩ := rightSide_unfinished breaking cut' h
    · exact hoperand.imp (.right hspelled hlookup)
    · exact hlinks.imp (.laterLink hspelled hlookup hoperand)
  · simp at h

theorem links_unfinished (breaking : Breaking level) {loosest : UInt32} (bound : Nat) :
    ∀ {input : List Token} {t : ReadState}, Cut input →
      RunsOut (upTo (link level loosest) bound) (place file table input) t →
      Left table .links input t := by
  induction bound with
  | zero => intro _ _ _ h; exact absurd h runsOut_upTo_zero
  | succ bound ih =>
      intro input t cut hrounds
      obtain h | ⟨⟨spelling, right⟩, s, hfirst, hmore⟩ := runsOut_upTo_succ.1 hrounds
      · exact link_unfinished breaking cut h
      · obtain ⟨hfound, -⟩ | ⟨_, _, precedence, next, hfound, -, hspelled, hlookup, cut', h⟩ :=
          link_sound cut hfirst
        · exact absurd hfound nofun
        · obtain ⟨after, operand, tight, mid, cut₂, rfl, hoperand, htight, -⟩ :=
            rightSide_sound breaking.sound cut' h
          -- the operator with its right side, and then what breaks off
          refine (ih cut₂ hmore).imp fun hlinks => ?_
          exact .laterLink hspelled hlookup hoperand (unfinished_links htight hlinks)

theorem climb_unfinished (breaking : Breaking level) (cut : Cut input) {loosest : UInt32}
    {left : Expr} (h : RunsOut (climb level loosest left) (place file table input) t) :
    Left table .links input t := by
  simp only [climb, bind_pure_comp, runsOut_map, runsOut_many] at h
  exact links_unfinished breaking _ cut h

theorem expression_unfinished (breaking : Breaking level) (cut : Cut input)
    (h : RunsOut (expression level) (place file table input) t) :
    Left table .expression input t := by
  simp only [Grammar.expression, runsOut_bind] at h
  obtain h | ⟨first, s, hfirst, h⟩ := h
  · exact (unary_unfinished breaking cut h).imp .first
  · obtain ⟨mid, cut', rfl, hoperand⟩ := unary_sound breaking.sound cut hfirst
    exact (climb_unfinished breaking cut' h).imp (.chain hoperand)

/-! ## §4. Numbers, parentheses and names. -/

theorem number_unfinished : ¬ RunsOut number (place file table input) t := by
  simp only [Grammar.number, bind_pure_comp, runsOut_map]
  exact runsOut_numberWith (by simp)

theorem paren_unfinished (breaking : Breaking level) (cut : Cut input)
    (hlead : lead input = .openParen) (h : RunsOut (paren level) (place file table input) t) :
    Left table .primary input t := by
  obtain ⟨inner, hopen⟩ := mark_of_lead hlead (by simp)
  simp only [paren, runsOut_bind, runsOut_advance, gives_advance_place hopen cut (by simp),
    runsOut_takeOr, runsOut_pure, reduceCtorEq, false_and, and_false, exists_false, or_false,
    false_or] at h
  obtain ⟨_, _, rfl, h⟩ := h
  exact (breaking.expression (hopen.cut cut (by simp)) h).imp (.paren hopen)

/-- A pair of brackets breaks off in its content. -/
theorem bracket_unfinished {α : Type} {empty : Fault} {content : Read α}
    (hempty : empty ≠ .unterminatedBlock) (cut : Cut input)
    (h : RunsOut (bracket empty content) (place file table input) t) :
    ∃ inner, Mark .openBracket input inner ∧ Cut inner
      ∧ RunsOut content (place file table inner) t := by
  simp only [bracket, runsOut_bind, runsOut_taken, false_or,
    gives_taken_place cut (show Kind.openBracket ≠ .eof by simp)] at h
  obtain ⟨_, _, ⟨rfl, inner, hmark, rfl⟩ | ⟨rfl, -, rfl⟩, h⟩ := h
  · simp only [↓reduceIte, runsOut_bind, runsOut_kind, gives_kind, runsOut_ite, runsOut_fail,
      hempty, runsOut_take, runsOut_pure, false_and, and_false, exists_false, or_false,
      false_or] at h
    obtain ⟨_, _, ⟨rfl, rfl⟩, -, h⟩ := h
    exact ⟨inner, hmark, hmark.cut cut (by simp), h⟩
  · simp at h

theorem array_unfinished (cut : Cut input) (hlead : lead input = .arrWord) :
    ¬ RunsOut array (place file table input) t := by
  -- there is nothing but numbers in the brackets
  have hbrackets {name : String} (bound : Nat) : ∀ {input : List Token} {t : ReadState}, Cut input →
      ¬ RunsOut (upTo (bracket (.missingDimension name) (numberWith dimension? .invalidDimension))
        bound) (place file table input) t := by
    induction bound with
    | zero => intro _ _ _ h; exact runsOut_upTo_zero h
    | succ bound ih =>
        intro input t cut hrounds
        obtain h | ⟨n, s, hfirst, hmore⟩ := runsOut_upTo_succ.1 hrounds
        · obtain ⟨inner, -, -, h⟩ := bracket_unfinished (by simp) cut h
          exact runsOut_numberWith (by simp) h
        · obtain ⟨hfound, -⟩ | ⟨_, inner, _, -, hopen, cut', hinner, hclose⟩ :=
            bracket_sound cut hfirst
          · exact absurd hfound nofun
          · obtain ⟨_, after, hnumeral, -, rfl⟩ := (gives_numberWith_place cut').1 hinner
            obtain ⟨next, -, cut₃, rfl⟩ := hclose (hnumeral.cut cut') rfl
            exact ih cut₃ hmore
  intro h
  obtain ⟨named, hword⟩ := mark_of_lead hlead (by simp)
  have cut' := hword.cut cut (by simp)
  simp only [array, runsOut_bind, runsOut_advance, gives_advance_place hword cut (by simp),
    runsOut_identifier, runsOut_kind, gives_kind, runsOut_ite, runsOut_fail, reduceCtorEq,
    bind_pure_comp, runsOut_map, runsOut_many, false_and, and_false, or_false, false_or] at h
  obtain ⟨_, _, rfl, name, _, hidentifier, _, _, ⟨rfl, rfl⟩, -, h⟩ := h
  obtain ⟨next, hname, rfl⟩ := (gives_identifier_place cut').1 hidentifier
  exact hbrackets _ (hname.cut cut') h

theorem indices_unfinished (breaking : Breaking level) {empty : Fault}
    (hempty : empty ≠ .unterminatedBlock) (bound : Nat) :
    ∀ {input : List Token} {t : ReadState}, Cut input →
      RunsOut (upTo (bracket empty level.expression) bound) (place file table input) t →
      Left table .indices input t := by
  induction bound with
  | zero => intro _ _ _ h; exact absurd h runsOut_upTo_zero
  | succ bound ih =>
      intro input t cut hrounds
      obtain h | ⟨e, s, hfirst, hmore⟩ := runsOut_upTo_succ.1 hrounds
      · obtain ⟨inner, hopen, cut', h⟩ := bracket_unfinished hempty cut h
        exact (breaking.expression cut' h).imp (.index hopen)
      · obtain ⟨hfound, -⟩ | ⟨_, inner, _, -, hopen, cut', hinner, hclose⟩ :=
          bracket_sound cut hfirst
        · exact absurd hfound nofun
        · obtain ⟨after, cut₂, rfl, hderives⟩ := breaking.sound.expression cut' hinner
          obtain ⟨next, hmark, cut₃, rfl⟩ := hclose cut₂ rfl
          exact (ih cut₃ hmore).imp (.laterIndex hopen hderives hmark)

theorem arguments_unfinished (breaking : Breaking level) {fault : String → Fault}
    (other : ∀ text, fault text ≠ .unterminatedBlock) (bound : Nat) :
    ∀ {input : List Token} {t : ReadState}, Cut input →
      RunsOut (separatedUpTo level.expression fault bound) (place file table input) t →
      Left table .arguments input t := by
  induction bound with
  | zero =>
      intro _ _ _ h
      obtain ⟨error, h, hfault⟩ := h
      rw [(fails_separatedUpTo_zero.1 h).1] at hfault
      exact absurd hfault nofun
  | succ bound ih =>
      intro input t cut hrounds
      obtain h | ⟨first, s, hfirst, hcomma, hmore⟩ := runsOut_separatedUpTo other hrounds
      · exact (breaking.expression cut h).imp .argument
      · obtain ⟨after, cut', rfl, hderives⟩ := breaking.sound.expression cut hfirst
        obtain ⟨next, hmark⟩ := mark_of_lead hcomma (by simp)
        have cut₂ := hmark.cut cut' (by simp)
        rw [hmark.advance cut₂] at hmore
        exact (ih cut₂ hmore).imp (.laterArgument hderives hmark)

theorem call_unfinished (breaking : Breaking level) {name : String} {next : List Token}
    (cut : Cut next) (hname : Name name input next) (hlead : lead next = .openParen)
    (h : RunsOut (call level name) (place file table next) t) : Left table .primary input t := by
  obtain ⟨inner, hopen⟩ := mark_of_lead hlead (by simp)
  simp only [call, runsOut_bind, runsOut_advance, gives_advance_place hopen cut (by simp),
    bind_pure_comp, runsOut_map, false_or] at h
  -- an empty call is over, so it does not break off
  obtain ⟨_, _, rfl, error, h, hfault⟩ := h
  have harguments := (fails_separated.1 h).2
  exact (arguments_unfinished breaking (by simp) _ (hopen.cut cut (by simp))
    ⟨error, harguments, hfault⟩).imp (.call hname hopen)

theorem named_unfinished (breaking : Breaking level) (cut : Cut input)
    (h : RunsOut (named level) (place file table input) t) : Left table .primary input t := by
  simp only [named, runsOut_bind, runsOut_identifier, gives_identifier_place cut, runsOut_kind,
    gives_kind, false_or] at h
  obtain ⟨name, _, ⟨next, hname, rfl⟩, _, _, ⟨rfl, rfl⟩, h⟩ := h
  have cut' := hname.cut cut
  split at h
  · simp only [element, bind_pure_comp, runsOut_map, runsOut_many] at h
    exact (indices_unfinished breaking (by simp) _ cut' h).imp (.element hname)
  · next hopen => exact call_unfinished breaking cut' hname hopen h
  · exact absurd h runsOut_pure

/-! ## §5. Blocks, choices and loops. -/

/-- A block breaks off between two statements, or in one of them. -/
theorem statements_unfinished (breaking : Breaking level) (bound : Nat) :
    ∀ {input : List Token} {t : ReadState}, Cut input →
      RunsOut (upTo (statement level) bound) (place file table input) t →
      Left table .statements input t := by
  induction bound with
  | zero => intro _ _ _ h; exact absurd h runsOut_upTo_zero
  | succ bound ih =>
      intro input t cut hrounds
      obtain h | ⟨first, s, hfirst, hmore⟩ := runsOut_upTo_succ.1 hrounds
      · simp only [statement, runsOut_bind, runsOut_kind, gives_kind, false_or] at h
        obtain ⟨_, _, ⟨rfl, rfl⟩, h⟩ := h
        -- the closing brace ends the block, and the end of the text is what it breaks off at
        split at h
        · exact absurd h runsOut_pure
        · next hend =>
          obtain ⟨-, rfl⟩ := runsOut_fail.1 h
          exact ⟨.ends hend, rfl⟩
        · simp only [runsOut_bind, runsOut_taken, runsOut_pure, and_false, exists_false,
            or_false] at h
          exact (breaking.block cut h).imp .statement
      · obtain ⟨hfound, -⟩ | ⟨_, after, hfound, cut', hderives, hnext⟩ :=
          statement_sound breaking.sound cut hfirst
        · cases hfound
        · obtain rfl | ⟨next, hmark, cut₂, rfl⟩ := hnext
          · exact (ih cut' hmore).imp (.laterStatement hderives)
          · exact (ih cut₂ hmore).imp (.separated hderives hmark)

theorem block_unfinished (breaking : Breaking level) (cut : Cut input)
    (h : RunsOut (block level) (place file table input) t) : Left table .body input t := by
  simp only [Grammar.block, runsOut_bind, runsOut_taken, false_or,
    gives_taken_place cut (show Kind.openBlock ≠ .eof by simp)] at h
  obtain ⟨_, _, ⟨rfl, inner, hopen, rfl⟩ | ⟨rfl, -, rfl⟩, h⟩ := h
  · simp only [↓reduceIte, runsOut_bind, runsOut_many, runsOut_advance, runsOut_pure, and_false,
      exists_false, or_false] at h
    exact (statements_unfinished breaking _ (hopen.cut cut (by simp)) h).imp (.block hopen)
  · simp only [Bool.false_eq_true, ↓reduceIte] at h
    exact (expression_unfinished breaking cut h).imp .plain

theorem optionally_unfinished {mark : Kind} {part : Read Expr} (cut : Cut input)
    (solid : mark ≠ .eof) (h : RunsOut (optionally mark part) (place file table input) t) :
    ∃ inner, Mark mark input inner ∧ Cut inner ∧ RunsOut part (place file table inner) t := by
  simp only [optionally, runsOut_bind, runsOut_taken, gives_taken_place cut solid, false_or] at h
  obtain ⟨_, _, ⟨rfl, inner, hmark, rfl⟩ | ⟨rfl, -, rfl⟩, h⟩ := h
  · simp only [↓reduceIte, bind_pure_comp, runsOut_map] at h
    exact ⟨inner, hmark, hmark.cut cut solid, h⟩
  · simp at h

theorem branch_unfinished (breaking : Breaking level) (cut : Cut input)
    (hlead : lead input = .ifWord) (h : RunsOut (branch level) (place file table input) t) :
    Left table .primary input t := by
  obtain ⟨inner, hword⟩ := mark_of_lead hlead (by simp)
  have cut₁ := hword.cut cut (by simp)
  simp only [branch, runsOut_bind, runsOut_advance, gives_advance_place hword cut (by simp),
    runsOut_take, bind_pure_comp, runsOut_map, false_or] at h
  obtain ⟨_, _, rfl, h | ⟨condition, _, h₁, _, _, h₂, h⟩⟩ := h
  · exact (breaking.expression cut₁ h).imp (.condition hword)
  obtain ⟨after, cut₂, rfl, hcondition⟩ := breaking.sound.expression cut₁ h₁
  obtain ⟨next, hthen, rfl⟩ := (gives_take_place cut₂ (by simp)).1 h₂
  have cut₃ := hthen.cut cut₂ (by simp)
  obtain h | ⟨consequent, _, h₃, h⟩ := h
  · exact (breaking.block cut₃ h).imp (.consequent hword hcondition hthen)
  obtain ⟨other, cut₄, rfl, hbody⟩ := breaking.sound.block cut₃ h₃
  obtain ⟨last, helse, cut₅, h⟩ := optionally_unfinished cut₄ (by simp) h
  exact (breaking.block cut₅ h).imp (.alternative hword hcondition hthen hbody helse)

theorem countLoop_unfinished (breaking : Breaking level) (cut : Cut input)
    (hlead : lead input = .forWord) (h : RunsOut (countLoop level) (place file table input) t) :
    Left table .primary input t := by
  have hequals {s t : ReadState} : ¬ RunsOut equalsSign s t := by
    simp [equalsSign]
  obtain ⟨named, hword⟩ := mark_of_lead hlead (by simp)
  have cut₁ := hword.cut cut (by simp)
  simp only [countLoop, runsOut_bind, runsOut_advance, gives_advance_place hword cut (by simp),
    runsOut_identifier, hequals, runsOut_take, bind_pure_comp, runsOut_map, false_or] at h
  obtain ⟨_, _, rfl, counter, _, h₁, _, _, h₂, h⟩ := h
  obtain ⟨sign, hname, rfl⟩ := (gives_identifier_place cut₁).1 h₁
  have cut₂ := hname.cut cut₁
  obtain ⟨inner, hsign, rfl⟩ := (gives_equalsSign_place cut₂).1 h₂
  have cut₃ := hsign.cut cut₂
  obtain h | ⟨first, _, h₃, _, _, h₄, h⟩ := h
  · exact (breaking.expression cut₃ h).imp (.countFirst hword hname hsign)
  obtain ⟨after, cut₄, rfl, hfirst⟩ := breaking.sound.expression cut₃ h₃
  obtain ⟨next, hcomma, rfl⟩ := (gives_take_place cut₄ (by simp)).1 h₄
  have cut₅ := hcomma.cut cut₄ (by simp)
  obtain h | ⟨bound, _, h₅, h⟩ := h
  · exact (breaking.expression cut₅ h).imp (.countLast hword hname hsign hfirst hcomma)
  obtain ⟨last, cut₆, rfl, hlast⟩ := breaking.sound.expression cut₅ h₅
  obtain h | ⟨stride, _, h₆, h⟩ := h
  · obtain ⟨step, hcomma', cut₇, h⟩ := optionally_unfinished cut₆ (by simp) h
    exact (breaking.expression cut₇ h).imp
      (.countStep hword hname hsign hfirst hcomma hlast hcomma')
  · obtain ⟨rfl, rfl, -⟩ | ⟨e, step, rfl, hcomma', cut₇, hstep⟩ :=
      optionally_sound cut₆ (by simp) h₆
    · exact (breaking.block cut₆ h).imp (.countBody hword hname hsign hfirst hcomma hlast)
    · obtain ⟨body, cut₈, rfl, hstride⟩ := breaking.sound.expression cut₇ hstep
      exact (breaking.block cut₈ h).imp
        (.countStepBody hword hname hsign hfirst hcomma hlast hcomma' hstride)

theorem whileLoop_unfinished (breaking : Breaking level) (cut : Cut input)
    (hlead : lead input = .whileWord) (h : RunsOut (whileLoop level) (place file table input) t) :
    Left table .primary input t := by
  obtain ⟨inner, hword⟩ := mark_of_lead hlead (by simp)
  have cut' := hword.cut cut (by simp)
  simp only [whileLoop, runsOut_bind, runsOut_advance, gives_advance_place hword cut (by simp),
    bind_pure_comp, runsOut_map, false_or] at h
  obtain ⟨_, _, rfl, h | ⟨condition, _, h₁, h⟩⟩ := h
  · exact (breaking.expression cut' h).imp (.whileCondition hword)
  obtain ⟨after, cut₂, rfl, hcondition⟩ := breaking.sound.expression cut' h₁
  exact (breaking.block cut₂ h).imp (.whileBody hword hcondition)

theorem repeatLoop_unfinished (breaking : Breaking level) (cut : Cut input)
    (hlead : lead input = .reptWord) (h : RunsOut (repeatLoop level) (place file table input) t) :
    Left table .primary input t := by
  obtain ⟨next, hword⟩ := mark_of_lead hlead (by simp)
  have cut₁ := hword.cut cut (by simp)
  simp only [repeatLoop, runsOut_bind, runsOut_advance, gives_advance_place hword cut (by simp),
    runsOut_take, runsOut_takeOr, reduceCtorEq, false_and, and_false, bind_pure_comp, runsOut_map,
    false_or] at h
  obtain ⟨_, _, rfl, _, _, h₁, h⟩ := h
  obtain ⟨inner, hopen, rfl⟩ := (gives_take_place cut₁ (by simp)).1 h₁
  have cut₂ := hopen.cut cut₁ (by simp)
  obtain h | ⟨count, _, h₂, _, _, h₃, h⟩ := h
  · exact (breaking.expression cut₂ h).imp (.times hword hopen)
  obtain ⟨after, cut₃, rfl, htimes⟩ := breaking.sound.expression cut₂ h₂
  obtain ⟨last, hclose, rfl⟩ := (gives_takeOr_place cut₃ (by simp)).1 h₃
  exact (breaking.block (hclose.cut cut₃ (by simp)) h).imp (.repeatBody hword hopen htimes hclose)

/-! ## §6. Every level. -/

/-- Over a level of this kind, what is asked for breaks off only where it is unfinished. -/
theorem pursue_unfinished (breaking : Breaking level) {goal : Goal} (cut : Cut input)
    (h : RunsOut (pursue level goal) (place file table input) t) (asked : Asked goal input) :
    OpenAt table goal input ∧ t.table = table := by
  cases goal with
  | climb loosest left => exact climb_unfinished breaking cut h
  | read production =>
      obtain hstandard | hgeneral := asked
      · simp only [OpenAt, regionOf_of_standard hstandard]
        rcases lead_of_standard hstandard with ⟨rfl, hlead⟩ | ⟨rfl, hlead⟩ | ⟨rfl, hlead⟩
          | ⟨rfl, hlead⟩ | ⟨rfl, hlead⟩ | ⟨rfl, hlead⟩ | ⟨rfl, hlead⟩ | ⟨rfl, hlead⟩
        · exact absurd h number_unfinished
        · exact paren_unfinished breaking cut hlead h
        · exact named_unfinished breaking cut h
        · exact absurd h (array_unfinished cut hlead)
        · exact branch_unfinished breaking cut hlead h
        · exact countLoop_unfinished breaking cut hlead h
        · exact whileLoop_unfinished breaking cut hlead h
        · exact repeatLoop_unfinished breaking cut hlead h
      · simp only [List.mem_cons, List.not_mem_nil, or_false] at hgeneral
        obtain rfl | rfl | rfl | rfl := hgeneral
        · exact expression_unfinished breaking cut h
        · exact unary_unfinished breaking cut h
        · exact primary_unfinished breaking cut h
        · exact block_unfinished breaking cut h

/-- Every level of the language is of this kind. -/
theorem unfinished_descend (depth : Nat) :
    Breaking ⟨Choice.standard, descend Choice.standard depth⟩ := by
  induction depth with
  | zero =>
      refine ⟨sound_descend 0, fun _ h _ => ?_⟩
      obtain ⟨hfault, -⟩ := runsOut_failFound.1 h
      exact absurd hfault nofun
  | succ depth ih =>
      exact ⟨sound_descend (depth + 1), fun cut h asked => pursue_unfinished ih cut h asked⟩

end Fixity.Language
