/-
  Fixity.Proofs.Language.Completeness
  ────────────────────────────────
  **WHAT IS IN THE GRAMMAR IS READ.**

  Each construct is looked at over a level below it that is complete as far as the
  tokens reach: what meets a goal there is given.  A level costs one, and a
  construct asks the level below only for what starts further on, or for the
  production that its first token picks; so two levels for a token are enough.

  The grammar cuts a chain of operators nowhere, while climbing takes the tighter
  operators after each operand first.  Both give the one tree that the chain has.

  Main result: `complete_descend` (enough levels give what the grammar says).
-/
import Fixity.Grammar.Descent
import Fixity.Proofs.Language.Goals

namespace Fixity.Language

open Operator (isOperatorChar)
open Grammar Read

variable {file : String} {table : Operator.Table} {input rest : List Token} {e : Expr}
  {level : Level} {reach : Nat}

/-- The levels that a goal takes: two for each token, one less for a production that
its first token picks. -/
def cost : Goal → List Token → Nat
  | .climb _ _, input => 2 * input.length
  | .read production, input =>
      if production ∈ [.expression, .unary, .primary, .block] then 2 * input.length
      else 2 * input.length - 1

/-- A goal costs something, since there is always a token. -/
theorem cost_pos (goal : Goal) (cut : Cut input) : 0 < cost goal input := by
  have hpos := cut.length_pos
  cases goal with
  | climb => simp only [cost]; omega
  | read production =>
      simp only [cost]
      split <;> omega

/-- A level that gives whatever meets a goal, as far as it reaches. -/
structure Complete (level : Level) (reach : Nat) : Prop where
  /-- Primary expressions are picked as the language does. -/
  choice : level.choice = Choice.standard
  /-- What meets a goal is given. -/
  below : ∀ {file : String} {table : Operator.Table} {goal : Goal} {input : List Token} {e : Expr}
    {rest : List Token}, Cut input → cost goal input ≤ reach → Asked goal input →
    Meets table goal input e rest →
    Gives (level.below goal) (place file table input) e (place file table rest)

namespace Complete

/-! ## §1. What is nested inside. -/

theorem expression (complete : Complete level reach) (cut : Cut input)
    (near : 2 * input.length ≤ reach) (h : Derives table (.expression e) input rest) :
    Gives level.expression (place file table input) e (place file table rest) :=
  complete.below cut near (.inr (by simp)) h

theorem unary (complete : Complete level reach) (cut : Cut input)
    (near : 2 * input.length ≤ reach) (h : Derives table (.operand e) input rest) :
    Gives level.unary (place file table input) e (place file table rest) :=
  complete.below cut near (.inr (by simp)) h

theorem block (complete : Complete level reach) (cut : Cut input)
    (near : 2 * input.length ≤ reach) (h : Derives table (.body e) input rest) :
    Gives level.block (place file table input) e (place file table rest) :=
  complete.below cut near (.inr (by simp)) h

end Complete

/-- A token that leads is moved over, or taken where it is needed. -/
theorem gives_of_mark {kind : Kind} (h : Mark kind input rest) (cut : Cut input)
    (solid : kind ≠ .eof) :
    Gives advance (place file table input) () (place file table rest)
      ∧ (∀ fault, Gives (takeOr kind fault) (place file table input) () (place file table rest))
      ∧ (∀ shown, Gives (take kind shown) (place file table input) () (place file table rest))
      ∧ Gives (taken kind) (place file table input) true (place file table rest) :=
  ⟨(gives_advance_place h cut solid).2 rfl,
    fun _ => (gives_takeOr_place cut solid).2 ⟨rest, h, rfl⟩,
    fun _ => (gives_take_place cut solid).2 ⟨rest, h, rfl⟩,
    (gives_taken_place cut solid).2 (.inl ⟨rfl, rest, h, rfl⟩)⟩

/-! ## §2. Operands. -/

theorem primary_complete (complete : Complete level reach) (cut : Cut input)
    (near : 2 * input.length ≤ reach + 1) (h : Derives table (.primary e) input rest) :
    Gives (primary level) (place file table input) e (place file table rest) := by
  have hopens : startsPrimary (lead input) = true := lead_of_derives h
  obtain ⟨production, hchoice⟩ := Option.isSome_iff_exists.1 hopens
  refine .bind (gives_kind.2 ⟨rfl, rfl⟩) ?_
  have hchosen : level.choice (place file table input).cursor.kind = some production := by
    rw [complete.choice]
    exact hchoice
  rw [hchosen]
  refine complete.below cut ?_ (.inl hchoice) ?_
  · have hspecific : production ∉ [.expression, .unary, .primary, .block] := by
      revert hchoice
      cases lead input <;> intro hchoice <;> cases hchoice <;> decide
    rw [cost, if_neg hspecific]
    omega
  · simp only [Meets, phraseOf_of_standard hchoice]
    exact h

theorem unary_complete (complete : Complete level reach) (cut : Cut input)
    (near : 2 * input.length ≤ reach + 1) (h : Derives table (.operand e) input rest) :
    Gives (unary level) (place file table input) e (place file table rest) := by
  refine .bind (gives_kind.2 ⟨rfl, rfl⟩) (gives_ite.2 ?_)
  cases h with
  | unsigned hprimary =>
      exact .inr ⟨lead_ne_of_derives hprimary rfl,
        primary_complete complete cut near hprimary⟩
  | @signed c operand _ next _ hsign hc hoperand =>
      have hlength := Leads.length hsign
      refine .inl ⟨hsign.mark.lead, .bind (gives_text.2 ⟨rfl, rfl⟩) ?_⟩
      rw [hsign.text, signOf?_singleton, if_pos hc]
      refine .bind (gives_of_mark hsign.mark cut (by simp)).1 ?_
      refine .bind (complete.unary (hsign.cut cut) (by omega) hoperand) ?_
      exact gives_pure.2 ⟨rfl, rfl⟩

/-! ## §3. Chains. -/

/-- The right side of an operator is its operand with the links after it that are
tighter. -/
theorem rightSide_complete (complete : Complete level reach) (cut : Cut input)
    (near : 2 * input.length ≤ reach) {precedence : UInt32} {operand right : Expr}
    {tight : List Link} {mid : List Token} (hoperand : Derives table (.operand operand) input mid)
    (htight : Derives table (.links tight) mid rest)
    (tighter : ∀ link ∈ tight, precedence < link.precedence)
    (grouped : Grouped operand tight right)
    (looser : ∀ spelling next after, Spelled rest spelling after →
      table.lookup spelling = some next → next ≤ precedence) :
    Gives (rightSide level precedence) (place file table input) right (place file table rest) := by
  have cut' := hoperand.cut cut
  have hlength := weight_le hoperand
  simp only [Phrase.weight] at hlength
  refine .bind (complete.unary cut near hoperand) (.bind (gives_get.2 ⟨rfl, rfl⟩) (gives_ite.2 ?_))
  -- the reader climbs for the right side exactly when a tighter link stands next
  cases tight with
  | nil =>
      cases htight
      refine .inr ⟨fun htighter => ?_, gives_pure.2 ⟨grouped.unique (.operand operand), rfl⟩⟩
      obtain ⟨spelling, next, after, hspelled, hlookup, hlt⟩ :=
        (tighterAhead_iff cut' precedence).1 htighter
      exact absurd (looser spelling next after hspelled hlookup) (UInt32.not_le.2 hlt)
  | cons link tight =>
      obtain ⟨after, hspelled, hlookup⟩ := head_of_links htight link rfl
      have hlt := tighter link (by simp)
      have hsucc := toNat_succ_of_lt hlt
      refine .inl ⟨(tighterAhead_iff cut' precedence).2
        ⟨link.spelling, link.precedence, after, hspelled, hlookup, hlt⟩, ?_⟩
      refine complete.below cut' (by simp only [cost]; omega) trivial
        ⟨link :: tight, htight, fun other hmem => ?_, ?_, grouped⟩
      · have hother := UInt32.lt_iff_toNat_lt.1 (tighter other hmem)
        exact UInt32.le_iff_toNat_le.2 (by omega)
      · intro spelling after next hspelled hlookup
        have hnext := UInt32.le_iff_toNat_le.1 (looser spelling next after hspelled hlookup)
        exact UInt32.lt_iff_toNat_lt.2 (by omega)

/-- A link that is spelled is read with its right side. -/
theorem link_complete {loosest precedence : UInt32} {spelling : String} {next : List Token}
    {right : Expr} (cut : Cut input) (hspelled : Spelled input spelling next)
    (hlookup : table.lookup spelling = some precedence) (hle : loosest ≤ precedence)
    (h : Gives (rightSide level precedence) (place file table next) right
      (place file table rest)) :
    Gives (Grammar.link level loosest) (place file table input) (some (spelling, right))
      (place file table rest) := by
  obtain ⟨width, hahead, -, hadvance⟩ := infixAhead?_of_spelled file cut hspelled hlookup
  refine .bind (gives_get.2 ⟨rfl, rfl⟩) ?_
  rw [hahead]
  have hmoved : Gives (advanceBy width) (place file table input) () (place file table next) :=
    gives_advanceBy.2 (by rw [hadvance])
  exact gives_ite.2 (.inl ⟨hle, hmoved.bind (h.bind (gives_pure.2 ⟨rfl, rfl⟩))⟩)

/-- No link is read where no operator of the asked precedence stands. -/
theorem noLink_complete {loosest : UInt32} (cut : Cut input) (h : Looser table loosest input) :
    Gives (Grammar.link level loosest) (place file table input) none (place file table input) := by
  refine .bind (gives_get.2 ⟨rfl, rfl⟩) ?_
  split
  · next operator precedence hahead =>
    have hlt := (looser_iff file cut loosest).1 h operator precedence hahead
    exact gives_ite.2 (.inr ⟨UInt32.not_le.2 hlt, gives_pure.2 ⟨rfl, rfl⟩⟩)
  · exact gives_pure.2 ⟨rfl, rfl⟩

/-- All links are read.  After each operand the tighter ones are taken with it, so the
rounds are fewer than the links; hung on one another they give the tree of the chain. -/
theorem links_complete (complete : Complete level reach) {loosest : UInt32} (bound : Nat) :
    ∀ {input : List Token} {chain : List Link}, Cut input → 2 * input.length ≤ reach + 1 →
      chain.length < bound → Derives table (.links chain) input rest →
      (∀ link ∈ chain, loosest ≤ link.precedence) → Looser table loosest rest →
      ∃ links, Gives (upTo (link level loosest) bound) (place file table input) links
          (place file table rest)
        ∧ ∀ left, Grouped left chain (attach left links) := by
  induction bound with
  | zero => intro _ _ _ _ h; exact absurd h (Nat.not_lt_zero _)
  | succ bound ih =>
      intro input chain cut near hbound hchain hall hlooser
      cases hchain with
      | noLink =>
          exact ⟨[], gives_upTo_succ.2 (.inl ⟨rfl, noLink_complete cut hlooser⟩), .operand⟩
      | @link spelling precedence operand others _ next mid _ hspelled hlookup hoperand hothers =>
          -- this round takes the tighter links with the operand, the next rounds take the rest
          obtain ⟨tight, more, rfl, htight, hmore⟩ := Grouped.split_tighter precedence others
          obtain ⟨after, htights, hmores⟩ := split_links hothers
          obtain ⟨right, hright⟩ := Grouped.exists_tree operand tight
          have cut' := hspelled.cut cut
          have cut₂ := htights.cut (hoperand.cut cut')
          have hlength := hspelled.length
          have hweight := weight_le hoperand
          have hweight' := weight_le htights
          simp only [Phrase.weight, List.length_cons, List.length_append] at hweight hweight' hbound
          have hsmall : more.length < bound := by omega
          obtain ⟨links, hlinks, htree⟩ := ih cut₂ (by omega) hsmall hmores
            (fun link hmem => hall link (by simp [hmem])) hlooser
          have hfirst : loosest ≤ precedence := hall _ (List.mem_cons_self ..)
          -- what follows the tighter links is the next link, or what ends the chain
          have hnext : ∀ spelling' next' after', Spelled after spelling' after' →
              table.lookup spelling' = some next' → next' ≤ precedence := by
            intro spelling' next' after' hspelled' hlookup'
            cases more with
            | nil =>
                cases hmores
                have hlt := hlooser _ _ _ hspelled' hlookup'
                exact UInt32.le_of_lt (UInt32.lt_of_lt_of_le hlt hfirst)
            | cons link more =>
                obtain ⟨_, hlink, hprecedence⟩ := head_of_links hmores link rfl
                obtain ⟨rfl, -⟩ := hlink.unique cut₂ hspelled'
                rw [hprecedence] at hlookup'
                cases hlookup'
                exact hmore link rfl
          have hside : Gives (rightSide level precedence) (place file table next) right
              (place file table after) :=
            rightSide_complete complete cut' (by omega) hoperand htights htight hright hnext
          have hlink : Gives (Grammar.link level loosest) (place file table input)
              (some (spelling, right)) (place file table after) :=
            link_complete cut hspelled hlookup hfirst hside
          have hgrouped (left : Expr) :
              Grouped left (⟨spelling, precedence, operand⟩ :: tight ++ more)
              (attach left ((spelling, right) :: links)) :=
            Grouped.absorb (htree (.binary spelling left right)) hright htight hmore
          exact ⟨(spelling, right) :: links,
            gives_upTo_succ.2 (.inr ⟨_, _, _, rfl, hlink, hlinks⟩), hgrouped⟩

theorem climb_complete (complete : Complete level reach) (cut : Cut input)
    (near : 2 * input.length ≤ reach + 1) {loosest : UInt32} {left : Expr}
    (h : Meets table (.climb loosest left) input e rest) :
    Gives (climb level loosest left) (place file table input) e (place file table rest) := by
  obtain ⟨chain, hchain, hall, hlooser, hgrouped⟩ := h
  have hweight := weight_le hchain
  simp only [Phrase.weight] at hweight
  obtain ⟨links, hlinks, htree⟩ := links_complete complete (input.length + 1) cut near
    (by omega) hchain hall hlooser
  exact .bind (gives_many.2 hlinks) (gives_pure.2 ⟨hgrouped.unique (htree left), rfl⟩)

theorem expression_complete (complete : Complete level reach) (cut : Cut input)
    (near : 2 * input.length ≤ reach + 1) (h : Derives table (.expression e) input rest) :
    Gives (expression level) (place file table input) e (place file table rest) := by
  cases h with
  | @chain first links _ _ mid _ hoperand hlinks hends hgrouped =>
      have hweight := weight_le hoperand
      simp only [Phrase.weight] at hweight
      refine .bind (unary_complete complete cut near hoperand) ?_
      exact climb_complete complete (hoperand.cut cut) (by omega)
        ⟨links, hlinks, fun _ _ => UInt32.zero_le, looser_zero_iff.2 hends, hgrouped⟩

/-! ## §4. Numbers, parentheses and names. -/

theorem number_complete {value : Number} (cut : Cut input) (h : Numeral value input rest) :
    Gives number (place file table input) (.number value) (place file table rest) :=
  .bind ((gives_numberWith_place cut).2 ⟨value, rest, h, rfl, rfl⟩) (gives_pure.2 ⟨rfl, rfl⟩)

theorem paren_complete {inner after : List Token} (complete : Complete level reach)
    (cut : Cut input) (near : 2 * input.length ≤ reach + 2) (hopen : Mark .openParen input inner)
    (h : Derives table (.expression e) inner after) (hclose : Mark .closeParen after rest) :
    Gives (paren level) (place file table input) e (place file table rest) := by
  have cut' := hopen.cut cut (by simp)
  have hlength := Leads.length hopen
  refine .bind (gives_of_mark hopen cut (by simp)).1 ?_
  refine .bind (complete.expression cut' (by omega) h) ?_
  refine .bind ((gives_of_mark hclose (h.cut cut') (by simp)).2.1 _) ?_
  exact gives_pure.2 ⟨rfl, rfl⟩

/-- A pair of brackets with something in it. -/
theorem bracket_complete {α : Type} {empty : Fault} {content : Read α} {value : α}
    {inner after : List Token} (cut : Cut input) (cut' : Cut after)
    (hopen : Mark .openBracket input inner) (hinner : lead inner ≠ .closeBracket)
    (h : Gives content (place file table inner) value (place file table after))
    (hclose : Mark .closeBracket after rest) :
    Gives (bracket empty content) (place file table input) (some value)
      (place file table rest) := by
  refine .bind (gives_of_mark hopen cut (by simp)).2.2.2 ?_
  refine gives_ite.2 (.inl ⟨rfl, .bind (gives_kind.2 ⟨rfl, rfl⟩) ?_⟩)
  refine gives_ite.2 (.inr ⟨hinner, .bind h ?_⟩)
  exact .bind ((gives_of_mark hclose cut' (by simp)).2.2.1 _) (gives_pure.2 ⟨rfl, rfl⟩)

/-- No brackets are read where none open. -/
theorem noBracket_complete {α : Type} {empty : Fault} {content : Read α} (cut : Cut input)
    (h : lead input ≠ .openBracket) :
    Gives (bracket empty content) (place file table input) none (place file table input) :=
  .bind ((gives_taken_place cut (by simp)).2 (.inr ⟨rfl, h, rfl⟩))
    (gives_ite.2 (.inr ⟨by simp, gives_pure.2 ⟨rfl, rfl⟩⟩))

theorem dimensions_complete {empty : Fault} {fault : String → Fault} {ns : List UInt32}
    (h : Dimensions input ns rest) :
    ∀ bound, Cut input → ns.length < bound → lead rest ≠ .openBracket →
      Gives (upTo (bracket empty (numberWith dimension? fault)) bound) (place file table input) ns
        (place file table rest) := by
  induction h with
  | nil =>
      intro bound cut hbound hlead
      obtain ⟨bound, rfl⟩ := Nat.exists_eq_add_of_lt hbound
      exact gives_upTo_succ.2 (.inl ⟨rfl, noBracket_complete cut hlead⟩)
  | @cons _ inner after _ _ n _ hopen hwhole hclose _ ih =>
      intro bound cut hbound hlead
      obtain ⟨bound, rfl⟩ := Nat.exists_eq_add_of_lt hbound
      have cut' := hopen.cut cut (by simp)
      have cut₂ := hwhole.cut cut'
      have hnumber : Gives (numberWith dimension? fault) (place file table inner) n
          (place file table after) :=
        (gives_whole_place cut' fun _ => dimension?_eq_some_iff).2 ⟨_, hwhole, rfl⟩
      have hinner : lead inner ≠ .closeBracket := by
        obtain ⟨value, hnumeral, -⟩ := hwhole
        obtain ⟨token, hp, hlead⟩ := Leads.lead hnumeral
        simp [hlead, hp.1]
      refine gives_upTo_succ.2 (.inr ⟨_, _, _, rfl,
        bracket_complete cut cut₂ hopen hinner hnumber hclose, ?_⟩)
      exact ih _ (hclose.cut cut₂ (by simp)) (by simp only [List.length_cons]; omega) hlead

theorem array_complete {named next : List Token} {name : String} {n : UInt32} {ns : List UInt32}
    (cut : Cut input) (hword : Mark .arrWord input named) (hname : Name name named next)
    (h : Dimensions next (n :: ns) rest) (hlead : lead rest ≠ .openBracket) :
    Gives array (place file table input) (.array name (n :: ns)) (place file table rest) := by
  have cut' := hword.cut cut (by simp)
  have cut₂ := hname.cut cut'
  have hlength := h.length
  have hopen : lead next = .openBracket := by
    cases h with
    | cons hopen _ _ _ => exact hopen.lead
  refine .bind (gives_of_mark hword cut (by simp)).1 ?_
  refine .bind ((gives_identifier_place cut').2 ⟨next, hname, rfl⟩) ?_
  refine .bind (gives_kind.2 ⟨rfl, rfl⟩) (gives_ite.2 (.inl ⟨hopen, ?_⟩))
  refine .bind (gives_many.2 (dimensions_complete h _ cut₂ ?_ hlead)) (gives_pure.2 ⟨rfl, rfl⟩)
  show _ < next.length + 1
  omega

theorem indices_complete (complete : Complete level reach) {empty : Fault} {es : List Expr} :
    ∀ {input : List Token} (bound : Nat), Derives table (.indices es) input rest → Cut input →
      2 * input.length ≤ reach + 2 → es.length < bound → lead rest ≠ .openBracket →
      Gives (upTo (bracket empty level.expression) bound) (place file table input) es
        (place file table rest) := by
  induction es with
  | nil =>
      intro input bound h cut _ hbound hlead
      obtain ⟨bound, rfl⟩ := Nat.exists_eq_add_of_lt hbound
      cases h
      exact gives_upTo_succ.2 (.inl ⟨rfl, noBracket_complete cut hlead⟩)
  | cons e es ih =>
      intro input bound h cut near hbound hlead
      obtain ⟨bound, rfl⟩ := Nat.exists_eq_add_of_lt hbound
      cases h with
      | @index _ _ _ inner after next _ hopen hinside hclose hmore =>
          have hlength := Leads.length hopen
          have hlength' := Leads.length hclose
          have hweight := weight_le hinside
          simp only [Phrase.weight] at hweight
          have cut' := hopen.cut cut (by simp)
          have cut₂ := hinside.cut cut'
          have hinner : lead inner ≠ .closeBracket := lead_ne_of_derives hinside rfl
          have hexpression : Gives level.expression (place file table inner) e
              (place file table after) := complete.expression cut' (by omega) hinside
          refine gives_upTo_succ.2 (.inr ⟨_, _, _, rfl,
            bracket_complete cut cut₂ hopen hinner hexpression hclose, ?_⟩)
          exact ih _ hmore (hclose.cut cut₂ (by simp)) (by omega)
            (by simp only [List.length_cons]; omega) hlead

theorem arguments_complete (complete : Complete level reach) {fault : String → Fault}
    {es : List Expr} :
    ∀ {input : List Token} (bound : Nat), Derives table (.arguments es) input rest → Cut input →
      2 * input.length ≤ reach → es.length < bound →
      Gives (separatedUpTo level.expression fault bound) (place file table input) es
        (place file table rest) := by
  induction es with
  | nil =>
      intro input bound h
      exact nomatch h
  | cons e es ih =>
      intro input bound h cut near hbound
      obtain ⟨bound, rfl⟩ := Nat.exists_eq_add_of_lt hbound
      cases h with
      | @lastArgument _ _ after _ hinside hclose =>
          have cut' := hinside.cut cut
          refine gives_separatedUpTo_succ.2 ⟨_, _, complete.expression cut near hinside,
            .inl ⟨hclose.lead, rfl, ?_⟩⟩
          rw [hclose.advance (hclose.cut cut' (by simp))]
      | @argument _ _ _ after next _ hinside hcomma hmore =>
          have cut' := hinside.cut cut
          have cut₂ := hcomma.cut cut' (by simp)
          have hlength := Leads.length hcomma
          have hweight := weight_le hinside
          simp only [Phrase.weight] at hweight
          refine gives_separatedUpTo_succ.2 ⟨_, _, complete.expression cut near hinside,
            .inr ⟨hcomma.lead, es, rfl, ?_⟩⟩
          rw [hcomma.advance cut₂]
          exact ih _ hmore cut₂ (by omega) (by simp only [List.length_cons]; omega)

/-- A name that opens no bracket and no parenthesis is a variable. -/
theorem scalar_complete {name : String} (cut : Cut input) (hname : Name name input rest)
    (hbracket : lead rest ≠ .openBracket) (hparen : lead rest ≠ .openParen) :
    Gives (named level) (place file table input) (.scalar name) (place file table rest) := by
  refine .bind ((gives_identifier_place cut).2 ⟨rest, hname, rfl⟩) ?_
  refine .bind (gives_kind.2 ⟨rfl, rfl⟩) ?_
  split
  · next hkind => exact absurd hkind hbracket
  · next hkind => exact absurd hkind hparen
  · exact gives_pure.2 ⟨rfl, rfl⟩

theorem element_complete {name : String} {es : List Expr} {next : List Token}
    (complete : Complete level reach) (cut : Cut input) (near : 2 * input.length ≤ reach + 2)
    (hname : Name name input next) (h : Derives table (.indices (e :: es)) next rest)
    (hlead : lead rest ≠ .openBracket) :
    Gives (named level) (place file table input) (.var name (e :: es))
      (place file table rest) := by
  have cut' := hname.cut cut
  have hlength := Leads.length hname
  have hweight := weight_le h
  simp only [Phrase.weight] at hweight
  have hopen : lead next = .openBracket := by
    cases h with
    | index hopen _ _ _ => exact hopen.lead
  refine .bind ((gives_identifier_place cut).2 ⟨next, hname, rfl⟩) ?_
  refine .bind (gives_kind.2 ⟨hopen.symm, rfl⟩) ?_
  refine .bind (gives_many.2 (indices_complete complete _ h cut' (by omega) ?_ hlead))
    (gives_pure.2 ⟨rfl, rfl⟩)
  show _ < next.length + 1
  omega

/-- A name that opens a parenthesis is a call. -/
theorem call_complete {name : String} {es : List Expr} {next inner : List Token}
    (cut : Cut input) (hname : Name name input next) (hopen : Mark .openParen next inner)
    (h : Gives (separated level.expression .expectedCommaOrParen) (place file table inner) es
      (place file table rest)) :
    Gives (named level) (place file table input) (.call name es) (place file table rest) := by
  have cut' := hname.cut cut
  refine .bind ((gives_identifier_place cut).2 ⟨next, hname, rfl⟩) ?_
  refine .bind (gives_kind.2 ⟨hopen.lead.symm, rfl⟩) ?_
  refine .bind (gives_of_mark hopen cut' (by simp)).1 ?_
  exact .bind h (gives_pure.2 ⟨rfl, rfl⟩)

/-! ## §5. Blocks, choices and loops. -/

/-- A statement is read with the semicolon after it, if there is one. -/
theorem statement_complete {after : List Token} (complete : Complete level reach)
    (cut : Cut input) (near : 2 * input.length ≤ reach) (h : Derives table (.body e) input after)
    (hnext : (lead after ≠ .semicolon ∧ rest = after) ∨ Mark .semicolon after rest) :
    Gives (statement level) (place file table input) (some e) (place file table rest) := by
  have cut' := h.cut cut
  have hblock : Gives level.block (place file table input) e (place file table after) :=
    complete.block cut near h
  have htaken : ∃ there, Gives (taken .semicolon) (place file table after) there
      (place file table rest) := by
    rcases hnext with ⟨hlead, rfl⟩ | hmark
    · exact ⟨false, (gives_taken_place cut' (by simp)).2 (.inr ⟨rfl, hlead, rfl⟩)⟩
    · exact ⟨true, (gives_of_mark hmark cut' (by simp)).2.2.2⟩
  obtain ⟨there, htaken⟩ := htaken
  refine .bind (gives_kind.2 ⟨rfl, rfl⟩) ?_
  split
  · next hkind => exact absurd hkind (lead_ne_of_derives h rfl)
  · next hkind => exact absurd hkind (lead_ne_of_derives h rfl)
  · exact .bind hblock (.bind htaken (gives_pure.2 ⟨rfl, rfl⟩))

/-- The statements are read up to the closing brace. -/
theorem statements_complete (file : String) (complete : Complete level reach) {es : List Expr} :
    ∀ {input : List Token} (bound : Nat), Derives table (.statements es) input rest → Cut input →
      2 * input.length ≤ reach → es.length < bound →
      ∃ after, Mark .closeBlock after rest ∧ Cut after
        ∧ Gives (upTo (statement level) bound) (place file table input) es
            (place file table after) := by
  induction es with
  | nil =>
      intro input bound h cut _ hbound
      obtain ⟨bound, rfl⟩ := Nat.exists_eq_add_of_lt hbound
      cases h with
      | closed hclose =>
          have hnone : Gives (statement level) (place file table input) none
              (place file table input) := by
            refine .bind (gives_kind.2 ⟨hclose.lead.symm, rfl⟩) ?_
            exact gives_pure.2 ⟨rfl, rfl⟩
          exact ⟨input, hclose, cut, gives_upTo_succ.2 (.inl ⟨rfl, hnone⟩)⟩
  | cons e es ih =>
      intro input bound h cut near hbound
      obtain ⟨bound, rfl⟩ := Nat.exists_eq_add_of_lt hbound
      simp only [List.length_cons] at ih ⊢
      cases h with
      | @statement _ _ _ after _ hbody hmore =>
          have cut' := hbody.cut cut
          have hweight := weight_le hbody
          simp only [Phrase.weight] at hweight
          obtain ⟨last, hclose, cut₂, hrest⟩ :=
            ih (es.length + 1 + bound) hmore cut' (by omega) (by omega)
          -- neither a statement nor the closing brace starts with a semicolon
          have hlead : lead after ≠ .semicolon := lead_ne_of_derives hmore rfl
          have hfirst : Gives (statement level) (place file table input) (some e)
              (place file table after) :=
            statement_complete complete cut near hbody (.inl ⟨hlead, rfl⟩)
          exact ⟨last, hclose, cut₂, gives_upTo_succ.2 (.inr ⟨_, _, _, rfl, hfirst, hrest⟩)⟩
      | @separated _ _ _ after next _ hbody hmark hmore =>
          have cut' := hmark.cut (hbody.cut cut) (by simp)
          have hlength := Leads.length hmark
          have hweight := weight_le hbody
          simp only [Phrase.weight] at hweight
          obtain ⟨last, hclose, cut₂, hrest⟩ :=
            ih (es.length + 1 + bound) hmore cut' (by omega) (by omega)
          have hfirst : Gives (statement level) (place file table input) (some e)
              (place file table next) :=
            statement_complete complete cut near hbody (.inr hmark)
          exact ⟨last, hclose, cut₂, gives_upTo_succ.2 (.inr ⟨_, _, _, rfl, hfirst, hrest⟩)⟩

theorem block_complete (complete : Complete level reach) (cut : Cut input)
    (near : 2 * input.length ≤ reach + 1) (h : Derives table (.body e) input rest) :
    Gives (block level) (place file table input) e (place file table rest) := by
  cases h with
  | plain hexpression =>
      have hlead : lead input ≠ .openBlock := lead_ne_of_derives hexpression rfl
      refine .bind ((gives_taken_place cut (by simp)).2 (.inr ⟨rfl, hlead, rfl⟩)) ?_
      exact gives_ite.2 (.inr ⟨by simp, expression_complete complete cut near hexpression⟩)
  | @block es _ inner _ hopen hstatements =>
      have cut' := hopen.cut cut (by simp)
      have hlength := Leads.length hopen
      have hweight := weight_le hstatements
      simp only [Phrase.weight] at hweight
      obtain ⟨after, hclose, cut₂, hmany⟩ := statements_complete file complete
        (inner.length + 1) hstatements cut' (by omega) (by omega)
      refine .bind (gives_of_mark hopen cut (by simp)).2.2.2 (gives_ite.2 (.inl ⟨rfl, ?_⟩))
      refine .bind (gives_many.2 hmany) ?_
      exact .bind (gives_of_mark hclose cut₂ (by simp)).1 (gives_pure.2 ⟨rfl, rfl⟩)

/-- A part that may be there is passed over without its mark. -/
theorem optionally_none {mark : Kind} {part : Read Expr} (cut : Cut input) (solid : mark ≠ .eof)
    (h : lead input ≠ mark) :
    Gives (optionally mark part) (place file table input) none (place file table input) :=
  .bind ((gives_taken_place cut solid).2 (.inr ⟨rfl, h, rfl⟩))
    (gives_ite.2 (.inr ⟨by simp, gives_pure.2 ⟨rfl, rfl⟩⟩))

/-- A part that may be there is read after its mark. -/
theorem optionally_some {mark : Kind} {part : Read Expr} {inner : List Token} (cut : Cut input)
    (solid : mark ≠ .eof) (hmark : Mark mark input inner)
    (h : Gives part (place file table inner) e (place file table rest)) :
    Gives (optionally mark part) (place file table input) (some e) (place file table rest) :=
  .bind (gives_of_mark hmark cut solid).2.2.2
    (gives_ite.2 (.inl ⟨rfl, .bind h (gives_pure.2 ⟨rfl, rfl⟩)⟩))

theorem branch_complete {inner after next last : List Token} {c : Expr} {other : Option Expr}
    (complete : Complete level reach) (cut : Cut input) (near : 2 * input.length ≤ reach + 2)
    (hword : Mark .ifWord input inner) (hc : Derives table (.expression c) inner after)
    (hthen : Mark .thenWord after next) (he : Derives table (.body e) next last)
    (hother : Gives (optionally .elseWord level.block) (place file table last) other
      (place file table rest)) :
    Gives (branch level) (place file table input) (.branch c e other) (place file table rest) := by
  have cut₁ := hword.cut cut (by simp)
  have cut₂ := hc.cut cut₁
  have h₁ := Leads.length hword
  have h₂ := Leads.length hthen
  have h₃ := weight_le hc
  simp only [Phrase.weight] at h₃
  refine .bind (gives_of_mark hword cut (by simp)).1 ?_
  refine .bind (complete.expression cut₁ (by omega) hc) ?_
  refine .bind ((gives_of_mark hthen cut₂ (by simp)).2.2.1 _) ?_
  refine .bind (complete.block (hthen.cut cut₂ (by simp)) (by omega) he) ?_
  exact .bind hother (gives_pure.2 ⟨rfl, rfl⟩)

theorem countLoop_complete {named sign inner after next last start : List Token} {name : String}
    {a b : Expr} {step : Option Expr} (complete : Complete level reach) (cut : Cut input)
    (near : 2 * input.length ≤ reach + 2) (hword : Mark .forWord input named)
    (hname : Name name named sign) (hsign : Sign '=' sign inner)
    (ha : Derives table (.expression a) inner after) (hcomma : Mark .comma after next)
    (hb : Derives table (.expression b) next last)
    (hstep : Gives (optionally .comma level.expression) (place file table last) step
      (place file table start))
    (hstart : start.length ≤ last.length) (cut' : Cut start)
    (he : Derives table (.body e) start rest) :
    Gives (countLoop level) (place file table input) (.countLoop name a b step e)
      (place file table rest) := by
  have cut₁ := hword.cut cut (by simp)
  have cut₂ := hname.cut cut₁
  have cut₃ := hsign.cut cut₂
  have cut₄ := ha.cut cut₃
  have cut₅ := hcomma.cut cut₄ (by simp)
  have h₁ := Leads.length hword
  have h₂ := Leads.length hname
  have h₃ := Leads.length hsign
  have h₄ := Leads.length hcomma
  have h₅ := weight_le ha
  have h₆ := weight_le hb
  simp only [Phrase.weight] at h₅ h₆
  refine .bind (gives_of_mark hword cut (by simp)).1 ?_
  refine .bind ((gives_identifier_place cut₁).2 ⟨sign, hname, rfl⟩) ?_
  refine .bind (a := ()) ((gives_equalsSign_place cut₂).2 ⟨inner, hsign, rfl⟩) ?_
  refine .bind (complete.expression cut₃ (by omega) ha) ?_
  refine .bind ((gives_of_mark hcomma cut₄ (by simp)).2.2.1 _) ?_
  refine .bind (complete.expression cut₅ (by omega) hb) (.bind hstep ?_)
  exact .bind (complete.block cut' (by omega) he) (gives_pure.2 ⟨rfl, rfl⟩)

theorem whileLoop_complete {inner after : List Token} {c : Expr} (complete : Complete level reach)
    (cut : Cut input) (near : 2 * input.length ≤ reach + 2) (hword : Mark .whileWord input inner)
    (hc : Derives table (.expression c) inner after) (he : Derives table (.body e) after rest) :
    Gives (whileLoop level) (place file table input) (.whileLoop c e) (place file table rest) := by
  have cut₁ := hword.cut cut (by simp)
  have h₁ := Leads.length hword
  have h₂ := weight_le hc
  simp only [Phrase.weight] at h₂
  refine .bind (gives_of_mark hword cut (by simp)).1 ?_
  refine .bind (complete.expression cut₁ (by omega) hc) ?_
  exact .bind (complete.block (hc.cut cut₁) (by omega) he) (gives_pure.2 ⟨rfl, rfl⟩)

theorem repeatLoop_complete {next inner after last : List Token} {c : Expr}
    (complete : Complete level reach) (cut : Cut input) (near : 2 * input.length ≤ reach + 2)
    (hword : Mark .reptWord input next) (hopen : Mark .openParen next inner)
    (hc : Derives table (.expression c) inner after) (hclose : Mark .closeParen after last)
    (he : Derives table (.body e) last rest) :
    Gives (repeatLoop level) (place file table input) (.repeatLoop c e)
      (place file table rest) := by
  have cut₁ := hword.cut cut (by simp)
  have cut₂ := hopen.cut cut₁ (by simp)
  have cut₃ := hc.cut cut₂
  have h₁ := Leads.length hword
  have h₂ := Leads.length hopen
  have h₃ := Leads.length hclose
  have h₄ := weight_le hc
  simp only [Phrase.weight] at h₄
  refine .bind (gives_of_mark hword cut (by simp)).1 ?_
  refine .bind ((gives_of_mark hopen cut₁ (by simp)).2.2.1 _) ?_
  refine .bind (complete.expression cut₂ (by omega) hc) ?_
  refine .bind ((gives_of_mark hclose cut₃ (by simp)).2.1 _) ?_
  exact .bind (complete.block (hclose.cut cut₃ (by simp)) (by omega) he) (gives_pure.2 ⟨rfl, rfl⟩)

/-! ## §6. Every level. -/

/-- What the first token picks is given. -/
theorem construct_complete (complete : Complete level reach) (cut : Cut input)
    (near : 2 * input.length ≤ reach + 2) {production : Production}
    (hchoice : Choice.standard (lead input) = some production)
    (h : Derives table (.primary e) input rest) :
    Gives (construct level production) (place file table input) e (place file table rest) := by
  -- each rule fixes the first token, and with it the production that was picked
  have picks : ∀ {kind : Kind}, lead input = kind → Choice.standard kind = some production :=
    fun hlead => hlead ▸ hchoice
  have names : ∀ {name : String} {next : List Token}, Name name input next →
      production = .identifier := by
    intro name next hname
    obtain ⟨token, hp, hlead⟩ := Leads.lead hname
    exact (Option.some.inj (picks (hlead.trans hp.1))).symm
  cases h with
  | number hnumeral =>
      obtain ⟨token, hp, hlead⟩ := Leads.lead hnumeral
      cases picks (hlead.trans hp.1)
      exact number_complete cut hnumeral
  | paren hopen hinside hclose =>
      cases picks hopen.lead
      exact paren_complete complete cut near hopen hinside hclose
  | scalar hname hbracket hparen =>
      cases names hname
      exact scalar_complete cut hname hbracket hparen
  | element hname hindices hlead =>
      cases names hname
      exact element_complete complete cut near hname hindices hlead
  | emptyCall hname hopen hclose =>
      cases names hname
      have cut' := hopen.cut (hname.cut cut) (by simp)
      refine call_complete cut hname hopen (gives_separated.2 (.inl ⟨hclose.lead, rfl, ?_⟩))
      rw [hclose.advance (hclose.cut cut' (by simp))]
  | @call _ _ _ next inner _ hname hopen harguments =>
      cases names hname
      have cut' := hopen.cut (hname.cut cut) (by simp)
      have h₁ := Leads.length hname
      have h₂ := Leads.length hopen
      have h₃ := weight_le harguments
      simp only [Phrase.weight] at h₃
      -- an argument starts with no closing parenthesis, so the call is not taken for an empty one
      have hlead : lead inner ≠ .closeParen := lead_ne_of_derives harguments rfl
      refine call_complete cut hname hopen (gives_separated.2 (.inr ⟨hlead, ?_⟩))
      refine arguments_complete complete _ harguments cut' (by omega) ?_
      show _ < inner.length + 1
      omega
  | array hword hname hdimensions hlead =>
      cases picks hword.lead
      exact array_complete cut hword hname hdimensions hlead
  | branch hword hc hthen he hlead =>
      cases picks hword.lead
      have cut' := he.cut (hthen.cut (hc.cut (hword.cut cut (by simp))) (by simp))
      exact branch_complete complete cut near hword hc hthen he
        (optionally_none cut' (by simp) hlead)
  | branchElse hword hc hthen he helse he' =>
      cases picks hword.lead
      have cut' := he.cut (hthen.cut (hc.cut (hword.cut cut (by simp))) (by simp))
      have h₁ := Leads.length hword
      have h₂ := Leads.length hthen
      have h₃ := Leads.length helse
      have h₄ := weight_le hc
      have h₅ := weight_le he
      simp only [Phrase.weight] at h₄ h₅
      have hother : Gives level.block (place file table _) _ (place file table rest) :=
        complete.block (helse.cut cut' (by simp)) (by omega) he'
      exact branch_complete complete cut near hword hc hthen he
        (optionally_some cut' (by simp) helse hother)
  | @countLoop _ _ _ _ _ _ _ _ _ _ last _ hword hname hsign ha hcomma hb he =>
      cases picks hword.lead
      have cut₁ := ha.cut (hsign.cut (hname.cut (hword.cut cut (by simp))))
      have cut₂ := hb.cut (hcomma.cut cut₁ (by simp))
      -- a body starts with no comma
      have hlead : lead last ≠ .comma := lead_ne_of_derives he rfl
      exact countLoop_complete complete cut near hword hname hsign ha hcomma hb
        (optionally_none cut₂ (by simp) hlead) (Nat.le_refl _) cut₂ he
  | countLoopStep hword hname hsign ha hcomma hb hcomma' hd he =>
      cases picks hword.lead
      have cut₁ := ha.cut (hsign.cut (hname.cut (hword.cut cut (by simp))))
      have cut₂ := hb.cut (hcomma.cut cut₁ (by simp))
      have cut₃ := hcomma'.cut cut₂ (by simp)
      have h₁ := Leads.length hword
      have h₂ := Leads.length hname
      have h₃ := Leads.length hsign
      have h₄ := Leads.length hcomma
      have h₅ := Leads.length hcomma'
      have h₆ := weight_le ha
      have h₇ := weight_le hb
      have h₈ := weight_le hd
      simp only [Phrase.weight] at h₆ h₇ h₈
      have hstep : Gives level.expression (place file table _) _ (place file table _) :=
        complete.expression cut₃ (by omega) hd
      exact countLoop_complete complete cut near hword hname hsign ha hcomma hb
        (optionally_some cut₂ (by simp) hcomma' hstep) (by omega) (hd.cut cut₃) he
  | whileLoop hword hc he =>
      cases picks hword.lead
      exact whileLoop_complete complete cut near hword hc he
  | repeatLoop hword hopen hc hclose he =>
      cases picks hword.lead
      exact repeatLoop_complete complete cut near hword hopen hc hclose he

/-- Over a level that is complete as far as it reaches, one level reaches further. -/
theorem pursue_complete (complete : Complete level reach) {goal : Goal} (cut : Cut input)
    (near : cost goal input ≤ reach + 1) (asked : Asked goal input)
    (h : Meets table goal input e rest) :
    Gives (pursue level goal) (place file table input) e (place file table rest) := by
  cases goal with
  | climb loosest left => exact climb_complete complete cut near h
  | read production =>
      -- the general productions cost one more than what the first token picks
      by_cases hgeneral : production ∈ [.expression, .unary, .primary, .block]
      · rw [cost, if_pos hgeneral] at near
        simp only [List.mem_cons, List.not_mem_nil, or_false] at hgeneral
        rcases hgeneral with rfl | rfl | rfl | rfl
        · exact expression_complete complete cut near h
        · exact unary_complete complete cut near h
        · exact primary_complete complete cut near h
        · exact block_complete complete cut near h
      · rw [cost, if_neg hgeneral] at near
        have hchoice := asked.resolve_right hgeneral
        simp only [Meets, phraseOf_of_standard hchoice] at h
        exact construct_complete complete cut (by omega) hchoice h

/-- A level reaches as far as there are levels below it. -/
theorem complete_descend (depth : Nat) :
    Complete ⟨Choice.standard, descend Choice.standard depth⟩ depth := by
  induction depth with
  | zero =>
      refine ⟨rfl, fun {file table goal input e rest} cut near _ _ => ?_⟩
      have hpos := cost_pos goal cut
      omega
  | succ depth ih => exact ⟨rfl, fun cut near asked h => pursue_complete ih cut near asked h⟩

end Fixity.Language
