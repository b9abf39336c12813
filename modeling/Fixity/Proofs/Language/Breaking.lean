/-
  Fixity.Proofs.Language.Breaking
  ────────────────────────────────
  **WHAT IS UNFINISHED ASKS FOR MORE.**

  Tokens that are the beginning of a phrase and end inside a block of it are read up to
  that block, part by part, and the end is met there.  As for phrases that are complete,
  each construct is looked at over a level below it that does so as far as the tokens
  reach.

  Only climbing needs more than its part of the relation.  The operator whose right side
  is not finished may be looser than what is climbed for, and then the climb ends in
  front of it without having seen the end.  So a chain that breaks off is taken apart:
  the operators that have their operands, and the one that has not.

  Main results: `interrupted_descend` (enough levels meet the end inside a block wherever
  the relation says that the tokens do) and `asksForMore_iff` (which tokens ask for more).
-/
import Fixity.Proofs.Language.Declared
import Fixity.Proofs.Language.Sequence

namespace Fixity.Language

open Operator (isOperatorChar)
open Grammar Read

variable {file : String} {table : Operator.Table} {input rest : List Token} {e : Expr}
  {level : Level} {reach : Nat}

/-! ## §1. What a phrase that is not finished starts with. -/

/-- Whether a phrase that is not finished can start with a kind of token. -/
def opens : Region → Kind → Bool
  | .primary, kind => startsPrimary kind
  | .operand, kind | .expression, kind | .arguments, kind => startsPrimary kind || kind == .symbol
  | .body, kind => startsPrimary kind || kind == .symbol || kind == .openBlock
  | .statements, kind =>
      startsPrimary kind || kind == .symbol || kind == .openBlock || kind == .eof
  | .links, kind => kind == .symbol
  | .indices, kind => kind == .openBracket

/-- A phrase that is not finished starts with a token that can start it. -/
theorem lead_of_unfinished {region : Region} (h : Unfinished table region input) :
    opens region (lead input) = true := by
  induction h with
  -- these start as their first part does, finished or not
  | first _ ih | argument _ ih => exact ih
  | plain _ ih | unsigned _ ih | statement _ ih =>
      simp only [opens] at ih ⊢
      rw [ih]
      rfl
  | chain hfirst | laterArgument hfirst => exact lead_of_derives hfirst
  | laterStatement hbody | separated hbody =>
      have hlead := lead_of_derives hbody
      simp only [starts] at hlead
      simp only [opens, hlead, Bool.true_or]
  | right hspelled | laterLink hspelled => simp [opens, hspelled.lead]
  | ends hlead => simp [opens, hlead]
  | block hmark | paren hmark | index hmark | laterIndex hmark | condition hmark
  | consequent hmark | alternative hmark | countFirst hmark | countLast hmark | countStep hmark
  | countBody hmark | countStepBody hmark | whileCondition hmark | whileBody hmark | times hmark
  | repeatBody hmark =>
      rw [hmark.lead]
      rfl
  | signed hleads | element hleads | call hleads =>
      obtain ⟨token, hp, hlead⟩ := Leads.lead hleads
      rw [hlead, hp.1]
      rfl

/-- It starts with no other kind. -/
theorem lead_ne_of_unfinished {region : Region} {kind : Kind} (h : Unfinished table region input)
    (hkind : opens region kind = false) : lead input ≠ kind := by
  rintro rfl
  rw [lead_of_unfinished h] at hkind
  exact absurd hkind nofun

/-! ## §2. Chains that break off. -/

/-- Operators with their operands, and then one of a precedence whose operand is not
finished. -/
def BreaksAfter (table : Operator.Table) (links : List Link) (precedence : UInt32)
    (input : List Token) : Prop :=
  ∃ mid spelling next, Derives table (.links links) input mid ∧ Spelled mid spelling next
    ∧ table.lookup spelling = some precedence ∧ Unfinished table .operand next

/-- A chain that is not finished has such an operator. -/
theorem exists_breaksAfter {region : Region} (h : Unfinished table region input) :
    region = .links → ∃ links precedence, BreaksAfter table links precedence input := by
  induction h with
  | right hspelled hlookup hoperand =>
      exact fun _ => ⟨[], _, _, _, _, .noLink, hspelled, hlookup, hoperand⟩
  | @laterLink spelling precedence e _ _ _ hspelled hlookup hoperand _ ih =>
      intro _
      obtain ⟨links, last, mid, spelling', next, hlinks, hbreak⟩ := ih rfl
      exact ⟨⟨spelling, precedence, e⟩ :: links, last, mid, spelling', next,
        .link hspelled hlookup hoperand hlinks, hbreak⟩
  | _ => exact nofun

/-- An operator stands at the end of what is complete in such a chain, and what stands
there decides how tight the next one is. -/
theorem BreaksAfter.next_le {links : List Link} {precedence bound : UInt32} (cut : Cut input)
    (h : BreaksAfter table links precedence input)
    (hlinks : ∀ link ∈ links.head?, link.precedence ≤ bound)
    (hlast : links = [] → precedence ≤ bound) :
    ∀ spelling next after, Spelled input spelling after →
      table.lookup spelling = some next → next ≤ bound := by
  intro spelling next after hspelled hlookup
  obtain ⟨mid, spelling', next', hderives, hspelled', hlookup', -⟩ := h
  cases links with
  | nil =>
      cases hderives
      obtain ⟨rfl, -⟩ := hspelled'.unique cut hspelled
      rw [hlookup'] at hlookup
      cases hlookup
      exact hlast rfl
  | cons link links =>
      obtain ⟨_, hlink, hprecedence⟩ := head_of_links hderives link rfl
      obtain ⟨rfl, -⟩ := hlink.unique cut hspelled
      rw [hprecedence] at hlookup
      cases hlookup
      exact hlinks link rfl

/-- What a goal asks for breaks off: climbing goes as far as the operator whose operand is
not finished. -/
def BreaksOff (table : Operator.Table) : Goal → List Token → Prop
  | .read production, input => Unfinished table (regionOf production) input
  | .climb loosest _, input =>
      ∃ links precedence, BreaksAfter table links precedence input
        ∧ (∀ link ∈ links, loosest ≤ link.precedence) ∧ loosest ≤ precedence

/-! ## §3. Levels. -/

/-- A level that gives what meets a goal, and meets the end inside a block where a goal
breaks off, as far as it reaches. -/
structure Faithful (level : Level) (reach : Nat) : Prop where
  /-- What meets a goal is given. -/
  complete : Complete level reach
  /-- Where a goal breaks off, the end is met. -/
  below : ∀ {file : String} {table : Operator.Table} {goal : Goal} {input : List Token},
    Cut input → cost goal input ≤ reach → Asked goal input → BreaksOff table goal input →
    Interrupted (level.below goal) (place file table input)

namespace Faithful

theorem expression (faithful : Faithful level reach) (cut : Cut input)
    (near : 2 * input.length ≤ reach) (h : Unfinished table .expression input) :
    Interrupted level.expression (place file table input) :=
  faithful.below cut near (.inr (by simp)) h

theorem unary (faithful : Faithful level reach) (cut : Cut input)
    (near : 2 * input.length ≤ reach) (h : Unfinished table .operand input) :
    Interrupted level.unary (place file table input) :=
  faithful.below cut near (.inr (by simp)) h

theorem block (faithful : Faithful level reach) (cut : Cut input)
    (near : 2 * input.length ≤ reach) (h : Unfinished table .body input) :
    Interrupted level.block (place file table input) :=
  faithful.below cut near (.inr (by simp)) h

end Faithful

/-! ## §4. Operands. -/

theorem primary_interrupted (faithful : Faithful level reach) (cut : Cut input)
    (near : 2 * input.length ≤ reach + 1) (h : Unfinished table .primary input) :
    Interrupted (primary level) (place file table input) := by
  obtain ⟨production, hchoice⟩ := Option.isSome_iff_exists.1 (lead_of_unfinished h)
  have hchosen : level.choice (place file table input).cursor.kind = some production := by
    rw [faithful.complete.choice]
    exact hchoice
  refine .later (gives_kind.2 ⟨rfl, rfl⟩) ?_
  rw [hchosen]
  refine faithful.below cut ?_ (.inl hchoice) ?_
  · have hspecific : production ∉ [.expression, .unary, .primary, .block] := by
      revert hchoice
      cases lead input <;> intro hchoice <;> cases hchoice <;> decide
    rw [cost, if_neg hspecific]
    omega
  · rw [BreaksOff, regionOf_of_standard hchoice]
    exact h

theorem unary_interrupted (faithful : Faithful level reach) (cut : Cut input)
    (near : 2 * input.length ≤ reach + 1) (h : Unfinished table .operand input) :
    Interrupted (unary level) (place file table input) := by
  refine .later (gives_kind.2 ⟨rfl, rfl⟩) (Interrupted.ite.2 ?_)
  cases h with
  | unsigned hprimary =>
      exact .inr ⟨lead_ne_of_unfinished hprimary rfl,
        primary_interrupted faithful cut near hprimary⟩
  | signed hsign hc hoperand =>
      have hlength := Leads.length hsign
      refine .inl ⟨hsign.mark.lead, .later (gives_text.2 ⟨rfl, rfl⟩) ?_⟩
      rw [hsign.text, signOf?_singleton, if_pos hc]
      exact .later (gives_of_mark hsign.mark cut (by simp)).1
        (.first (faithful.unary (hsign.cut cut) (by omega) hoperand))

/-! ## §5. Chains. -/

/-- The right side of an operator is interrupted in its operand. -/
theorem rightSide_interrupted (faithful : Faithful level reach) {precedence : UInt32}
    (cut : Cut input) (near : 2 * input.length ≤ reach) (h : Unfinished table .operand input) :
    Interrupted (rightSide level precedence) (place file table input) :=
  .first (faithful.unary cut near h)

/-- Or it is interrupted in what comes after the operand and is tighter. -/
theorem rightSide_interrupted_later (faithful : Faithful level reach) {precedence last : UInt32}
    {operand : Expr} {tight : List Link} {mid : List Token} (cut : Cut input)
    (near : 2 * input.length ≤ reach) (hoperand : Derives table (.operand operand) input mid)
    (hbreak : BreaksAfter table tight last mid)
    (tighter : ∀ link ∈ tight, precedence < link.precedence) (hlast : precedence < last) :
    Interrupted (rightSide level precedence) (place file table input) := by
  have cut' := hoperand.cut cut
  have hlength := weight_le hoperand
  simp only [Phrase.weight] at hlength
  have hsucc := toNat_succ_of_lt hlast
  have hle {next : UInt32} (h : precedence < next) : precedence + 1 ≤ next := by
    have hnext := UInt32.lt_iff_toNat_lt.1 h
    exact UInt32.le_iff_toNat_le.2 (by omega)
  -- a tighter operator stands next: the first one that has its operand, or the one that has not
  have hahead : tighterAhead (place file table mid) precedence = true := by
    refine (tighterAhead_iff cut' precedence).2 ?_
    obtain ⟨after, spelling, next, htight, hspelled, hlookup, -⟩ := hbreak
    cases tight with
    | nil =>
        cases htight
        exact ⟨spelling, last, next, hspelled, hlookup, hlast⟩
    | cons link tight =>
        obtain ⟨after, hlink, hprecedence⟩ := head_of_links htight link rfl
        exact ⟨_, _, after, hlink, hprecedence, tighter link (by simp)⟩
  refine .later (faithful.complete.unary cut near hoperand) (.later (gives_get.2 ⟨rfl, rfl⟩) ?_)
  refine Interrupted.ite.2 (.inl ⟨hahead, ?_⟩)
  exact faithful.below cut' (by simp only [cost]; omega) trivial
    ⟨tight, last, hbreak, fun link hmem => hle (tighter link hmem), hle hlast⟩

/-- A round of climbing is interrupted in the right side of its operator. -/
theorem link_interrupted {loosest precedence : UInt32} {spelling : String} {next : List Token}
    (cut : Cut input) (hspelled : Spelled input spelling next)
    (hlookup : table.lookup spelling = some precedence) (hle : loosest ≤ precedence)
    (h : Interrupted (rightSide level precedence) (place file table next)) :
    Interrupted (link level loosest) (place file table input) := by
  obtain ⟨width, hahead, -, hadvance⟩ := infixAhead?_of_spelled file cut hspelled hlookup
  refine .later (gives_get.2 ⟨rfl, rfl⟩) ?_
  rw [hahead]
  have hmoved : Gives (advanceBy width) (place file table input) () (place file table next) :=
    gives_advanceBy.2 (by rw [hadvance])
  exact Interrupted.ite.2 (.inl ⟨hle, .later hmoved (.first h)⟩)

/-- Climbing gets to the operator whose operand is not finished: it takes the operators
before it, or it climbs for one that is looser. -/
theorem links_interrupted (faithful : Faithful level reach) {loosest last : UInt32} (bound : Nat) :
    ∀ {input : List Token} {chain : List Link}, Cut input → 2 * input.length ≤ reach + 1 →
      chain.length < bound → BreaksAfter table chain last input →
      (∀ link ∈ chain, loosest ≤ link.precedence) → loosest ≤ last →
      Interrupted (upTo (link level loosest) bound) (place file table input) := by
  induction bound with
  | zero => intro _ _ _ _ h; exact absurd h (Nat.not_lt_zero _)
  | succ bound ih =>
      intro input chain cut near hbound hbreak hall hlast
      obtain ⟨mid, spelling', next', hchain, hspelled', hlookup', hunfinished⟩ := hbreak
      cases hchain with
      | noLink =>
          have hlength := hspelled'.length
          exact .firstRound (link_interrupted cut hspelled' hlookup' hlast
            (rightSide_interrupted faithful (hspelled'.cut cut) (by omega) hunfinished))
      | @link spelling precedence operand others _ next after' _ hspelled hlookup hoperand
          hothers =>
          obtain ⟨tight, more, rfl, htight, hmore⟩ := Grouped.split_tighter precedence others
          obtain ⟨after, htights, hmores⟩ := split_links hothers
          have cut' := hspelled.cut cut
          have cut₂ := htights.cut (hoperand.cut cut')
          have hlength := hspelled.length
          have hweight := weight_le hoperand
          have hweight' := weight_le htights
          simp only [Phrase.weight, List.length_cons, List.length_append] at hweight hweight' hbound
          have hfirst : loosest ≤ precedence := hall _ (List.mem_cons_self ..)
          have hbreak : BreaksAfter table more last after :=
            ⟨mid, spelling', next', hmores, hspelled', hlookup', hunfinished⟩
          by_cases hside : more = [] ∧ precedence < last
          -- all that comes is tighter than this operator, so its right side is interrupted
          · obtain ⟨rfl, htighter⟩ := hside
            cases hmores
            exact .firstRound (link_interrupted cut hspelled hlookup hfirst
              (rightSide_interrupted_later faithful cut' (by omega) hoperand
                ⟨_, spelling', next', htights, hspelled', hlookup', hunfinished⟩ htight htighter))
          -- something looser comes first, so this round gives its operator and the next go on
          · obtain ⟨right, hright⟩ := Grouped.exists_tree operand tight
            have hnext := hbreak.next_le cut₂ hmore fun hnil =>
              UInt32.not_lt.1 fun hlt => hside ⟨hnil, hlt⟩
            have hgiven : Gives (rightSide level precedence) (place file table next) right
                (place file table after) :=
              rightSide_complete faithful.complete cut' (by omega) hoperand htights htight hright
                hnext
            refine .laterRound (link_complete cut hspelled hlookup hfirst hgiven) ?_
            exact ih cut₂ (by omega) (by omega) hbreak (fun link hmem => hall link (by simp [hmem]))
              hlast

theorem climb_interrupted (faithful : Faithful level reach) (cut : Cut input)
    (near : 2 * input.length ≤ reach + 1) {loosest : UInt32} {left : Expr}
    (h : BreaksOff table (.climb loosest left) input) :
    Interrupted (climb level loosest left) (place file table input) := by
  obtain ⟨links, last, hbreak, hall, hlast⟩ := h
  have hlength : links.length < input.length + 1 := by
    obtain ⟨mid, -, -, hlinks, -⟩ := hbreak
    have hweight := weight_le hlinks
    simp only [Phrase.weight] at hweight
    omega
  exact .first (.many (links_interrupted faithful _ cut near hlength hbreak hall hlast))

theorem expression_interrupted (faithful : Faithful level reach) (cut : Cut input)
    (near : 2 * input.length ≤ reach + 1) (h : Unfinished table .expression input) :
    Interrupted (expression level) (place file table input) := by
  cases h with
  | first hoperand => exact .first (unary_interrupted faithful cut near hoperand)
  | chain hoperand hlinks =>
      have hweight := weight_le hoperand
      simp only [Phrase.weight] at hweight
      obtain ⟨links, last, hbreak⟩ := exists_breaksAfter hlinks rfl
      exact .later (unary_complete faithful.complete cut near hoperand)
        (climb_interrupted faithful (hoperand.cut cut) (by omega)
          ⟨links, last, hbreak, fun _ _ => UInt32.zero_le, UInt32.zero_le⟩)

/-! ## §6. Parentheses, indices and arguments. -/

theorem paren_interrupted {inner : List Token} (faithful : Faithful level reach) (cut : Cut input)
    (near : 2 * input.length ≤ reach + 2) (hopen : Mark .openParen input inner)
    (h : Unfinished table .expression inner) :
    Interrupted (paren level) (place file table input) := by
  have hlength := Leads.length hopen
  exact .later (gives_of_mark hopen cut (by simp)).1
    (.first (faithful.expression (hopen.cut cut (by simp)) (by omega) h))

theorem indices_interrupted (faithful : Faithful level reach) {empty : Fault} (bound : Nat) :
    ∀ {input : List Token}, Cut input → 2 * input.length ≤ reach + 2 → input.length ≤ bound →
      Unfinished table .indices input →
      Interrupted (upTo (bracket empty level.expression) bound) (place file table input) := by
  induction bound with
  | zero =>
      intro input cut _ hbound _
      exact absurd cut.length_pos (Nat.not_lt.2 hbound)
  | succ bound ih =>
      intro input cut near hbound h
      cases h with
      | @index _ inner hopen hindex =>
          have hlength := Leads.length hopen
          have hlead : lead inner ≠ .closeBracket := lead_ne_of_unfinished hindex rfl
          refine .firstRound (.later (gives_of_mark hopen cut (by simp)).2.2.2 ?_)
          refine .later (gives_kind.2 ⟨rfl, rfl⟩) (Interrupted.ite.2 (.inr ⟨hlead, ?_⟩))
          exact .first (faithful.expression (hopen.cut cut (by simp)) (by omega) hindex)
      | @laterIndex e _ inner after next hopen hindex hclose hmore =>
          have hlength := Leads.length hopen
          have hlength' := Leads.length hclose
          have hweight := weight_le hindex
          simp only [Phrase.weight] at hweight
          have cut' := hopen.cut cut (by simp)
          have cut₂ := hindex.cut cut'
          have hexpression : Gives level.expression (place file table inner) e
              (place file table after) := faithful.complete.expression cut' (by omega) hindex
          refine .laterRound (bracket_complete cut cut₂ hopen (lead_ne_of_derives hindex rfl)
            hexpression hclose) ?_
          exact ih (hclose.cut cut₂ (by simp)) (by omega) (by omega) hmore

theorem arguments_interrupted (faithful : Faithful level reach) {fault : String → Fault}
    (bound : Nat) :
    ∀ {input : List Token}, Cut input → 2 * input.length ≤ reach → input.length ≤ bound →
      Unfinished table .arguments input →
      Interrupted (separatedUpTo level.expression fault bound) (place file table input) := by
  induction bound with
  | zero =>
      intro input cut _ hbound _
      exact absurd cut.length_pos (Nat.not_lt.2 hbound)
  | succ bound ih =>
      intro input cut near hbound h
      cases h with
      | argument hargument => exact .firstItem (faithful.expression cut near hargument)
      | laterArgument hargument hcomma hmore =>
          have hlength := Leads.length hcomma
          have hweight := weight_le hargument
          simp only [Phrase.weight] at hweight
          have cut' := hargument.cut cut
          have cut₂ := hcomma.cut cut' (by simp)
          refine .laterItem (faithful.complete.expression cut near hargument) hcomma.lead ?_
          rw [hcomma.advance cut₂]
          exact ih cut₂ (by omega) (by omega) hmore

theorem element_interrupted {name : String} {next : List Token} (faithful : Faithful level reach)
    (cut : Cut input) (near : 2 * input.length ≤ reach + 2) (hname : Name name input next)
    (h : Unfinished table .indices next) : Interrupted (named level) (place file table input) := by
  have hlength := Leads.length hname
  have hopen : lead next = .openBracket := by simpa [opens] using lead_of_unfinished h
  refine .later ((gives_identifier_place cut).2 ⟨next, hname, rfl⟩) ?_
  refine .later (gives_kind.2 ⟨hopen.symm, rfl⟩) ?_
  exact .first (.many (indices_interrupted faithful _ (hname.cut cut) (by omega) (Nat.le_succ _) h))

theorem call_interrupted {name : String} {next inner : List Token}
    (faithful : Faithful level reach) (cut : Cut input) (near : 2 * input.length ≤ reach + 2)
    (hname : Name name input next) (hopen : Mark .openParen next inner)
    (h : Unfinished table .arguments inner) :
    Interrupted (named level) (place file table input) := by
  have hlength := Leads.length hname
  have hlength' := Leads.length hopen
  have cut' := hname.cut cut
  have hlead : lead inner ≠ .closeParen := lead_ne_of_unfinished h rfl
  refine .later ((gives_identifier_place cut).2 ⟨next, hname, rfl⟩) ?_
  refine .later (gives_kind.2 ⟨hopen.lead.symm, rfl⟩) ?_
  refine .later (gives_of_mark hopen cut' (by simp)).1 (.first (.separated hlead ?_))
  exact arguments_interrupted faithful _ (hopen.cut cut' (by simp)) (by omega) (Nat.le_succ _) h

/-! ## §7. Blocks, choices and loops. -/

/-- The end is met between two statements, or in one of them. -/
theorem statements_interrupted (faithful : Faithful level reach) (bound : Nat) :
    ∀ {input : List Token}, Cut input → 2 * input.length ≤ reach → input.length ≤ bound →
      Unfinished table .statements input →
      Interrupted (upTo (statement level) bound) (place file table input) := by
  induction bound with
  | zero =>
      intro input cut _ hbound _
      exact absurd cut.length_pos (Nat.not_lt.2 hbound)
  | succ bound ih =>
      intro input cut near hbound h
      cases h with
      | ends hend =>
          refine .firstRound (.later (gives_kind.2 ⟨hend.symm, rfl⟩) ?_)
          exact ⟨_, runsOut_fail.2 ⟨rfl, rfl⟩⟩
      | statement hbody =>
          refine .firstRound (.later (gives_kind.2 ⟨rfl, rfl⟩) ?_)
          split
          · next hkind => exact absurd hkind (lead_ne_of_unfinished hbody rfl)
          · next hkind => exact absurd hkind (lead_ne_of_unfinished hbody rfl)
          · exact .first (faithful.block cut near hbody)
      | laterStatement hbody hmore =>
          have hweight := weight_le hbody
          simp only [Phrase.weight] at hweight
          -- no statement starts with a semicolon, nor does the end
          refine .laterRound (statement_complete faithful.complete cut near hbody
            (.inl ⟨lead_ne_of_unfinished hmore rfl, rfl⟩)) ?_
          exact ih (hbody.cut cut) (by omega) (by omega) hmore
      | separated hbody hmark hmore =>
          have hlength := Leads.length hmark
          have hweight := weight_le hbody
          simp only [Phrase.weight] at hweight
          refine .laterRound (statement_complete faithful.complete cut near hbody (.inr hmark)) ?_
          exact ih (hmark.cut (hbody.cut cut) (by simp)) (by omega) (by omega) hmore

theorem block_interrupted (faithful : Faithful level reach) (cut : Cut input)
    (near : 2 * input.length ≤ reach + 1) (h : Unfinished table .body input) :
    Interrupted (block level) (place file table input) := by
  cases h with
  | plain hexpression =>
      have hlead : lead input ≠ .openBlock := lead_ne_of_unfinished hexpression rfl
      exact .later ((gives_taken_place cut (by simp)).2 (.inr ⟨rfl, hlead, rfl⟩))
        (expression_interrupted faithful cut near hexpression)
  | block hopen hstatements =>
      have hlength := Leads.length hopen
      refine .later (gives_of_mark hopen cut (by simp)).2.2.2 (.first (.many ?_))
      exact statements_interrupted faithful _ (hopen.cut cut (by simp)) (by omega) (Nat.le_succ _)
        hstatements

/-- A part that may be there is interrupted after its mark. -/
theorem optionally_interrupted {mark : Kind} {part : Read Expr} {inner : List Token}
    (cut : Cut input) (solid : mark ≠ .eof) (hmark : Mark mark input inner)
    (h : Interrupted part (place file table inner)) :
    Interrupted (optionally mark part) (place file table input) :=
  .later (gives_of_mark hmark cut solid).2.2.2 (.first h)

theorem branch_interrupted (faithful : Faithful level reach) {inner : List Token} (cut : Cut input)
    (near : 2 * input.length ≤ reach + 2) (hword : Mark .ifWord input inner)
    (h : Unfinished table .expression inner
      ∨ ∃ c after next, Derives table (.expression c) inner after ∧ Mark .thenWord after next
        ∧ (Unfinished table .body next
          ∨ ∃ e other last, Derives table (.body e) next other ∧ Mark .elseWord other last
            ∧ Unfinished table .body last)) :
    Interrupted (branch level) (place file table input) := by
  have cut₁ := hword.cut cut (by simp)
  have h₁ := Leads.length hword
  refine .later (gives_of_mark hword cut (by simp)).1 ?_
  obtain hcondition | ⟨c, after, next, hcondition, hthen, h⟩ := h
  · exact .first (faithful.expression cut₁ (by omega) hcondition)
  have cut₂ := hcondition.cut cut₁
  have cut₃ := hthen.cut cut₂ (by simp)
  have h₂ := Leads.length hthen
  have h₃ := weight_le hcondition
  simp only [Phrase.weight] at h₃
  refine .later (faithful.complete.expression cut₁ (by omega) hcondition) ?_
  refine .later ((gives_of_mark hthen cut₂ (by simp)).2.2.1 _) ?_
  obtain hbody | ⟨e, other, last, hbody, helse, hother⟩ := h
  · exact .first (faithful.block cut₃ (by omega) hbody)
  have cut₄ := hbody.cut cut₃
  have h₄ := Leads.length helse
  have h₅ := weight_le hbody
  simp only [Phrase.weight] at h₅
  refine .later (faithful.complete.block cut₃ (by omega) hbody) (.first ?_)
  exact optionally_interrupted cut₄ (by simp) helse
    (faithful.block (helse.cut cut₄ (by simp)) (by omega) hother)

theorem countLoop_interrupted (faithful : Faithful level reach) {name : String}
    {named sign inner : List Token} (cut : Cut input) (near : 2 * input.length ≤ reach + 2)
    (hword : Mark .forWord input named) (hname : Name name named sign) (hsign : Sign '=' sign inner)
    (h : Unfinished table .expression inner
      ∨ ∃ a after next, Derives table (.expression a) inner after ∧ Mark .comma after next
        ∧ (Unfinished table .expression next
          ∨ ∃ b last, Derives table (.expression b) next last
            ∧ (Unfinished table .body last
              ∨ ∃ step, Mark .comma last step
                ∧ (Unfinished table .expression step
                  ∨ ∃ d start, Derives table (.expression d) step start
                    ∧ Unfinished table .body start)))) :
    Interrupted (countLoop level) (place file table input) := by
  have cut₁ := hword.cut cut (by simp)
  have cut₂ := hname.cut cut₁
  have cut₃ := hsign.cut cut₂
  have h₁ := Leads.length hword
  have h₂ := Leads.length hname
  have h₃ := Leads.length hsign
  refine .later (gives_of_mark hword cut (by simp)).1 ?_
  refine .later ((gives_identifier_place cut₁).2 ⟨sign, hname, rfl⟩) ?_
  refine .later (a := ()) ((gives_equalsSign_place cut₂).2 ⟨inner, hsign, rfl⟩) ?_
  obtain hfirst | ⟨a, after, next, hfirst, hcomma, h⟩ := h
  · exact .first (faithful.expression cut₃ (by omega) hfirst)
  have cut₄ := hfirst.cut cut₃
  have cut₅ := hcomma.cut cut₄ (by simp)
  have h₄ := Leads.length hcomma
  have h₅ := weight_le hfirst
  simp only [Phrase.weight] at h₅
  refine .later (faithful.complete.expression cut₃ (by omega) hfirst) ?_
  refine .later ((gives_of_mark hcomma cut₄ (by simp)).2.2.1 _) ?_
  obtain hlast | ⟨b, last, hlast, h⟩ := h
  · exact .first (faithful.expression cut₅ (by omega) hlast)
  have cut₆ := hlast.cut cut₅
  have h₆ := weight_le hlast
  simp only [Phrase.weight] at h₆
  refine .later (faithful.complete.expression cut₅ (by omega) hlast) ?_
  obtain hbody | ⟨step, hcomma', h⟩ := h
  -- a body starts with no comma, so there is no step
  · have hlead : lead last ≠ .comma := lead_ne_of_unfinished hbody rfl
    exact .later (optionally_none cut₆ (by simp) hlead)
      (.first (faithful.block cut₆ (by omega) hbody))
  have cut₇ := hcomma'.cut cut₆ (by simp)
  have h₇ := Leads.length hcomma'
  obtain hstep | ⟨d, start, hstep, hbody⟩ := h
  · exact .first (optionally_interrupted cut₆ (by simp) hcomma'
      (faithful.expression cut₇ (by omega) hstep))
  have h₈ := weight_le hstep
  simp only [Phrase.weight] at h₈
  have hgiven : Gives level.expression (place file table step) d (place file table start) :=
    faithful.complete.expression cut₇ (by omega) hstep
  exact .later (optionally_some cut₆ (by simp) hcomma' hgiven)
    (.first (faithful.block (hstep.cut cut₇) (by omega) hbody))

theorem whileLoop_interrupted (faithful : Faithful level reach) {inner : List Token}
    (cut : Cut input) (near : 2 * input.length ≤ reach + 2) (hword : Mark .whileWord input inner)
    (h : Unfinished table .expression inner
      ∨ ∃ c after, Derives table (.expression c) inner after ∧ Unfinished table .body after) :
    Interrupted (whileLoop level) (place file table input) := by
  have cut₁ := hword.cut cut (by simp)
  have h₁ := Leads.length hword
  refine .later (gives_of_mark hword cut (by simp)).1 ?_
  obtain hcondition | ⟨c, after, hcondition, hbody⟩ := h
  · exact .first (faithful.expression cut₁ (by omega) hcondition)
  have h₂ := weight_le hcondition
  simp only [Phrase.weight] at h₂
  exact .later (faithful.complete.expression cut₁ (by omega) hcondition)
    (.first (faithful.block (hcondition.cut cut₁) (by omega) hbody))

theorem repeatLoop_interrupted (faithful : Faithful level reach) {next inner : List Token}
    (cut : Cut input) (near : 2 * input.length ≤ reach + 2) (hword : Mark .reptWord input next)
    (hopen : Mark .openParen next inner)
    (h : Unfinished table .expression inner
      ∨ ∃ c after last, Derives table (.expression c) inner after ∧ Mark .closeParen after last
        ∧ Unfinished table .body last) :
    Interrupted (repeatLoop level) (place file table input) := by
  have cut₁ := hword.cut cut (by simp)
  have cut₂ := hopen.cut cut₁ (by simp)
  have h₁ := Leads.length hword
  have h₂ := Leads.length hopen
  refine .later (gives_of_mark hword cut (by simp)).1 ?_
  refine .later ((gives_of_mark hopen cut₁ (by simp)).2.2.1 _) ?_
  obtain htimes | ⟨c, after, last, htimes, hclose, hbody⟩ := h
  · exact .first (faithful.expression cut₂ (by omega) htimes)
  have cut₃ := htimes.cut cut₂
  have h₃ := Leads.length hclose
  have h₄ := weight_le htimes
  simp only [Phrase.weight] at h₄
  refine .later (faithful.complete.expression cut₂ (by omega) htimes) ?_
  refine .later ((gives_of_mark hclose cut₃ (by simp)).2.1 _) ?_
  exact .first (faithful.block (hclose.cut cut₃ (by simp)) (by omega) hbody)

/-! ## §8. Every level. -/

/-- What the first token picks is interrupted where it is not finished. -/
theorem construct_interrupted (faithful : Faithful level reach) (cut : Cut input)
    (near : 2 * input.length ≤ reach + 2) {production : Production}
    (hchoice : Choice.standard (lead input) = some production)
    (h : Unfinished table .primary input) :
    Interrupted (construct level production) (place file table input) := by
  -- each rule fixes the first token, and with it the production that was picked
  have picks : ∀ {kind : Kind}, lead input = kind → Choice.standard kind = some production :=
    fun hlead => hlead ▸ hchoice
  have names : ∀ {name : String} {next : List Token}, Name name input next →
      production = .identifier := by
    intro name next hname
    obtain ⟨token, hp, hlead⟩ := Leads.lead hname
    exact (Option.some.inj (picks (hlead.trans hp.1))).symm
  cases h with
  | paren hopen hinside =>
      cases picks hopen.lead
      exact paren_interrupted faithful cut near hopen hinside
  | element hname hindices =>
      cases names hname
      exact element_interrupted faithful cut near hname hindices
  | call hname hopen harguments =>
      cases names hname
      exact call_interrupted faithful cut near hname hopen harguments
  | condition hword hc =>
      cases picks hword.lead
      exact branch_interrupted faithful cut near hword (.inl hc)
  | consequent hword hc hthen he =>
      cases picks hword.lead
      exact branch_interrupted faithful cut near hword (.inr ⟨_, _, _, hc, hthen, .inl he⟩)
  | alternative hword hc hthen he helse he' =>
      cases picks hword.lead
      exact branch_interrupted faithful cut near hword
        (.inr ⟨_, _, _, hc, hthen, .inr ⟨_, _, _, he, helse, he'⟩⟩)
  | countFirst hword hname hsign ha =>
      cases picks hword.lead
      exact countLoop_interrupted faithful cut near hword hname hsign (.inl ha)
  | countLast hword hname hsign ha hcomma hb =>
      cases picks hword.lead
      exact countLoop_interrupted faithful cut near hword hname hsign
        (.inr ⟨_, _, _, ha, hcomma, .inl hb⟩)
  | countBody hword hname hsign ha hcomma hb he =>
      cases picks hword.lead
      exact countLoop_interrupted faithful cut near hword hname hsign
        (.inr ⟨_, _, _, ha, hcomma, .inr ⟨_, _, hb, .inl he⟩⟩)
  | countStep hword hname hsign ha hcomma hb hcomma' hd =>
      cases picks hword.lead
      exact countLoop_interrupted faithful cut near hword hname hsign
        (.inr ⟨_, _, _, ha, hcomma, .inr ⟨_, _, hb, .inr ⟨_, hcomma', .inl hd⟩⟩⟩)
  | countStepBody hword hname hsign ha hcomma hb hcomma' hd he =>
      cases picks hword.lead
      exact countLoop_interrupted faithful cut near hword hname hsign
        (.inr ⟨_, _, _, ha, hcomma, .inr ⟨_, _, hb, .inr ⟨_, hcomma', .inr ⟨_, _, hd, he⟩⟩⟩⟩)
  | whileCondition hword hc =>
      cases picks hword.lead
      exact whileLoop_interrupted faithful cut near hword (.inl hc)
  | whileBody hword hc he =>
      cases picks hword.lead
      exact whileLoop_interrupted faithful cut near hword (.inr ⟨_, _, hc, he⟩)
  | times hword hopen hc =>
      cases picks hword.lead
      exact repeatLoop_interrupted faithful cut near hword hopen (.inl hc)
  | repeatBody hword hopen hc hclose he =>
      cases picks hword.lead
      exact repeatLoop_interrupted faithful cut near hword hopen (.inr ⟨_, _, _, hc, hclose, he⟩)

/-- Over a level that is faithful as far as it reaches, one level reaches further. -/
theorem pursue_interrupted (faithful : Faithful level reach) {goal : Goal} (cut : Cut input)
    (near : cost goal input ≤ reach + 1) (asked : Asked goal input)
    (h : BreaksOff table goal input) :
    Interrupted (pursue level goal) (place file table input) := by
  cases goal with
  | climb loosest left => exact climb_interrupted faithful cut near h
  | read production =>
      by_cases hgeneral : production ∈ [.expression, .unary, .primary, .block]
      · rw [cost, if_pos hgeneral] at near
        simp only [List.mem_cons, List.not_mem_nil, or_false] at hgeneral
        rcases hgeneral with rfl | rfl | rfl | rfl
        · exact expression_interrupted faithful cut near h
        · exact unary_interrupted faithful cut near h
        · exact primary_interrupted faithful cut near h
        · exact block_interrupted faithful cut near h
      · rw [cost, if_neg hgeneral] at near
        have hchoice := asked.resolve_right hgeneral
        rw [BreaksOff, regionOf_of_standard hchoice] at h
        exact construct_interrupted faithful cut (by omega) hchoice h

/-- A level meets the end inside a block as far as there are levels below it. -/
theorem interrupted_descend (depth : Nat) :
    Faithful ⟨Choice.standard, descend Choice.standard depth⟩ depth := by
  induction depth with
  | zero =>
      refine ⟨complete_descend 0, fun {file table goal input} cut near _ _ => ?_⟩
      have hpos := cost_pos goal cut
      omega
  | succ depth ih =>
      exact ⟨complete_descend (depth + 1), fun cut near asked h =>
        pursue_interrupted ih cut near asked h⟩

/-! ## §9. Forms. -/

theorem body_interrupted (cut : Cut input) (h : Unfinished table .body input) :
    Interrupted (read .standard .block) (place file table input) := by
  have near : 2 * input.length ≤ depthFor ⟨file, input⟩ := by
    show 2 * input.length ≤ 2 * input.length + 3
    omega
  exact .later (gives_cursor.2 ⟨rfl, rfl⟩)
    ((interrupted_descend (depthFor ⟨file, input⟩)).block cut near h)

theorem skipSemicolons_of_lead (h : lead input ≠ .semicolon) :
    Gives skipSemicolons (place file table input) () (place file table input) := by
  refine gives_modify.2 ?_
  show _ = place file table (dropSemicolons input)
  rw [dropSemicolons_of_lead h]

theorem definition_interrupted {inside : Operator.Table} {prototype : Prototype}
    {next after : List Token} (cut : Cut input) (hfunc : Mark .funcWord input next)
    (hheading : Heading table next prototype inside after) (h : Unfinished inside .body after) :
    Interrupted (form .standard) (place file table input) := by
  have cut' := hfunc.cut cut (by simp)
  have cut₂ := hheading.cut cut'
  have hgiven : Gives heading (place file table next) prototype (place file inside after) :=
    (gives_heading_place cut').2 ⟨inside, after, hheading, cut₂, rfl⟩
  refine .later (skipSemicolons_of_lead (hfunc.lead_ne (by simp))) ?_
  refine .later (gives_kind.2 ⟨hfunc.lead.symm, rfl⟩) (.first ?_)
  refine .later ((gives_of_mark hfunc cut (by simp)).2.2.1 _) (.later hgiven ?_)
  exact .first (body_interrupted cut₂ h)

theorem freeExpression_interrupted (cut : Cut input) (h : Unfinished table .body input) :
    Interrupted (form .standard) (place file table input) := by
  refine .later (skipSemicolons_of_lead (lead_ne_of_unfinished h rfl)) ?_
  refine .later (gives_kind.2 ⟨rfl, rfl⟩) ?_
  split
  -- neither the end nor the word of a definition starts a body
  · next hkind => exact absurd hkind (lead_ne_of_unfinished h rfl)
  · next hkind => exact absurd hkind (lead_ne_of_unfinished h rfl)
  · exact .first (.first (body_interrupted cut h))

/-- Where the last of some forms is not finished, the end is met inside a block of it. -/
theorem forms_interrupted {entries : List Operator.Entry}
    (h : UnfinishedForms table input entries) :
    ∀ {bound : Nat}, Cut input → input.length ≤ bound →
      Interrupted (upTo (form .standard) bound) (place file table input) := by
  -- a form that is finished is given, and the rounds after it go on from there
  have hgiven {table inside : Operator.Table} {input after : List Token} {first : Form}
      (cut : Cut input) (hlead : lead input ≠ .semicolon)
      (hitem : Item table input (some first) inside after) :
      Gives (form .standard) (place file table input) (some first) (place file inside after) := by
    refine (gives_form_place cut).2 ⟨inside, after, ?_, hitem.cut cut, rfl⟩
    rw [dropSemicolons_of_lead hlead]
    exact hitem
  induction h with
  | skip hsemicolon _ ih =>
      intro bound cut hbound
      have hlength := Leads.length hsemicolon
      exact .of_run (run_upTo_semicolon cut hsemicolon hbound)
        (ih (hsemicolon.cut cut (by simp)) (by omega))
  | @definition table inside prototype e input next after rest _ hfunc hheading hbody _ ih =>
      intro bound cut hbound
      obtain ⟨bound, rfl⟩ := cut.exists_bound hbound
      have hitem : Item table input (some (.definition ⟨prototype, e⟩)) inside rest :=
        .definition hfunc hheading hbody
      have hlength := hitem.length
      exact .laterRound (hgiven cut (hfunc.lead_ne (by simp)) hitem)
        (ih (hitem.cut cut) (by omega))
  | @expression table e input rest _ hbody _ ih =>
      intro bound cut hbound
      obtain ⟨bound, rfl⟩ := cut.exists_bound hbound
      have hitem : Item table input (some (.expression ⟨Prototype.anonymous, e⟩)) table rest :=
        .expression hbody
      have hlength := hitem.length
      exact .laterRound (hgiven cut (lead_ne_of_derives hbody rfl) hitem)
        (ih (hitem.cut cut) (by omega))
  | lastDefinition hfunc hheading hbody =>
      intro bound cut hbound
      obtain ⟨bound, rfl⟩ := cut.exists_bound hbound
      exact .firstRound (definition_interrupted cut hfunc hheading hbody)
  | lastExpression hbody =>
      intro bound cut hbound
      obtain ⟨bound, rfl⟩ := cut.exists_bound hbound
      exact .firstRound (freeExpression_interrupted cut hbody)

/-- **Reading asks for more exactly where the tokens are forms of which the last is not
finished.** -/
theorem asksForMore_iff {tokens : List Token} (cut : Cut tokens) :
    (∃ error, (Program.ofTokens file tokens table).result = .error error
        ∧ error.fault = .unterminatedBlock)
      ↔ ∃ entries, UnfinishedForms table tokens entries := by
  constructor
  · intro h
    obtain ⟨error, hresult, hfault⟩ := h
    obtain ⟨entries, hunfinished, -⟩ := unfinished_of_ofTokens cut hresult hfault
    exact ⟨entries, hunfinished⟩
  · intro h
    obtain ⟨entries, hunfinished⟩ := h
    obtain ⟨t, error, hfails, hfault⟩ : Interrupted (Grammar.forms .standard)
        (place file table tokens) := .many (forms_interrupted hunfinished cut (Nat.le_succ _))
    refine ⟨error, ?_, hfault⟩
    have hrun : (Grammar.forms .standard).run (place file table tokens) = .error error t := hfails
    rw [Program.ofTokens, hrun]

end Fixity.Language
