/-
  Fixity.Proofs.Language.Soundness
  ────────────────────────────────
  **WHAT IS READ IS IN THE GRAMMAR.**

  Each construct is looked at over a level below it that is sound: what it gives
  for a goal meets the goal.  Then the construct is sound as well, and by
  induction on the number of levels so is every level.

  Main result: `sound_descend` (every level is sound).
-/
import Fixity.Grammar.Descent
import Fixity.Proofs.Language.Goals

namespace Fixity.Language

open Operator (isOperatorChar)
open Grammar Read

variable {file : String} {table : Operator.Table} {input : List Token} {t : ReadState} {e : Expr}

/-- A level whose results meet their goals. -/
structure Sound (level : Level) : Prop where
  /-- Primary expressions are picked as the language does. -/
  choice : level.choice = Choice.standard
  /-- What the level below gives meets the goal. -/
  below : ∀ {file : String} {table : Operator.Table} {goal : Goal} {input : List Token} {e : Expr}
    {t : ReadState}, Cut input → Gives (level.below goal) (place file table input) e t →
    Asked goal input →
    ∃ rest, Cut rest ∧ t = place file table rest ∧ Meets table goal input e rest

/-- A result at a place: the tokens that are left are again those of a text, and the
phrase stands before them. -/
def Found (file : String) (table : Operator.Table) (phrase : Phrase) (input : List Token)
    (t : ReadState) : Prop :=
  ∃ rest, Cut rest ∧ t = place file table rest ∧ Derives table phrase input rest

variable {level : Level}

namespace Sound

/-! ## §1. What is nested inside. -/

theorem expression (sound : Sound level) (cut : Cut input)
    (h : Gives level.expression (place file table input) e t) :
    Found file table (.expression e) input t :=
  sound.below cut h (.inr (by simp))

theorem unary (sound : Sound level) (cut : Cut input)
    (h : Gives level.unary (place file table input) e t) :
    Found file table (.operand e) input t :=
  sound.below cut h (.inr (by simp))

theorem block (sound : Sound level) (cut : Cut input)
    (h : Gives level.block (place file table input) e t) :
    Found file table (.body e) input t :=
  sound.below cut h (.inr (by simp))

end Sound

/-! ## §2. Operands. -/

theorem primary_sound (sound : Sound level) (cut : Cut input)
    (h : Gives (primary level) (place file table input) e t) :
    Found file table (.primary e) input t := by
  simp only [primary, gives_bind, gives_kind] at h
  obtain ⟨_, _, ⟨rfl, rfl⟩, h⟩ := h
  rw [sound.choice] at h
  split at h
  · next production hchoice =>
    obtain ⟨rest, cut', ht, hmeets⟩ := sound.below cut h (.inl hchoice)
    rw [Meets, phraseOf_of_standard hchoice] at hmeets
    exact ⟨rest, cut', ht, hmeets⟩
  · simp at h

theorem unary_sound (sound : Sound level) (cut : Cut input)
    (h : Gives (unary level) (place file table input) e t) :
    Found file table (.operand e) input t := by
  simp only [unary, gives_bind, gives_kind, gives_ite] at h
  obtain ⟨_, _, ⟨rfl, rfl⟩, ⟨hkind, h⟩ | ⟨-, h⟩⟩ := h
  · obtain ⟨c, rest, hsign⟩ := sign_of_lead cut hkind
    simp only [gives_text] at h
    obtain ⟨_, _, ⟨rfl, rfl⟩, h⟩ := h
    rw [hsign.text, signOf?_singleton] at h
    split at h
    · next c' hc =>
      split at hc
      · next hc' =>
        cases hc
        simp only [gives_bind, gives_advance_place hsign.mark cut (by simp), bind_pure_comp,
          gives_map] at h
        obtain ⟨_, _, rfl, e', h, rfl⟩ := h
        obtain ⟨rest', cut', rfl, hderives⟩ := sound.unary (hsign.cut cut) h
        exact ⟨rest', cut', rfl, .signed hsign hc' hderives⟩
      · cases hc
    · simp at h
  · obtain ⟨rest, cut', ht, hderives⟩ := primary_sound sound cut h
    exact ⟨rest, cut', ht, .unsigned hderives⟩

/-! ## §3. Chains. -/

/-- The right side of an operator: its operand with everything tighter that follows,
up to an operator that is not. -/
theorem rightSide_sound (sound : Sound level) (cut : Cut input) {precedence : UInt32}
    (h : Gives (rightSide level precedence) (place file table input) e t) :
    ∃ rest operand tight mid, Cut rest ∧ t = place file table rest
      ∧ Derives table (.operand operand) input mid ∧ Derives table (.links tight) mid rest
      ∧ (∀ link ∈ tight, precedence < link.precedence) ∧ Grouped operand tight e
      ∧ ∀ spelling next after, Spelled rest spelling after → table.lookup spelling = some next →
          next ≤ precedence := by
  simp only [rightSide, gives_bind, gives_get, gives_ite, gives_pure] at h
  obtain ⟨operand, _, hoperand, _, _, ⟨rfl, rfl⟩, h⟩ := h
  obtain ⟨mid, cut', rfl, hderives⟩ := sound.unary cut hoperand
  -- tighter than the operator is one more than its precedence, which does not wrap around
  -- since something above it stands next
  rcases h with ⟨htight, h⟩ | ⟨htight, rfl, rfl⟩
  · obtain ⟨spelling, next, after, hspelled, hlookup, hlt⟩ := (tighterAhead_iff cut' _).1 htight
    have hsucc := toNat_succ_of_lt hlt
    obtain ⟨rest, cut'', rfl, links, hlinks, hall, hlooser, hgrouped⟩ :=
      sound.below cut' h trivial
    refine ⟨rest, operand, links, mid, cut'', rfl, hderives, hlinks, ?_, hgrouped, ?_⟩
    · intro link hmem
      have := UInt32.le_iff_toNat_le.1 (hall link hmem)
      exact UInt32.lt_iff_toNat_lt.2 (by omega)
    · intro spelling' next' after' hspelled' hlookup'
      have := UInt32.lt_iff_toNat_lt.1 (hlooser _ _ _ hspelled' hlookup')
      exact UInt32.le_iff_toNat_le.2 (by omega)
  · refine ⟨mid, e, [], mid, cut', rfl, hderives, .noLink, by simp, .operand e, ?_⟩
    intro spelling next after hspelled hlookup
    refine UInt32.not_lt.1 fun hlt => htight ?_
    exact (tighterAhead_iff cut' _).2 ⟨spelling, next, after, hspelled, hlookup, hlt⟩

/-- One round of climbing: no operator of the asked precedence stands next, or one
does and its right side is read. -/
theorem link_sound (cut : Cut input) {loosest : UInt32} {found : Option (String × Expr)}
    (h : Gives (link level loosest) (place file table input) found t) :
    (found = none ∧ t = place file table input ∧ Looser table loosest input)
      ∨ ∃ spelling right precedence next, found = some (spelling, right) ∧ loosest ≤ precedence
          ∧ Spelled input spelling next ∧ table.lookup spelling = some precedence ∧ Cut next
          ∧ Gives (rightSide level precedence) (place file table next) right t := by
  simp only [link, gives_bind, gives_get] at h
  obtain ⟨_, _, ⟨rfl, rfl⟩, h⟩ := h
  split at h
  · next operator precedence hahead =>
    obtain ⟨hlookup, next, hspelled, cut', hadvance⟩ := spelled_of_infixAhead? cut hahead
    simp only [gives_ite, gives_bind, gives_advanceBy, hadvance, bind_pure_comp, gives_map,
      gives_pure] at h
    rcases h with ⟨hle, _, _, rfl, right, hright, rfl⟩ | ⟨hgt, rfl, rfl⟩
    · exact .inr ⟨_, right, precedence, next, rfl, hle, hspelled, hlookup, cut', hright⟩
    · refine .inl ⟨rfl, rfl, (looser_iff file cut _).2 ?_⟩
      intro operator' precedence' hahead'
      rw [hahead] at hahead'
      cases hahead'
      exact UInt32.not_le.1 hgt
  · next hahead =>
    simp only [gives_pure] at h
    obtain ⟨rfl, rfl⟩ := h
    refine .inl ⟨rfl, rfl, (looser_iff file cut _).2 ?_⟩
    intro operator precedence hahead'
    rw [hahead] at hahead'
    cases hahead'

/-- All rounds of climbing.  Each right side absorbs what is tighter, so the links that
are hung on one another from the left group as the grammar says. -/
theorem links_sound (sound : Sound level) {loosest : UInt32} (bound : Nat) :
    ∀ {input : List Token} {links : List (String × Expr)} {t : ReadState}, Cut input →
      Gives (upTo (link level loosest) bound) (place file table input) links t →
      ∃ rest chain, Cut rest ∧ t = place file table rest
        ∧ Derives table (.links chain) input rest
        ∧ (∀ link ∈ chain, loosest ≤ link.precedence) ∧ Looser table loosest rest
        ∧ ∀ left, Grouped left chain (attach left links) := by
  induction bound with
  | zero => intro _ _ _ _ h; exact absurd h gives_upTo_zero
  | succ bound ih =>
      intro input links t cut hrounds
      rcases gives_upTo_succ.1 hrounds with ⟨rfl, h⟩ | ⟨⟨spelling, right⟩, more, s, rfl, h, hmore⟩
      · obtain ⟨-, rfl, hlooser⟩ | ⟨_, _, _, _, hfound, -⟩ := link_sound cut h
        · exact ⟨input, [], cut, rfl, .noLink, by simp, hlooser, .operand⟩
        · exact absurd hfound nofun
      · obtain ⟨hfound, -⟩ | ⟨_, _, precedence, next, hfound, hle, hspelled, hlookup, cut', h⟩ :=
          link_sound cut h
        · exact absurd hfound nofun
        · cases hfound
          obtain ⟨after, operand, tight, mid, cut₂, rfl, hoperand, htight, hall, hright, hnext⟩ :=
            rightSide_sound sound cut' h
          obtain ⟨rest, others, cut₃, rfl, hothers, hothersall, hlooser, htree⟩ := ih cut₂ hmore
          -- the chain is this link, the tighter ones on its right side, and the later rounds'
          have hlinks := links_append htight hothers
          refine ⟨rest, ⟨spelling, precedence, operand⟩ :: tight ++ others, cut₃, rfl,
            .link hspelled hlookup hoperand hlinks, ?_, hlooser, ?_⟩
          · intro link hmem
            simp only [List.cons_append, List.mem_cons, List.mem_append] at hmem
            rcases hmem with rfl | hmem | hmem
            · exact hle
            · exact UInt32.le_trans hle (UInt32.le_of_lt (hall link hmem))
            · exact hothersall link hmem
          · intro left
            -- the first link of the later rounds is the operator at which the right side stopped
            refine Grouped.absorb (htree (.binary spelling left right)) hright hall ?_
            intro link hmem
            obtain ⟨_, hspelled', hlookup'⟩ := head_of_links hothers link hmem
            exact hnext _ _ _ hspelled' hlookup'

theorem climb_sound (sound : Sound level) (cut : Cut input) {loosest : UInt32} {left : Expr}
    (h : Gives (climb level loosest left) (place file table input) e t) :
    ∃ rest, Cut rest ∧ t = place file table rest
      ∧ Meets table (.climb loosest left) input e rest := by
  simp only [climb, bind_pure_comp, gives_map, gives_many] at h
  obtain ⟨links, h, rfl⟩ := h
  obtain ⟨rest, chain, cut', rfl, hlinks, hall, hlooser, htree⟩ := links_sound sound _ cut h
  exact ⟨rest, cut', rfl, chain, hlinks, hall, hlooser, htree left⟩

theorem expression_sound (sound : Sound level) (cut : Cut input)
    (h : Gives (expression level) (place file table input) e t) :
    Found file table (.expression e) input t := by
  simp only [Grammar.expression, gives_bind] at h
  obtain ⟨first, s, hfirst, h⟩ := h
  obtain ⟨mid, cut', rfl, hoperand⟩ := unary_sound sound cut hfirst
  obtain ⟨rest, cut₂, rfl, links, hlinks, -, hlooser, hgrouped⟩ := climb_sound sound cut' h
  exact ⟨rest, cut₂, rfl, .chain hoperand hlinks (looser_zero_iff.1 hlooser) hgrouped⟩

/-! ## §4. Numbers, parentheses and names. -/

theorem number_sound (cut : Cut input)
    (h : Gives number (place file table input) e t) : Found file table (.primary e) input t := by
  simp only [Grammar.number, bind_pure_comp, gives_map, gives_numberWith_place cut] at h
  obtain ⟨_, ⟨value, rest, hnumeral, haccept, rfl⟩, rfl⟩ := h
  cases haccept
  exact ⟨rest, hnumeral.cut cut, rfl, .number hnumeral⟩

theorem paren_sound (sound : Sound level) (cut : Cut input) (hlead : lead input = .openParen)
    (h : Gives (paren level) (place file table input) e t) :
    Found file table (.primary e) input t := by
  obtain ⟨inner, hopen⟩ := mark_of_lead hlead (by simp)
  have cut' := hopen.cut cut (by simp)
  simp only [paren, gives_bind, gives_advance_place hopen cut (by simp), gives_pure] at h
  obtain ⟨_, _, rfl, content, s, hcontent, _, _, hclose, rfl, rfl⟩ := h
  obtain ⟨after, cut₂, rfl, hderives⟩ := sound.expression cut' hcontent
  obtain ⟨rest, hmark, rfl⟩ := (gives_takeOr_place cut₂ (by simp)).1 hclose
  exact ⟨rest, hmark.cut cut₂ (by simp), rfl, .paren hopen hderives hmark⟩

/-- A pair of brackets that may be there. -/
theorem bracket_sound {α : Type} {empty : Fault} {content : Read α} {found : Option α}
    (cut : Cut input) (h : Gives (bracket empty content) (place file table input) found t) :
    (found = none ∧ t = place file table input ∧ lead input ≠ .openBracket)
      ∨ ∃ value inner s, found = some value ∧ Mark .openBracket input inner ∧ Cut inner
          ∧ Gives content (place file table inner) value s
          ∧ ∀ {after}, Cut after → s = place file table after →
              ∃ rest, Mark .closeBracket after rest ∧ Cut rest ∧ t = place file table rest := by
  simp only [bracket, gives_bind, gives_taken_place cut (show Kind.openBracket ≠ .eof by simp)] at h
  obtain ⟨_, _, ⟨rfl, inner, hmark, rfl⟩ | ⟨rfl, hlead, rfl⟩, h⟩ := h
  -- an empty pair is the only fault, so what is read between the brackets is the content
  · simp only [↓reduceIte, gives_bind, gives_kind, gives_ite, gives_fail, and_false, false_or,
      gives_pure] at h
    obtain ⟨_, _, ⟨rfl, rfl⟩, -, value, s, hvalue, _, _, hclose, rfl, rfl⟩ := h
    refine .inr ⟨value, inner, s, rfl, hmark, hmark.cut cut (by simp), hvalue, ?_⟩
    rintro after cut' rfl
    obtain ⟨rest, hmark', rfl⟩ := (gives_take_place cut' (by simp)).1 hclose
    exact ⟨rest, hmark', hmark'.cut cut' (by simp), rfl⟩
  · simp only [Bool.false_eq_true, ↓reduceIte, gives_pure] at h
    exact .inl ⟨h.1, h.2, hlead⟩

/-- Brackets one after the other, with content that is sound. -/
theorem brackets_sound {α : Type} {empty : Fault} {content : Read α}
    {inside : List Token → α → List Token → Prop}
    (row : List Token → List α → List Token → Prop)
    (hcontent : ∀ {input a t}, Cut input → Gives content (place file table input) a t →
      ∃ rest, Cut rest ∧ t = place file table rest ∧ inside input a rest)
    (hnil : ∀ {rest}, row rest [] rest)
    (hcons : ∀ {input inner after next rest a more}, Mark .openBracket input inner →
      inside inner a after → Mark .closeBracket after next → row next more rest →
      row input (a :: more) rest)
    (bound : Nat) :
    ∀ {input : List Token} {values : List α} {t : ReadState}, Cut input →
      Gives (upTo (bracket empty content) bound) (place file table input) values t →
      ∃ rest, Cut rest ∧ t = place file table rest ∧ row input values rest
        ∧ lead rest ≠ .openBracket := by
  induction bound with
  | zero => intro _ _ _ _ h; exact absurd h gives_upTo_zero
  | succ bound ih =>
      intro input values t cut hrounds
      rcases gives_upTo_succ.1 hrounds with ⟨rfl, h⟩ | ⟨first, more, s, rfl, h, hmore⟩
      · obtain ⟨-, rfl, hlead⟩ | ⟨_, _, _, hfound, -⟩ := bracket_sound cut h
        · exact ⟨input, cut, rfl, hnil, hlead⟩
        · exact absurd hfound nofun
      · obtain ⟨hfound, -⟩ | ⟨_, inner, _, hfound, hopen, cut', hinner, hclose⟩ :=
          bracket_sound cut h
        · exact absurd hfound nofun
        · cases hfound
          obtain ⟨after, cut₂, rfl, hinside⟩ := hcontent cut' hinner
          obtain ⟨next, hmark, cut₃, rfl⟩ := hclose cut₂ rfl
          obtain ⟨rest, cut₄, rfl, hrow, hlead⟩ := ih cut₃ hmore
          exact ⟨rest, cut₄, rfl, hcons hopen hinside hmark hrow, hlead⟩

theorem array_sound (cut : Cut input) (hlead : lead input = .arrWord)
    (h : Gives array (place file table input) e t) : Found file table (.primary e) input t := by
  obtain ⟨named, hword⟩ := mark_of_lead hlead (by simp)
  have cut' := hword.cut cut (by simp)
  simp only [array, gives_bind, gives_advance_place hword cut (by simp), gives_kind, gives_ite,
    gives_fail, and_false, or_false, bind_pure_comp, gives_map, gives_many] at h
  obtain ⟨_, _, rfl, name, _, hidentifier, _, _, ⟨rfl, rfl⟩, hopen, ns, h, rfl⟩ := h
  obtain ⟨next, hname, rfl⟩ := (gives_identifier_place cut').1 hidentifier
  have hcontent {input : List Token} {n : UInt32} {t : ReadState} (cut : Cut input)
      (h : Gives (numberWith dimension? .invalidDimension) (place file table input) n t) :
      ∃ rest, Cut rest ∧ t = place file table rest ∧ Whole 1 4294967295 n input rest := by
    obtain ⟨rest, hwhole, rfl⟩ := (gives_whole_place cut fun _ => dimension?_eq_some_iff).1 h
    exact ⟨rest, hwhole.cut cut, rfl, hwhole⟩
  obtain ⟨rest, cut₂, rfl, hrow, hlead'⟩ :=
    brackets_sound Dimensions hcontent .nil .cons _ (hname.cut cut') h
  cases hrow with
  | nil => exact absurd hopen hlead'
  | cons hopen' hwhole hclose hmore =>
      exact ⟨rest, cut₂, rfl, .array hword hname (.cons hopen' hwhole hclose hmore) hlead'⟩

theorem element_sound (sound : Sound level) {name : String} {next : List Token}
    (cut : Cut next) (hname : Name name input next) (hopen : lead next = .openBracket)
    (h : Gives (element level name) (place file table next) e t) :
    Found file table (.primary e) input t := by
  simp only [element, bind_pure_comp, gives_map, gives_many] at h
  obtain ⟨es, h, rfl⟩ := h
  obtain ⟨rest, cut', rfl, hrow, hlead⟩ := brackets_sound
    (fun input es rest => Derives table (.indices es) input rest)
    sound.expression .noIndex .index _ cut h
  cases es with
  | nil =>
      cases hrow
      exact absurd hopen hlead
  | cons first es => exact ⟨rest, cut', rfl, .element hname hrow hlead⟩

theorem arguments_sound (sound : Sound level) {fault : String → Fault} (bound : Nat) :
    ∀ {input : List Token} {es : List Expr} {t : ReadState}, Cut input →
      Gives (separatedUpTo level.expression fault bound) (place file table input) es t →
      Found file table (.arguments es) input t := by
  induction bound with
  | zero => intro _ _ _ _ h; exact absurd h gives_separatedUpTo_zero
  | succ bound ih =>
      intro input es t cut hrounds
      obtain ⟨first, s, hfirst, h⟩ := gives_separatedUpTo_succ.1 hrounds
      obtain ⟨after, cut', rfl, hderives⟩ := sound.expression cut hfirst
      rcases h with ⟨hclose, rfl, rfl⟩ | ⟨hcomma, more, rfl, h⟩
      · obtain ⟨rest, hmark⟩ := mark_of_lead hclose (by simp)
        have cut₂ := hmark.cut cut' (by simp)
        rw [hmark.advance cut₂]
        exact ⟨rest, cut₂, rfl, .lastArgument hderives hmark⟩
      · obtain ⟨next, hmark⟩ := mark_of_lead hcomma (by simp)
        have cut₂ := hmark.cut cut' (by simp)
        rw [hmark.advance cut₂] at h
        obtain ⟨rest, cut₃, rfl, hmore⟩ := ih cut₂ h
        exact ⟨rest, cut₃, rfl, .argument hderives hmark hmore⟩

theorem call_sound (sound : Sound level) {name : String} {next : List Token}
    (cut : Cut next) (hname : Name name input next) (hlead : lead next = .openParen)
    (h : Gives (call level name) (place file table next) e t) :
    Found file table (.primary e) input t := by
  obtain ⟨inner, hopen⟩ := mark_of_lead hlead (by simp)
  have cut' := hopen.cut cut (by simp)
  simp only [call, gives_bind, gives_advance_place hopen cut (by simp), bind_pure_comp, gives_map,
    gives_separated] at h
  obtain ⟨_, _, rfl, es, ⟨hclose, rfl, rfl⟩ | ⟨-, h⟩, rfl⟩ := h
  · obtain ⟨rest, hmark⟩ := mark_of_lead hclose (by simp)
    have cut₂ := hmark.cut cut' (by simp)
    rw [hmark.advance cut₂]
    exact ⟨rest, cut₂, rfl, .emptyCall hname hopen hmark⟩
  · obtain ⟨rest, cut₂, rfl, harguments⟩ := arguments_sound sound _ cut' h
    exact ⟨rest, cut₂, rfl, .call hname hopen harguments⟩

theorem named_sound (sound : Sound level) (cut : Cut input)
    (h : Gives (named level) (place file table input) e t) :
    Found file table (.primary e) input t := by
  simp only [named, gives_bind, gives_identifier_place cut, gives_kind] at h
  obtain ⟨name, _, ⟨next, hname, rfl⟩, _, _, ⟨rfl, rfl⟩, h⟩ := h
  have cut' := hname.cut cut
  split at h
  · next hopen => exact element_sound sound cut' hname hopen h
  · next hopen => exact call_sound sound cut' hname hopen h
  · next hbracket hparen =>
    obtain ⟨rfl, rfl⟩ := gives_pure.1 h
    exact ⟨next, cut', rfl, .scalar hname hbracket hparen⟩

/-! ## §5. Blocks, choices and loops. -/

/-- A statement, unless the block is over. -/
theorem statement_sound (sound : Sound level) (cut : Cut input) {found : Option Expr}
    (h : Gives (statement level) (place file table input) found t) :
    (found = none ∧ t = place file table input ∧ lead input = .closeBlock)
      ∨ ∃ e after, found = some e ∧ Cut after ∧ Derives table (.body e) input after
          ∧ (t = place file table after
            ∨ ∃ next, Mark .semicolon after next ∧ Cut next ∧ t = place file table next) := by
  simp only [statement, gives_bind, gives_kind] at h
  obtain ⟨_, _, ⟨rfl, rfl⟩, h⟩ := h
  split at h
  · next hclose =>
    obtain ⟨rfl, rfl⟩ := gives_pure.1 h
    exact .inl ⟨rfl, rfl, hclose⟩
  · exact absurd h gives_fail
  · simp only [gives_bind, gives_pure] at h
    obtain ⟨e, s, hbody, there, s', htaken, rfl, rfl⟩ := h
    obtain ⟨after, cut', rfl, hderives⟩ := sound.block cut hbody
    refine .inr ⟨e, after, rfl, cut', hderives, ?_⟩
    obtain ⟨-, next, hmark, rfl⟩ | ⟨-, -, rfl⟩ := (gives_taken_place cut' (by simp)).1 htaken
    · exact .inr ⟨next, hmark, hmark.cut cut' (by simp), rfl⟩
    · exact .inl rfl

/-- The statements of a block, up to its closing brace. -/
theorem statements_sound (sound : Sound level) (bound : Nat) :
    ∀ {input : List Token} {es : List Expr} {t : ReadState}, Cut input →
      Gives (upTo (statement level) bound) (place file table input) es t →
      ∃ after rest, Cut after ∧ t = place file table after ∧ Mark .closeBlock after rest
        ∧ Derives table (.statements es) input rest := by
  induction bound with
  | zero => intro _ _ _ _ h; exact absurd h gives_upTo_zero
  | succ bound ih =>
      intro input es t cut hrounds
      rcases gives_upTo_succ.1 hrounds with ⟨rfl, h⟩ | ⟨first, more, s, rfl, h, hmore⟩
      · obtain ⟨-, rfl, hlead⟩ | ⟨_, _, hfound, -⟩ := statement_sound sound cut h
        · obtain ⟨rest, hmark⟩ := mark_of_lead hlead (by simp)
          exact ⟨input, rest, cut, rfl, hmark, .closed hmark⟩
        · exact absurd hfound nofun
      · obtain ⟨hfound, -⟩ | ⟨_, after, hfound, cut', hderives, hnext⟩ :=
          statement_sound sound cut h
        · exact absurd hfound nofun
        -- after the statement stands the next one, or a semicolon and then the next one
        · cases hfound
          rcases hnext with rfl | ⟨next, hmark, cut₂, rfl⟩
          · obtain ⟨last, rest, cut₃, rfl, hclose, hstatements⟩ := ih cut' hmore
            exact ⟨last, rest, cut₃, rfl, hclose, .statement hderives hstatements⟩
          · obtain ⟨last, rest, cut₃, rfl, hclose, hstatements⟩ := ih cut₂ hmore
            exact ⟨last, rest, cut₃, rfl, hclose, .separated hderives hmark hstatements⟩

theorem block_sound (sound : Sound level) (cut : Cut input)
    (h : Gives (block level) (place file table input) e t) : Found file table (.body e) input t := by
  simp only [Grammar.block, gives_bind,
    gives_taken_place cut (show Kind.openBlock ≠ .eof by simp)] at h
  obtain ⟨_, _, ⟨rfl, inner, hopen, rfl⟩ | ⟨rfl, -, rfl⟩, h⟩ := h
  · have cut' := hopen.cut cut (by simp)
    simp only [↓reduceIte, gives_bind, gives_many, gives_pure] at h
    obtain ⟨es, _, hmany, _, s, hadvance, rfl, rfl⟩ := h
    obtain ⟨after, rest, cut₂, rfl, hclose, hderives⟩ := statements_sound sound _ cut' hmany
    rw [gives_advance_place hclose cut₂ (by simp)] at hadvance
    exact ⟨rest, hclose.cut cut₂ (by simp), hadvance, .block hopen hderives⟩
  · simp only [Bool.false_eq_true, ↓reduceIte] at h
    obtain ⟨rest, cut', rfl, hderives⟩ := expression_sound sound cut h
    exact ⟨rest, cut', rfl, .plain hderives⟩

/-- A part that is there exactly when its mark is. -/
theorem optionally_sound {mark : Kind} {part : Read Expr} {found : Option Expr} (cut : Cut input)
    (solid : mark ≠ .eof) (h : Gives (optionally mark part) (place file table input) found t) :
    (found = none ∧ t = place file table input ∧ lead input ≠ mark)
      ∨ ∃ e inner, found = some e ∧ Mark mark input inner ∧ Cut inner
          ∧ Gives part (place file table inner) e t := by
  simp only [optionally, gives_bind, gives_taken_place cut solid] at h
  obtain ⟨_, _, ⟨rfl, inner, hmark, rfl⟩ | ⟨rfl, hlead, rfl⟩, h⟩ := h
  · simp only [↓reduceIte, bind_pure_comp, gives_map] at h
    obtain ⟨e, h, rfl⟩ := h
    exact .inr ⟨e, inner, rfl, hmark, hmark.cut cut solid, h⟩
  · simp only [Bool.false_eq_true, ↓reduceIte, gives_pure] at h
    exact .inl ⟨h.1, h.2, hlead⟩

theorem branch_sound (sound : Sound level) (cut : Cut input) (hlead : lead input = .ifWord)
    (h : Gives (branch level) (place file table input) e t) :
    Found file table (.primary e) input t := by
  obtain ⟨inner, hword⟩ := mark_of_lead hlead (by simp)
  simp only [branch, gives_bind, gives_advance_place hword cut (by simp), bind_pure_comp,
    gives_map] at h
  obtain ⟨_, _, rfl, condition, _, h₁, _, _, h₂, consequent, _, h₃, other, h₄, rfl⟩ := h
  obtain ⟨after, cut₁, rfl, hcondition⟩ := sound.expression (hword.cut cut (by simp)) h₁
  obtain ⟨next, hthen, rfl⟩ := (gives_take_place cut₁ (by simp)).1 h₂
  obtain ⟨last, cut₂, rfl, hbody⟩ := sound.block (hthen.cut cut₁ (by simp)) h₃
  obtain ⟨rfl, rfl, hlead⟩ | ⟨alternative, step, rfl, helse, cut₃, h⟩ :=
    optionally_sound cut₂ (by simp) h₄
  · exact ⟨last, cut₂, rfl, .branch hword hcondition hthen hbody hlead⟩
  · obtain ⟨rest, cut₄, rfl, halternative⟩ := sound.block cut₃ h
    exact ⟨rest, cut₄, rfl, .branchElse hword hcondition hthen hbody helse halternative⟩

theorem countLoop_sound (sound : Sound level) (cut : Cut input) (hlead : lead input = .forWord)
    (h : Gives (countLoop level) (place file table input) e t) :
    Found file table (.primary e) input t := by
  obtain ⟨named, hword⟩ := mark_of_lead hlead (by simp)
  have cut₁ := hword.cut cut (by simp)
  simp only [countLoop, gives_bind, gives_advance_place hword cut (by simp), bind_pure_comp,
    gives_map] at h
  obtain ⟨_, _, rfl, counter, _, h₁, _, _, h₂, first, _, h₃, _, _, h₄, last, _, h₅, step, _, h₆,
    body, h₇, rfl⟩ := h
  obtain ⟨sign, hname, rfl⟩ := (gives_identifier_place cut₁).1 h₁
  have cut₂ := hname.cut cut₁
  obtain ⟨inner, hequals, rfl⟩ := (gives_equalsSign_place cut₂).1 h₂
  obtain ⟨after, cut₃, rfl, hfirst⟩ := sound.expression (hequals.cut cut₂) h₃
  obtain ⟨next, hcomma, rfl⟩ := (gives_take_place cut₃ (by simp)).1 h₄
  obtain ⟨bound, cut₄, rfl, hlast⟩ := sound.expression (hcomma.cut cut₃ (by simp)) h₅
  obtain ⟨rfl, rfl, -⟩ | ⟨stride, inside, rfl, hcomma', cut₅, hstep⟩ :=
    optionally_sound cut₄ (by simp) h₆
  -- without a comma there is no step
  · obtain ⟨rest, cut₅, rfl, hbody⟩ := sound.block cut₄ h₇
    exact ⟨rest, cut₅, rfl, .countLoop hword hname hequals hfirst hcomma hlast hbody⟩
  · obtain ⟨start, cut₆, rfl, hstride⟩ := sound.expression cut₅ hstep
    obtain ⟨rest, cut₇, rfl, hbody⟩ := sound.block cut₆ h₇
    exact ⟨rest, cut₇, rfl,
      .countLoopStep hword hname hequals hfirst hcomma hlast hcomma' hstride hbody⟩

theorem whileLoop_sound (sound : Sound level) (cut : Cut input) (hlead : lead input = .whileWord)
    (h : Gives (whileLoop level) (place file table input) e t) :
    Found file table (.primary e) input t := by
  obtain ⟨inner, hword⟩ := mark_of_lead hlead (by simp)
  simp only [whileLoop, gives_bind, gives_advance_place hword cut (by simp), bind_pure_comp,
    gives_map] at h
  obtain ⟨_, _, rfl, condition, _, h₁, body, h₂, rfl⟩ := h
  obtain ⟨after, cut', rfl, hcondition⟩ := sound.expression (hword.cut cut (by simp)) h₁
  obtain ⟨rest, cut₂, rfl, hbody⟩ := sound.block cut' h₂
  exact ⟨rest, cut₂, rfl, .whileLoop hword hcondition hbody⟩

theorem repeatLoop_sound (sound : Sound level) (cut : Cut input) (hlead : lead input = .reptWord)
    (h : Gives (repeatLoop level) (place file table input) e t) :
    Found file table (.primary e) input t := by
  obtain ⟨next, hword⟩ := mark_of_lead hlead (by simp)
  have cut₁ := hword.cut cut (by simp)
  simp only [repeatLoop, gives_bind, gives_advance_place hword cut (by simp), bind_pure_comp,
    gives_map] at h
  obtain ⟨_, _, rfl, _, _, h₁, times, _, h₂, _, _, h₃, body, h₄, rfl⟩ := h
  obtain ⟨inner, hopen, rfl⟩ := (gives_take_place cut₁ (by simp)).1 h₁
  obtain ⟨after, cut₂, rfl, htimes⟩ := sound.expression (hopen.cut cut₁ (by simp)) h₂
  obtain ⟨last, hclose, rfl⟩ := (gives_takeOr_place cut₂ (by simp)).1 h₃
  obtain ⟨rest, cut₃, rfl, hbody⟩ := sound.block (hclose.cut cut₂ (by simp)) h₄
  exact ⟨rest, cut₃, rfl, .repeatLoop hword hopen htimes hclose hbody⟩

/-! ## §6. Every level. -/

/-- What picks a production decides which one. -/
theorem lead_of_standard {kind : Kind} {production : Production}
    (h : Choice.standard kind = some production) :
    (production = .number ∧ kind = .number) ∨ (production = .paren ∧ kind = .openParen)
      ∨ (production = .identifier ∧ kind = .identifier) ∨ (production = .array ∧ kind = .arrWord)
      ∨ (production = .branch ∧ kind = .ifWord) ∨ (production = .countLoop ∧ kind = .forWord)
      ∨ (production = .whileLoop ∧ kind = .whileWord)
      ∨ (production = .repeatLoop ∧ kind = .reptWord) := by
  cases kind <;> cases h <;> decide

/-- Over a sound level everything that is asked for is sound. -/
theorem pursue_sound (sound : Sound level) {goal : Goal} (cut : Cut input)
    (h : Gives (pursue level goal) (place file table input) e t) (asked : Asked goal input) :
    ∃ rest, Cut rest ∧ t = place file table rest ∧ Meets table goal input e rest := by
  cases goal with
  | climb loosest left => exact climb_sound sound cut h
  | read production =>
      rcases asked with hstandard | hgeneral
      · simp only [Meets, phraseOf_of_standard hstandard]
        rcases lead_of_standard hstandard with ⟨rfl, hlead⟩ | ⟨rfl, hlead⟩ | ⟨rfl, hlead⟩
          | ⟨rfl, hlead⟩ | ⟨rfl, hlead⟩ | ⟨rfl, hlead⟩ | ⟨rfl, hlead⟩ | ⟨rfl, hlead⟩
        · exact number_sound cut h
        · exact paren_sound sound cut hlead h
        · exact named_sound sound cut h
        · exact array_sound cut hlead h
        · exact branch_sound sound cut hlead h
        · exact countLoop_sound sound cut hlead h
        · exact whileLoop_sound sound cut hlead h
        · exact repeatLoop_sound sound cut hlead h
      · simp only [List.mem_cons, List.not_mem_nil, or_false] at hgeneral
        rcases hgeneral with rfl | rfl | rfl | rfl
        · exact expression_sound sound cut h
        · exact unary_sound sound cut h
        · exact primary_sound sound cut h
        · exact block_sound sound cut h

/-- Every level of the language is sound. -/
theorem sound_descend (depth : Nat) :
    Sound ⟨Choice.standard, descend Choice.standard depth⟩ := by
  induction depth with
  | zero => exact ⟨rfl, fun _ h _ => absurd h gives_failFound⟩
  | succ depth ih => exact ⟨rfl, fun cut h asked => pursue_sound ih cut h asked⟩

end Fixity.Language
