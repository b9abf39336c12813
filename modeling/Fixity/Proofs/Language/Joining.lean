/-
  Fixity.Proofs.Language.Joining
  ────────────────────────────────
  **A SEMICOLON OR A BRACE ENDS WHAT THE END OF A TEXT ENDS.**

  A phrase that stands at the end of a text stands there just as well when other
  tokens follow, unless the first of them is one that a phrase goes on over: an
  operator, an opening bracket or parenthesis, or an `else`.  A semicolon is none of
  these, nor is a closing brace.

  Main results: `Derives.seam` (a phrase before the seam stays) and `Forms.seam` (so
  do forms, with the table that they leave).
-/
import Fixity.Proofs.Language.Goals
import Fixity.Proofs.Scanning.Seam

namespace Fixity.Language

open Operator (isOperatorChar)

variable {table : Operator.Table} {more input input' rest : List Token}

/-- The kinds of token that a phrase can go on over. -/
def continuing : List Kind := [.symbol, .openBracket, .openParen, .elseWord]

/-! ## §1. One token before a seam. -/

/-- The kind that leads stays, unless it marks the end. -/
theorem lead_seam {tokens joined : List Token} (seam : Seam more tokens joined) :
    lead joined = lead tokens ∨ (lead tokens = .eof ∧ joined = more) := by
  cases seam with
  | stop hmark => exact .inr ⟨hmark, rfl⟩
  | step same _ => exact .inl same.kind

/-- A kind to go on over that does not lead does not lead at the seam either. -/
theorem lead_ne_seam {tokens joined : List Token} {kind : Kind} (hmore : lead more ∉ continuing)
    (seam : Seam more tokens joined) (h : lead tokens ≠ kind) (hkind : kind ∈ continuing) :
    lead joined ≠ kind := by
  rcases lead_seam seam with hlead | ⟨-, rfl⟩
  · rw [hlead]
    exact h
  · exact (ne_of_mem_of_not_mem hkind hmore).symm

theorem Leads.seam {property : Token → Prop} (h : Leads property input rest)
    (seam : Seam more input input')
    (stays : ∀ {token other : Token}, token.Same other → property token → property other)
    (solid : ∀ token, property token → token.kind ≠ .eof) :
    ∃ rest', Leads property input' rest' ∧ Seam more rest rest' := by
  obtain ⟨token, hp, rfl⟩ := h
  cases seam with
  | stop hmark => exact absurd hmark (solid token hp)
  | step same seam => exact ⟨_, ⟨_, stays same hp, rfl⟩, seam⟩

theorem Mark.seam {kind : Kind} (h : Mark kind input rest) (seam : Seam more input input')
    (solid : kind ≠ .eof) : ∃ rest', Mark kind input' rest' ∧ Seam more rest rest' :=
  Leads.seam h seam (fun same hp => same.kind.trans hp) fun _ hp => hp ▸ solid

theorem Name.seam {name : String} (h : Name name input rest) (seam : Seam more input input') :
    ∃ rest', Name name input' rest' ∧ Seam more rest rest' :=
  Leads.seam h seam (fun same hp => ⟨same.kind.trans hp.1, same.text.trans hp.2⟩)
    fun _ hp => by simp [hp.1]

theorem Numeral.seam {value : Number} (h : Numeral value input rest)
    (seam : Seam more input input') : ∃ rest', Numeral value input' rest' ∧ Seam more rest rest' :=
  Leads.seam h seam (fun same hp => ⟨same.kind.trans hp.1, same.text ▸ hp.2⟩)
    fun _ hp => by simp [hp.1]

theorem Whole.lead {low high : Nat} {n : UInt32} (h : Whole low high n input rest) :
    Language.lead input = .number := by
  obtain ⟨value, hnumeral, -⟩ := h
  obtain ⟨token, hp, hlead⟩ := Leads.lead hnumeral
  exact hlead.trans hp.1

theorem Whole.seam {low high : Nat} {n : UInt32} (h : Whole low high n input rest)
    (seam : Seam more input input') :
    ∃ rest', Whole low high n input' rest' ∧ Seam more rest rest' := by
  obtain ⟨value, hnumeral, hvalue⟩ := h
  obtain ⟨rest', hnumeral', seam'⟩ := hnumeral.seam seam
  exact ⟨rest', ⟨value, hnumeral', hvalue⟩, seam'⟩

theorem isSymbol_same {token other : Token} {c : Char} (same : token.Same other) :
    other.IsSymbol c ↔ token.IsSymbol c := by
  unfold Token.IsSymbol
  rw [same.kind, same.text]

theorem touches_same {token other token' other' : Token} (same : token.Same other)
    (same' : token'.Same other') : other.Touches other' ↔ token.Touches token' := by
  unfold Token.Touches
  rw [same.stop, same'.start]

theorem Sign.seam {c : Char} (h : Sign c input rest) (seam : Seam more input input') :
    ∃ rest', Sign c input' rest' ∧ Seam more rest rest' :=
  Leads.seam h seam (fun same hp => (isSymbol_same same).2 hp) fun _ hp => by simp [hp.1]

/-! ## §2. Operators before a seam. -/

/-- Every phrase goes on over a symbol. -/
theorem not_isSymbol_of_lead {token : Token} {c : Char} (h : lead (token :: rest) ∉ continuing) :
    ¬ token.IsSymbol c := by
  intro hsymbol
  have hkind : lead (token :: rest) = .symbol := hsymbol.1
  rw [hkind] at h
  exact h (by decide)

/-- An operator before a seam stays, unless it stands right there and a symbol follows. -/
theorem Spelled.seam {spelling : String} (h : Spelled input spelling rest)
    (apart : Language.lead rest = .eof → Language.lead more ≠ .symbol)
    (seam : Seam more input input') :
    ∃ rest', Spelled input' spelling rest' ∧ Seam more rest rest' := by
  cases h with
  | pair hfirst hsecond htouch hc hd =>
      cases seam with
      | step same seam =>
          cases seam with
          | stop hmark => exact absurd (hsecond.1.symm.trans hmark) nofun
          | step same' seam =>
              exact ⟨_, .pair ((isSymbol_same same).2 hfirst) ((isSymbol_same same').2 hsecond)
                ((touches_same same same').2 htouch) hc hd, seam⟩
  | single htoken alone =>
      cases seam with
      | stop hmark => exact absurd (htoken.1.symm.trans hmark) nofun
      | step same seam =>
          refine ⟨_, .single ((isSymbol_same same).2 htoken) ?_, seam⟩
          intro next d hnext hd htouch hc
          cases seam with
          | stop hmark =>
              obtain ⟨others, rfl⟩ := List.head?_eq_some_iff.1 hnext
              exact absurd hd.1 (apart hmark)
          | step same' seam =>
              cases hnext
              exact alone _ d rfl ((isSymbol_same same').1 hd) ((touches_same same same').1 htouch) hc

/-- An operator stays before tokens that no phrase goes on over. -/
theorem Spelled.seam_of_stops {spelling : String} (hmore : Language.lead more ∉ continuing)
    (h : Spelled input spelling rest) (seam : Seam more input input') :
    ∃ rest', Spelled input' spelling rest' ∧ Seam more rest rest' :=
  h.seam (fun _ => (ne_of_mem_of_not_mem (by decide) hmore).symm) seam

/-- An operator at a seam was there before. -/
theorem Spelled.of_seam {spelling : String} {rest' : List Token}
    (hmore : Language.lead more ∉ continuing) (h : Spelled input' spelling rest')
    (seam : Seam more input input') :
    ∃ rest, Spelled input spelling rest := by
  cases seam with
  | stop hmark =>
      rw [h.lead] at hmore
      exact absurd (by decide) hmore
  | step same seam =>
      cases h with
      | pair hfirst hsecond htouch hc hd =>
          cases seam with
          | stop hmark => exact absurd hsecond (not_isSymbol_of_lead hmore)
          | step same' seam =>
              exact ⟨_, .pair ((isSymbol_same same).1 hfirst) ((isSymbol_same same').1 hsecond)
                ((touches_same same same').1 htouch) hc hd⟩
      | single htoken apart =>
          refine ⟨_, .single ((isSymbol_same same).1 htoken) ?_⟩
          intro next d hnext hd htouch hc
          cases seam with
          | stop hmark =>
              cases hnext
              exact absurd (hd.1.symm.trans hmark) nofun
          | step same' seam =>
              cases hnext
              exact apart _ d rfl ((isSymbol_same same').2 hd) ((touches_same same same').2 htouch) hc

theorem Ends.seam {joined : List Token} (hmore : lead more ∉ continuing) (h : Ends table rest)
    (seam : Seam more rest joined) : Ends table joined := by
  intro spelling after hspelled
  obtain ⟨after', hspelled'⟩ := hspelled.of_seam hmore seam
  exact h spelling after' hspelled'

/-! ## §3. Phrases before a seam. -/

theorem Dimensions.seam {ns : List UInt32} (h : Dimensions input ns rest) :
    ∀ {input' : List Token}, Seam more input input' →
      ∃ rest', Dimensions input' ns rest' ∧ Seam more rest rest' := by
  induction h with
  | nil => exact fun seam => ⟨_, .nil, seam⟩
  | cons hopen hwhole hclose _ ih =>
      intro input' seam
      obtain ⟨inner', hopen', seam⟩ := hopen.seam seam (by simp)
      obtain ⟨after', hwhole', seam⟩ := hwhole.seam seam
      obtain ⟨next', hclose', seam⟩ := hclose.seam seam (by simp)
      obtain ⟨rest', hdimensions', seam⟩ := ih seam
      exact ⟨rest', .cons hopen' hwhole' hclose' hdimensions', seam⟩

/-- A phrase before a seam stays, unless it goes on over what follows. -/
theorem Derives.seam {phrase : Phrase} (hmore : Language.lead more ∉ continuing)
    (h : Derives table phrase input rest) :
    ∀ {input' : List Token}, Seam more input input' →
      ∃ rest', Derives table phrase input' rest' ∧ Seam more rest rest' := by
  induction h with
  | plain _ ih =>
      intro input' seam
      obtain ⟨rest', h', seam⟩ := ih seam
      exact ⟨rest', .plain h', seam⟩
  | block hopen _ ih =>
      intro input' seam
      obtain ⟨inner', hopen', seam⟩ := hopen.seam seam (by simp)
      obtain ⟨rest', h', seam⟩ := ih seam
      exact ⟨rest', .block hopen' h', seam⟩
  | closed hclose =>
      intro input' seam
      obtain ⟨rest', hclose', seam⟩ := hclose.seam seam (by simp)
      exact ⟨rest', .closed hclose', seam⟩
  | statement _ _ ih ih' =>
      intro input' seam
      obtain ⟨after', h', seam⟩ := ih seam
      obtain ⟨rest', h₂, seam⟩ := ih' seam
      exact ⟨rest', .statement h' h₂, seam⟩
  | separated _ hmark _ ih ih' =>
      intro input' seam
      obtain ⟨after', h', seam⟩ := ih seam
      obtain ⟨next', hmark', seam⟩ := hmark.seam seam (by simp)
      obtain ⟨rest', h₂, seam⟩ := ih' seam
      exact ⟨rest', .separated h' hmark' h₂, seam⟩
  -- a rule that asks what follows its last part could see past the seam; what it sees there
  -- continues nothing
  | chain _ _ hends hgrouped ih ih' =>
      intro input' seam
      obtain ⟨after', h', seam⟩ := ih seam
      obtain ⟨rest', h₂, seam⟩ := ih' seam
      exact ⟨rest', .chain h' h₂ (hends.seam hmore seam) hgrouped, seam⟩
  | noLink => exact fun seam => ⟨_, .noLink, seam⟩
  | link hspelled hlookup _ _ ih ih' =>
      intro input' seam
      -- an operator at the very end could pair with a symbol, and none follows
      obtain ⟨next', hspelled', seam⟩ := hspelled.seam_of_stops hmore seam
      obtain ⟨after', h', seam⟩ := ih seam
      obtain ⟨rest', h₂, seam⟩ := ih' seam
      exact ⟨rest', .link hspelled' hlookup h' h₂, seam⟩
  | unsigned _ ih =>
      intro input' seam
      obtain ⟨rest', h', seam⟩ := ih seam
      exact ⟨rest', .unsigned h', seam⟩
  | signed hsign hc _ ih =>
      intro input' seam
      obtain ⟨next', hsign', seam⟩ := hsign.seam seam
      obtain ⟨rest', h', seam⟩ := ih seam
      exact ⟨rest', .signed hsign' hc h', seam⟩
  | number hnumeral =>
      intro input' seam
      obtain ⟨rest', hnumeral', seam⟩ := hnumeral.seam seam
      exact ⟨rest', .number hnumeral', seam⟩
  | paren hopen _ hclose ih =>
      intro input' seam
      obtain ⟨inner', hopen', seam⟩ := hopen.seam seam (by simp)
      obtain ⟨after', h', seam⟩ := ih seam
      obtain ⟨rest', hclose', seam⟩ := hclose.seam seam (by simp)
      exact ⟨rest', .paren hopen' h' hclose', seam⟩
  | scalar hname hbracket hparen =>
      intro input' seam
      obtain ⟨rest', hname', seam⟩ := hname.seam seam
      exact ⟨rest', .scalar hname' (lead_ne_seam hmore seam hbracket (by decide))
        (lead_ne_seam hmore seam hparen (by decide)), seam⟩
  | element hname _ hlead ih =>
      intro input' seam
      obtain ⟨next', hname', seam⟩ := hname.seam seam
      obtain ⟨rest', h', seam⟩ := ih seam
      exact ⟨rest', .element hname' h' (lead_ne_seam hmore seam hlead (by decide)), seam⟩
  | noIndex => exact fun seam => ⟨_, .noIndex, seam⟩
  | index hopen _ hclose _ ih ih' =>
      intro input' seam
      obtain ⟨inner', hopen', seam⟩ := hopen.seam seam (by simp)
      obtain ⟨after', h', seam⟩ := ih seam
      obtain ⟨next', hclose', seam⟩ := hclose.seam seam (by simp)
      obtain ⟨rest', h₂, seam⟩ := ih' seam
      exact ⟨rest', .index hopen' h' hclose' h₂, seam⟩
  | emptyCall hname hopen hclose =>
      intro input' seam
      obtain ⟨next', hname', seam⟩ := hname.seam seam
      obtain ⟨inner', hopen', seam⟩ := hopen.seam seam (by simp)
      obtain ⟨rest', hclose', seam⟩ := hclose.seam seam (by simp)
      exact ⟨rest', .emptyCall hname' hopen' hclose', seam⟩
  | call hname hopen _ ih =>
      intro input' seam
      obtain ⟨next', hname', seam⟩ := hname.seam seam
      obtain ⟨inner', hopen', seam⟩ := hopen.seam seam (by simp)
      obtain ⟨rest', h', seam⟩ := ih seam
      exact ⟨rest', .call hname' hopen' h', seam⟩
  | lastArgument _ hclose ih =>
      intro input' seam
      obtain ⟨after', h', seam⟩ := ih seam
      obtain ⟨rest', hclose', seam⟩ := hclose.seam seam (by simp)
      exact ⟨rest', .lastArgument h' hclose', seam⟩
  | argument _ hcomma _ ih ih' =>
      intro input' seam
      obtain ⟨after', h', seam⟩ := ih seam
      obtain ⟨next', hcomma', seam⟩ := hcomma.seam seam (by simp)
      obtain ⟨rest', h₂, seam⟩ := ih' seam
      exact ⟨rest', .argument h' hcomma' h₂, seam⟩
  | array hword hname hdimensions hlead =>
      intro input' seam
      obtain ⟨named', hword', seam⟩ := hword.seam seam (by simp)
      obtain ⟨next', hname', seam⟩ := hname.seam seam
      obtain ⟨rest', hdimensions', seam⟩ := hdimensions.seam seam
      exact ⟨rest', .array hword' hname' hdimensions'
        (lead_ne_seam hmore seam hlead (by decide)), seam⟩
  | branch hword _ hthen _ hlead ih ih' =>
      intro input' seam
      obtain ⟨inner', hword', seam⟩ := hword.seam seam (by simp)
      obtain ⟨after', h', seam⟩ := ih seam
      obtain ⟨next', hthen', seam⟩ := hthen.seam seam (by simp)
      obtain ⟨rest', h₂, seam⟩ := ih' seam
      exact ⟨rest', .branch hword' h' hthen' h₂ (lead_ne_seam hmore seam hlead (by decide)), seam⟩
  | branchElse hword _ hthen _ helse _ ih ih' ih₂ =>
      intro input' seam
      obtain ⟨inner', hword', seam⟩ := hword.seam seam (by simp)
      obtain ⟨after', h', seam⟩ := ih seam
      obtain ⟨next', hthen', seam⟩ := hthen.seam seam (by simp)
      obtain ⟨other', h₂, seam⟩ := ih' seam
      obtain ⟨last', helse', seam⟩ := helse.seam seam (by simp)
      obtain ⟨rest', h₃, seam⟩ := ih₂ seam
      exact ⟨rest', .branchElse hword' h' hthen' h₂ helse' h₃, seam⟩
  | countLoop hword hname hsign _ hcomma _ _ ih ih' ih₂ =>
      intro input' seam
      obtain ⟨named', hword', seam⟩ := hword.seam seam (by simp)
      obtain ⟨sign', hname', seam⟩ := hname.seam seam
      obtain ⟨inner', hsign', seam⟩ := hsign.seam seam
      obtain ⟨after', h', seam⟩ := ih seam
      obtain ⟨next', hcomma', seam⟩ := hcomma.seam seam (by simp)
      obtain ⟨last', h₂, seam⟩ := ih' seam
      obtain ⟨rest', h₃, seam⟩ := ih₂ seam
      exact ⟨rest', .countLoop hword' hname' hsign' h' hcomma' h₂ h₃, seam⟩
  | countLoopStep hword hname hsign _ hcomma _ hcomma₂ _ _ ih ih' ih₂ ih₃ =>
      intro input' seam
      obtain ⟨named', hword', seam⟩ := hword.seam seam (by simp)
      obtain ⟨sign', hname', seam⟩ := hname.seam seam
      obtain ⟨inner', hsign', seam⟩ := hsign.seam seam
      obtain ⟨after', h', seam⟩ := ih seam
      obtain ⟨next', hcomma', seam⟩ := hcomma.seam seam (by simp)
      obtain ⟨last', h₂, seam⟩ := ih' seam
      obtain ⟨step', hcomma₂', seam⟩ := hcomma₂.seam seam (by simp)
      obtain ⟨body', h₃, seam⟩ := ih₂ seam
      obtain ⟨rest', h₄, seam⟩ := ih₃ seam
      exact ⟨rest', .countLoopStep hword' hname' hsign' h' hcomma' h₂ hcomma₂' h₃ h₄, seam⟩
  | whileLoop hword _ _ ih ih' =>
      intro input' seam
      obtain ⟨inner', hword', seam⟩ := hword.seam seam (by simp)
      obtain ⟨after', h', seam⟩ := ih seam
      obtain ⟨rest', h₂, seam⟩ := ih' seam
      exact ⟨rest', .whileLoop hword' h' h₂, seam⟩
  | repeatLoop hword hopen _ hclose _ ih ih' =>
      intro input' seam
      obtain ⟨next', hword', seam⟩ := hword.seam seam (by simp)
      obtain ⟨inner', hopen', seam⟩ := hopen.seam seam (by simp)
      obtain ⟨after', h', seam⟩ := ih seam
      obtain ⟨last', hclose', seam⟩ := hclose.seam seam (by simp)
      obtain ⟨rest', h₂, seam⟩ := ih' seam
      exact ⟨rest', .repeatLoop hword' hopen' h' hclose' h₂, seam⟩

/-! ## §4. Forms before a seam. -/

theorem Slots.seam {names : List String} (h : Slots input names rest) :
    ∀ {input' : List Token}, Seam more input input' →
      ∃ rest', Slots input' names rest' ∧ Seam more rest rest' := by
  have hname {slot other : Token} (same : slot.Same other) : slotName other = slotName slot := by
    unfold slotName slotParam?
    rw [same.kind, same.text]
  induction h with
  | last hsolid hclose =>
      intro input' seam
      cases seam with
      | stop hmark => exact absurd hmark hsolid
      | step same seam =>
          obtain ⟨rest', hclose', seam⟩ := hclose.seam seam (by simp)
          rw [← hname same]
          exact ⟨rest', .last (same.kind ▸ hsolid) hclose', seam⟩
  | more hsolid hcomma _ ih =>
      intro input' seam
      cases seam with
      | stop hmark => exact absurd hmark hsolid
      | step same seam =>
          obtain ⟨next', hcomma', seam⟩ := hcomma.seam seam (by simp)
          obtain ⟨rest', h', seam⟩ := ih seam
          rw [← hname same]
          exact ⟨rest', .more (same.kind ▸ hsolid) hcomma' h', seam⟩

theorem Slots.lead_ne_eof {names : List String} (h : Slots input names rest) :
    Language.lead input ≠ .eof := by
  cases h with
  | last hsolid _ => exact hsolid
  | more hsolid _ _ => exact hsolid

theorem Params.seam {names : List String} (h : Params input names rest)
    (seam : Seam more input input') : ∃ rest', Params input' names rest' ∧ Seam more rest rest' := by
  cases h with
  | none hopen hclose =>
      obtain ⟨inner', hopen', seam⟩ := hopen.seam seam (by simp)
      obtain ⟨rest', hclose', seam⟩ := hclose.seam seam (by simp)
      exact ⟨rest', .none hopen' hclose', seam⟩
  | some hopen hlead hslots =>
      obtain ⟨inner', hopen', seam⟩ := hopen.seam seam (by simp)
      obtain ⟨rest', hslots', seam'⟩ := hslots.seam seam
      have hlead' : Language.lead inner' ≠ .closeParen := by
        obtain heq | ⟨hend, -⟩ := lead_seam seam
        · rw [heq]
          exact hlead
        · exact absurd hend hslots.lead_ne_eof
      exact ⟨rest', .some hopen' hlead' hslots', seam'⟩

theorem Params.lead {names : List String} (h : Params input names rest) :
    Language.lead input = .openParen := by
  cases h with
  | none hopen _ => exact hopen.lead
  | some hopen _ _ => exact hopen.lead

/-- A heading is over at its parenthesis, so it stays whatever comes after the seam. -/
theorem Heading.seam {prototype : Prototype} {last : Operator.Table}
    (h : Heading table input prototype last rest) (seam : Seam more input input') :
    ∃ rest', Heading table input' prototype last rest' ∧ Seam more rest rest' := by
  cases h with
  | function hname hparams =>
      obtain ⟨next', hname', seam⟩ := hname.seam seam
      obtain ⟨rest', hparams', seam⟩ := hparams.seam seam
      exact ⟨rest', .function hname' hparams', seam⟩
  | unary hword hsign hc hparams =>
      obtain ⟨sign', hword', seam⟩ := hword.seam seam (by simp)
      obtain ⟨next', hsign', seam⟩ := hsign.seam seam
      obtain ⟨rest', hparams', seam⟩ := hparams.seam seam
      exact ⟨rest', .unary hword' hsign' hc hparams', seam⟩
  | binary hword hspelled hprecedence hparams =>
      obtain ⟨sign', hword', seam⟩ := hword.seam seam (by simp)
      cases hprecedence with
      | default =>
          obtain ⟨after', hspelled', seam⟩ := hspelled.seam (by simp [hparams.lead]) seam
          obtain ⟨rest', hparams', seam⟩ := hparams.seam seam
          exact ⟨rest', .binary hword' hspelled' .default hparams', seam⟩
      | given hwhole =>
          obtain ⟨after', hspelled', seam⟩ := hspelled.seam (by simp [hwhole.lead]) seam
          obtain ⟨next', hwhole', seam⟩ := hwhole.seam seam
          obtain ⟨rest', hparams', seam⟩ := hparams.seam seam
          exact ⟨rest', .binary hword' hspelled' (.given hwhole') hparams', seam⟩

/-- Forms up to the end of a text stand before a seam, and leave the same table. -/
theorem Forms.seam {forms : List Form} {last : Operator.Table} {mark : Token}
    (hmore : Language.lead more ∉ continuing) (h : Forms table input forms last [mark]) :
    ∀ {input' : List Token}, Seam more input input' → Forms table input' forms last more := by
  generalize hrest : [mark] = rest at h
  induction h with
  | nil =>
      subst hrest
      intro input' seam
      cases seam with
      | stop _ => exact .nil
      | step _ seam => exact absurd rfl seam.ne_nil
  | skip hsemicolon _ ih =>
      intro input' seam
      obtain ⟨next', hsemicolon', seam⟩ := hsemicolon.seam seam (by simp)
      exact .skip hsemicolon' (ih hrest seam)
  | definition hword hheading hbody _ ih =>
      intro input' seam
      obtain ⟨next', hword', seam⟩ := hword.seam seam (by simp)
      obtain ⟨after', hheading', seam⟩ := hheading.seam seam
      obtain ⟨rest', hbody', seam⟩ := hbody.seam hmore seam
      exact .definition hword' hheading' hbody' (ih hrest seam)
  | expression hbody _ ih =>
      intro input' seam
      obtain ⟨after', hbody', seam⟩ := hbody.seam hmore seam
      exact .expression hbody' (ih hrest seam)

end Fixity.Language
