/-
  Fixity.Proofs.Language.Programs
  ────────────────────────────────
  **A PROGRAM IS READ EXACTLY AS THE GRAMMAR SAYS.**

  Headings and forms are read by steps that are not nested, so one equivalence for
  each says both directions.  A program then gives forms exactly when its tokens
  are those forms, and the table it leaves is the one that its declarations make.

  Main results: `gives_heading_place`, `gives_forms_place` and `ofTokens_ok_iff` (a text
  is a program exactly when the grammar accepts its tokens).
-/
import Fixity.Program
import Fixity.Proofs.Language.Completeness
import Fixity.Proofs.Language.Soundness

namespace Fixity.Language

open Operator (isOperatorChar)
open Grammar Read

variable {file : String} {table : Operator.Table} {input rest : List Token} {t : ReadState}

/-! ## §1. Parameters. -/

/-- Any token but the end fills a slot. -/
theorem gives_slot_place {param : Option String} (cut : Cut input) :
    Gives slot (place file table input) param t
      ↔ ∃ token rest, input = token :: rest ∧ token.kind ≠ .eof
          ∧ param = slotParam? token ∧ t = place file table rest := by
  obtain ⟨token, rest, rfl⟩ := List.exists_cons_of_ne_nil cut.ne_nil
  simp only [slot, gives_bind, gives_kind, gives_ite, gives_failFound, and_false, false_or,
    gives_cursor, gives_advance, gives_pure]
  constructor
  · intro hgiven
    obtain ⟨_, _, ⟨rfl, rfl⟩, hkind, _, _, ⟨rfl, rfl⟩, _, _, rfl, rfl, rfl⟩ := hgiven
    have hsolid : token.kind ≠ .eof := hkind
    refine ⟨token, rest, rfl, hsolid, identifier?_cons token rest, ?_⟩
    rw [advance_cons token (cut.tail hsolid).ne_nil]
  · intro hgiven
    obtain ⟨_, _, heq, hsolid, rfl, rfl⟩ := hgiven
    cases heq
    refine ⟨_, _, ⟨rfl, rfl⟩, hsolid, _, _, ⟨rfl, rfl⟩, (), _, rfl,
      (identifier?_cons token rest).symm, ?_⟩
    rw [advance_cons token (cut.tail hsolid).ne_nil]

/-- A slot without a name leaves no name in the list. -/
theorem filterMap_slotParam? (slot : Token) (more : List (Option String)) :
    (slotParam? slot :: more).filterMap id = slotName slot ++ more.filterMap id := by
  unfold slotName
  cases slotParam? slot <;> rfl

/-- The slots that are read are those of the grammar. -/
theorem slots_sound {fault : String → Fault} (bound : Nat) :
    ∀ {input : List Token} {slots : List (Option String)} {t : ReadState}, Cut input →
      Gives (separatedUpTo slot fault bound) (place file table input) slots t →
      ∃ rest, Cut rest ∧ t = place file table rest ∧ Slots input (slots.filterMap id) rest := by
  induction bound with
  | zero => intro _ _ _ _ h; exact absurd h gives_separatedUpTo_zero
  | succ bound ih =>
      intro input slots t cut hrounds
      obtain ⟨param, s, hslot, h⟩ := gives_separatedUpTo_succ.1 hrounds
      obtain ⟨token, after, rfl, hsolid, rfl, rfl⟩ := (gives_slot_place cut).1 hslot
      have cut' := cut.tail hsolid
      rcases h with ⟨hclose, rfl, rfl⟩ | ⟨hcomma, more, rfl, h⟩
      · obtain ⟨rest, hmark⟩ := mark_of_lead hclose (by simp)
        have cut₂ := hmark.cut cut' (by simp)
        rw [hmark.advance cut₂, filterMap_slotParam?]
        exact ⟨rest, cut₂, rfl, by simpa using .last hsolid hmark⟩
      · obtain ⟨next, hmark⟩ := mark_of_lead hcomma (by simp)
        have cut₂ := hmark.cut cut' (by simp)
        rw [hmark.advance cut₂] at h
        obtain ⟨rest, cut₃, rfl, hmore⟩ := ih cut₂ h
        exact ⟨rest, cut₃, rfl, by rw [filterMap_slotParam?]; exact .more hsolid hmark hmore⟩

/-- The slots of the grammar are read. -/
theorem slots_complete (file : String) (table : Operator.Table) (fault : String → Fault)
    {names : List String} (h : Slots input names rest) :
    ∀ bound, Cut input → input.length ≤ bound →
      ∃ slots, slots.filterMap id = names ∧ Cut rest
        ∧ Gives (separatedUpTo slot fault bound) (place file table input) slots
            (place file table rest) := by
  induction h with
  | @last token input rest hsolid hmark =>
      intro bound cut hbound
      -- each slot takes a token, so one more round is there
      obtain ⟨bound, rfl⟩ : ∃ n, bound = n + 1 := ⟨bound - 1, by simp at hbound; omega⟩
      have cut' := cut.tail hsolid
      have cut₂ := hmark.cut cut' (by simp)
      refine ⟨[slotParam? token], ?_, cut₂, ?_⟩
      · rw [filterMap_slotParam?, List.filterMap_nil, List.append_nil]
      · refine gives_separatedUpTo_succ.2 ⟨_, _,
          (gives_slot_place cut).2 ⟨token, input, rfl, hsolid, rfl, rfl⟩,
          .inl ⟨hmark.lead, rfl, ?_⟩⟩
        rw [hmark.advance cut₂]
  | @more token input next rest names hsolid hmark _ ih =>
      intro bound cut hbound
      obtain ⟨bound, rfl⟩ : ∃ n, bound = n + 1 := ⟨bound - 1, by simp at hbound; omega⟩
      have cut' := cut.tail hsolid
      have cut₂ := hmark.cut cut' (by simp)
      have hlength := Leads.length hmark
      simp only [List.length_cons] at hbound
      obtain ⟨slots, rfl, cut₃, hslots⟩ := ih bound cut₂ (by omega)
      refine ⟨slotParam? token :: slots, ?_, cut₃, ?_⟩
      · exact filterMap_slotParam? token slots
      · refine gives_separatedUpTo_succ.2 ⟨_, _,
          (gives_slot_place cut).2 ⟨token, input, rfl, hsolid, rfl, rfl⟩,
          .inr ⟨hmark.lead, slots, rfl, ?_⟩⟩
        rw [hmark.advance cut₂]
        exact hslots

/-- The parameters after the opening parenthesis. -/
theorem gives_params_place {inner : List Token} {names : List String} (cut : Cut input)
    (hopen : Mark .openParen input inner) :
    Gives params (place file table inner) names t
      ↔ ∃ rest, Cut rest ∧ t = place file table rest ∧ Params input names rest := by
  have cut' := hopen.cut cut (by simp)
  simp only [params, bind_pure_comp, gives_map, gives_separated]
  constructor
  · intro hgiven
    obtain ⟨slots, ⟨hclose, rfl, rfl⟩ | ⟨hlead, h⟩, rfl⟩ := hgiven
    · obtain ⟨rest, hmark⟩ := mark_of_lead hclose (by simp)
      have cut₂ := hmark.cut cut' (by simp)
      exact ⟨rest, cut₂, by rw [hmark.advance cut₂], .none hopen hmark⟩
    · obtain ⟨rest, cut₂, rfl, hslots⟩ := slots_sound _ cut' h
      exact ⟨rest, cut₂, rfl, .some hopen hlead hslots⟩
  · intro hgiven
    obtain ⟨rest, cut₂, rfl, hparams⟩ := hgiven
    cases hparams with
    | none hopen' hclose =>
        cases hopen.rest_eq hopen'
        exact ⟨[], .inl ⟨hclose.lead, rfl, by rw [hclose.advance cut₂]⟩, rfl⟩
    | some hopen' hlead hslots =>
        cases hopen.rest_eq hopen'
        obtain ⟨slots, rfl, -, h⟩ := slots_complete file table .expectedParamOrParen hslots
          (inner.length + 1) cut' (Nat.le_succ _)
        exact ⟨slots, .inr ⟨hlead, h⟩, rfl⟩

/-! ## §2. Headings. -/

/-- The precedence that is declared. -/
theorem gives_declaredPrecedence_place {n : UInt32} (cut : Cut input) :
    Gives declaredPrecedence (place file table input) n t
      ↔ (∃ rest, Whole 1 18 n input rest ∧ t = place file table rest)
        ∨ (lead input ≠ .number ∧ n = Operator.tightest ∧ t = place file table input) := by
  simp only [declaredPrecedence, gives_bind, gives_kind, gives_ite, gives_pure]
  constructor
  · intro hgiven
    obtain ⟨_, _, ⟨rfl, rfl⟩, ⟨-, h⟩ | ⟨hkind, rfl, rfl⟩⟩ := hgiven
    · exact .inl ((gives_whole_place cut fun _ => precedence?_eq_some_iff).1 h)
    · exact .inr ⟨hkind, rfl, rfl⟩
  · intro hgiven
    obtain ⟨rest, hwhole, rfl⟩ | ⟨hkind, rfl, rfl⟩ := hgiven
    · refine ⟨_, _, ⟨rfl, rfl⟩, .inl ⟨?_, ?_⟩⟩
      · obtain ⟨value, hnumeral, -⟩ := hwhole
        obtain ⟨token, hp, hlead⟩ := Leads.lead hnumeral
        exact hlead.trans hp.1
      · exact (gives_whole_place cut fun _ => precedence?_eq_some_iff).2 ⟨rest, hwhole, rfl⟩
    · exact ⟨_, _, ⟨rfl, rfl⟩, .inr ⟨hkind, rfl, rfl⟩⟩

/-- What a definition gives a meaning to, and the table from there on. -/
inductive Names (table : Operator.Table) :
    List Token → Subject → Operator.Table → List Token → Prop
  | function {name input rest} :
      Name name input rest → Names table input (.function name) table rest
  | unary {c input sign rest} :
      Mark .unaryWord input sign → Sign c sign rest → isOperatorChar c = true →
      Names table input (.unary (String.singleton c)) table rest
  | binary {spelling precedence input sign after rest} :
      Mark .binaryWord input sign → Spelled sign spelling after →
      Precedence after precedence rest → (after = rest → lead rest ≠ .number) →
      Names table input (.binary spelling precedence) (table.declare spelling precedence) rest

theorem gives_unarySubject_place {sign : List Token} {subject : Subject} (cut : Cut input)
    (hword : Mark .unaryWord input sign) :
    Gives unarySubject (place file table input) subject t
      ↔ ∃ c rest, Sign c sign rest ∧ isOperatorChar c = true ∧ Cut rest
          ∧ subject = .unary (String.singleton c) ∧ t = place file table rest := by
  have cut' := hword.cut cut (by simp)
  simp only [unarySubject, gives_bind, gives_advance_place hword cut (by simp), gives_kind,
    gives_ite, gives_text, gives_fail, gives_failFound, and_false, or_false, gives_advance,
    gives_pure]
  constructor
  · intro hgiven
    obtain ⟨_, _, rfl, _, _, ⟨rfl, rfl⟩, hkind, _, _, ⟨rfl, rfl⟩, hall, _, _, rfl, rfl, rfl⟩ := hgiven
    obtain ⟨c, rest, hsign⟩ := sign_of_lead cut' hkind
    have cut₂ := hsign.cut cut'
    rw [hsign.text] at hall
    refine ⟨c, rest, hsign, by simpa using hall, cut₂, by rw [hsign.text], ?_⟩
    rw [hsign.advance cut₂]
  · intro hgiven
    obtain ⟨c, rest, hsign, hc, cut₂, rfl, rfl⟩ := hgiven
    refine ⟨(), _, rfl, _, _, ⟨rfl, rfl⟩, hsign.mark.lead, _, _, ⟨rfl, rfl⟩, ?_, (), _, rfl, ?_, ?_⟩
    · show (Cursor.text ⟨file, sign⟩).toList.all isOperatorChar = true
      rw [hsign.text]
      simpa using hc
    · show _ = Subject.unary (Cursor.text ⟨file, sign⟩)
      rw [hsign.text]
    · rw [hsign.advance cut₂]

theorem gives_binarySubject_place {sign : List Token} {subject : Subject} (cut : Cut input)
    (hword : Mark .binaryWord input sign) :
    Gives binarySubject (place file table input) subject t
      ↔ ∃ spelling precedence after rest, Spelled sign spelling after ∧ Cut rest
          ∧ Precedence after precedence rest ∧ (after = rest → lead rest ≠ .number)
          ∧ subject = .binary spelling precedence
          ∧ t = place file (table.declare spelling precedence) rest := by
  have cut' := hword.cut cut (by simp)
  simp only [binarySubject, gives_bind, gives_advance_place hword cut (by simp), gives_cursor]
  constructor
  · intro hgiven
    obtain ⟨_, _, rfl, _, _, ⟨rfl, rfl⟩, h⟩ := hgiven
    split at h
    · simp at h
    · next operator hoperator =>
      obtain ⟨after, hspelled, cut₂, hadvance⟩ := spelled_of_operator? cut' hoperator
      simp only [gives_bind, gives_advanceBy, hadvance, gives_declare, gives_pure] at h
      obtain ⟨_, _, rfl, precedence, _, h, _, _, rfl, rfl, rfl⟩ := h
      rcases (gives_declaredPrecedence_place cut₂).1 h with ⟨rest, hwhole, rfl⟩ | ⟨hlead, rfl, rfl⟩
      · refine ⟨_, precedence, after, rest, hspelled, hwhole.cut cut₂, .given hwhole, ?_, rfl, rfl⟩
        -- a numeral takes a token, so something else is left
        rintro rfl
        have := hwhole.length
        omega
      · exact ⟨_, _, after, after, hspelled, cut₂, .default, fun _ => hlead, rfl, rfl⟩
  · intro hgiven
    obtain ⟨spelling, precedence, after, rest, hspelled, cut₃, hprecedence, hlead, rfl, rfl⟩ := hgiven
    obtain ⟨width, hoperator, cut₂, hadvance, -⟩ := operator?_of_spelled file cut' hspelled
    have h : Gives declaredPrecedence (place file table after) precedence
        (place file table rest) := by
      refine (gives_declaredPrecedence_place cut₂).2 ?_
      cases hprecedence with
      | default => exact .inr ⟨hlead rfl, rfl, rfl⟩
      | given hwhole => exact .inl ⟨rest, hwhole, rfl⟩
    refine ⟨(), _, rfl, _, _, ⟨rfl, rfl⟩, ?_⟩
    rw [hoperator]
    simp only [gives_bind, gives_advanceBy, hadvance, gives_declare, gives_pure]
    exact ⟨(), _, rfl, precedence, _, h, (), _, rfl, rfl, rfl⟩

theorem gives_subject_place {subject : Subject} (cut : Cut input) :
    Gives Grammar.subject (place file table input) subject t
      ↔ ∃ last rest, Names table input subject last rest ∧ Cut rest
          ∧ t = place file last rest := by
  simp only [Grammar.subject, gives_bind, gives_kind]
  constructor
  · intro hgiven
    obtain ⟨_, _, ⟨rfl, rfl⟩, h⟩ := hgiven
    split at h
    · simp only [gives_bind, gives_identifier_place cut, gives_pure] at h
      obtain ⟨name, _, ⟨rest, hname, rfl⟩, rfl, rfl⟩ := h
      exact ⟨table, rest, .function hname, hname.cut cut, rfl⟩
    · next hkind =>
      obtain ⟨sign, hword⟩ := mark_of_lead hkind (by simp)
      obtain ⟨c, rest, hsign, hc, cut', rfl, rfl⟩ := (gives_unarySubject_place cut hword).1 h
      exact ⟨table, rest, .unary hword hsign hc, cut', rfl⟩
    · next hkind =>
      obtain ⟨sign, hword⟩ := mark_of_lead hkind (by simp)
      obtain ⟨spelling, precedence, after, rest, hspelled, cut', hprecedence, hlead, rfl, rfl⟩ :=
        (gives_binarySubject_place cut hword).1 h
      exact ⟨_, rest, .binary hword hspelled hprecedence hlead, cut', rfl⟩
    · simp at h
  · intro hgiven
    obtain ⟨last, rest, hnames, cut', rfl⟩ := hgiven
    cases hnames with
    | function hname =>
        obtain ⟨token, hp, hlead⟩ := Leads.lead hname
        refine ⟨.identifier, _, ⟨(hlead.trans hp.1).symm, rfl⟩, ?_⟩
        exact .bind ((gives_identifier_place cut).2 ⟨rest, hname, rfl⟩) (gives_pure.2 ⟨rfl, rfl⟩)
    | unary hword hsign hc =>
        refine ⟨.unaryWord, _, ⟨hword.lead.symm, rfl⟩, ?_⟩
        exact (gives_unarySubject_place cut hword).2 ⟨_, rest, hsign, hc, cut', rfl, rfl⟩
    | binary hword hspelled hprecedence hlead =>
        refine ⟨.binaryWord, _, ⟨hword.lead.symm, rfl⟩, ?_⟩
        exact (gives_binarySubject_place cut hword).2
          ⟨_, _, _, rest, hspelled, cut', hprecedence, hlead, rfl, rfl⟩

/-- Whether a definition with these parameters has as many as its operands. -/
def Fits (subject : Subject) (params : List String) : Prop :=
  ∀ operands, subject.operands? = some operands → params.length = operands

/-- A heading is what it names, with parameters that fit. -/
theorem heading_iff {prototype : Prototype} {last : Operator.Table} :
    Heading table input prototype last rest
      ↔ ∃ subject next names, Names table input subject last next ∧ Params next names rest
          ∧ Fits subject names ∧ prototype = subject.prototype names := by
  constructor
  · intro h
    cases h with
    | function hname hparams =>
        exact ⟨_, _, _, .function hname, hparams, nofun, rfl⟩
    | unary hword hsign hc hparams =>
        refine ⟨_, _, _, .unary hword hsign hc, hparams, ?_, rfl⟩
        rintro _ ⟨⟩
        rfl
    | binary hword hspelled hprecedence hparams =>
        refine ⟨_, _, _, .binary hword hspelled hprecedence ?_, hparams, ?_, rfl⟩
        · intro _
          -- a parenthesis follows the operator, so no precedence was passed over
          cases hparams with
          | some hopen _ _ => simp [hopen.lead]
        · rintro _ ⟨⟩
          rfl
  · intro hgiven
    obtain ⟨subject, next, names, hnames, hparams, hfits, rfl⟩ := hgiven
    cases hnames with
    | function hname => exact .function hname hparams
    | unary hword hsign hc =>
        obtain ⟨param, rfl⟩ := List.length_eq_one_iff.1 (hfits 1 rfl)
        exact .unary hword hsign hc hparams
    | binary hword hspelled hprecedence _ =>
        match names, hfits 2 rfl, hparams with
        | [_, _], _, hparams => exact .binary hword hspelled hprecedence hparams

theorem Slots.cut {names : List String} (h : Slots input names rest) (cut : Cut input) :
    Cut rest := by
  induction h with
  | last hsolid hclose => exact hclose.cut (cut.tail hsolid) (by simp)
  | more hsolid hcomma _ ih => exact ih (hcomma.cut (cut.tail hsolid) (by simp))

theorem Params.cut {names : List String} (h : Params input names rest) (cut : Cut input) :
    Cut rest := by
  cases h with
  | none hopen hclose => exact hclose.cut (hopen.cut cut (by simp)) (by simp)
  | some hopen _ hslots => exact hslots.cut (hopen.cut cut (by simp))

theorem Names.cut {subject : Subject} {last : Operator.Table}
    (h : Names table input subject last rest) (cut : Cut input) : Cut rest := by
  cases h with
  | function hname => exact hname.cut cut
  | unary hword hsign _ => exact hsign.cut (hword.cut cut (by simp))
  | binary hword hspelled hprecedence _ =>
      have cut' := hspelled.cut (hword.cut cut (by simp))
      cases hprecedence with
      | default => exact cut'
      | given hwhole => exact hwhole.cut cut'

theorem Heading.cut {prototype : Prototype} {last : Operator.Table}
    (h : Heading table input prototype last rest) (cut : Cut input) : Cut rest := by
  obtain ⟨subject, next, names, hnames, hparams, -⟩ := heading_iff.1 h
  exact hparams.cut (hnames.cut cut)

theorem Slots.length {names : List String} (h : Slots input names rest) :
    rest.length < input.length := by
  induction h with
  | last _ hmark =>
      have h₁ := Leads.length hmark
      simp only [List.length_cons]
      omega
  | more _ hmark _ ih =>
      have h₁ := Leads.length hmark
      simp only [List.length_cons]
      omega

theorem Params.length {names : List String} (h : Params input names rest) :
    rest.length < input.length := by
  cases h with
  | none hopen hclose =>
      have h₁ := Leads.length hopen
      have h₂ := Leads.length hclose
      omega
  | some hopen _ hslots =>
      have h₁ := Leads.length hopen
      have h₂ := hslots.length
      omega

theorem Names.length {subject : Subject} {last : Operator.Table}
    (h : Names table input subject last rest) : rest.length < input.length := by
  cases h with
  | function hname =>
      have h₁ := Leads.length hname
      omega
  | unary hword hsign _ =>
      have h₁ := Leads.length hword
      have h₂ := Leads.length hsign
      omega
  | binary hword hspelled hprecedence _ =>
      have h₁ := Leads.length hword
      have h₂ := hspelled.length
      cases hprecedence with
      | default => omega
      | given hwhole =>
          have h₃ := hwhole.length
          omega

theorem Heading.length {prototype : Prototype} {last : Operator.Table}
    (h : Heading table input prototype last rest) : rest.length < input.length := by
  obtain ⟨subject, next, names, hnames, hparams, -⟩ := heading_iff.1 h
  exact Nat.lt_trans hparams.length hnames.length

/-- A heading is read exactly when the grammar has one. -/
theorem gives_heading_place {prototype : Prototype} (cut : Cut input) :
    Gives heading (place file table input) prototype t
      ↔ ∃ last rest, Heading table input prototype last rest ∧ Cut rest
          ∧ t = place file last rest := by
  simp only [heading, gives_bind, gives_subject_place cut]
  constructor
  · intro hgiven
    obtain ⟨subject, _, ⟨last, next, hnames, cut', rfl⟩, _, _, h₁, names, _, h₂, h⟩ := hgiven
    obtain ⟨inner, hopen, rfl⟩ := (gives_take_place cut' (by simp)).1 h₁
    obtain ⟨rest, cut₂, rfl, hparams⟩ := (gives_params_place cut' hopen).1 h₂
    have hfits : Fits subject names ∧ prototype = subject.prototype names
        ∧ t = place file last rest := by
      split at h
      · next operands hoperands =>
        simp only [gives_ite, gives_pure, gives_fail, and_false, or_false] at h
        refine ⟨fun n hn => ?_, h.2⟩
        rw [hoperands] at hn
        cases hn
        exact h.1
      · next hoperands =>
        obtain ⟨rfl, rfl⟩ := gives_pure.1 h
        refine ⟨fun n hn => ?_, rfl, rfl⟩
        rw [hoperands] at hn
        cases hn
    obtain ⟨hfits, rfl, rfl⟩ := hfits
    exact ⟨last, rest, heading_iff.2 ⟨subject, next, names, hnames, hparams, hfits, rfl⟩, cut₂, rfl⟩
  · intro hgiven
    obtain ⟨last, rest, hheading, cut₂, rfl⟩ := hgiven
    obtain ⟨subject, next, names, hnames, hparams, hfits, rfl⟩ := heading_iff.1 hheading
    have cut' := hnames.cut cut
    obtain ⟨inner, hopen⟩ : ∃ inner, Mark .openParen next inner := by
      cases hparams with
      | none hopen _ => exact ⟨_, hopen⟩
      | some hopen _ _ => exact ⟨_, hopen⟩
    refine ⟨subject, _, ⟨last, next, hnames, cut', rfl⟩, (), _,
      (gives_take_place cut' (by simp)).2 ⟨inner, hopen, rfl⟩, names, _,
      (gives_params_place cut' hopen).2 ⟨rest, cut₂, rfl, hparams⟩, ?_⟩
    split
    · next operands hoperands =>
      exact gives_ite.2 (.inl ⟨hfits operands hoperands, gives_pure.2 ⟨rfl, rfl⟩⟩)
    · exact gives_pure.2 ⟨rfl, rfl⟩

/-! ## §3. Forms. -/

/-- What may be asked for at the cursor is given exactly when it is met there: there are levels
enough. -/
theorem gives_achieve_place {goal : Goal} {e : Expr} (cut : Cut input)
    (asked : Asked goal input) :
    Gives (achieve .standard goal) (place file table input) e t
      ↔ ∃ rest, Meets table goal input e rest ∧ Cut rest ∧ t = place file table rest := by
  simp only [achieve, gives_bind, gives_cursor]
  constructor
  · intro hgiven
    obtain ⟨_, _, ⟨rfl, rfl⟩, h⟩ := hgiven
    obtain ⟨rest, cut', rfl, hmeets⟩ := (sound_descend (depthFor ⟨file, input⟩)).below cut h asked
    exact ⟨rest, hmeets, cut', rfl⟩
  · intro hgiven
    obtain ⟨rest, hmeets, cut', rfl⟩ := hgiven
    -- two levels for each token are enough for any goal
    have near : cost goal input ≤ 2 * input.length + 3 := by
      cases goal with
      | climb => rw [cost]; omega
      | read production =>
          rw [cost]
          split <;> omega
    exact ⟨_, _, ⟨rfl, rfl⟩, (complete_descend (depthFor ⟨file, input⟩)).below cut near asked hmeets⟩

/-- A body at the cursor is read exactly when one stands there. -/
theorem gives_body_place {e : Expr} (cut : Cut input) :
    Gives (read .standard .block) (place file table input) e t
      ↔ ∃ rest, Derives table (.body e) input rest ∧ Cut rest ∧ t = place file table rest :=
  gives_achieve_place cut (.inr (by decide))

/-- The tokens after the semicolons at the start of a text. -/
theorem dropSemicolons_of_mark (cut : Cut input) (h : Mark .semicolon input rest) :
    dropSemicolons input = dropSemicolons rest := by
  have cut' := h.cut cut (by simp)
  obtain ⟨token, hkind, rfl⟩ := h
  obtain ⟨next, more, rfl⟩ := List.exists_cons_of_ne_nil cut'.ne_nil
  rw [dropSemicolons, if_pos hkind]

theorem dropSemicolons_of_lead (h : lead input ≠ .semicolon) : dropSemicolons input = input := by
  unfold dropSemicolons
  split
  · next token next rest => exact if_neg h
  · rfl

/-- Semicolons at the start are passed over one by one. -/
theorem dropSemicolons_cut (cut : Cut input) :
    Cut (dropSemicolons input) ∧ lead (dropSemicolons input) ≠ .semicolon
      ∧ (dropSemicolons input).length ≤ input.length := by
  induction cut with
  | @last mark hmark => exact ⟨.last hmark, by simp [dropSemicolons, lead, hmark], Nat.le_refl _⟩
  | @cons token next rest lexeme joins cut ih =>
      have whole := Cut.cons lexeme joins cut
      by_cases hkind : token.kind = .semicolon
      · rw [dropSemicolons_of_mark whole ⟨token, hkind, rfl⟩]
        exact ⟨ih.1, ih.2.1, Nat.le_succ_of_le ih.2.2⟩
      · have hlead : lead (token :: next :: rest) ≠ .semicolon := hkind
        rw [dropSemicolons_of_lead hlead]
        exact ⟨whole, hlead, Nat.le_refl _⟩

/-- A form after the semicolons, or the end. -/
inductive Item (table : Operator.Table) :
    List Token → Option Form → Operator.Table → List Token → Prop
  | finished {input : List Token} : lead input = .eof → Item table input none table input
  | definition {last : Operator.Table} {prototype : Prototype} {e : Expr}
      {input next after rest : List Token} :
      Mark .funcWord input next → Heading table next prototype last after →
      Derives last (.body e) after rest →
      Item table input (some (.definition ⟨prototype, e⟩)) last rest
  | expression {e : Expr} {input rest : List Token} :
      Derives table (.body e) input rest →
      Item table input (some (.expression ⟨Prototype.anonymous, e⟩)) table rest

theorem gives_form_place {found : Option Form} (cut : Cut input) :
    Gives (form .standard) (place file table input) found t
      ↔ ∃ last rest, Item table (dropSemicolons input) found last rest ∧ Cut rest
          ∧ t = place file last rest := by
  obtain ⟨cut', -, -⟩ := dropSemicolons_cut cut
  simp only [form, skipSemicolons, gives_bind, gives_modify, gives_kind]
  constructor
  · intro hgiven
    obtain ⟨_, _, rfl, _, _, ⟨rfl, rfl⟩, h⟩ := hgiven
    split at h
    · next hkind =>
      obtain ⟨rfl, rfl⟩ := gives_pure.1 h
      exact ⟨table, _, .finished hkind, cut', rfl⟩
    · simp only [definition, gives_bind, gives_pure] at h
      obtain ⟨_, s, ⟨_, _, h₁, prototype, _, h₂, e, _, h₃, rfl, rfl⟩, rfl, rfl⟩ := h
      obtain ⟨next, hword, rfl⟩ := (gives_take_place cut' (by simp)).1 h₁
      obtain ⟨last, after, hheading, cut₂, rfl⟩ :=
        (gives_heading_place (hword.cut cut' (by simp))).1 h₂
      obtain ⟨rest, hbody, cut₃, rfl⟩ := (gives_body_place cut₂).1 h₃
      exact ⟨last, rest, .definition hword hheading hbody, cut₃, rfl⟩
    · simp only [freeExpression, gives_bind, gives_pure] at h
      obtain ⟨_, s, ⟨e, _, h, rfl, rfl⟩, rfl, rfl⟩ := h
      obtain ⟨rest, hbody, cut₂, rfl⟩ := (gives_body_place cut').1 h
      exact ⟨table, rest, .expression hbody, cut₂, rfl⟩
  · intro hgiven
    obtain ⟨last, rest, hitem, cut₂, rfl⟩ := hgiven
    refine ⟨(), _, rfl, ?_⟩
    cases hitem with
    | finished hlead => exact ⟨.eof, _, ⟨hlead.symm, rfl⟩, gives_pure.2 ⟨rfl, rfl⟩⟩
    | @definition _ _ _ _ next after _ hword hheading hbody =>
        have cut₃ := hword.cut cut' (by simp)
        have cut₄ := hheading.cut cut₃
        refine ⟨.funcWord, _, ⟨hword.lead.symm, rfl⟩, ?_⟩
        have h₁ : Gives (take .funcWord "func") (place file table _) () (place file table next) :=
          (gives_take_place cut' (by simp)).2 ⟨next, hword, rfl⟩
        have h₂ : Gives heading (place file table next) _ (place file last after) :=
          (gives_heading_place cut₃).2 ⟨last, after, hheading, cut₄, rfl⟩
        have h₃ : Gives (read .standard .block) (place file last after) _ (place file last rest) :=
          (gives_body_place cut₄).2 ⟨rest, hbody, cut₂, rfl⟩
        exact .bind (.bind h₁ (.bind h₂ (.bind h₃ (gives_pure.2 ⟨rfl, rfl⟩))))
          (gives_pure.2 ⟨rfl, rfl⟩)
    | expression hbody =>
        have h : Gives (read .standard .block) (place file table _) _ (place file table rest) :=
          (gives_body_place cut').2 ⟨rest, hbody, cut₂, rfl⟩
        refine ⟨_, _, ⟨rfl, rfl⟩, ?_⟩
        split
        -- neither the end nor the word of a definition starts a body
        · next hkind => exact absurd hkind (lead_ne_of_derives hbody rfl)
        · next hkind => exact absurd hkind (lead_ne_of_derives hbody rfl)
        · exact .bind (.bind h (gives_pure.2 ⟨rfl, rfl⟩)) (gives_pure.2 ⟨rfl, rfl⟩)

/-! ## §4. Programs. -/

theorem Item.cut {found : Option Form} {last : Operator.Table}
    (h : Item table input found last rest) (cut : Cut input) : Cut rest := by
  cases h with
  | finished => exact cut
  | definition hword hheading hbody =>
      exact hbody.cut (hheading.cut (hword.cut cut (by simp)))
  | expression hbody => exact hbody.cut cut

/-- A form takes at least one token. -/
theorem Item.length {form : Form} {last : Operator.Table}
    (h : Item table input (some form) last rest) : rest.length < input.length := by
  cases h with
  | @definition _ _ _ _ next after _ hword hheading hbody =>
      have h₁ := Leads.length hword
      have h₂ := hheading.length
      have h₃ := weight_le hbody
      simp only [Phrase.weight] at h₃
      omega
  | expression hbody =>
      have h₁ := weight_le hbody
      simp only [Phrase.weight] at h₁
      omega

theorem Forms.cut {forms : List Form} {last : Operator.Table}
    (h : Forms table input forms last rest) (cut : Cut input) : Cut rest := by
  induction h with
  | nil => exact cut
  | skip hsemicolon _ ih => exact ih (hsemicolon.cut cut (by simp))
  | definition hword hheading hbody _ ih =>
      exact ih (hbody.cut (hheading.cut (hword.cut cut (by simp))))
  | expression hbody _ ih => exact ih (hbody.cut cut)

/-- Forms are nothing, or one form after the semicolons and then forms. -/
theorem forms_iff {last : Operator.Table} {forms : List Form} {mark : Token}
    (cut : Cut input) :
    Forms table input forms last [mark]
      ↔ (forms = [] ∧ last = table ∧ dropSemicolons input = [mark])
        ∨ ∃ form more inside after, forms = form :: more
            ∧ Item table (dropSemicolons input) (some form) inside after
            ∧ Forms inside after more last [mark] := by
  constructor
  · intro h
    -- the end mark is an index of the rules, so it is named before the induction
    generalize hrest : [mark] = rest at h
    induction h with
    | nil =>
        subst hrest
        exact .inl ⟨rfl, rfl, rfl⟩
    | skip hsemicolon _ ih =>
        rw [dropSemicolons_of_mark cut hsemicolon]
        exact ih (hsemicolon.cut cut (by simp)) hrest
    | definition hword hheading hbody hmore _ =>
        subst hrest
        rw [dropSemicolons_of_lead (by simp [hword.lead])]
        exact .inr ⟨_, _, _, _, rfl, .definition hword hheading hbody, hmore⟩
    | expression hbody hmore _ =>
        subst hrest
        rw [dropSemicolons_of_lead (lead_ne_of_derives hbody rfl)]
        exact .inr ⟨_, _, _, _, rfl, .expression hbody, hmore⟩
  · intro h
    -- the grammar passes over semicolons one at a time, the reader over all at once
    have skipped : Forms table (dropSemicolons input) forms last [mark] →
        Forms table input forms last [mark] := by
      clear h
      induction cut with
      | last _ => exact id
      | @cons token next rest lexeme joins cut ih =>
          intro h
          have whole := Cut.cons lexeme joins cut
          by_cases hkind : token.kind = .semicolon
          · have hsemicolon : Mark .semicolon (token :: next :: rest) (next :: rest) :=
              ⟨token, hkind, rfl⟩
            rw [dropSemicolons_of_mark whole hsemicolon] at h
            exact .skip hsemicolon (ih h)
          · rwa [dropSemicolons_of_lead (show lead (token :: next :: rest) ≠ _ from hkind)] at h
    apply skipped
    rcases h with ⟨rfl, rfl, hdrop⟩ | ⟨form, more, inside, after, rfl, hitem, hmore⟩
    · rw [hdrop]
      exact .nil
    · cases hitem with
      | definition hword hheading hbody => exact .definition hword hheading hbody hmore
      | expression hbody => exact .expression hbody hmore

/-- The forms that are read are those of the grammar, up to the end mark. -/
theorem gives_forms_place (bound : Nat) :
    ∀ {table : Operator.Table} {input : List Token} {forms : List Form} {t : ReadState},
      Cut input → input.length ≤ bound →
      (Gives (upTo (form .standard) bound) (place file table input) forms t
        ↔ ∃ last mark, mark.kind = Kind.eof ∧ Forms table input forms last [mark]
            ∧ t = place file last [mark]) := by
  induction bound with
  | zero =>
      intro table input forms t cut hbound
      exact absurd cut.length_pos (Nat.not_lt.2 hbound)
  | succ bound ih =>
      intro table input forms t cut hbound
      have hdrop := dropSemicolons_cut cut
      rw [gives_upTo_succ]
      constructor
      · intro hgiven
        obtain ⟨rfl, h⟩ | ⟨first, more, s, rfl, h, hmore⟩ := hgiven
        · obtain ⟨last, rest, hitem, cut', rfl⟩ := (gives_form_place cut).1 h
          cases hitem with
          | finished hlead =>
              obtain ⟨mark, rest, heq⟩ := List.exists_cons_of_ne_nil cut'.ne_nil
              rw [heq] at hlead cut' ⊢
              cases cut'.eq_nil_of_eof hlead
              exact ⟨table, mark, hlead, (forms_iff cut).2 (.inl ⟨rfl, rfl, heq⟩), rfl⟩
        · obtain ⟨inside, after, hitem, cut', rfl⟩ := (gives_form_place cut).1 h
          have hlength := hitem.length
          obtain ⟨last, mark, hmark, hforms, rfl⟩ := (ih cut' (by omega)).1 hmore
          exact ⟨last, mark, hmark,
            (forms_iff cut).2 (.inr ⟨_, _, _, _, rfl, hitem, hforms⟩), rfl⟩
      · intro hgiven
        obtain ⟨last, mark, hmark, hforms, rfl⟩ := hgiven
        rcases (forms_iff cut).1 hforms with
          ⟨rfl, rfl, heq⟩ | ⟨first, more, inside, after, rfl, hitem, hmore⟩
        · refine .inl ⟨rfl, (gives_form_place cut).2 ⟨last, _, .finished ?_, hdrop.1, by rw [heq]⟩⟩
          rw [heq]
          exact hmark
        · have hlength := hitem.length
          have cut' := hitem.cut hdrop.1
          refine .inr ⟨first, more, _, rfl,
            (gives_form_place cut).2 ⟨inside, after, hitem, cut', rfl⟩, ?_⟩
          exact (ih cut' (by omega)).2 ⟨last, mark, hmark, hmore, rfl⟩

/-- Tokens give forms exactly when the grammar accepts them as those forms. -/
theorem ofTokens_ok_iff {tokens : List Token} {forms : List Form} {last : Operator.Table}
    (cut : Cut tokens) :
    Program.ofTokens file tokens table = ⟨.ok forms, last⟩
      ↔ Accepts table tokens forms last := by
  have hgives : Program.ofTokens file tokens table = ⟨.ok forms, last⟩
      ↔ ∃ t, Gives (Grammar.forms .standard) (place file table tokens) forms t
          ∧ t.table = last := by
    unfold Program.ofTokens Gives
    cases (Grammar.forms .standard).run ⟨⟨file, tokens⟩, table⟩ with
    | ok found t =>
        constructor
        · intro h
          cases h
          exact ⟨t, rfl, rfl⟩
        · intro hgiven
          obtain ⟨_, h, rfl⟩ := hgiven
          cases h
          rfl
    | error error t => simp
  rw [hgives, Grammar.forms]
  constructor
  · intro hgiven
    obtain ⟨t, h, rfl⟩ := hgiven
    obtain ⟨last, mark, hmark, hforms, rfl⟩ :=
      (gives_forms_place _ cut (Nat.le_succ _)).1 (gives_many.1 h)
    exact ⟨mark, hmark, hforms⟩
  · intro hgiven
    obtain ⟨mark, hmark, hforms⟩ := hgiven
    exact ⟨_, gives_many.2 ((gives_forms_place _ cut (Nat.le_succ _)).2
      ⟨last, mark, hmark, hforms, rfl⟩), rfl⟩

/-- A text with tokens is read from those. -/
theorem ofSource_of_tokenize {source : String} {tokens : List Token}
    (h : tokenize file source = .ok tokens) :
    Program.ofSource file source table = Program.ofTokens file tokens table := by
  rw [Program.ofSource, h]

theorem tokenize_of_ofSource {source : String} {forms : List Form} {last : Operator.Table}
    (h : Program.ofSource file source table = ⟨.ok forms, last⟩) :
    ∃ tokens, tokenize file source = .ok tokens := by
  unfold Program.ofSource at h
  split at h
  · next tokens htokens => exact ⟨tokens, htokens⟩
  · exact absurd h nofun

/-- A text whose scan does not fail has tokens. -/
theorem exists_tokens {source : String} (h : (tokenize file source).isOk = true) :
    ∃ tokens, tokenize file source = .ok tokens := by
  match htokens : tokenize file source with
  | .ok tokens => exact ⟨tokens, rfl⟩
  | .error error =>
      rw [htokens] at h
      exact absurd h nofun

/-- The tokens of a text are forms in one way. -/
theorem Accepts.unique {tokens : List Token} {forms forms' : List Form}
    {last last' : Operator.Table} (cut : Cut tokens) (h : Accepts table tokens forms last)
    (h' : Accepts table tokens forms' last') : forms = forms' ∧ last = last' := by
  have heq : Program.ofTokens "" tokens table = ⟨.ok forms, last⟩ := (ofTokens_ok_iff cut).2 h
  rw [(ofTokens_ok_iff cut).2 h'] at heq
  cases heq
  exact ⟨rfl, rfl⟩

/-- **A text is a program exactly when the grammar accepts its tokens**, with the forms
and the table that the grammar gives them. -/
theorem program_iff_accepts {source : String} {tokens : List Token} {forms : List Form}
    {last : Operator.Table} (tokenizes : tokenize file source = .ok tokens)
    (bounded : Text.byteLength source.toList < 4294967296) :
    Program.ofTokens file tokens table = ⟨.ok forms, last⟩ ↔ Accepts table tokens forms last :=
  ofTokens_ok_iff (cut_of_tokenize tokenizes bounded)

/-- An operator that a definition declares is one in the form after it. -/
theorem accepts_declared_operator :
    ∃ tokens, tokenize "sel" "func binary <> 12 (x, y) x; a <> b*c" = .ok tokens
      ∧ Accepts .standard tokens
          [.definition ⟨⟨"binary<>", ["x", "y"], true, 12⟩, .scalar "x"⟩,
           .expression ⟨.anonymous,
             .binary "<>" (.scalar "a") (.binary "*" (.scalar "b") (.scalar "c"))⟩]
          (Operator.Table.standard.declare "<>" 12) := by
  have hread : Program.ofSource "sel" "func binary <> 12 (x, y) x; a <> b*c" .standard
      = ⟨.ok [.definition ⟨⟨"binary<>", ["x", "y"], true, 12⟩, .scalar "x"⟩,
          .expression ⟨.anonymous,
            .binary "<>" (.scalar "a") (.binary "*" (.scalar "b") (.scalar "c"))⟩],
        Operator.Table.standard.declare "<>" 12⟩ := by
    decide +kernel
  obtain ⟨tokens, htokens⟩ := tokenize_of_ofSource hread
  rw [ofSource_of_tokenize htokens] at hread
  exact ⟨tokens, htokens, (program_iff_accepts htokens (by decide)).1 hread⟩

end Fixity.Language
