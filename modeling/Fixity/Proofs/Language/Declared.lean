/-
  Fixity.Proofs.Language.Declared
  ────────────────────────────────
  **THE OPERATORS THAT TOKENS DECLARE.**

  A definition starts with a word that no expression holds.  So the operators that a
  text declares can be read off its tokens, without a table: wherever that word
  stands, the heading after it says which operator it declares, if any.

  A text that ends inside a block has had all its headings read, however its
  expressions were read, so it leaves the table with all that its tokens declare.
  More text after a newline declares these first, and then more.

  Main results: `declarations_of_passed` (only the word that starts a definition
  matters), `table_of_runsOut` (what a text that ends inside a block declares) and
  `declarations_seam` (more text keeps it).
-/
import Fixity.Proofs.Language.Joining
import Fixity.Proofs.Language.Programs
import Fixity.Proofs.Language.Unfinished
import Fixity.Proofs.Operators.Declarations

namespace Fixity

/-- What a prototype puts into the table: its operator, if that has two operands. -/
def Prototype.entries (prototype : Prototype) : List Operator.Entry :=
  if prototype.isBinary then (prototype.operatorName?.map (·, prototype.precedence)).toList
  else []

namespace Prototype

theorem entries_function (name : String) (params : List String) (precedence : UInt32) :
    entries ⟨name, params, false, precedence⟩ = [] := rfl

theorem entries_unary (name param : String) (precedence : UInt32) :
    entries ⟨name, [param], true, precedence⟩ = [] := rfl

/-- Only an operator between two operands goes into the table. -/
theorem entries_binary (spelling left right : String) (precedence : UInt32) :
    entries ⟨binaryWord ++ spelling, [left, right], true, precedence⟩
      = [(spelling, precedence)] := by
  simp [entries, isBinary, operatorName?_binary]

end Prototype

/-- What a subject puts into the table. -/
def Grammar.Subject.entries : Grammar.Subject → List Operator.Entry
  | .binary spelling precedence => [(spelling, precedence)]
  | _ => []

end Fixity

namespace Fixity.Language

open Operator (isOperatorChar)
open Grammar Read

/-! ## §1. Headings in tokens. -/

/-- The operator that a heading at the start of the tokens declares. -/
def declaredAt (tokens : List Token) : List Operator.Entry :=
  match subject.run (place "" .empty tokens) with
  | .ok subject _ => subject.entries
  | .error _ _ => []

/-- The operators that the tokens declare, in order: those of the headings. -/
def declarations : List Token → List Operator.Entry
  | [] => []
  | token :: rest =>
    if token.kind = .funcWord then declaredAt rest ++ declarations rest else declarations rest

variable {table : Operator.Table} {input input' rest more : List Token} {t : ReadState}

/-- The word of a definition declares what the heading after it does. -/
theorem declarations_of_mark (h : Mark .funcWord input rest) :
    declarations input = declaredAt rest ++ declarations rest := by
  obtain ⟨token, hkind, rfl⟩ := h
  rw [declarations, if_pos hkind]

/-- Tokens that start no definition declare nothing. -/
theorem declarations_of_passed (h : Passed input rest) : declarations input = declarations rest := by
  obtain ⟨used, rfl, hused⟩ := h
  induction used with
  | nil => rfl
  | cons token used ih =>
      rw [List.cons_append, declarations, if_neg (hused token List.mem_cons_self).1]
      exact ih fun other hmem => hused other (List.mem_cons_of_mem _ hmem)

/-- They stand before a seam as well. -/
theorem Passed.seam (h : Passed input rest) (seam : Seam more input input') :
    ∃ rest', Passed input' rest' ∧ Seam more rest rest' := by
  obtain ⟨used, rfl, hused⟩ := h
  induction used generalizing input' with
  | nil => exact ⟨input', .refl _, seam⟩
  | cons token used ih =>
      have hfirst := hused token List.mem_cons_self
      rw [List.cons_append] at seam
      generalize htail : used ++ rest = tail at seam
      cases seam with
      | stop hmark => exact absurd hmark hfirst.2
      | @step _ other _ _ same seam =>
          subst htail
          obtain ⟨rest', ⟨used', rfl, hused'⟩, seam'⟩ :=
            ih (fun token hmem => hused token (List.mem_cons_of_mem _ hmem)) seam
          refine ⟨rest', ⟨other :: used', rfl, fun token hmem => ?_⟩, seam'⟩
          obtain rfl | hmem := List.mem_cons.1 hmem
          · rw [same.kind]
            exact hfirst
          · exact hused' token hmem

/-! ## §2. Texts that end in a phrase. -/

/-- Nothing stands before the end but tokens that declare nothing. -/
def Ending (input : List Token) : Prop := ∃ mark, mark.kind = Kind.eof ∧ Passed input [mark]

theorem Passed.ending (h : Passed input rest) (ends : Cut rest → Ending rest) (cut : Cut input) :
    Ending input := by
  obtain ⟨mark, hmark, hrest⟩ := ends (h.cut cut)
  exact ⟨mark, hmark, h.trans hrest⟩

/-- No token of a phrase that is not finished starts a definition. -/
theorem Unfinished.ending {region : Region} (h : Unfinished table region input) :
    Cut input → Ending input := by
  induction h with
  | plain _ ih | statement _ ih | first _ ih | unsigned _ ih | argument _ ih => exact ih
  | block hopen _ ih | paren hopen _ ih | index hopen _ ih =>
      exact (hopen.passed (by simp)).ending ih
  -- here the tokens are over, and the end mark is the only one left
  | @ends input hlead =>
      intro cut
      obtain ⟨mark, rest, rfl⟩ := List.exists_cons_of_ne_nil cut.ne_nil
      cases cut.eq_nil_of_eof hlead
      exact ⟨mark, hlead, .refl _⟩
  | laterStatement hbody _ ih | chain hbody _ ih => exact hbody.passed.ending ih
  | separated hbody hmark _ ih => exact (hbody.passed.trans (hmark.passed (by simp))).ending ih
  | right hspelled _ _ ih => exact hspelled.passed.ending ih
  | laterLink hspelled _ hoperand _ ih => exact (hspelled.passed.trans hoperand.passed).ending ih
  | signed hsign _ _ ih => exact hsign.passed.ending ih
  | element hname _ ih => exact hname.passed.ending ih
  | laterIndex hopen hindex hclose _ ih =>
      exact ((hopen.passed (by simp)).trans
        (hindex.passed.trans (hclose.passed (by simp)))).ending ih
  | call hname hopen _ ih => exact (hname.passed.trans (hopen.passed (by simp))).ending ih
  | laterArgument hargument hcomma _ ih =>
      exact (hargument.passed.trans (hcomma.passed (by simp))).ending ih
  | condition hword _ ih | whileCondition hword _ ih => exact (hword.passed (by simp)).ending ih
  | consequent hword hcondition hthen _ ih =>
      exact ((hword.passed (by simp)).trans
        (hcondition.passed.trans (hthen.passed (by simp)))).ending ih
  | alternative hword hcondition hthen hbody helse _ ih =>
      exact ((hword.passed (by simp)).trans (hcondition.passed.trans ((hthen.passed (by simp)).trans
        (hbody.passed.trans (helse.passed (by simp)))))).ending ih
  | countFirst hword hname hsign _ ih =>
      exact ((hword.passed (by simp)).trans (hname.passed.trans hsign.passed)).ending ih
  | countLast hword hname hsign hfirst hcomma _ ih =>
      exact ((hword.passed (by simp)).trans (hname.passed.trans (hsign.passed.trans
        (hfirst.passed.trans (hcomma.passed (by simp)))))).ending ih
  | countStep hword hname hsign hfirst hcomma hlast hcomma' _ ih =>
      exact ((hword.passed (by simp)).trans (hname.passed.trans (hsign.passed.trans
        (hfirst.passed.trans ((hcomma.passed (by simp)).trans
          (hlast.passed.trans (hcomma'.passed (by simp)))))))).ending ih
  | countBody hword hname hsign hfirst hcomma hlast _ ih =>
      exact ((hword.passed (by simp)).trans (hname.passed.trans (hsign.passed.trans
        (hfirst.passed.trans ((hcomma.passed (by simp)).trans hlast.passed))))).ending ih
  | countStepBody hword hname hsign hfirst hcomma hlast hcomma' hstep _ ih =>
      exact ((hword.passed (by simp)).trans (hname.passed.trans (hsign.passed.trans
        (hfirst.passed.trans ((hcomma.passed (by simp)).trans (hlast.passed.trans
          ((hcomma'.passed (by simp)).trans hstep.passed))))))).ending ih
  | whileBody hword hcondition _ ih =>
      exact ((hword.passed (by simp)).trans hcondition.passed).ending ih
  | times hword hopen _ ih =>
      exact ((hword.passed (by simp)).trans (hopen.passed (by simp))).ending ih
  | repeatBody hword hopen htimes hclose _ ih =>
      exact ((hword.passed (by simp)).trans ((hopen.passed (by simp)).trans
        (htimes.passed.trans (hclose.passed (by simp))))).ending ih

theorem Ending.declarations (h : Ending input) : declarations input = [] := by
  obtain ⟨mark, hmark, hpassed⟩ := h
  rw [declarations_of_passed hpassed, Language.declarations, if_neg (by simp [hmark])]
  rfl

/-! ## §3. Headings declare what their prototypes say. -/

/-- A prototype with as many parameters as operands declares what its subject does. -/
theorem entries_prototype {subject : Subject} {names : List String} (fits : Fits subject names) :
    (subject.prototype names).entries = subject.entries := by
  cases subject with
  | function name => exact Prototype.entries_function _ _ _
  | unary symbol =>
      obtain ⟨param, rfl⟩ := List.length_eq_one_iff.1 (fits 1 rfl)
      exact Prototype.entries_unary _ _ _
  | binary spelling precedence =>
      match names, fits 2 rfl with
      | [left, right], _ => exact Prototype.entries_binary spelling left right precedence

/-- What is named is declared at once. -/
theorem Names.declares {subject : Subject} {last : Operator.Table}
    (h : Names table input subject last rest) : last = table.declareAll subject.entries := by
  cases h <;> rfl

theorem Names.passed {subject : Subject} {last : Operator.Table}
    (h : Names table input subject last rest) : Passed input rest := by
  cases h with
  | function hname => exact hname.passed
  | unary hword hsign _ => exact (hword.passed (by simp)).trans hsign.passed
  | binary hword hspelled hprecedence _ =>
      refine (hword.passed (by simp)).trans (hspelled.passed.trans ?_)
      cases hprecedence with
      | default => exact .refl _
      | given hwhole => exact hwhole.passed

theorem Names.lead {subject : Subject} {last : Operator.Table}
    (h : Names table input subject last rest) :
    Language.lead input = .identifier ∨ Language.lead input = .unaryWord
      ∨ Language.lead input = .binaryWord := by
  cases h with
  | function hname =>
      obtain ⟨token, hp, hlead⟩ := Leads.lead hname
      exact .inl (hlead.trans hp.1)
  | unary hword _ _ => exact .inr (.inl hword.lead)
  | binary hword _ _ _ => exact .inr (.inr hword.lead)

/-- The tokens alone show what is named at their start. -/
theorem Names.declaredAt {subject : Subject} {last : Operator.Table} (cut : Cut input)
    (h : Names table input subject last rest) : declaredAt input = subject.entries := by
  -- what is named does not depend on the table; only the table after it does
  have hnames : ∃ last', Names .empty input subject last' rest := by
    cases h with
    | function hname => exact ⟨_, .function hname⟩
    | unary hword hsign hc => exact ⟨_, .unary hword hsign hc⟩
    | binary hword hspelled hprecedence hlead => exact ⟨_, .binary hword hspelled hprecedence hlead⟩
  obtain ⟨last', hnames⟩ := hnames
  have hrun : Grammar.subject.run (place "" .empty input) = .ok subject (place "" last' rest) :=
    (gives_subject_place cut).2 ⟨last', rest, hnames, h.cut cut, rfl⟩
  unfold Language.declaredAt
  rw [hrun]

/-- A slot that holds the word of a definition declares nothing: a comma or a
parenthesis comes after it. -/
theorem Slots.declarations {names : List String} (h : Slots input names rest) (cut : Cut input) :
    declarations input = declarations rest := by
  have hslot {slot : Token} {input : List Token} (cut : Cut input)
      (hlead : lead input = .comma ∨ lead input = .closeParen) :
      Language.declarations (slot :: input) = Language.declarations input := by
    rw [Language.declarations]
    split
    -- a subject starts with a name or a word, and here a comma or a parenthesis stands
    · have hnone : declaredAt input = [] := by
        unfold Language.declaredAt
        split
        · next subject t hrun =>
          obtain ⟨last, rest, hnames, -, -⟩ := (gives_subject_place cut).1 hrun
          obtain h | h | h := hnames.lead <;> simp [h] at hlead
        · rfl
      rw [hnone, List.nil_append]
    · rfl
  induction h with
  | last hsolid hclose =>
      have cut' := cut.tail hsolid
      rw [hslot cut' (.inr hclose.lead), declarations_of_passed (hclose.passed (by simp))]
  | more hsolid hcomma _ ih =>
      have cut' := cut.tail hsolid
      have hpassed := hcomma.passed (by simp)
      rw [hslot cut' (.inl hcomma.lead), declarations_of_passed hpassed, ih (hpassed.cut cut')]

theorem Params.declarations {names : List String} (h : Params input names rest)
    (cut : Cut input) : declarations input = declarations rest := by
  cases h with
  | none hopen hclose =>
      exact declarations_of_passed ((hopen.passed (by simp)).trans (hclose.passed (by simp)))
  | some hopen _ hslots =>
      have hpassed := hopen.passed (by simp)
      rw [declarations_of_passed hpassed, hslots.declarations (hpassed.cut cut)]

/-- A heading leaves the table with what its prototype declares, and so the tokens say. -/
theorem Heading.declares {prototype : Prototype} {last : Operator.Table}
    (h : Heading table input prototype last rest) (cut : Cut input) :
    last = table.declareAll prototype.entries ∧ declaredAt input = prototype.entries
      ∧ declarations input = declarations rest := by
  obtain ⟨subject, next, names, hnames, hparams, fits, rfl⟩ := heading_iff.1 h
  rw [entries_prototype fits]
  refine ⟨hnames.declares, hnames.declaredAt cut, ?_⟩
  rw [declarations_of_passed hnames.passed, hparams.declarations (hnames.cut cut)]

/-! ## §4. Forms of which the last is not finished. -/

/-- Forms, the last of which is not finished, and the operators that they declare. -/
inductive UnfinishedForms : Operator.Table → List Token → List Operator.Entry → Prop
  | skip {table : Operator.Table} {input next : List Token} {entries : List Operator.Entry} :
      Mark .semicolon input next → UnfinishedForms table next entries →
      UnfinishedForms table input entries
  | definition {table inside : Operator.Table} {prototype : Prototype} {e : Expr}
      {input next after rest : List Token} {entries : List Operator.Entry} :
      Mark .funcWord input next → Heading table next prototype inside after →
      Derives inside (.body e) after rest → UnfinishedForms inside rest entries →
      UnfinishedForms table input (prototype.entries ++ entries)
  | expression {table : Operator.Table} {e : Expr} {input rest : List Token}
      {entries : List Operator.Entry} :
      Derives table (.body e) input rest → UnfinishedForms table rest entries →
      UnfinishedForms table input entries
  | lastDefinition {table inside : Operator.Table} {prototype : Prototype}
      {input next after : List Token} :
      Mark .funcWord input next → Heading table next prototype inside after →
      Unfinished inside .body after → UnfinishedForms table input prototype.entries
  | lastExpression {table : Operator.Table} {input : List Token} :
      Unfinished table .body input → UnfinishedForms table input []

/-- The tokens declare what the forms do. -/
theorem UnfinishedForms.declarations {entries : List Operator.Entry}
    (h : UnfinishedForms table input entries) : Cut input → declarations input = entries := by
  induction h with
  | skip hmark _ ih =>
      intro cut
      have hpassed := hmark.passed (by simp)
      rw [declarations_of_passed hpassed, ih (hpassed.cut cut)]
  | definition hfunc hheading hbody _ ih =>
      intro cut
      have cut' := hfunc.cut cut (by simp)
      obtain ⟨-, hat, hafter⟩ := hheading.declares cut'
      rw [declarations_of_mark hfunc, hat, hafter, declarations_of_passed hbody.passed,
        ih (hbody.cut (hheading.cut cut'))]
  | expression hbody _ ih =>
      intro cut
      rw [declarations_of_passed hbody.passed, ih (hbody.cut cut)]
  | lastDefinition hfunc hheading hbody =>
      intro cut
      have cut' := hfunc.cut cut (by simp)
      obtain ⟨-, hat, hafter⟩ := hheading.declares cut'
      rw [declarations_of_mark hfunc, hat, hafter, (hbody.ending (hheading.cut cut')).declarations,
        List.append_nil]
  | lastExpression hbody =>
      intro cut
      exact (hbody.ending cut).declarations

/-- Whatever comes after a seam, the same is declared before it. -/
theorem UnfinishedForms.declarations_seam {entries : List Operator.Entry}
    (h : UnfinishedForms table input entries) :
    ∀ {input' : List Token}, Cut input → Cut input' → Seam more input input' →
      ∃ others, Language.declarations input' = entries ++ others := by
  induction h with
  | skip hmark _ ih =>
      intro input' cut cut' seam
      obtain ⟨next', hpassed, seam⟩ := (hmark.passed (by simp)).seam seam
      rw [declarations_of_passed hpassed]
      exact ih (hmark.cut cut (by simp)) (hpassed.cut cut') seam
  | definition hfunc hheading hbody _ ih =>
      intro input' cut cut' seam
      obtain ⟨next', hfunc', seam⟩ := hfunc.seam seam (by simp)
      obtain ⟨after', hheading', seam⟩ := hheading.seam seam
      obtain ⟨rest', hpassed, seam⟩ := hbody.passed.seam seam
      have cut₂ := hfunc'.cut cut' (by simp)
      obtain ⟨-, hat, hafter⟩ := hheading'.declares cut₂
      obtain ⟨others, hothers⟩ :=
        ih (hbody.cut (hheading.cut (hfunc.cut cut (by simp))))
          (hpassed.cut (hheading'.cut cut₂)) seam
      refine ⟨others, ?_⟩
      rw [declarations_of_mark hfunc', hat, hafter, declarations_of_passed hpassed,
        hothers, List.append_assoc]
  | expression hbody _ ih =>
      intro input' cut cut' seam
      obtain ⟨rest', hpassed, seam⟩ := hbody.passed.seam seam
      rw [declarations_of_passed hpassed]
      exact ih (hbody.cut cut) (hpassed.cut cut') seam
  | lastDefinition hfunc hheading _ =>
      intro input' cut cut' seam
      obtain ⟨next', hfunc', seam⟩ := hfunc.seam seam (by simp)
      obtain ⟨after', hheading', seam⟩ := hheading.seam seam
      obtain ⟨-, hat, hafter⟩ := hheading'.declares (hfunc'.cut cut' (by simp))
      exact ⟨_, by rw [declarations_of_mark hfunc', hat]⟩
  -- what an unfinished body runs into after the seam is left open
  | lastExpression => exact fun _ _ _ => ⟨_, rfl⟩

/-! ## §5. Reading that ends inside a block. -/

theorem subject_runsOut {s t : ReadState} : ¬ RunsOut subject s t := by
  have hprecedence {s t : ReadState} : ¬ RunsOut declaredPrecedence s t := by
    simp only [declaredPrecedence, runsOut_bind, runsOut_kind, gives_kind, runsOut_ite,
      runsOut_pure, and_false, or_false, false_or]
    intro h
    obtain ⟨_, _, ⟨rfl, rfl⟩, -, h⟩ := h
    exact runsOut_numberWith (by simp) h
  intro h
  simp only [subject, runsOut_bind, runsOut_kind, gives_kind, false_or] at h
  obtain ⟨_, _, ⟨rfl, rfl⟩, h⟩ := h
  split at h
  · simp at h
  · simp [unarySubject] at h
  · simp only [binarySubject, runsOut_bind, runsOut_advance, runsOut_cursor, gives_cursor,
      false_or] at h
    obtain ⟨_, _, -, _, _, ⟨rfl, rfl⟩, h⟩ := h
    split at h
    · simp at h
    · simp [hprecedence] at h
  · simp at h

theorem params_runsOut {s t : ReadState} : ¬ RunsOut params s t := by
  have hslot {s t : ReadState} : ¬ RunsOut slot s t := by simp [slot]
  have hslots (bound : Nat) : ∀ {s t : ReadState},
      ¬ RunsOut (separatedUpTo slot .expectedParamOrParen bound) s t := by
    induction bound with
    | zero =>
        intro s t h
        obtain ⟨error, h, hfault⟩ := h
        rw [(fails_separatedUpTo_zero.1 h).1] at hfault
        cases hfault
    | succ bound ih =>
        intro s t h
        obtain h | ⟨_, _, -, -, h⟩ := runsOut_separatedUpTo (by simp) h
        · exact hslot h
        · exact ih h
  intro h
  simp only [params, bind_pure_comp, runsOut_map] at h
  obtain ⟨error, h, hfault⟩ := h
  exact hslots _ ⟨error, (fails_separated.1 h).2, hfault⟩

/-- A heading is not a place where the end asks for more. -/
theorem heading_runsOut {s t : ReadState} : ¬ RunsOut heading s t := by
  intro h
  simp only [heading, runsOut_bind, subject_runsOut, runsOut_take, params_runsOut, false_or] at h
  obtain ⟨subject, _, -, _, _, -, names, _, -, h⟩ := h
  split at h
  · simp at h
  · simp at h

theorem body_runsOut {file : String} (cut : Cut input)
    (h : RunsOut (read .standard .block) (place file table input) t) :
    Unfinished table .body input ∧ t.table = table := by
  simp only [Grammar.read, achieve, runsOut_bind, runsOut_cursor, gives_cursor, false_or] at h
  obtain ⟨_, _, ⟨rfl, rfl⟩, h⟩ := h
  exact (unfinished_descend (depthFor ⟨file, input⟩)).block cut h

theorem form_runsOut {file : String} (cut : Cut input)
    (h : RunsOut (form .standard) (place file table input) t) :
    ∃ entries, UnfinishedForms table (dropSemicolons input) entries
      ∧ t.table = table.declareAll entries := by
  obtain ⟨cut', -, -⟩ := dropSemicolons_cut cut
  simp only [form, skipSemicolons, runsOut_bind, runsOut_modify, gives_modify, runsOut_kind,
    gives_kind, false_or] at h
  obtain ⟨_, _, rfl, _, _, ⟨rfl, rfl⟩, h⟩ := h
  split at h
  · simp at h
  · simp only [definition, runsOut_bind, runsOut_take, heading_runsOut, runsOut_pure, and_false,
      exists_false, or_false, false_or] at h
    obtain ⟨_, _, h₁, prototype, _, h₂, h⟩ := h
    obtain ⟨next, hfunc, rfl⟩ := (gives_take_place cut' (by simp)).1 h₁
    have cut₂ := hfunc.cut cut' (by simp)
    obtain ⟨last, after, hheading, cut₃, rfl⟩ := (gives_heading_place cut₂).1 h₂
    obtain ⟨hbody, htable⟩ := body_runsOut cut₃ h
    refine ⟨_, .lastDefinition hfunc hheading hbody, ?_⟩
    rw [htable]
    exact (hheading.declares cut₂).1
  · simp only [freeExpression, runsOut_bind, runsOut_pure, and_false, exists_false, or_false] at h
    obtain ⟨hbody, htable⟩ := body_runsOut cut' h
    exact ⟨[], .lastExpression hbody, htable⟩

/-- Semicolons may stand before forms that are not finished. -/
theorem UnfinishedForms.after_semicolons {entries : List Operator.Entry} (cut : Cut input) :
    UnfinishedForms table (dropSemicolons input) entries → UnfinishedForms table input entries := by
  induction cut with
  | last _ => exact id
  | @cons token next rest lexeme joins cut ih =>
      intro h
      have whole := Cut.cons lexeme joins cut
      by_cases hkind : token.kind = .semicolon
      · have hsemicolon : Mark .semicolon (token :: next :: rest) (next :: rest) :=
          ⟨token, hkind, rfl⟩
        rw [dropSemicolons_of_mark whole hsemicolon] at h
        exact .skip hsemicolon (ih h)
      · rwa [dropSemicolons_of_lead (show Language.lead (token :: next :: rest) ≠ _ from hkind)] at h

/-- Where forms end inside a block, the last one is not finished, and the table holds
what all of them declare. -/
theorem forms_runsOut {file : String} (bound : Nat) :
    ∀ {table : Operator.Table} {input : List Token} {t : ReadState}, Cut input →
      RunsOut (upTo (form .standard) bound) (place file table input) t →
      ∃ entries, UnfinishedForms table input entries ∧ t.table = table.declareAll entries := by
  induction bound with
  | zero => intro _ _ _ _ h; exact absurd h runsOut_upTo_zero
  | succ bound ih =>
      intro table input t cut hrounds
      -- each form is read after the semicolons in front of it
      suffices hforms : ∃ entries, UnfinishedForms table (dropSemicolons input) entries
          ∧ t.table = table.declareAll entries by
        obtain ⟨entries, hunfinished, htable⟩ := hforms
        exact ⟨entries, hunfinished.after_semicolons cut, htable⟩
      obtain h | ⟨first, s, hfirst, hmore⟩ := runsOut_upTo_succ.1 hrounds
      · exact form_runsOut cut h
      · obtain ⟨inside, after, hitem, cut', rfl⟩ := (gives_form_place cut).1 hfirst
        obtain ⟨entries, hunfinished, htable⟩ := ih cut' hmore
        cases hitem with
        | definition hfunc hheading hbody =>
            refine ⟨_, .definition hfunc hheading hbody hunfinished, ?_⟩
            have hdrop := (dropSemicolons_cut cut).1
            rw [htable, (hheading.declares (hfunc.cut hdrop (by simp))).1]
            exact (Operator.Table.declareAll_append ..).symm
        | expression hbody => exact ⟨entries, .expression hbody hunfinished, htable⟩

/-- Tokens that end inside a block are forms of which the last is not finished, and leave
the table with what these declare. -/
theorem unfinished_of_ofTokens {file : String} {tokens : List Token} {error : Error}
    (cut : Cut tokens) (h : (Program.ofTokens file tokens table).result = .error error)
    (hfault : error.fault = .unterminatedBlock) :
    ∃ entries, UnfinishedForms table tokens entries
      ∧ (Program.ofTokens file tokens table).table = table.declareAll entries := by
  unfold Program.ofTokens at h ⊢
  match hrun : (Grammar.forms .standard).run ⟨⟨file, tokens⟩, table⟩ with
  | .ok forms t => rw [hrun] at h; exact absurd h nofun
  | .error found t =>
      rw [hrun] at h
      cases h
      have hruns : RunsOut (Grammar.forms .standard) (place file table tokens) t :=
        ⟨error, hrun, hfault⟩
      rw [Grammar.forms, runsOut_many] at hruns
      exact forms_runsOut _ cut hruns

end Fixity.Language
