/-
  Fixity.Proofs.Language.Proper
  ────────────────────────────────
  **WHAT IS READ IS WELL FORMED.**

  A tree that reading gives is made of what tokens spell: its names are names, its
  operators are known and spelled as operators, its numbers carry no sign, its arrays
  have dimensions, and a block stands in it only where a body does.  That is all that is
  asked of a program to be written out, but for numbers too large for a binary64 value,
  which are read as infinite.  So every program that is read and whose numbers are finite
  can be written out, from the table that it was read with.

  A number that is read always has a value, since it is a token of the text.

  No bound on the length of the text is used: the tokens are those that `tokenize` gives,
  which remember what stands behind them in the text and not at a place.

  Main results: `Derives.wellFormed`, `Heading.fits` (a phrase, a head) and
  `returned_wellFormed` (a program), with `fits_of_ofSource` (what can be written).
-/
import Fixity.Proofs.Language.Lexicon
import Fixity.Proofs.Language.Nodes
import Fixity.Proofs.Language.Offending
import Fixity.Proofs.Language.Programs
import Fixity.Proofs.Language.Views

namespace Fixity

/-! ## §1. Finite trees. -/

/-- Whether a number is finite. -/
def Number.isFinite : Number → Bool
  | finite _ _ => true
  | _ => false

/-- A finite number without a sign is plain. -/
theorem Number.IsUnsigned.isPlain {value : Number} (h : value.IsUnsigned)
    (finite : value.isFinite = true) : value.isPlain = true := by
  obtain rfl | hplain := h
  · exact absurd finite nofun
  · exact hplain

namespace Expr

mutual

/-- Whether every number of an expression is finite. -/
def isFinite : Expr → Bool
  | number value => value.isFinite
  | var _ indices => allFinite indices
  | call _ arguments => allFinite arguments
  | unary _ operand => isFinite operand
  | binary _ left right => isFinite left && isFinite right
  | branch condition consequent alternative =>
    isFinite condition && isFinite consequent && optionFinite alternative
  | countLoop _ first last step body =>
    isFinite first && isFinite last && optionFinite step && isFinite body
  | whileLoop condition body => isFinite condition && isFinite body
  | repeatLoop times body => isFinite times && isFinite body
  | array _ _ => true
  | block statements => allFinite statements
termination_by structural tree => tree

/-- Whether every number of each member of a list is finite. -/
def allFinite : List Expr → Bool
  | [] => true
  | tree :: rest => isFinite tree && allFinite rest
termination_by structural trees => trees

/-- Whether every number of a part that may be missing is finite. -/
def optionFinite : Option Expr → Bool
  | none => true
  | some tree => isFinite tree
termination_by structural tree => tree

end

variable {table : Operator.Table}

mutual

/-- **What is well formed can be written**, if its numbers are finite. -/
theorem fits_of_wellFormed : ∀ (e : Expr) (standing : Standing), WellFormed table e standing →
    e.isFinite = true → e.fits table standing = true
  | number value, standing, h, finite => (h _ _ .root).isPlain finite
  | var name indices, standing, h, finite => by
      rw [wellFormed_iff] at h
      have hparts := allFit_of_wellFormed indices .operand (by simpa [parts] using h.2) finite
      simpa [fits, hparts, IsProper] using h.1
  | call callee arguments, standing, h, finite => by
      rw [wellFormed_iff] at h
      have hparts := allFit_of_wellFormed arguments .operand (by simpa [parts] using h.2) finite
      simpa [fits, hparts, IsProper] using h.1
  | unary operator operand, standing, h, finite => by
      rw [wellFormed_iff] at h
      have hpart := fits_of_wellFormed operand .operand (by simpa [parts] using h.2) finite
      simpa [fits, hpart, IsProper] using h.1
  | binary operator left right, standing, h, finite => by
      rw [wellFormed_iff] at h
      simp only [parts, List.mem_cons, List.not_mem_nil, or_false, forall_eq_or_imp, forall_eq] at h
      simp only [isFinite, Bool.and_eq_true] at finite
      have hleft := fits_of_wellFormed left .operand h.2.1 finite.1
      have hright := fits_of_wellFormed right .operand h.2.2 finite.2
      simpa [fits, hleft, hright, IsProper] using h.1
  | branch condition consequent alternative, standing, h, finite => by
      rw [wellFormed_iff] at h
      simp only [parts, List.mem_cons, forall_eq_or_imp] at h
      simp only [isFinite, Bool.and_eq_true] at finite
      have hcondition := fits_of_wellFormed condition .operand h.2.1 finite.1.1
      have hconsequent := fits_of_wellFormed consequent .body h.2.2.1 finite.1.2
      have halternative :=
        optionFits_of_wellFormed alternative .body (by simpa using h.2.2.2) finite.2
      simp [fits, hcondition, hconsequent, halternative]
  | countLoop counter first last step body, standing, h, finite => by
      rw [wellFormed_iff] at h
      simp only [parts, List.mem_cons, forall_eq_or_imp] at h
      simp only [isFinite, Bool.and_eq_true] at finite
      have hfirst := fits_of_wellFormed first .operand h.2.1 finite.1.1.1
      have hlast := fits_of_wellFormed last .operand h.2.2.1 finite.1.1.2
      have hstep := optionFits_of_wellFormed step .operand (by simpa using h.2.2.2.2) finite.1.2
      have hbody := fits_of_wellFormed body .body h.2.2.2.1 finite.2
      simpa [fits, hfirst, hlast, hstep, hbody, IsProper] using h.1
  | whileLoop condition body, standing, h, finite => by
      rw [wellFormed_iff] at h
      simp only [parts, List.mem_cons, List.not_mem_nil, or_false, forall_eq_or_imp, forall_eq] at h
      simp only [isFinite, Bool.and_eq_true] at finite
      have hcondition := fits_of_wellFormed condition .operand h.2.1 finite.1
      have hbody := fits_of_wellFormed body .body h.2.2 finite.2
      simp [fits, hcondition, hbody]
  | repeatLoop times body, standing, h, finite => by
      rw [wellFormed_iff] at h
      simp only [parts, List.mem_cons, List.not_mem_nil, or_false, forall_eq_or_imp, forall_eq] at h
      simp only [isFinite, Bool.and_eq_true] at finite
      have htimes := fits_of_wellFormed times .operand h.2.1 finite.1
      have hbody := fits_of_wellFormed body .body h.2.2 finite.2
      simp [fits, htimes, hbody]
  | array name dimensions, standing, h, finite => by
      have hroot := h _ _ .root
      simpa [fits, IsProper, and_assoc] using hroot
  | block statements, standing, h, finite => by
      rw [wellFormed_iff] at h
      have hparts := allFit_of_wellFormed statements .body (by simpa [parts] using h.2) finite
      simpa [fits, hparts, IsProper] using h.1

theorem allFit_of_wellFormed : ∀ (trees : List Expr) (standing : Standing),
    (∀ tree ∈ trees, WellFormed table tree standing) → allFinite trees = true →
    allFit table trees standing = true
  | [], _, _, _ => rfl
  | tree :: rest, standing, h, finite => by
      simp only [allFinite, Bool.and_eq_true] at finite
      have hfirst := fits_of_wellFormed tree standing (h tree (by simp)) finite.1
      have hrest := allFit_of_wellFormed rest standing (fun e hmem => h e (by simp [hmem])) finite.2
      simp [allFit, hfirst, hrest]

theorem optionFits_of_wellFormed : ∀ (tree : Option Expr) (standing : Standing),
    (∀ e, tree = some e → WellFormed table e standing) → optionFinite tree = true →
    optionFits table tree standing = true
  | none, _, _, _ => rfl
  | some tree, standing, h, finite => fits_of_wellFormed tree standing (h tree rfl) finite

end

/-- What can be written as an operand can be written as a body. -/
theorem fits_body {e : Expr} (h : fits table e .operand = true) : fits table e .body = true := by
  cases e with
  | block statements => simp [fits] at h
  | _ => simpa [fits] using h

end Expr

namespace Language

open Grammar

variable {table : Operator.Table} {input rest tokens : List Token}

/-! ## §2. Tokens of a text. -/

/-- Tokens as a text gives them, at places as a short text gives them. -/
structure Lexed (tokens : List Token) : Prop where
  /-- The places say which tokens touch. -/
  cut : Cut tokens
  /-- The tokens are those of a text. -/
  linked : Linked tokens

namespace Lexed

theorem tail {token : Token} (h : Lexed (token :: rest)) (hkind : token.kind ≠ .eof) :
    Lexed rest := by
  refine ⟨h.cut.tail hkind, ?_⟩
  cases h.linked with
  | last hmark => exact absurd hmark hkind
  | cons _ _ _ hrest => exact hrest

theorem mark {kind : Kind} (h : Lexed input) (hmark : Mark kind input rest)
    (hkind : kind ≠ .eof) : Lexed rest := by
  obtain ⟨token, rfl, rfl⟩ := hmark
  exact h.tail hkind

/-- An identifier of a text is a name. -/
theorem isName {name : String} (h : Lexed input) (hname : Name name input rest) :
    isName name = true := by
  obtain ⟨token, ⟨hkind, rfl⟩, rfl⟩ := hname
  exact isName_of_lexeme (h.linked.head (by simp [hkind])).1 hkind

/-- A number of a text carries no sign. -/
theorem isUnsigned {value : Number} (h : Lexed input) (hnumeral : Numeral value input rest) :
    value.IsUnsigned := by
  obtain ⟨token, ⟨hkind, hvalue⟩, rfl⟩ := hnumeral
  exact number_of_lexeme (h.linked.head (by simp [hkind])).1 hkind hvalue

/-- An operator of a text can stand between operands. -/
theorem isInfix {spelling : String} (h : Lexed input) (hspelled : Spelled input spelling rest) :
    isInfix spelling = true := by
  obtain ⟨width, hoperator, -, -⟩ := operator?_of_spelled "" h.cut hspelled
  exact isInfix_of_operator? h.linked hoperator

end Lexed

/-- Passing over tokens leaves tokens of the text. -/
theorem Passed.lexed (h : Passed input rest) (lexed : Lexed input) : Lexed rest := by
  obtain ⟨used, rfl, hused⟩ := h
  induction used with
  | nil => exact lexed
  | cons token used ih =>
      exact ih (fun other hmem => hused other (List.mem_cons_of_mem _ hmem))
        (lexed.tail (hused token List.mem_cons_self).2)

/-- No dimension is zero. -/
theorem Dimensions.pos {ns : List UInt32} (h : Dimensions input ns rest) : ∀ n ∈ ns, 0 < n := by
  induction h with
  | nil => exact fun _ hmem => absurd hmem List.not_mem_nil
  | cons _ hwhole _ _ ih =>
      obtain ⟨_, _, _, hlow, _⟩ := hwhole
      rw [List.forall_mem_cons, UInt32.lt_iff_toNat_lt]
      exact ⟨hlow, ih⟩

/-! ## §3. Phrases. -/

/-- Whether an operator and the operand after it are as they should be. -/
def Link.WellFormed (table : Operator.Table) (link : Link) : Prop :=
  (isInfix link.spelling = true ∧ (table.lookup link.spelling).isSome = true)
    ∧ link.operand.WellFormed table .operand

/-- Whether the trees that a phrase stands for are well formed. -/
def Phrase.WellFormed (table : Operator.Table) : Phrase → Prop
  | .body e => e.WellFormed table .body
  | .expression e | .operand e | .primary e => e.WellFormed table .operand
  | .links chain => ∀ link ∈ chain, Link.WellFormed table link
  | .indices es | .arguments es => ∀ e ∈ es, e.WellFormed table .operand
  | .statements es => ∀ e ∈ es, e.WellFormed table .body

/-- The tree of a chain is well formed if its operands and operators are. -/
theorem Grouped.wellFormed {first tree : Expr} {links : List Link} (h : Grouped first links tree)
    (hfirst : first.WellFormed table .operand) (hlinks : ∀ link ∈ links, Link.WellFormed table link) :
    tree.WellFormed table .operand := by
  induction h with
  | operand first => exact hfirst
  | @root first left right before after link _ _ _ _ ih ih' =>
      simp only [List.forall_mem_append, List.forall_mem_cons] at hlinks
      obtain ⟨hbefore, hlink, hafter⟩ := hlinks
      rw [Expr.wellFormed_iff]
      simp [Expr.IsProper, Expr.parts, hlink.1, ih hfirst hbefore, ih' hlink.2 hafter]

/-- **What a phrase stands for is well formed.** -/
theorem Derives.wellFormed {phrase : Phrase} (h : Derives table phrase input rest) :
    Lexed input → phrase.WellFormed table := by
  induction h with
  | plain _ ih => exact fun lexed => (ih lexed).body
  | block hopen _ ih =>
      intro lexed
      have hstatements := ih ((hopen.passed (by simp)).lexed lexed)
      simp only [Phrase.WellFormed] at hstatements ⊢
      rw [Expr.wellFormed_iff]
      simpa [Expr.IsProper, Expr.parts] using hstatements
  | closed _ => exact fun _ _ hmem => absurd hmem List.not_mem_nil
  | statement hbody _ ih ih' =>
      intro lexed
      exact List.forall_mem_cons.2 ⟨ih lexed, ih' (hbody.passed.lexed lexed)⟩
  | separated hbody hmark _ ih ih' =>
      intro lexed
      have lexed' := (hbody.passed.trans (hmark.passed (by simp))).lexed lexed
      exact List.forall_mem_cons.2 ⟨ih lexed, ih' lexed'⟩
  | chain hfirst _ _ hgrouped ih ih' =>
      intro lexed
      exact hgrouped.wellFormed (ih lexed) (ih' (hfirst.passed.lexed lexed))
  | noLink => exact fun _ _ hmem => absurd hmem List.not_mem_nil
  | link hspelled hlookup hoperand _ ih ih' =>
      intro lexed
      have hoperand' := ih (hspelled.passed.lexed lexed)
      have hmore := ih' ((hspelled.passed.trans hoperand.passed).lexed lexed)
      exact List.forall_mem_cons.2
        ⟨⟨⟨lexed.isInfix hspelled, by rw [hlookup]; rfl⟩, hoperand'⟩, hmore⟩
  | unsigned _ ih => exact ih
  | signed hsign hc _ ih =>
      intro lexed
      have hoperand := ih (hsign.passed.lexed lexed)
      simp only [Phrase.WellFormed] at hoperand ⊢
      rw [Expr.wellFormed_iff]
      simp [Expr.IsProper, Expr.parts, hc, hoperand]
  | number hnumeral =>
      intro lexed
      simp only [Phrase.WellFormed]
      rw [Expr.wellFormed_iff]
      simp [Expr.IsProper, Expr.parts, lexed.isUnsigned hnumeral]
  | paren hopen _ _ ih => exact fun lexed => ih ((hopen.passed (by simp)).lexed lexed)
  | scalar hname _ _ =>
      intro lexed
      simp only [Phrase.WellFormed]
      rw [Expr.wellFormed_iff]
      simp [Expr.IsProper, Expr.parts, lexed.isName hname]
  | element hname _ _ ih =>
      intro lexed
      have hindices := ih (hname.passed.lexed lexed)
      simp only [Phrase.WellFormed] at hindices ⊢
      rw [Expr.wellFormed_iff]
      simpa [Expr.IsProper, Expr.parts, lexed.isName hname] using hindices
  | noIndex => exact fun _ _ hmem => absurd hmem List.not_mem_nil
  | index hopen hindex hclose _ ih ih' =>
      intro lexed
      have lexed' := (hopen.passed (by simp)).lexed lexed
      have hmore := ih' ((hindex.passed.trans (hclose.passed (by simp))).lexed lexed')
      exact List.forall_mem_cons.2 ⟨ih lexed', hmore⟩
  | emptyCall hname _ _ =>
      intro lexed
      simp only [Phrase.WellFormed]
      rw [Expr.wellFormed_iff]
      simp [Expr.IsProper, Expr.parts, lexed.isName hname]
  | call hname hopen _ ih =>
      intro lexed
      have harguments := ih ((hname.passed.trans (hopen.passed (by simp))).lexed lexed)
      simp only [Phrase.WellFormed] at harguments ⊢
      rw [Expr.wellFormed_iff]
      simpa [Expr.IsProper, Expr.parts, lexed.isName hname] using harguments
  | lastArgument _ _ ih =>
      exact fun lexed => List.forall_mem_cons.2 ⟨ih lexed, nofun⟩
  | argument hargument hcomma _ ih ih' =>
      intro lexed
      have lexed' := (hargument.passed.trans (hcomma.passed (by simp))).lexed lexed
      exact List.forall_mem_cons.2 ⟨ih lexed, ih' lexed'⟩
  | array hword hname hdimensions _ =>
      intro lexed
      have hname' := ((hword.passed (by simp)).lexed lexed).isName hname
      have hpos := hdimensions.pos
      simp only [Phrase.WellFormed]
      rw [Expr.wellFormed_iff]
      simpa [Expr.IsProper, Expr.parts, hname'] using hpos
  | branch hword hcondition hthen _ _ ih ih' =>
      intro lexed
      have lexed' := (hword.passed (by simp)).lexed lexed
      have hc := ih lexed'
      have he := ih' ((hcondition.passed.trans (hthen.passed (by simp))).lexed lexed')
      simp only [Phrase.WellFormed] at hc he ⊢
      rw [Expr.wellFormed_iff]
      simp [Expr.IsProper, Expr.parts, hc, he]
  | branchElse hword hcondition hthen hbody helse _ ih ih' ih'' =>
      intro lexed
      have lexed' := (hword.passed (by simp)).lexed lexed
      have lexed₂ := (hcondition.passed.trans (hthen.passed (by simp))).lexed lexed'
      have hc := ih lexed'
      have he := ih' lexed₂
      have he' := ih'' ((hbody.passed.trans (helse.passed (by simp))).lexed lexed₂)
      simp only [Phrase.WellFormed] at hc he he' ⊢
      rw [Expr.wellFormed_iff]
      simp [Expr.IsProper, Expr.parts, hc, he, he']
  | countLoop hword hname hsign hfirst hcomma hlast _ ih ih' ih'' =>
      intro lexed
      have lexed' := (hword.passed (by simp)).lexed lexed
      have lexed₂ := (hname.passed.trans hsign.passed).lexed lexed'
      have lexed₃ := (hfirst.passed.trans (hcomma.passed (by simp))).lexed lexed₂
      have ha := ih lexed₂
      have hb := ih' lexed₃
      have he := ih'' (hlast.passed.lexed lexed₃)
      simp only [Phrase.WellFormed] at ha hb he ⊢
      rw [Expr.wellFormed_iff]
      simp [Expr.IsProper, Expr.parts, lexed'.isName hname, ha, hb, he]
  | countLoopStep hword hname hsign hfirst hcomma hlast hcomma' hstep _ ih ih' ih'' ihbody =>
      intro lexed
      have lexed' := (hword.passed (by simp)).lexed lexed
      have lexed₂ := (hname.passed.trans hsign.passed).lexed lexed'
      have lexed₃ := (hfirst.passed.trans (hcomma.passed (by simp))).lexed lexed₂
      have lexed₄ := (hlast.passed.trans (hcomma'.passed (by simp))).lexed lexed₃
      have ha := ih lexed₂
      have hb := ih' lexed₃
      have hd := ih'' lexed₄
      have he := ihbody (hstep.passed.lexed lexed₄)
      simp only [Phrase.WellFormed] at ha hb hd he ⊢
      rw [Expr.wellFormed_iff]
      simp [Expr.IsProper, Expr.parts, lexed'.isName hname, ha, hb, hd, he]
  | whileLoop hword hcondition _ ih ih' =>
      intro lexed
      have lexed' := (hword.passed (by simp)).lexed lexed
      have hc := ih lexed'
      have he := ih' (hcondition.passed.lexed lexed')
      simp only [Phrase.WellFormed] at hc he ⊢
      rw [Expr.wellFormed_iff]
      simp [Expr.IsProper, Expr.parts, hc, he]
  | repeatLoop hword hopen htimes hclose _ ih ih' =>
      intro lexed
      have lexed' := ((hword.passed (by simp)).trans (hopen.passed (by simp))).lexed lexed
      have hc := ih lexed'
      have he := ih' ((htimes.passed.trans (hclose.passed (by simp))).lexed lexed')
      simp only [Phrase.WellFormed] at hc he ⊢
      rw [Expr.wellFormed_iff]
      simp [Expr.IsProper, Expr.parts, hc, he]

/-! ## §4. Heads. -/

/-- The parameters of a text are names. -/
theorem Slots.fits {names : List String} (h : Slots input names rest) (lexed : Lexed input) :
    (∀ name ∈ names, isName name = true) ∧ Lexed rest := by
  have hslot {slot : Token} {input : List Token} (lexed : Lexed (slot :: input)) :
      ∀ name ∈ slotName slot, Fixity.isName name = true := by
    intro name hmem
    have hparam : slotParam? slot = some name := Option.mem_toList.1 hmem
    unfold slotParam? at hparam
    split at hparam
    · next hkind =>
      cases hparam
      exact lexed.isName ⟨slot, ⟨hkind, rfl⟩, rfl⟩
    · exact absurd hparam nofun
  induction h with
  | last hsolid hclose =>
      exact ⟨hslot lexed, (hclose.passed (by simp)).lexed (lexed.tail hsolid)⟩
  | more hsolid hcomma _ ih =>
      obtain ⟨hnames, lexed'⟩ := ih ((hcomma.passed (by simp)).lexed (lexed.tail hsolid))
      refine ⟨fun name hmem => ?_, lexed'⟩
      obtain hmem | hmem := List.mem_append.1 hmem
      · exact hslot lexed name hmem
      · exact hnames name hmem

theorem Params.fits {names : List String} (h : Params input names rest) (lexed : Lexed input) :
    (∀ name ∈ names, isName name = true) ∧ Lexed rest := by
  cases h with
  | none hopen hclose =>
      exact ⟨nofun, ((hopen.passed (by simp)).trans (hclose.passed (by simp))).lexed lexed⟩
  | some hopen _ hslots => exact hslots.fits ((hopen.passed (by simp)).lexed lexed)

/-- A precedence is a number from 1 to 18, also where none is given. -/
theorem Precedence.fits {precedence : UInt32} (h : Precedence input precedence rest) :
    Operator.isValidPrecedence precedence = true ∧ Passed input rest := by
  cases h with
  | default => exact ⟨by decide, .refl _⟩
  | given hwhole =>
      obtain ⟨value, _, hvalue⟩ := id hwhole
      exact ⟨isValidPrecedence_of_precedence? (precedence?_eq_some_iff.2 hvalue), hwhole.passed⟩

/-- **What the head of a definition stands for can be written.** -/
theorem Heading.fits {prototype : Prototype} {last : Operator.Table}
    (h : Heading table input prototype last rest) (lexed : Lexed input) :
    prototype.Fits ∧ Lexed rest := by
  cases h with
  | function hname hparams =>
      obtain ⟨hnames, lexed'⟩ := hparams.fits (hname.passed.lexed lexed)
      exact ⟨.function (lexed.isName hname) hnames, lexed'⟩
  | unary hword hsign hc hparams =>
      obtain ⟨hnames, lexed'⟩ :=
        hparams.fits (((hword.passed (by simp)).trans hsign.passed).lexed lexed)
      exact ⟨.unary hc (hnames _ List.mem_cons_self), lexed'⟩
  | binary hword hspelled hprecedence hparams =>
      obtain ⟨valid, hpassed⟩ := hprecedence.fits
      have lexed₁ := (hword.passed (by simp)).lexed lexed
      obtain ⟨hnames, lexed'⟩ := hparams.fits ((hspelled.passed.trans hpassed).lexed lexed₁)
      exact ⟨.binary (lexed₁.isInfix hspelled) (hnames _ List.mem_cons_self)
        (hnames _ (List.mem_cons_of_mem _ List.mem_cons_self)) valid, lexed'⟩

/-! ## §5. Programs. -/

/-- The forms of a text are well formed. -/
theorem Forms.wellFormed {forms : List Form} {last : Operator.Table}
    (h : Forms table input forms last rest) (lexed : Lexed input) :
    Program.WellFormed table forms := by
  induction h with
  | nil => exact Program.wellFormed_nil
  | skip hmark _ ih => exact ih ((hmark.passed (by simp)).lexed lexed)
  | definition hword hheading hbody _ ih =>
      have lexed₁ := lexed.mark hword (by simp)
      obtain ⟨hprototype, lexed₂⟩ := hheading.fits lexed₁
      obtain ⟨hlast, -, -⟩ := hheading.declares lexed₁.cut
      rw [hlast] at hbody ih
      exact Program.wellFormed_cons.2
        ⟨⟨hprototype, hbody.wellFormed lexed₂⟩, ih (hbody.passed.lexed lexed₂)⟩
  | expression hbody _ ih =>
      exact Program.wellFormed_cons.2
        ⟨⟨rfl, hbody.wellFormed lexed⟩, ih (hbody.passed.lexed lexed)⟩

/-- **The forms that a text gives are well formed.** -/
theorem wellFormed_of_ofSource {file source : String} {forms : List Form}
    (h : (Program.ofSource file source table).result = .ok forms) :
    Program.WellFormed table forms := by
  have hread : Program.ofSource file source table
      = ⟨.ok forms, (Program.ofSource file source table).table⟩ := by rw [← h]
  obtain ⟨tokens, htokens⟩ := tokenize_of_ofSource hread
  have linked := linked_of_tokenize htokens
  rw [ofSource_of_tokenize htokens] at h
  -- the places of a long text may repeat, so it is read as if it were short
  have lexed : Lexed (tokens.map Token.respaced) := ⟨linked.cut_respaced, linked.respaced⟩
  have hother : Program.ofTokens file (tokens.map Token.respaced) table
      = ⟨.ok forms, (Program.ofTokens file (tokens.map Token.respaced) table).table⟩ := by
    rw [← (readAlike_respaced file table linked).ok h]
  obtain ⟨mark, -, hforms⟩ := (ofTokens_ok_iff lexed.cut).1 hother
  exact hforms.wellFormed lexed

/-- Forms that are well formed can be written, if their numbers are finite. -/
theorem fits_of_forms {forms : List Form} (h : Program.WellFormed table forms)
    (finite : ∀ form ∈ forms, form.function.body.isFinite = true) :
    Program.Fits table forms := by
  induction forms generalizing table with
  | nil => exact .nil
  | cons form forms ih =>
      rw [Program.wellFormed_cons] at h
      rw [List.forall_mem_cons] at finite
      have hmore := ih h.2 finite.2
      cases form with
      | definition function =>
          exact .definition h.1.1 (Expr.fits_of_wellFormed _ _ h.1.2 finite.1) hmore
      | expression function =>
          obtain ⟨prototype, body⟩ := function
          obtain ⟨⟨rfl, hbody⟩, -⟩ := h
          exact .expression (Expr.fits_of_wellFormed _ _ hbody finite.1) hmore

/-- **A program that is read can be written out**, from the table that it was read with,
if its numbers are finite. -/
theorem fits_of_ofSource {file source : String} {forms : List Form}
    (h : (Program.ofSource file source table).result = .ok forms)
    (finite : ∀ form ∈ forms, form.function.body.isFinite = true) :
    Program.Fits table forms :=
  fits_of_forms (wellFormed_of_ofSource h) finite

/-- No number of a text is bad. -/
theorem badNumber_never {file source : String} {error : Error}
    (h : (Program.ofSource file source table).result = .error error) (text : String) :
    error.fault ≠ .badNumber text := by
  unfold Program.ofSource at h
  cases htokens : tokenize file source with
  | error found =>
      rw [htokens] at h
      cases h
      obtain ⟨place, c, rest, -, -, -, rfl⟩ := Scanner.visits_of_error htokens
      exact nofun
  | ok tokens =>
      rw [htokens] at h
      obtain ⟨token, hmem, -, -, -, hnumber⟩ :=
        points_of_ofTokens (Scanner.tokens?_ne_nil htokens) h
      intro hfault
      -- the token that would be bad is a numeral of the text, which has a value
      obtain ⟨hkind, hnone⟩ := hnumber text hfault
      have lexeme := (linked_of_tokenize htokens).isLexeme hmem (by simp [hkind])
      obtain ⟨n, exponent, hsome⟩ := ofText?_of_lexeme lexeme hkind
      rw [hsome] at hnone
      cases hnone

/-- **Every tree that a text gives is well formed**, and no number of a text is bad. -/
theorem returned_wellFormed {file source : String} {table : Operator.Table} :
    (∀ error, (Program.ofSource file source table).result = .error error →
      ∀ text, error.fault ≠ .badNumber text)
    ∧ ∀ forms, (Program.ofSource file source table).result = .ok forms →
      Program.WellFormed table forms :=
  ⟨fun _ => badNumber_never, fun _ => wellFormed_of_ofSource⟩

/-- An operator that is declared is in force for the form after it. -/
theorem returned_with_own_operator :
    (Program.ofSource "sel" "func binary <> 7 (x, y) \x7b x <> y \x7d -1 <> z" .empty).result
      = .ok [.definition ⟨⟨"binary<>", ["x", "y"], true, 7⟩,
            .block [.binary "<>" (.scalar "x") (.scalar "y")]⟩,
          .expression ⟨.anonymous,
            .binary "<>" (.unary '-' (.number (.finite false Number.unitsPerOne))) (.scalar "z")⟩]
    ∧ Form.WellFormed (Operator.Table.empty.declare "<>" 7) (.expression ⟨.anonymous,
        .binary "<>" (.unary '-' (.number (.finite false Number.unitsPerOne))) (.scalar "z")⟩) := by
  have h : (Program.ofSource "sel" "func binary <> 7 (x, y) \x7b x <> y \x7d -1 <> z" .empty).result
      = .ok [.definition ⟨⟨"binary<>", ["x", "y"], true, 7⟩,
            .block [.binary "<>" (.scalar "x") (.scalar "y")]⟩,
          .expression ⟨.anonymous,
            .binary "<>" (.unary '-' (.number (.finite false Number.unitsPerOne))) (.scalar "z")⟩] := by
    decide +kernel
  exact ⟨h, returned_wellFormed.2 _ h [_] _ [] rfl⟩

end Language
end Fixity
