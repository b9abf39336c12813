/-
  Fixity.Proofs.Language.Vocabulary
  ────────────────────────────────
  **THE WORDS OF PROGRAMS THAT ARE WRITTEN OUT.**

  Every word of a program that fits is one that a text can be made of: a name, a
  numeral, an operator, a reserved word or a mark.  And where such a word is laid out
  first, the grammar sees what it stands for, with the other words after it.

  Main results: `cuttable_words` (the words of an expression), `cuttable_formWords`
  (those of a program) and the lemmas `Laid.mark`, `Laid.name`, `Laid.spelled`,
  `Laid.numeral` and `Laid.whole` (what the grammar sees).
-/
import Fixity.Proofs.Language.Written
import Fixity.Proofs.Scanning.Words

namespace Fixity

open Operator (isOperatorChar)
open Text (isBlank)

/-! ## §1. Names, operators and numerals are words. -/

instance (kind : Kind) (word : String) : Decidable (IsWord kind word) :=
  inferInstanceAs (Decidable (_ = _))

theorem isWord_openParen : IsWord .openParen "(" := by decide

theorem isWord_closeParen : IsWord .closeParen ")" := by decide

theorem isWord_openBracket : IsWord .openBracket "[" := by decide

theorem isWord_closeBracket : IsWord .closeBracket "]" := by decide

theorem isWord_openBlock : IsWord .openBlock "\x7b" := by decide

theorem isWord_closeBlock : IsWord .closeBlock "\x7d" := by decide

theorem isWord_comma : IsWord .comma "," := by decide

theorem isWord_semicolon : IsWord .semicolon ";" := by decide

/-- A name is an identifier. -/
theorem isWord_of_isName {name : String} (h : isName name = true) : IsWord .identifier name := by
  unfold isName at h
  unfold IsWord
  generalize hletters : name.toList = letters at h
  cases letters with
  | nil => exact absurd h nofun
  | cons c rest =>
      simp only [Bool.and_eq_true, beq_iff_eq] at h
      obtain ⟨⟨hstart, hrest⟩, hkind⟩ := h
      have htake := List.takeWhile_eq_self_iff.2 (List.all_eq_true.1 hrest)
      have hdrop := List.dropWhile_eq_nil_iff.2 (List.all_eq_true.1 hrest)
      have hname : String.ofList (c :: rest) = name := by rw [← hletters, String.ofList_toList]
      simp [split?, hstart, htake, hdrop, hname, hkind]

/-- An operator character is a symbol. -/
theorem isWord_of_isOperatorChar {c : Char} (h : isOperatorChar c = true) :
    IsWord .symbol (String.singleton c) := by
  unfold IsWord
  rw [String.singleton_eq_ofList, String.toList_ofList]
  exact split?_operator h (by simp [startsComment])

/-- What can be an operator between operands is one symbol or a pair. -/
theorem cases_of_isInfix {spelling : String} (h : isInfix spelling = true) :
    (∃ c, spelling = String.singleton c ∧ IsWord .symbol spelling)
      ∨ ∃ c d, spelling = String.ofList [c, d] ∧ IsPair spelling := by
  unfold isInfix at h
  have hspelling : spelling = String.ofList spelling.toList := String.ofList_toList.symm
  split at h
  · next c hletters =>
    rw [hletters] at hspelling
    simp only [Bool.and_eq_true, Bool.not_eq_true', beq_iff_eq] at h
    obtain ⟨⟨punctuation, start⟩, symbol⟩ := h
    obtain ⟨digit, blank, -⟩ := class_of_isPunctuation punctuation
    have hword : IsWord .symbol spelling := by
      unfold IsWord
      rw [hletters]
      simp [split?, start, digit, blank, startsComment, punctuation, symbol]
    exact .inl ⟨c, hspelling.trans String.singleton_eq_ofList.symm, hword⟩
  · next c d hletters =>
    rw [hletters] at hspelling
    simp only [Bool.and_eq_true, Bool.not_eq_true'] at h
    obtain ⟨⟨hc, hd⟩, plain⟩ := h
    exact .inr ⟨c, d, hspelling, c, d, hspelling, hc, hd, plain⟩
  · cases h

theorem cuttable_of_isInfix {spelling : String} (h : isInfix spelling = true) :
    Cuttable spelling := by
  rcases cases_of_isInfix h with ⟨c, -, hword⟩ | ⟨c, d, -, hpair⟩
  · exact .inl ⟨.symbol, hword⟩
  · exact .inr hpair

/-- A word of thirty two bits is a numeral. -/
theorem spells_word (n : UInt32) :
    Number.Spells (toString n) (.finite false (n.toNat * Number.unitsPerOne)) := by
  have hbound : n.toNat < Number.twoTo 53 := by
    have hlt := n.toNat_lt
    have hpow : Number.twoTo 32 ≤ Number.twoTo 53 := Nat.pow_le_pow_right (by decide) (by decide)
    exact Nat.lt_of_lt_of_le hlt hpow
  exact Number.spells_natural hbound

/-- A plain number is written as a numeral that reads as it. -/
theorem spells_of_isPlain {value : Number} (h : value.isPlain = true) :
    Number.Spells value.text value := by
  cases value with
  | finite negative units =>
      cases negative with
      | false => exact Number.spells_text h
      | true => exact absurd h nofun
  | _ => exact absurd h nofun

end Fixity

namespace Fixity.Language

/-! ## §2. What the grammar sees of a word. -/

/-- The kind of token that words start with; the end if there is none. -/
def leadOf : List String → Kind
  | [] => .eof
  | word :: _ =>
    match split? word.toList with
    | some (⟨some kind, _⟩, _) => kind
    | _ => .eof

variable {word : String} {words : List String} {input : List Token}

theorem leadOf_of_isWord {kind : Kind} (h : IsWord kind word) : leadOf (word :: words) = kind := by
  unfold IsWord at h
  rw [leadOf, h]

end Fixity.Language

namespace Fixity.Laid

open Operator (isOperatorChar)
open Fixity.Language

variable {word : String} {words : List String} {input : List Token}

/-- Words and the tokens that they are laid out as start alike. -/
theorem lead (h : Laid words input) : Language.lead input = leadOf words := by
  cases h with
  | last hmark => exact hmark
  | word hword => rw [leadOf_of_isWord hword]; rfl
  -- a pair starts with the token of its first character
  | pair hc hd plain hfirst =>
      rw [leadOf, String.toList_ofList, split?_operator hc plain]
      exact hfirst.1

/-- A reserved word or a mark. -/
theorem mark {kind : Kind} (h : Laid (word :: words) input) (hword : IsWord kind word) :
    ∃ rest, Mark kind input rest ∧ Laid words rest := by
  obtain ⟨token, next, rest, rfl, hkind, -, -, hlaid⟩ := h.token hword
  exact ⟨next :: rest, ⟨token, hkind, rfl⟩, hlaid⟩

/-- A name. -/
theorem name (h : Laid (word :: words) input) (hname : isName word = true) :
    ∃ rest, Name word input rest ∧ Laid words rest := by
  obtain ⟨token, next, rest, rfl, hkind, htext, -, hlaid⟩ := h.token (isWord_of_isName hname)
  exact ⟨next :: rest, ⟨token, ⟨hkind, htext⟩, rfl⟩, hlaid⟩

/-- A numeral. -/
theorem numeral {value : Number} (h : Laid (word :: words) input)
    (hspells : Number.Spells word value) : ∃ rest, Numeral value input rest ∧ Laid words rest := by
  obtain ⟨token, next, rest, rfl, hkind, htext, -, hlaid⟩ := h.token hspells.1
  exact ⟨next :: rest, ⟨token, ⟨hkind, htext ▸ hspells.2⟩, rfl⟩, hlaid⟩

/-- A word of thirty two bits. -/
theorem whole {n : UInt32} {low high : Nat} (h : Laid (toString n :: words) input)
    (hlow : low ≤ n.toNat) (hhigh : n.toNat ≤ high) :
    ∃ rest, Whole low high n input rest ∧ Laid words rest := by
  obtain ⟨rest, hnumeral, hlaid⟩ := h.numeral (spells_word n)
  exact ⟨rest, ⟨_, hnumeral, Number.natural?_ofNat n.toNat, hlow, hhigh⟩, hlaid⟩

/-- An operator character. -/
theorem sign {c : Char} (h : Laid (String.singleton c :: words) input)
    (hc : isOperatorChar c = true) : ∃ rest, Sign c input rest ∧ Laid words rest := by
  obtain ⟨token, next, rest, rfl, hkind, htext, -, hlaid⟩ := h.token (isWord_of_isOperatorChar hc)
  exact ⟨next :: rest, ⟨token, ⟨hkind, htext⟩, rfl⟩, hlaid⟩

/-- The equals sign. -/
theorem equals (h : Laid ("=" :: words) input) :
    ∃ rest, Sign '=' input rest ∧ Laid words rest := by
  have hword : "=" = String.singleton '=' := by decide
  rw [hword] at h
  exact h.sign (by decide)

/-- An operator between operands. -/
theorem spelled (h : Laid (word :: words) input) (hoperator : isInfix word = true) :
    ∃ rest, Spelled input word rest ∧ Laid words rest := by
  rcases cases_of_isInfix hoperator with ⟨c, rfl, hword⟩ | ⟨c, d, rfl, hpair⟩
  · obtain ⟨token, next, rest, rfl, hkind, htext, apart, hlaid⟩ := h.token hword
    refine ⟨next :: rest, .single ⟨hkind, htext⟩ ?_, hlaid⟩
    -- a blank follows, so there is no second character to take
    intro other d hother hsymbol touches
    rw [← Option.some.inj hother] at hsymbol touches
    exact absurd touches (apart d hsymbol)
  -- the two characters of a pair are written without a blank, so they are one operator
  · obtain ⟨first, second, rest, rfl, hfirst, hsecond, touches, hlaid⟩ := h.symbols hpair
    obtain ⟨c', d', hspelling, hc, hd, -⟩ := hpair
    rw [String.ofList_inj] at hspelling
    cases hspelling
    exact ⟨rest, .pair hfirst hsecond touches hc hd, hlaid⟩

end Fixity.Laid

namespace Fixity

open Fixity.Expr (Standing)
open Operator (isOperatorChar)

/-! ## §3. Every word can be cut out again. -/

/-- The reserved words and the marks of the language. -/
def marks : List String :=
  ["(", ")", "[", "]", "\x7b", "\x7d", ",", ";", "=", "if", "then", "else", "for", "while", "rept",
   "arr", "func", "unary", "binary"]

theorem cuttable_of_mem_marks {word : String} (h : word ∈ marks) : Cuttable word := by
  have hwords : ∀ mark ∈ marks, IsWord (Language.leadOf [mark]) mark := by decide
  exact .inl ⟨_, hwords word h⟩

theorem cuttable_of_isName {name : String} (h : isName name = true) : Cuttable name :=
  .inl ⟨.identifier, isWord_of_isName h⟩

theorem cuttable_of_spells {text : String} {value : Number} (h : Number.Spells text value) :
    Cuttable text := .inl ⟨.number, h.1⟩

/-- Words that a text can be made of. -/
def AllCuttable (words : List String) : Prop := ∀ word ∈ words, Cuttable word

namespace AllCuttable

variable {word : String} {words others : List String}

theorem nil : AllCuttable [] := fun _ hmem => absurd hmem List.not_mem_nil

theorem cons (h : Cuttable word) (hwords : AllCuttable words) : AllCuttable (word :: words) :=
  List.forall_mem_cons.2 ⟨h, hwords⟩

theorem append (h : AllCuttable words) (h' : AllCuttable others) : AllCuttable (words ++ others) :=
  List.forall_mem_append.2 ⟨h, h'⟩

/-- A mark in front. -/
theorem mark (h : word ∈ marks) (hwords : AllCuttable words) : AllCuttable (word :: words) :=
  .cons (cuttable_of_mem_marks h) hwords

theorem parenthesised (h : AllCuttable words) : AllCuttable (parenthesised words) :=
  .mark (by decide) (h.append (.mark (by decide) .nil))

theorem subscript (h : AllCuttable words) : AllCuttable (subscript words) :=
  .mark (by decide) (h.parenthesised.append (.mark (by decide) .nil))

/-- Pieces with a mark between them. -/
theorem intercalate {pieces : List (List String)} (hmark : word ∈ marks)
    (h : ∀ piece ∈ pieces, AllCuttable piece) : AllCuttable ([word].intercalate pieces) := by
  induction pieces with
  | nil => exact nil
  | cons piece rest ih =>
      have hpiece := h piece List.mem_cons_self
      have hrest := ih fun other hmem => h other (List.mem_cons_of_mem _ hmem)
      cases rest with
      | nil =>
          rw [List.intercalate_singleton]
          exact hpiece
      | cons next rest =>
          rw [List.intercalate_cons_cons, List.append_assoc]
          exact hpiece.append (.cons (cuttable_of_mem_marks hmark) hrest)

/-- Pieces that are put together. -/
theorem flatMap {α : Type} {members : List α} {piece : α → List String}
    (h : ∀ member ∈ members, AllCuttable (piece member)) :
    AllCuttable (members.flatMap piece) := by
  intro word hmem
  obtain ⟨member, hmember, hword⟩ := List.mem_flatMap.1 hmem
  exact h member hmember word hword

/-- A body is a block or stands in parentheses. -/
theorem enclosed (e : Expr) (h : AllCuttable words) : AllCuttable (e.enclosed words) := by
  unfold Expr.enclosed
  split
  · exact h
  · exact h.parenthesised

end AllCuttable

mutual

/-- The words of an expression that fits. -/
theorem cuttable_words (table : Operator.Table) : ∀ (e : Expr) (standing : Standing),
    e.fits table standing = true → AllCuttable e.words
  | .number value, _, h => by
      exact .cons (cuttable_of_spells (spells_of_isPlain h)) .nil
  | .var name indices, _, h => by
      simp only [Expr.fits, Bool.and_eq_true] at h
      have hindices := cuttable_wordLists table indices _ h.2
      exact .cons (cuttable_of_isName h.1)
        (.flatMap fun index hmem => (hindices index hmem).subscript)
  | .call callee arguments, _, h => by
      simp only [Expr.fits, Bool.and_eq_true] at h
      have harguments := cuttable_wordLists table arguments _ h.2
      refine .cons (cuttable_of_isName h.1) (.parenthesised (.intercalate (by decide) ?_))
      intro piece hmem
      obtain ⟨argument, hargument, rfl⟩ := List.mem_map.1 hmem
      exact (harguments argument hargument).parenthesised
  | .unary operator operand, _, h => by
      simp only [Expr.fits, Bool.and_eq_true] at h
      have hoperand := cuttable_words table operand _ h.2
      exact .cons (.inl ⟨.symbol, isWord_of_isOperatorChar h.1⟩) hoperand.parenthesised
  | .binary operator left right, _, h => by
      simp only [Expr.fits, Bool.and_eq_true] at h
      have hleft := cuttable_words table left _ h.1.2
      have hright := cuttable_words table right _ h.2
      exact hleft.parenthesised.append
        (.cons (cuttable_of_isInfix h.1.1.1) hright.parenthesised)
  | .branch condition consequent alternative, _, h => by
      simp only [Expr.fits, Bool.and_eq_true] at h
      have hcondition := cuttable_words table condition _ h.1.1
      have hconsequent := cuttable_words table consequent _ h.1.2
      have halternative := cuttable_alternativeWords table alternative _ h.2
      exact .append (.append (.mark (by decide) hcondition.parenthesised)
        (.mark (by decide) (hconsequent.enclosed consequent))) halternative
  | .countLoop counter first last step body, _, h => by
      simp only [Expr.fits, Bool.and_eq_true] at h
      obtain ⟨⟨⟨⟨hcounter, hfirst⟩, hlast⟩, hstep⟩, hbody⟩ := h
      have hfirst' := cuttable_words table first _ hfirst
      have hlast' := cuttable_words table last _ hlast
      have hstep' := cuttable_stepWords table step _ hstep
      have hbody' := cuttable_words table body _ hbody
      have hcounting := AllCuttable.cons (cuttable_of_isName hcounter)
        (.mark (by decide : "=" ∈ marks) hfirst'.parenthesised)
      exact .append (.append (.append (.mark (by decide) hcounting)
        (.mark (by decide) hlast'.parenthesised)) hstep') (hbody'.enclosed body)
  | .whileLoop condition body, _, h => by
      simp only [Expr.fits, Bool.and_eq_true] at h
      have hcondition := cuttable_words table condition _ h.1
      have hbody := cuttable_words table body _ h.2
      exact .append (.mark (by decide) hcondition.parenthesised) (hbody.enclosed body)
  | .repeatLoop times body, _, h => by
      simp only [Expr.fits, Bool.and_eq_true] at h
      have htimes := cuttable_words table times _ h.1
      have hbody := cuttable_words table body _ h.2
      exact .append (.mark (by decide) htimes.parenthesised) (hbody.enclosed body)
  | .array name dimensions, _, h => by
      simp only [Expr.fits, Bool.and_eq_true] at h
      refine .mark (by decide) (.cons (cuttable_of_isName h.1.1) (.flatMap fun dimension _ => ?_))
      exact .mark (by decide)
        (.cons (cuttable_of_spells (spells_word dimension)) (.mark (by decide) .nil))
  | .block statements, _, h => by
      simp only [Expr.fits, Bool.and_eq_true] at h
      have hstatements := cuttable_wordLists table statements _ h.2
      exact .append (.mark (by decide) (.intercalate (by decide) hstatements))
        (.mark (by decide) .nil)

theorem cuttable_wordLists (table : Operator.Table) : ∀ (trees : List Expr) (standing : Standing),
    Expr.allFit table trees standing = true →
      ∀ words ∈ Expr.wordLists trees, AllCuttable words
  | [], _, _ => fun _ hmem => absurd hmem List.not_mem_nil
  | tree :: rest, standing, h => by
      simp only [Expr.allFit, Bool.and_eq_true] at h
      exact List.forall_mem_cons.2 ⟨cuttable_words table tree standing h.1,
        cuttable_wordLists table rest standing h.2⟩

theorem cuttable_alternativeWords (table : Operator.Table) :
    ∀ (tree : Option Expr) (standing : Standing), Expr.optionFits table tree standing = true →
      AllCuttable (Expr.alternativeWords tree)
  | none, _, _ => .nil
  | some tree, standing, h =>
      .mark (by decide) ((cuttable_words table tree standing h).enclosed tree)

theorem cuttable_stepWords (table : Operator.Table) :
    ∀ (tree : Option Expr) (standing : Standing), Expr.optionFits table tree standing = true →
      AllCuttable (Expr.stepWords tree)
  | none, _, _ => .nil
  | some tree, standing, h =>
      .mark (by decide) (cuttable_words table tree standing h).parenthesised

end

/-- The words of a parameter list. -/
theorem cuttable_paramWords {params : List String} (h : ∀ param ∈ params, isName param = true) :
    AllCuttable (Prototype.paramWords params) := by
  refine .parenthesised (.intercalate (by decide) ?_)
  intro piece hmem
  obtain ⟨param, hparam, rfl⟩ := List.mem_map.1 hmem
  exact .cons (cuttable_of_isName (h param hparam)) .nil

/-- The words of a prototype. -/
theorem cuttable_prototypeWords {prototype : Prototype} (h : prototype.Fits) :
    AllCuttable prototype.words := by
  cases h with
  | function hname hparams =>
      rw [Prototype.words_function]
      exact .cons (cuttable_of_isName hname) (cuttable_paramWords hparams)
  | unary hc hparam =>
      rw [Prototype.words_unary]
      have hsign : Cuttable _ := .inl ⟨.symbol, isWord_of_isOperatorChar hc⟩
      refine .mark (by decide) (.cons hsign (cuttable_paramWords ?_))
      simpa using hparam
  | @binary _ _ _ precedence hoperator hleft hright _ =>
      rw [Prototype.words_binary]
      refine .mark (by decide) (.cons (cuttable_of_isInfix hoperator)
        (.cons (cuttable_of_spells (spells_word precedence)) (cuttable_paramWords ?_)))
      simp [hleft, hright]

/-- The words of each form. -/
theorem cuttable_forms {table : Operator.Table} {forms : List Form} (h : Program.Fits table forms) :
    ∀ form ∈ forms, AllCuttable form.words := by
  induction h with
  | nil => exact fun _ hmem => absurd hmem List.not_mem_nil
  | @definition table prototype e forms hprototype he _ ih =>
      have hbody := (cuttable_words _ e _ he).enclosed e
      exact List.forall_mem_cons.2
        ⟨.append (.mark (by decide) (cuttable_prototypeWords hprototype)) hbody, ih⟩
  | @expression table e forms he _ ih =>
      exact List.forall_mem_cons.2 ⟨cuttable_words table e _ he, ih⟩

/-- The words of a program. -/
theorem cuttable_formWords {table : Operator.Table} {forms : List Form}
    (h : Program.Fits table forms) : AllCuttable ([";"].intercalate (forms.map Form.words)) := by
  refine .intercalate (by decide) ?_
  intro piece hmem
  obtain ⟨form, hform, rfl⟩ := List.mem_map.1 hmem
  exact cuttable_forms h form hform

end Fixity
