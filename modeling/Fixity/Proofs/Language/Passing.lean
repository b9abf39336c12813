/-
  Fixity.Proofs.Language.Passing
  ────────────────────────────────
  **WHAT A PHRASE PASSES OVER.**

  A phrase takes tokens from the front and leaves the others as they are.  It never
  takes the end mark, and never the word that starts a definition: that word is no
  part of any expression.

  So what a phrase leaves is cut from the same text, and a definition that is met is
  met between two forms.

  Main results: `Derives.passed` and `Passed.cut`.
-/
import Fixity.Proofs.Language.Rules

namespace Fixity.Language

variable {table : Operator.Table} {input rest : List Token}

/-! ## §1. Tokens that are passed over. -/

/-- Tokens stand before the rest, none of which starts a definition or is the end. -/
def Passed (input rest : List Token) : Prop :=
  ∃ used, input = used ++ rest ∧ ∀ token ∈ used, token.kind ≠ .funcWord ∧ token.kind ≠ .eof

namespace Passed

theorem refl (rest : List Token) : Passed rest rest := ⟨[], rfl, by simp⟩

theorem trans {mid : List Token} (h : Passed input mid) (h' : Passed mid rest) :
    Passed input rest := by
  obtain ⟨used, rfl, hused⟩ := h
  obtain ⟨used', rfl, hused'⟩ := h'
  refine ⟨used ++ used', by rw [List.append_assoc], fun token hmem => ?_⟩
  obtain hmem | hmem := List.mem_append.1 hmem
  · exact hused token hmem
  · exact hused' token hmem

/-- What is left was cut from the same text. -/
theorem cut (h : Passed input rest) (cut : Cut input) : Cut rest := by
  obtain ⟨used, rfl, hused⟩ := h
  induction used with
  | nil => exact cut
  | cons token used ih =>
      exact ih (fun other hmem => hused other (List.mem_cons_of_mem _ hmem))
        (cut.tail (hused token List.mem_cons_self).2)

theorem length_le (h : Passed input rest) : rest.length ≤ input.length := by
  obtain ⟨used, rfl, -⟩ := h
  rw [List.length_append]
  exact Nat.le_add_left _ _

end Passed

/-! ## §2. Tokens of the grammar. -/

theorem Leads.passed {property : Token → Prop} (h : Leads property input rest)
    (plain : ∀ token, property token → token.kind ≠ .funcWord ∧ token.kind ≠ .eof) :
    Passed input rest := by
  obtain ⟨token, hp, rfl⟩ := h
  refine ⟨[token], rfl, fun other hmem => ?_⟩
  rw [List.mem_singleton.1 hmem]
  exact plain token hp

theorem Mark.passed {kind : Kind} (h : Mark kind input rest)
    (plain : kind ≠ .funcWord ∧ kind ≠ .eof) : Passed input rest :=
  Leads.passed h fun _ hp => hp ▸ plain

theorem Name.passed {name : String} (h : Name name input rest) : Passed input rest :=
  Leads.passed h fun _ hp => by simp [hp.1]

theorem Sign.passed {c : Char} (h : Sign c input rest) : Passed input rest :=
  Leads.passed h fun _ hp => by simp [hp.1]

theorem Numeral.passed {value : Number} (h : Numeral value input rest) : Passed input rest :=
  Leads.passed h fun _ hp => by simp [hp.1]

theorem Whole.passed {low high : Nat} {n : UInt32} (h : Whole low high n input rest) :
    Passed input rest := by
  obtain ⟨value, hnumeral, -⟩ := h
  exact hnumeral.passed

theorem Spelled.passed {spelling : String} (h : Spelled input spelling rest) :
    Passed input rest := by
  cases h with
  | @pair first second rest c d hfirst hsecond =>
      have h₁ : Sign c (first :: second :: rest) (second :: rest) := ⟨first, hfirst, rfl⟩
      have h₂ : Sign d (second :: rest) rest := ⟨second, hsecond, rfl⟩
      exact h₁.passed.trans h₂.passed
  | @single token rest c htoken =>
      have h : Sign c (token :: rest) rest := ⟨token, htoken, rfl⟩
      exact h.passed

theorem Dimensions.passed {ns : List UInt32} (h : Dimensions input ns rest) :
    Passed input rest := by
  induction h with
  | nil => exact .refl _
  | cons hopen hwhole hclose _ ih =>
      exact (hopen.passed (by simp)).trans
        (hwhole.passed.trans ((hclose.passed (by simp)).trans ih))

/-! ## §3. Phrases. -/

/-- No token of a phrase starts a definition, or is the end. -/
theorem Derives.passed {phrase : Phrase} (h : Derives table phrase input rest) :
    Passed input rest := by
  induction h with
  | plain _ ih | unsigned _ ih => exact ih
  | noLink | noIndex => exact .refl _
  | block hopen _ ih => exact (hopen.passed (by simp)).trans ih
  | closed hclose => exact hclose.passed (by simp)
  | statement _ _ ih ih' | chain _ _ _ _ ih ih' => exact ih.trans ih'
  | separated _ hmark _ ih ih' => exact ih.trans ((hmark.passed (by simp)).trans ih')
  | link hspelled _ _ _ ih ih' => exact hspelled.passed.trans (ih.trans ih')
  | signed hsign _ _ ih => exact hsign.passed.trans ih
  | number hnumeral => exact hnumeral.passed
  | paren hopen _ hclose ih =>
      exact (hopen.passed (by simp)).trans (ih.trans (hclose.passed (by simp)))
  | scalar hname => exact hname.passed
  | element hname _ _ ih => exact hname.passed.trans ih
  | index hopen _ hclose _ ih ih' =>
      exact (hopen.passed (by simp)).trans (ih.trans ((hclose.passed (by simp)).trans ih'))
  | emptyCall hname hopen hclose =>
      exact hname.passed.trans ((hopen.passed (by simp)).trans (hclose.passed (by simp)))
  | call hname hopen _ ih => exact hname.passed.trans ((hopen.passed (by simp)).trans ih)
  | lastArgument _ hclose ih => exact ih.trans (hclose.passed (by simp))
  | argument _ hcomma _ ih ih' => exact ih.trans ((hcomma.passed (by simp)).trans ih')
  | array hword hname hdimensions _ =>
      exact (hword.passed (by simp)).trans (hname.passed.trans hdimensions.passed)
  | branch hword _ hthen _ _ ih ih' =>
      exact (hword.passed (by simp)).trans (ih.trans ((hthen.passed (by simp)).trans ih'))
  | branchElse hword _ hthen _ helse _ ih ih' ih₂ =>
      exact (hword.passed (by simp)).trans (ih.trans ((hthen.passed (by simp)).trans
        (ih'.trans ((helse.passed (by simp)).trans ih₂))))
  | countLoop hword hname hsign _ hcomma _ _ ih ih' ih₂ =>
      exact (hword.passed (by simp)).trans (hname.passed.trans (hsign.passed.trans
        (ih.trans ((hcomma.passed (by simp)).trans (ih'.trans ih₂)))))
  | countLoopStep hword hname hsign _ hcomma _ hcomma' _ _ ih ih' ih₂ ih₃ =>
      exact (hword.passed (by simp)).trans (hname.passed.trans (hsign.passed.trans
        (ih.trans ((hcomma.passed (by simp)).trans (ih'.trans ((hcomma'.passed (by simp)).trans
          (ih₂.trans ih₃)))))))
  | whileLoop hword _ _ ih ih' => exact (hword.passed (by simp)).trans (ih.trans ih')
  | repeatLoop hword hopen _ hclose _ ih ih' =>
      exact (hword.passed (by simp)).trans ((hopen.passed (by simp)).trans
        (ih.trans ((hclose.passed (by simp)).trans ih')))

end Fixity.Language
