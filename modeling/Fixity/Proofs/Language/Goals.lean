/-
  Fixity.Proofs.Language.Goals
  ────────────────────────────────
  **WHAT THE GRAMMAR SAYS OF A GOAL.**

  Reading goes from goal to goal: to read a construct, or to extend an expression
  by the operators that follow.  Each goal has a meaning in the grammar.  The
  constructs that pass over their first token unseen are only asked for where that
  token is the one that picks them.

  Main results: `phraseOf_of_standard` (what picks a primary expression reads one),
  `lead_of_derives` (the kinds of token that a phrase can start with) and `weight_le`
  (a phrase takes a token for each of its parts).
-/
import Fixity.Proofs.Language.Passing
import Fixity.Proofs.Language.Places

namespace Fixity.Language

open Grammar

variable {file : String} {table : Operator.Table} {input rest : List Token}

/-! ## §1. The meaning of a goal. -/

/-- The phrase that a production reads. -/
def phraseOf : Production → Expr → Phrase
  | .expression => .expression
  | .unary => .operand
  | .block => .body
  | _ => .primary

/-- No operator of at least a precedence stands next. -/
def Looser (table : Operator.Table) (loosest : UInt32) (rest : List Token) : Prop :=
  ∀ spelling after precedence, Spelled rest spelling after →
    table.lookup spelling = some precedence → precedence < loosest

/-- What it means for a goal to be met. -/
def Meets (table : Operator.Table) : Goal → List Token → Expr → List Token → Prop
  | .read production, input, e, rest => Derives table (phraseOf production e) input rest
  | .climb loosest left, input, e, rest =>
      ∃ links, Derives table (.links links) input rest
        ∧ (∀ link ∈ links, loosest ≤ link.precedence)
        ∧ Looser table loosest rest ∧ Grouped left links e

/-- Where a goal may be asked for. -/
def Asked : Goal → List Token → Prop
  | .read production, input =>
      Choice.standard (lead input) = some production
        ∨ production ∈ [.expression, .unary, .primary, .block]
  | .climb _ _, _ => True

/-- What the first token picks is a primary expression. -/
theorem phraseOf_of_standard {kind : Kind} {production : Production}
    (h : Choice.standard kind = some production) : phraseOf production = .primary := by
  cases kind <;> cases h <;> rfl

/-- Nothing is looser than every precedence, so only a table without the next operator
ends an expression. -/
theorem looser_zero_iff : Looser table 0 rest ↔ Ends table rest := by
  constructor
  · intro h spelling after hspelled
    cases hlookup : table.lookup spelling with
    | none => rfl
    | some precedence => exact absurd (h _ _ _ hspelled hlookup) UInt32.not_lt_zero
  · intro h spelling after precedence hspelled hlookup
    rw [h spelling after hspelled] at hlookup
    exact absurd hlookup nofun

/-- An operator starts with a symbol. -/
theorem Spelled.lead {spelling : String} (h : Spelled input spelling rest) :
    lead input = .symbol := by
  cases h with
  | pair hfirst => exact hfirst.1
  | single htoken => exact htoken.1

/-- A token of another kind ends every expression. -/
theorem ends_of_lead (h : lead rest ≠ .symbol) : Ends table rest :=
  fun _ _ hspelled => absurd hspelled.lead h

/-- The cursor sees no operator of at least a precedence exactly when none stands
there. -/
theorem looser_iff (file : String) (cut : Cut input) (loosest : UInt32) :
    Looser table loosest input ↔
      ∀ operator precedence, infixAhead? (place file table input) = some (operator, precedence) →
        precedence < loosest := by
  constructor
  · intro h operator precedence hahead
    obtain ⟨hlookup, rest, hspelled, -, -⟩ := spelled_of_infixAhead? cut hahead
    exact h _ _ _ hspelled hlookup
  · intro h spelling after precedence hspelled hlookup
    obtain ⟨width, hahead, -, -⟩ := infixAhead?_of_spelled file cut hspelled hlookup
    exact h _ _ hahead

/-- The operator that stands next decides whether something tighter does. -/
theorem tighterAhead_iff (cut : Cut input) (precedence : UInt32) :
    tighterAhead (place file table input) precedence = true ↔
      ∃ spelling next after, Spelled input spelling after ∧ table.lookup spelling = some next
        ∧ precedence < next := by
  unfold tighterAhead
  constructor
  · intro h
    split at h
    · next operator next hahead =>
      obtain ⟨hlookup, rest, hspelled, -, -⟩ := spelled_of_infixAhead? cut hahead
      exact ⟨_, next, rest, hspelled, hlookup, by simpa using h⟩
    · exact absurd h nofun
  · intro hgiven
    obtain ⟨spelling, next, after, hspelled, hlookup, hlt⟩ := hgiven
    obtain ⟨width, hahead, -, -⟩ := infixAhead?_of_spelled file cut hspelled hlookup
    rw [hahead]
    simpa using hlt

/-- A precedence below another one has a next one. -/
theorem toNat_succ_of_lt {precedence next : UInt32} (h : precedence < next) :
    (precedence + 1).toNat = precedence.toNat + 1 := by
  have h₁ := UInt32.lt_iff_toNat_lt.1 h
  have h₂ := next.toNat_lt
  rw [UInt32.toNat_add, Nat.mod_eq_of_lt]
  · rfl
  · simp only [UInt32.toNat_one]
    omega

/-! ## §2. What a phrase starts with. -/

/-- The kinds that start a primary expression. -/
def startsPrimary (kind : Kind) : Bool := (Choice.standard kind).isSome

/-- Whether a phrase with something in it can start with a kind of token. -/
def starts : Phrase → Kind → Bool
  | .primary _, kind => startsPrimary kind
  | .operand _, kind | .expression _, kind | .arguments _, kind =>
      startsPrimary kind || kind == .symbol
  | .body _, kind => startsPrimary kind || kind == .symbol || kind == .openBlock
  | .statements _, kind =>
      startsPrimary kind || kind == .symbol || kind == .openBlock || kind == .closeBlock
  | .links _, _ | .indices _, _ => true

theorem Leads.lead {property : Token → Prop} (h : Leads property input rest) :
    ∃ token, property token ∧ lead input = token.kind := by
  obtain ⟨token, hp, rfl⟩ := h
  exact ⟨token, hp, rfl⟩

/-- Every phrase starts with a token that can start it. -/
theorem lead_of_derives {phrase : Phrase} (h : Derives table phrase input rest) :
    starts phrase (lead input) = true := by
  induction h with
  | noLink | link | noIndex | index => rfl
  -- these start as their first part does
  | chain _ _ _ _ ih _ | lastArgument _ _ ih | argument _ _ _ ih _ => exact ih
  | plain _ ih | unsigned _ ih | statement _ _ ih _ | separated _ _ _ ih _ =>
      simp only [starts] at ih ⊢
      rw [ih]
      rfl
  | block hmark | closed hmark | paren hmark | array hmark | branch hmark | branchElse hmark
  | countLoop hmark | countLoopStep hmark | whileLoop hmark | repeatLoop hmark =>
      rw [hmark.lead]
      rfl
  | signed hleads | number hleads | scalar hleads | element hleads | emptyCall hleads
  | call hleads =>
      obtain ⟨token, hp, hlead⟩ := Leads.lead hleads
      rw [hlead, hp.1]
      rfl

/-- A phrase starts with no other kind. -/
theorem lead_ne_of_derives {phrase : Phrase} {kind : Kind} (h : Derives table phrase input rest)
    (hkind : starts phrase kind = false) : lead input ≠ kind := by
  rintro rfl
  rw [lead_of_derives h] at hkind
  exact absurd hkind nofun

/-! ## §3. What a phrase takes. -/

/-- What a phrase takes at least: a token, and a token for each of its parts. -/
def Phrase.weight : Phrase → Nat
  | .links chain => chain.length
  | .indices es | .arguments es => es.length
  | .statements es => es.length + 1
  | _ => 1

theorem Leads.length {property : Token → Prop} (h : Leads property input rest) :
    input.length = rest.length + 1 := by
  obtain ⟨token, -, rfl⟩ := h
  rfl

theorem Spelled.length {spelling : String} (h : Spelled input spelling rest) :
    rest.length < input.length := by
  cases h <;> simp only [List.length_cons] <;> omega

/-- What is left after an operator is cut from the same text. -/
theorem Spelled.cut {spelling : String} (h : Spelled input spelling rest) (cut : Cut input) :
    Cut rest :=
  h.passed.cut cut

/-- One operator stands at a place. -/
theorem Spelled.unique {spelling spelling' : String} {rest' : List Token} (cut : Cut input)
    (h : Spelled input spelling rest) (h' : Spelled input spelling' rest') :
    spelling = spelling' ∧ rest = rest' := by
  -- the cursor sees a single operator, and both spellings are what it sees
  obtain ⟨width, hop, -, hadvance, -⟩ := operator?_of_spelled "" cut h
  obtain ⟨width', hop', -, hadvance', -⟩ := operator?_of_spelled "" cut h'
  rw [hop] at hop'
  cases hop'
  rw [hadvance] at hadvance'
  cases hadvance'
  exact ⟨rfl, rfl⟩

/-- A phrase leaves the tokens of the same text. -/
theorem Derives.cut {phrase : Phrase} (h : Derives table phrase input rest) (cut : Cut input) :
    Cut rest :=
  h.passed.cut cut

theorem Whole.length {low high : Nat} {n : UInt32} (h : Whole low high n input rest) :
    input.length = rest.length + 1 := by
  obtain ⟨value, hnumeral, -⟩ := h
  exact Leads.length hnumeral

theorem Dimensions.length {ns : List UInt32} (h : Dimensions input ns rest) :
    ns.length + rest.length ≤ input.length := by
  induction h with
  | nil => simp
  | cons hopen hwhole hclose _ ih =>
      have h₁ := Leads.length hopen
      have h₂ := hwhole.length
      have h₃ := Leads.length hclose
      simp only [List.length_cons]
      omega

/-- A phrase takes at least what it weighs. -/
theorem weight_le {phrase : Phrase} (h : Derives table phrase input rest) :
    phrase.weight + rest.length ≤ input.length := by
  -- each mark takes one token, and each part what it weighs by the induction hypothesis
  induction h with
  | plain _ ih | unsigned _ ih => exact ih
  | noLink | noIndex => simp [Phrase.weight]
  | chain _ _ _ _ ih ih' =>
      simp only [Phrase.weight] at *
      omega
  | statement _ _ ih ih' =>
      simp only [Phrase.weight, List.length_cons] at *
      omega
  | number hmark | scalar hmark =>
      have h₁ := Leads.length hmark
      simp only [Phrase.weight]
      omega
  | closed hmark =>
      have h₁ := Leads.length hmark
      simp only [Phrase.weight, List.length_nil]
      omega
  | block hmark _ ih | signed hmark _ _ ih =>
      have h₁ := Leads.length hmark
      simp only [Phrase.weight] at *
      omega
  | element hmark _ _ ih =>
      have h₁ := Leads.length hmark
      simp only [Phrase.weight, List.length_cons] at *
      omega
  | lastArgument _ hmark ih =>
      have h₁ := Leads.length hmark
      simp only [Phrase.weight, List.length_singleton] at *
      omega
  | whileLoop hmark _ _ ih ih' =>
      have h₁ := Leads.length hmark
      simp only [Phrase.weight] at *
      omega
  | link hspelled _ _ _ ih ih' =>
      have h₁ := hspelled.length
      simp only [Phrase.weight, List.length_cons] at *
      omega
  | separated _ hmark _ ih ih' | argument _ hmark _ ih ih' =>
      have h₁ := Leads.length hmark
      simp only [Phrase.weight, List.length_cons] at *
      omega
  | array hword hname hdimensions _ =>
      have h₁ := Leads.length hword
      have h₂ := Leads.length hname
      have h₃ := hdimensions.length
      simp only [Phrase.weight]
      omega
  | call hname hmark _ ih | paren hname _ hmark ih =>
      have h₁ := Leads.length hname
      have h₂ := Leads.length hmark
      simp only [Phrase.weight] at *
      omega
  | index hopen _ hmark _ ih ih' =>
      have h₁ := Leads.length hopen
      have h₂ := Leads.length hmark
      simp only [Phrase.weight, List.length_cons] at *
      omega
  | branch hopen _ hmark _ _ ih ih' =>
      have h₁ := Leads.length hopen
      have h₂ := Leads.length hmark
      simp only [Phrase.weight] at *
      omega
  | emptyCall hname hopen hmark =>
      have h₁ := Leads.length hname
      have h₂ := Leads.length hopen
      have h₃ := Leads.length hmark
      simp only [Phrase.weight]
      omega
  | branchElse hword _ hthen _ helse _ ih ih' ih₂ =>
      have h₁ := Leads.length hword
      have h₂ := Leads.length hthen
      have h₃ := Leads.length helse
      simp only [Phrase.weight] at *
      omega
  | countLoop hword hname hsign _ hcomma _ _ ih ih' ih₂ =>
      have h₁ := Leads.length hword
      have h₂ := Leads.length hname
      have h₃ := Leads.length hsign
      have h₄ := Leads.length hcomma
      simp only [Phrase.weight] at *
      omega
  | countLoopStep hword hname hsign _ hcomma _ hcomma' _ _ ih ih' ih₂ ih₃ =>
      have h₁ := Leads.length hword
      have h₂ := Leads.length hname
      have h₃ := Leads.length hsign
      have h₄ := Leads.length hcomma
      have h₅ := Leads.length hcomma'
      simp only [Phrase.weight] at *
      omega
  | repeatLoop hword hopen _ hclose _ ih ih' =>
      have h₁ := Leads.length hword
      have h₂ := Leads.length hopen
      have h₃ := Leads.length hclose
      simp only [Phrase.weight] at *
      omega

/-! ## §4. Links. -/

/-- Links after links are links. -/
theorem links_append {links more : List Link} {mid rest : List Token}
    (h : Derives table (.links links) input mid) (h' : Derives table (.links more) mid rest) :
    Derives table (.links (links ++ more)) input rest := by
  induction links generalizing input with
  | nil =>
      cases h
      exact h'
  | cons link links ih =>
      cases h with
      | link hspelled hlookup hoperand hlinks =>
          exact .link hspelled hlookup hoperand (ih hlinks)

theorem split_links {links more : List Link} {rest : List Token}
    (h : Derives table (.links (links ++ more)) input rest) :
    ∃ mid, Derives table (.links links) input mid ∧ Derives table (.links more) mid rest := by
  induction links generalizing input with
  | nil => exact ⟨input, .noLink, h⟩
  | cons link links ih =>
      cases h with
      | link hspelled hlookup hoperand hlinks =>
          obtain ⟨mid, hlinks, hmore⟩ := ih hlinks
          exact ⟨mid, .link hspelled hlookup hoperand hlinks, hmore⟩

/-- The first of some links is spelled where they start. -/
theorem head_of_links {links : List Link} {rest : List Token}
    (h : Derives table (.links links) input rest) :
    ∀ link ∈ links.head?, ∃ after, Spelled input link.spelling after
      ∧ table.lookup link.spelling = some link.precedence := by
  cases h with
  | noLink => simp
  | link hspelled hlookup _ _ =>
      intro link hmem
      cases hmem
      exact ⟨_, hspelled, hlookup⟩

end Fixity.Language
