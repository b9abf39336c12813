/-
  Fixity.Proofs.Language.Places
  ────────────────────────────────
  **WHAT READING SEES AT A PLACE.**

  The grammar speaks of the tokens before and after a piece, reading of a cursor
  that looks and moves.  On tokens that were cut from a text the two say the same:
  a step succeeds exactly when the token it asks for leads, and it leaves the
  tokens after that one.

  Main results: `gives_take_place`, `gives_identifier_place`, `gives_numberWith_place`
  (the steps) and `spelled_of_operator?`, `operator?_of_spelled` (the operator that the
  cursor sees is the one that the grammar spells).
-/
import Fixity.Grammar.Control
import Fixity.Grammar.Operand
import Fixity.Proofs.Language.Rules
import Fixity.Proofs.Reading.Success

namespace Fixity.Language

open Operator (isOperatorChar)
open Grammar Read

variable {file : String} {table : Operator.Table} {input rest : List Token} {s t : ReadState}

/-- The state of reading at a place. -/
abbrev place (file : String) (table : Operator.Table) (tokens : List Token) : ReadState :=
  ⟨⟨file, tokens⟩, table⟩

/-! ## §1. Moving over one token. -/

theorem Leads.cut {property : Token → Prop} (h : Leads property input rest) (cut : Cut input)
    (solid : ∀ token, property token → token.kind ≠ .eof) : Cut rest := by
  obtain ⟨token, hp, rfl⟩ := h
  exact cut.tail (solid token hp)

theorem Mark.cut {kind : Kind} (h : Mark kind input rest) (cut : Cut input)
    (solid : kind ≠ .eof) : Cut rest :=
  Leads.cut h cut fun _ hk => hk ▸ solid

theorem Name.cut {name : String} (h : Name name input rest) (cut : Cut input) : Cut rest :=
  Leads.cut h cut fun _ hp => by simp [hp.1]

theorem Numeral.cut {value : Number} (h : Numeral value input rest) (cut : Cut input) :
    Cut rest :=
  Leads.cut h cut fun _ hp => by simp [hp.1]

theorem Sign.cut {c : Char} (h : Sign c input rest) (cut : Cut input) : Cut rest :=
  Leads.cut h cut fun _ hp => by simp [hp.1]

/-- Moving over a token with tokens after it leaves those. -/
theorem advance_cons (token : Token) (h : rest ≠ []) :
    Cursor.advance ⟨file, token :: rest⟩ = ⟨file, rest⟩ := by
  obtain ⟨next, more, rfl⟩ := List.exists_cons_of_ne_nil h
  rfl

theorem Leads.advance {property : Token → Prop} (h : Leads property input rest)
    (hrest : Cut rest) : Cursor.advance ⟨file, input⟩ = ⟨file, rest⟩ := by
  obtain ⟨token, -, rfl⟩ := h
  exact advance_cons token hrest.ne_nil

/-- The kind that leads is that of a token, unless the list is over. -/
theorem mark_of_lead {kind : Kind} (h : lead input = kind) (solid : kind ≠ .eof) :
    ∃ rest, Mark kind input rest := by
  cases input with
  | nil => exact absurd h.symm solid
  | cons token rest => exact ⟨rest, token, h, rfl⟩

theorem Mark.lead {kind : Kind} (h : Mark kind input rest) : lead input = kind := by
  obtain ⟨token, hk, rfl⟩ := h
  exact hk

theorem Mark.lead_ne {kind other : Kind} (h : Mark kind input rest) (hne : kind ≠ other) :
    Language.lead input ≠ other :=
  fun hlead => hne (h.lead.symm.trans hlead)

/-- What leads decides what is left. -/
theorem Leads.rest_eq {p q : Token → Prop} {rest' : List Token} (h : Leads p input rest)
    (h' : Leads q input rest') : rest = rest' := by
  obtain ⟨token, -, rfl⟩ := h
  obtain ⟨token', -, h'⟩ := h'
  exact (List.cons.inj h').2

/-! ## §2. Steps at a place. -/

/-- The current token counts for one kind only. -/
theorem currentOf?_cons (token : Token) (rest : List Token) (kind : Kind) :
    Cursor.currentOf? ⟨file, token :: rest⟩ kind
      = if token.kind = kind then some token else none := by
  by_cases h : token.kind = kind
  · simp [Cursor.currentOf?, Cursor.current?, Option.filter, h]
  · simp [Cursor.currentOf?, Cursor.current?, Option.filter, h]

/-- The identifier at a place is the parameter that its token gives as a slot. -/
theorem identifier?_cons (token : Token) (rest : List Token) :
    Cursor.identifier? ⟨file, token :: rest⟩ = slotParam? token := by
  rw [Cursor.identifier?, currentOf?_cons, slotParam?]
  split <;> rfl

/-- Moving over a token of a kind other than the end. -/
theorem gives_advance_place {kind : Kind} {done : Unit} (h : Mark kind input rest)
    (cut : Cut input) (solid : kind ≠ .eof) :
    Gives advance (place file table input) done t ↔ t = place file table rest := by
  rw [gives_advance, h.advance (h.cut cut solid)]

theorem gives_takeOr_place {needed : Kind} {fault : Fault} {done : Unit} (cut : Cut input)
    (solid : needed ≠ .eof) :
    Gives (takeOr needed fault) (place file table input) done t
      ↔ ∃ rest, Mark needed input rest ∧ t = place file table rest := by
  rw [gives_takeOr]
  constructor
  · intro hgiven
    obtain ⟨hkind, rfl⟩ := hgiven
    obtain ⟨rest, hmark⟩ := mark_of_lead hkind solid
    exact ⟨rest, hmark, by rw [hmark.advance (hmark.cut cut solid)]⟩
  · intro hgiven
    obtain ⟨rest, hmark, rfl⟩ := hgiven
    exact ⟨hmark.lead, by rw [hmark.advance (hmark.cut cut solid)]⟩

theorem gives_take_place {needed : Kind} {shown : String} {done : Unit} (cut : Cut input)
    (solid : needed ≠ .eof) :
    Gives (take needed shown) (place file table input) done t
      ↔ ∃ rest, Mark needed input rest ∧ t = place file table rest := by
  -- which fault is raised makes no difference where nothing fails
  have h : Gives (takeOr needed .unmatchedParen) (place file table input) done t ↔ _ :=
    gives_takeOr_place cut solid
  rw [gives_take, ← h, gives_takeOr]

/-- A token that may be there is taken exactly when it leads. -/
theorem gives_taken_place {wanted : Kind} {there : Bool} (cut : Cut input)
    (solid : wanted ≠ .eof) :
    Gives (taken wanted) (place file table input) there t
      ↔ (there = true ∧ ∃ rest, Mark wanted input rest ∧ t = place file table rest)
        ∨ (there = false ∧ lead input ≠ wanted ∧ t = place file table input) := by
  rw [gives_taken]
  constructor
  · intro hgiven
    obtain ⟨hkind, rfl, rfl⟩ | ⟨hkind, rfl, rfl⟩ := hgiven
    · obtain ⟨rest, hmark⟩ := mark_of_lead hkind solid
      exact .inl ⟨rfl, rest, hmark, by rw [hmark.advance (hmark.cut cut solid)]⟩
    · exact .inr ⟨rfl, hkind, rfl⟩
  · intro hgiven
    obtain ⟨rfl, rest, hmark, rfl⟩ | ⟨rfl, hkind, rfl⟩ := hgiven
    · exact .inl ⟨hmark.lead, rfl, by rw [hmark.advance (hmark.cut cut solid)]⟩
    · exact .inr ⟨hkind, rfl, rfl⟩

theorem gives_identifier_place {name : String} (cut : Cut input) :
    Gives identifier (place file table input) name t
      ↔ ∃ rest, Name name input rest ∧ t = place file table rest := by
  rw [gives_identifier]
  constructor
  · intro hgiven
    obtain ⟨hname, rfl⟩ := hgiven
    cases input with
    | nil => simp [Cursor.identifier?, Cursor.currentOf?, Cursor.current?] at hname
    | cons token rest =>
        have h : Name name (token :: rest) rest := by
          refine ⟨token, ?_, rfl⟩
          simpa [Cursor.identifier?, currentOf?_cons] using hname
        exact ⟨rest, h, by rw [h.advance (h.cut cut)]⟩
  · intro hgiven
    obtain ⟨rest, h, rfl⟩ := hgiven
    rw [h.advance (h.cut cut)]
    obtain ⟨token, ⟨hkind, rfl⟩, rfl⟩ := h
    exact ⟨by simp [Cursor.identifier?, currentOf?_cons, hkind], rfl⟩

theorem gives_numberWith_place {α : Type} {accept : Number → Option α} {fault : String → Fault}
    {a : α} (cut : Cut input) :
    Gives (numberWith accept fault) (place file table input) a t
      ↔ ∃ value rest, Numeral value input rest ∧ accept value = some a
          ∧ t = place file table rest := by
  rw [gives_numberWith]
  constructor
  · intro hgiven
    obtain ⟨hnumber, rfl⟩ := hgiven
    cases input with
    | nil => simp [Cursor.number?, Cursor.currentOf?, Cursor.current?] at hnumber
    | cons token rest =>
        obtain ⟨value, hvalue, haccept⟩ := Option.bind_eq_some_iff.1 hnumber
        have h : Numeral value (token :: rest) rest := by
          refine ⟨token, ?_, rfl⟩
          obtain ⟨token', htoken, hread⟩ := Option.bind_eq_some_iff.1 hvalue
          rw [currentOf?_cons] at htoken
          split at htoken
          · next hkind => cases htoken; exact ⟨hkind, hread⟩
          · exact absurd htoken nofun
        exact ⟨value, rest, h, haccept, by rw [h.advance (h.cut cut)]⟩
  · intro hgiven
    obtain ⟨value, rest, h, haccept, rfl⟩ := hgiven
    rw [h.advance (h.cut cut)]
    obtain ⟨token, ⟨hkind, hread⟩, rfl⟩ := h
    exact ⟨by simp [Cursor.number?, currentOf?_cons, hkind, hread, haccept], rfl⟩

/-- The equals sign of a counting loop. -/
theorem gives_equalsSign_place {done : Unit} (cut : Cut input) :
    Gives equalsSign (place file table input) done t
      ↔ ∃ rest, Sign '=' input rest ∧ t = place file table rest := by
  have hsign : ∀ {rest}, Sign '=' input rest →
      (Cursor.mk file input).isSymbol '=' = true ∧ Cut rest := by
    intro rest h
    refine ⟨?_, h.cut cut⟩
    obtain ⟨token, ⟨hkind, htext⟩, rfl⟩ := h
    simp [Cursor.isSymbol, Cursor.kind, Cursor.text, Cursor.current?, hkind, htext]
  simp only [equalsSign, gives_bind, gives_cursor, gives_ite, gives_advance, gives_failFound,
    and_false, or_false]
  constructor
  · intro hgiven
    obtain ⟨_, _, ⟨rfl, rfl⟩, hsymbol, rfl⟩ := hgiven
    cases input with
    | nil => simp [Cursor.isSymbol, Cursor.kind, Cursor.current?] at hsymbol
    | cons token rest =>
        have h : Sign '=' (token :: rest) rest := by
          refine ⟨token, ?_, rfl⟩
          simp only [Cursor.isSymbol, Cursor.kind, Cursor.text, Cursor.current?, List.head?_cons,
            Option.map_some, Option.getD_some, Bool.and_eq_true, beq_iff_eq] at hsymbol
          exact ⟨hsymbol.1, by rw [← String.toList_inj, hsymbol.2]; rfl⟩
        exact ⟨rest, h, by rw [h.advance (hsign h).2]⟩
  · intro hgiven
    obtain ⟨rest, h, rfl⟩ := hgiven
    exact ⟨_, _, ⟨rfl, rfl⟩, (hsign h).1, by rw [h.advance (hsign h).2]⟩

/-- The character in front of an operand is that of the symbol. -/
theorem signOf?_singleton (c : Char) :
    signOf? (String.singleton c) = if isOperatorChar c then some c else none := by
  have hhead : (String.singleton c).toList.head? = some c := by simp
  rw [signOf?, hhead, Option.filter]

/-- A symbol that leads is one character. -/
theorem sign_of_lead (cut : Cut input) (h : lead input = .symbol) :
    ∃ c rest, Sign c input rest := by
  obtain ⟨rest, token, hkind, rfl⟩ := mark_of_lead h (by simp)
  cases cut with
  | last hmark => rw [hkind] at hmark; exact absurd hmark (by simp)
  | cons lexeme _ _ =>
      obtain ⟨c, hc⟩ := lexeme.symbol hkind
      exact ⟨c, _, token, hc, rfl⟩

theorem Sign.text {c : Char} {rest : List Token} (h : Sign c input rest) :
    Cursor.text ⟨file, input⟩ = String.singleton c := by
  obtain ⟨token, hp, rfl⟩ := h
  exact hp.2

theorem Sign.mark {c : Char} {rest : List Token} (h : Sign c input rest) :
    Mark .symbol input rest := by
  obtain ⟨token, hp, rfl⟩ := h
  exact ⟨token, hp.1, rfl⟩

/-! ## §3. Whole numbers at a place. -/

/-- A number that passes a test on naturals of thirty two bits is a word. -/
theorem map_ofNat_filter {accept : Nat → Bool} (small : ∀ k, accept k = true → k < UInt32.size)
    {found : Option Nat} {n : UInt32} :
    (found.filter accept).map UInt32.ofNat = some n
      ↔ found = some n.toNat ∧ accept n.toNat = true := by
  rw [Option.map_eq_some_iff]
  constructor
  · intro hgiven
    obtain ⟨k, hk, rfl⟩ := hgiven
    obtain ⟨rfl, haccept⟩ := Option.filter_eq_some_iff.1 hk
    rw [UInt32.toNat_ofNat_of_lt' (small k haccept)]
    exact ⟨rfl, haccept⟩
  · intro hgiven
    obtain ⟨rfl, haccept⟩ := hgiven
    exact ⟨n.toNat, Option.filter_eq_some_iff.2 ⟨rfl, haccept⟩, UInt32.ofNat_toNat⟩

theorem dimension?_eq_some_iff {value : Number} {n : UInt32} :
    dimension? value = some n
      ↔ value.natural? = some n.toNat ∧ 1 ≤ n.toNat ∧ n.toNat ≤ 4294967295 := by
  rw [dimension?, map_ofNat_filter]
  · simp [UInt32.size]
    omega
  · intro k hk
    simp only [decide_eq_true_eq] at hk
    exact hk.2

theorem precedence?_eq_some_iff {value : Number} {n : UInt32} :
    precedence? value = some n
      ↔ value.natural? = some n.toNat ∧ 1 ≤ n.toNat ∧ n.toNat ≤ 18 := by
  have hloosest : Operator.loosest.toNat = 1 := rfl
  have htightest : Operator.tightest.toNat = 18 := rfl
  rw [precedence?, map_ofNat_filter, hloosest, htightest, decide_eq_true_eq]
  intro k hk
  simp only [htightest, decide_eq_true_eq] at hk
  exact Nat.lt_of_le_of_lt hk.2 (by decide)

/-- A number with bounds is taken exactly when a whole number between them leads. -/
theorem gives_whole_place {low high : Nat} {accept : Number → Option UInt32}
    {fault : String → Fault} {n : UInt32} (cut : Cut input)
    (haccept : ∀ value, accept value = some n
      ↔ value.natural? = some n.toNat ∧ low ≤ n.toNat ∧ n.toNat ≤ high) :
    Gives (numberWith accept fault) (place file table input) n t
      ↔ ∃ rest, Whole low high n input rest ∧ t = place file table rest := by
  rw [gives_numberWith_place cut]
  constructor
  · intro hgiven
    obtain ⟨value, rest, hnumeral, hvalue, rfl⟩ := hgiven
    exact ⟨rest, ⟨value, hnumeral, (haccept value).1 hvalue⟩, rfl⟩
  · intro hgiven
    obtain ⟨rest, ⟨value, hnumeral, hvalue⟩, rfl⟩ := hgiven
    exact ⟨value, rest, hnumeral, (haccept value).2 hvalue, rfl⟩

theorem Whole.cut {low high : Nat} {n : UInt32} (h : Whole low high n input rest)
    (cut : Cut input) : Cut rest := by
  obtain ⟨value, hnumeral, -⟩ := h
  exact hnumeral.cut cut

/-! ## §4. Operators at a place. -/

/-- A symbol starts an operator: with the character it remembers, if the two go
together, and alone otherwise. -/
theorem operator?_symbol {token : Token} {c : Char} (h : token.IsSymbol c) :
    Cursor.operator? ⟨file, token :: rest⟩
      = some (match token.trailing.filter fun d => isOperatorChar c && isOperatorChar d with
        | some d => ⟨String.ofList [c, d], 2⟩
        | none => ⟨String.singleton c, 1⟩) := by
  have hhead : (String.singleton c).toList.head? = some c := by simp
  simp only [Cursor.operator?, currentOf?_cons, if_pos h.1, Option.bind_some, h.2, hhead,
    Option.map_some]
  rfl

/-- The operator that is spelled at a place is the one that the cursor sees. -/
theorem operator?_of_spelled (file : String) {spelling : String} (cut : Cut input)
    (h : Spelled input spelling rest) :
    ∃ width, Cursor.operator? ⟨file, input⟩ = some ⟨spelling, width⟩ ∧ Cut rest
      ∧ Cursor.advanceBy width ⟨file, input⟩ = ⟨file, rest⟩ ∧ input.drop width = rest := by
  cases h with
  | @pair first second rest c d hfirst hsecond htouch hc hd =>
      have cut' := cut.tail (by simp [hfirst.1])
      have hrest := cut'.tail (by simp [hsecond.1])
      have hjoin : first.trailing = some d := by
        cases cut with
        | cons _ joins _ => exact (joins d hd).2 ⟨htouch, hsecond⟩
      refine ⟨2, ?_, hrest, ?_, rfl⟩
      · simp [operator?_symbol hfirst, hjoin, Option.filter, hc, hd]
      · simp [Cursor.advanceBy, advance_cons _ cut'.ne_nil, advance_cons _ hrest.ne_nil]
  | @single token rest c htoken apart =>
      have hrest := cut.tail (by simp [htoken.1])
      -- an operator character right behind it would be the next token, and touch
      have hnone : (token.trailing.filter fun d => isOperatorChar c && isOperatorChar d) = none := by
        rw [Option.filter_eq_none_iff]
        intro d hd hboth
        obtain ⟨hc, hd'⟩ := Bool.and_eq_true_iff.1 hboth
        cases cut with
        | last hmark => exact absurd rfl hrest.ne_nil
        | @cons _ next _ _ joins _ =>
            obtain ⟨htouch, hnext⟩ := (joins d hd').1 hd
            exact absurd hd' (by simp [apart next d rfl hnext htouch hc])
      refine ⟨1, ?_, hrest, ?_, rfl⟩
      · rw [operator?_symbol htoken, hnone]
      · simp [Cursor.advanceBy, advance_cons _ hrest.ne_nil]

/-- The operator that the cursor sees is spelled there. -/
theorem spelled_of_operator? {operator : OperatorReading} (cut : Cut input)
    (h : Cursor.operator? ⟨file, input⟩ = some operator) :
    ∃ rest, Spelled input operator.spelling rest ∧ Cut rest
      ∧ Cursor.advanceBy operator.width ⟨file, input⟩ = ⟨file, rest⟩ := by
  -- once something is spelled here, `operator?_of_spelled` says the rest
  suffices hspelled : ∃ rest, Spelled input operator.spelling rest by
    obtain ⟨rest, hrest⟩ := hspelled
    obtain ⟨width, hwidth, cut', hadvance, -⟩ := operator?_of_spelled file cut hrest
    rw [h, Option.some.injEq] at hwidth
    exact ⟨rest, hrest, cut', by rw [hwidth]; exact hadvance⟩
  cases cut with
  | last hmark =>
      simp [Cursor.operator?, currentOf?_cons, hmark] at h
  | @cons token next rest lexeme joins cut' =>
      by_cases hkind : token.kind = .symbol
      · obtain ⟨c, htoken⟩ := lexeme.symbol hkind
        rw [operator?_symbol htoken] at h
        cases hpartner : token.trailing.filter fun d => isOperatorChar c && isOperatorChar d with
        | none =>
            rw [hpartner] at h
            cases h
            refine ⟨next :: rest, .single htoken ?_⟩
            intro other d hother hd htouch hc
            cases hother
            cases hd' : isOperatorChar d with
            | false => rfl
            | true =>
                -- the next symbol touches, so it is the character that the token remembers
                have htrail := (joins d hd').2 ⟨htouch, hd⟩
                simp [htrail, Option.filter, hc, hd'] at hpartner
        | some d =>
            rw [hpartner] at h
            cases h
            obtain ⟨htrail, hboth⟩ := Option.filter_eq_some_iff.1 hpartner
            obtain ⟨hc, hd⟩ := Bool.and_eq_true_iff.1 hboth
            obtain ⟨htouch, hnext⟩ := (joins d hd).1 htrail
            exact ⟨rest, .pair htoken hnext htouch hc hd⟩
      · simp [Cursor.operator?, currentOf?_cons, hkind] at h

/-- What the cursor sees of an operator and its precedence is in the grammar. -/
theorem spelled_of_infixAhead? {operator : OperatorReading} {precedence : UInt32} (cut : Cut input)
    (h : infixAhead? (place file table input) = some (operator, precedence)) :
    table.lookup operator.spelling = some precedence ∧
      ∃ rest, Spelled input operator.spelling rest ∧ Cut rest
        ∧ Cursor.advanceBy operator.width ⟨file, input⟩ = ⟨file, rest⟩ := by
  obtain ⟨operator', hoperator, h⟩ := Option.bind_eq_some_iff.1 h
  obtain ⟨precedence', hlookup, h⟩ := Option.map_eq_some_iff.1 h
  cases h
  exact ⟨hlookup, spelled_of_operator? cut hoperator⟩

theorem infixAhead?_of_spelled (file : String) {spelling : String} {precedence : UInt32}
    {rest : List Token} (cut : Cut input) (h : Spelled input spelling rest)
    (hlookup : table.lookup spelling = some precedence) :
    ∃ width, infixAhead? (place file table input) = some (⟨spelling, width⟩, precedence)
      ∧ Cut rest ∧ Cursor.advanceBy width ⟨file, input⟩ = ⟨file, rest⟩ := by
  obtain ⟨width, hoperator, cut', hadvance, -⟩ := operator?_of_spelled file cut h
  refine ⟨width, ?_, cut', hadvance⟩
  simp [infixAhead?, hoperator, hlookup]

end Fixity.Language
