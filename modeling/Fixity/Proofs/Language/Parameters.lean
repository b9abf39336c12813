/-
  Fixity.Proofs.Language.Parameters
  ────────────────────────────────
  **PARAMETERS ARE READ BY THEIR PLACES.**

  Behind the opening parenthesis of a head the tokens play two parts in turn: slot,
  separator, slot, separator.  A slot takes any token, a comma or a closing parenthesis
  too; only an identifier in it is a parameter.

      ( x , 1 , y )        slots  x 1 y,  parameters  x y
      ( x , , , y )        slots  x , y,  parameters  x y
      ( , , y )            slots  , y,    parameters  y

  So everything is decided by the FIRST STOP: the first separator that is no comma, or the
  first slot that is the end of the tokens.  If that is a closing parenthesis in the place
  of a separator the list is read up to and with it, and otherwise it is at fault there.
  The one exception is a parenthesis that closes at once.

  Main results: `separated_by_place` (the loop over slots and separators) and
  `parameters_by_place` (the list, and the check of an operator's operands).
-/
import Fixity.Proofs.Language.Places
import Fixity.Proofs.Reading.Failure
import Fixity.Proofs.Reading.Progress

namespace Fixity

namespace Language

open Grammar Read

variable {file : String} {table : Operator.Table} {tokens rest : List Token}
  {first second stop : Token} {index : Nat}

/-! ## §1. Slots and separators. -/

/-- The members of a list in every second place, the first one included. -/
def everySecond {α : Type} : List α → List α
  | [] => []
  | [a] => [a]
  | a :: _ :: rest => a :: everySecond rest

/-- The member in a place of its own is the one in twice that place of the list. -/
theorem getElem?_everySecond {α : Type} (items : List α) :
    ∀ i : Nat, (everySecond items)[i]? = items[2 * i]? := by
  induction items using everySecond.induct with
  | case1 => intro i; simp [everySecond]
  | case2 a =>
      intro i
      cases i with
      | zero => rfl
      | succ i => simp [everySecond, Nat.mul_add]
  | case3 a b rest ih =>
      intro i
      cases i with
      | zero => rfl
      | succ i =>
          show (everySecond rest)[i]? = (a :: b :: rest)[2 * i + 2]?
          rw [ih i]
          rfl

/-- The slots before a place. -/
def slotsBefore (tokens : List Token) (index : Nat) : List Token := everySecond (tokens.take index)

/-- The parameters that slots give are as many as the slots that hold an identifier. -/
theorem length_params (slots : List Token) :
    (slots.filterMap slotParam?).length
      = slots.countP fun slot => slot.kind = .identifier := by
  induction slots with
  | nil => rfl
  | cons slot slots ih =>
      by_cases h : slot.kind = .identifier
      · simp [slotParam?, h, ← ih]
      · simp [slotParam?, h, ← ih]

/-! ## §2. The first stop. -/

/-- Whether a list of parameters stops at a token: as a slot, in an even place, only at the
end of the tokens; as a separator, in an odd place, at everything but a comma. -/
def StopsAt (tokens : List Token) (index : Nat) (stop : Token) : Prop :=
  tokens[index]? = some stop
    ∧ ((index % 2 = 0 ∧ stop.kind = .eof) ∨ (index % 2 = 1 ∧ stop.kind ≠ .comma))

/-- The first place where a list of parameters stops, and the token there. -/
structure FirstStop (tokens : List Token) (index : Nat) (stop : Token) : Prop where
  /-- The list stops there. -/
  stops : StopsAt tokens index stop
  /-- It does not stop before. -/
  least : ∀ before other, before < index → ¬ StopsAt tokens before other

namespace FirstStop

/-- The end of the tokens in a slot. -/
theorem slot (h : first.kind = .eof) : FirstStop (first :: rest) 0 first :=
  ⟨⟨rfl, .inl ⟨rfl, h⟩⟩, fun _ _ hlt => absurd hlt (Nat.not_lt_zero _)⟩

/-- A slot is no stop if a token is in it. -/
theorem not_stopsAt_slot (h : first.kind ≠ .eof) (other : Token) :
    ¬ StopsAt (first :: rest) 0 other := by
  intro hstop
  obtain ⟨hother, ⟨-, hkind⟩ | ⟨hodd, -⟩⟩ := hstop
  · exact h (Option.some.inj hother ▸ hkind)
  · exact absurd hodd (by omega)

/-- Something else than a comma in the place of a separator. -/
theorem separator (hsolid : first.kind ≠ .eof) (h : second.kind ≠ .comma) :
    FirstStop (first :: second :: rest) 1 second := by
  refine ⟨⟨rfl, .inr ⟨rfl, h⟩⟩, fun before other hlt => ?_⟩
  have hzero : before = 0 := by omega
  subst hzero
  exact not_stopsAt_slot hsolid other

/-- Behind a slot and its comma the list goes on in the same way. -/
theorem later (hsolid : first.kind ≠ .eof) (hcomma : second.kind = .comma)
    (h : FirstStop rest index stop) :
    FirstStop (first :: second :: rest) (index + 2) stop := by
  have hshift (index : Nat) (other : Token) :
      StopsAt (first :: second :: rest) (index + 2) other ↔ StopsAt rest index other := by
    unfold StopsAt
    rw [show (index + 2) % 2 = index % 2 by omega]
    rfl
  refine ⟨(hshift index stop).2 h.stops, fun before other hlt => ?_⟩
  rcases before with _ | _ | before
  · exact not_stopsAt_slot hsolid other
  · intro hstop
    obtain ⟨hother, ⟨heven, -⟩ | ⟨-, hkind⟩⟩ := hstop
    · exact absurd heven (by omega)
    · exact hkind (Option.some.inj hother ▸ hcomma)
  · rw [hshift]
    exact h.least before other (by omega)

/-- There is only one first stop. -/
theorem unique {other : Nat} {token : Token} (h : FirstStop tokens index stop)
    (h' : FirstStop tokens other token) : index = other ∧ stop = token := by
  have hindex : index = other := by
    rcases Nat.lt_trichotomy index other with hlt | heq | hlt
    · exact absurd h.stops (h'.least _ _ hlt)
    · exact heq
    · exact absurd h'.stops (h.least _ _ hlt)
  subst hindex
  exact ⟨rfl, Option.some.inj (h.stops.1.symm.trans h'.stops.1)⟩

end FirstStop

/-- Whether a list of parameters ends well at its first stop. -/
def ClosedBy (index : Nat) (stop : Token) : Prop := index % 2 = 1 ∧ stop.kind = .closeParen

/-! ## §3. The loop. -/

/-- Where closed tokens do not show the end, there are more, and those are closed. -/
theorem closed_tail (closed : Closed (first :: rest)) (hsolid : first.kind ≠ .eof) :
    rest ≠ [] ∧ Closed rest := by
  constructor
  · rintro rfl
    exact hsolid (closed first rfl)
  · intro last hlast
    apply closed
    cases rest with
    | nil => cases hlast
    | cons next rest => rwa [List.getLast?_cons_cons]

/-- A slot takes its token, and gives the identifier in it. -/
theorem gives_slot (file : String) (table : Operator.Table) (closed : Closed (first :: rest))
    (hsolid : first.kind ≠ .eof) :
    Gives slot (place file table (first :: rest)) (slotParam? first) (place file table rest) := by
  have hadvance : Cursor.advance ⟨file, first :: rest⟩ = ⟨file, rest⟩ :=
    advance_cons first (closed_tail closed hsolid).1
  have hmoved : Gives advance (place file table (first :: rest)) ()
      ⟨Cursor.advance ⟨file, first :: rest⟩, table⟩ := gives_advance.2 rfl
  unfold slot
  refine .bind (gives_kind.2 ⟨rfl, rfl⟩) (gives_ite.2 (.inr ⟨hsolid, ?_⟩))
  refine .bind (gives_cursor.2 ⟨rfl, rfl⟩) (.bind hmoved (gives_pure.2 ?_))
  exact ⟨(identifier?_cons first rest).symm, by rw [hadvance]⟩

/-- The end of the tokens in a slot is a fault. -/
theorem fails_slot (h : first.kind = .eof) :
    Fails slot (place file table (first :: rest))
      ⟨.expectedParamOrParen first.text, ⟨first.start, file⟩⟩
      (place file table (first :: rest)) := by
  unfold slot
  refine fails_bind.2 (.inr ⟨_, _, gives_kind.2 ⟨rfl, rfl⟩, fails_ite.2 (.inl ⟨h, ?_⟩)⟩)
  exact fails_failFound.2 ⟨rfl, rfl⟩

/-- **The loop over slots and separators goes to the first stop.**  On tokens that end with
the token for the end there is one; the loop ends there, and well exactly if it closes. -/
theorem separated_by_place (file : String) (table : Operator.Table) (tokens : List Token) :
    ∀ bound, tokens ≠ [] → Closed tokens → tokens.length ≤ bound →
      ∃ index stop, FirstStop tokens index stop
        ∧ (ClosedBy index stop →
            Gives (separatedUpTo slot .expectedParamOrParen bound) (place file table tokens)
              ((slotsBefore tokens index).map slotParam?)
              (place file table (tokens.drop (index + 1))))
        ∧ (¬ ClosedBy index stop →
            Fails (separatedUpTo slot .expectedParamOrParen bound) (place file table tokens)
              ⟨.expectedParamOrParen stop.text, ⟨stop.start, file⟩⟩
              (place file table (tokens.drop index))) := by
  -- a round takes two tokens, a slot and its separator
  induction tokens using everySecond.induct with
  | case1 => exact fun _ hne => absurd rfl hne
  | case2 mark =>
      intro bound _ closed hbound
      obtain ⟨bound, rfl⟩ := Nat.exists_eq_add_of_le' hbound
      have heof : mark.kind = .eof := closed mark rfl
      refine ⟨0, mark, .slot heof, fun hclosed => absurd hclosed.1 (by omega), fun _ => ?_⟩
      exact fails_separatedUpTo_succ.2 (.inl (fails_slot heof))
  | case3 first second rest ih =>
      intro bound _ closed hbound
      obtain ⟨bound, rfl⟩ : ∃ more, bound = more + 1 :=
        ⟨bound - 1, by simp only [List.length_cons] at hbound; omega⟩
      by_cases hsolid : first.kind = .eof
      · refine ⟨0, first, .slot hsolid, fun hclosed => absurd hclosed.1 (by omega), fun _ => ?_⟩
        exact fails_separatedUpTo_succ.2 (.inl (fails_slot hsolid))
      have hslot := gives_slot file table closed hsolid
      obtain ⟨-, closed'⟩ := closed_tail closed hsolid
      by_cases hcomma : second.kind = .comma
      · -- the comma hands over to the next slot
        obtain ⟨hne, closed''⟩ := closed_tail closed' (by rw [hcomma]; decide)
        have hadvance : Cursor.advance ⟨file, second :: rest⟩ = ⟨file, rest⟩ :=
          advance_cons second hne
        have hlength : rest.length ≤ bound := by
          simp only [List.length_cons] at hbound
          omega
        obtain ⟨index, stop, hstop, hgives, hfails⟩ := ih bound hne closed'' hlength
        have hparity : ClosedBy (index + 2) stop ↔ ClosedBy index stop := by
          unfold ClosedBy
          rw [show (index + 2) % 2 = index % 2 by omega]
        refine ⟨index + 2, stop, .later hsolid hcomma hstop, fun hclosed => ?_, fun hbroken => ?_⟩
        · refine gives_separatedUpTo_succ.2 ⟨_, _, hslot, .inr ⟨hcomma, _, rfl, ?_⟩⟩
          show Gives _ ⟨Cursor.advance ⟨file, second :: rest⟩, table⟩ _ _
          rw [hadvance]
          exact hgives (hparity.1 hclosed)
        · refine fails_separatedUpTo_succ.2 (.inr ⟨_, _, hslot, .inr ⟨hcomma, ?_⟩⟩)
          show Fails _ ⟨Cursor.advance ⟨file, second :: rest⟩, table⟩ _ _
          rw [hadvance]
          exact hfails fun hclosed => hbroken (hparity.2 hclosed)
      · refine ⟨1, second, .separator hsolid hcomma, fun hclosed => ?_, fun hbroken => ?_⟩
        · have hne := (closed_tail closed' (by rw [hclosed.2]; decide)).1
          have hadvance : Cursor.advance ⟨file, second :: rest⟩ = ⟨file, rest⟩ :=
            advance_cons second hne
          refine gives_separatedUpTo_succ.2 ⟨_, _, hslot, .inl ⟨hclosed.2, rfl, ?_⟩⟩
          show _ = ReadState.mk (Cursor.advance ⟨file, second :: rest⟩) table
          rw [hadvance]
          rfl
        · have hclose : second.kind ≠ .closeParen := fun hclose => hbroken ⟨rfl, hclose⟩
          exact fails_separatedUpTo_succ.2
            (.inr ⟨_, _, hslot, .inl ⟨hclose, hcomma, rfl, rfl⟩⟩)

/-! ## §4. Lists and heads. -/

/-- Parameters that are read are the identifiers in the slots. -/
theorem gives_params {slots : List (Option String)} {s t : ReadState}
    (h : Gives (separated slot .expectedParamOrParen) s slots t) :
    Gives params s (slots.filterMap id) t := by
  unfold params
  exact .bind h (gives_pure.2 ⟨rfl, rfl⟩)

/-- An operator's head ends with a look at the number of its parameters. -/
theorem heading_of_params {s t : ReadState} {subject : Subject} {operands : Nat}
    {names : List String} {opening : Token} (hsubject :
      Gives Grammar.subject s subject (place file table (opening :: tokens)))
    (hopen : opening.kind = .openParen) (hne : tokens ≠ [])
    (hparams : Gives params (place file table tokens) names t)
    (hoperands : subject.operands? = some operands) :
    (names.length = operands → Gives heading s (subject.prototype names) t)
    ∧ (names.length ≠ operands → Fails heading s
        ⟨.arityMismatch subject.name operands names.length, t.cursor.position⟩ t) := by
  have htake : Gives (take .openParen "(") (place file table (opening :: tokens)) ()
      (place file table tokens) := by
    refine gives_take.2 ⟨hopen, ?_⟩
    show _ = ReadState.mk (Cursor.advance ⟨file, opening :: tokens⟩) table
    rw [advance_cons opening hne]
  unfold heading
  constructor
  · intro hcount
    refine .bind hsubject (.bind htake (.bind hparams ?_))
    rw [hoperands]
    exact gives_ite.2 (.inl ⟨hcount, gives_pure.2 ⟨rfl, rfl⟩⟩)
  · intro hcount
    refine fails_bind.2 (.inr ⟨_, _, hsubject, fails_bind.2 (.inr ⟨_, _, htake, ?_⟩)⟩)
    refine fails_bind.2 (.inr ⟨_, _, hparams, ?_⟩)
    rw [hoperands]
    exact fails_ite.2 (.inr ⟨hcount, fails_fail.2 ⟨rfl, rfl⟩⟩)

/-- **Parameters are read by their places.**  Behind an opening parenthesis a closing one ends
the list at once.  Otherwise the list goes to its first stop: if that closes it, everything up
to and with it is taken, and the parameters are the identifiers in the slots before it, in
order; if not, it is the token at fault and the cursor is on it.  The head of an operator whose
parameters were read is accepted exactly if they are one, or two for an operator between
operands, and its fault names their number. -/
theorem parameters_by_place (file : String) (table : Operator.Table) {opening : Token}
    (hopen : opening.kind = .openParen)
    (closed : Closed (opening :: tokens)) :
    (lead tokens = .closeParen →
      Gives params (place file table tokens) [] (place file table (tokens.drop 1)))
    ∧ (lead tokens ≠ .closeParen →
      ∃ index stop, FirstStop tokens index stop
        ∧ (ClosedBy index stop →
            ∃ names, names = (slotsBefore tokens index).filterMap slotParam?
              ∧ (∀ i : Nat, (slotsBefore tokens index)[i]? = (tokens.take index)[2 * i]?)
              ∧ names.length
                  = (slotsBefore tokens index).countP (fun slot => slot.kind = .identifier)
              ∧ Gives params (place file table tokens) names
                  (place file table (tokens.drop (index + 1))))
        ∧ (¬ ClosedBy index stop →
            Fails params (place file table tokens)
              ⟨.expectedParamOrParen stop.text, ⟨stop.start, file⟩⟩
              (place file table (tokens.drop index))))
    ∧ ∀ s subject operands,
        Gives Grammar.subject s subject (place file table (opening :: tokens)) →
        ((∃ symbol, subject = .unary symbol ∧ operands = 1)
          ∨ ∃ spelling precedence, subject = .binary spelling precedence ∧ operands = 2) →
        ∀ names t, Gives params (place file table tokens) names t →
          (names.length = operands → Gives heading s (subject.prototype names) t)
          ∧ (names.length ≠ operands → Fails heading s
              ⟨.arityMismatch subject.name operands names.length, t.cursor.position⟩ t) := by
  obtain ⟨hne, closed'⟩ := closed_tail closed (by rw [hopen]; decide)
  refine ⟨fun hclose => ?_, fun hnone => ?_, ?_⟩
  · obtain ⟨rest, close, hkind, rfl⟩ := mark_of_lead hclose (by decide)
    have hrest := (closed_tail closed' (by rw [hkind]; decide)).1
    have hempty : Gives (separated slot .expectedParamOrParen)
        (place file table (close :: rest)) [] (place file table rest) := by
      refine gives_separated.2 (.inl ⟨hkind, rfl, ?_⟩)
      show _ = ReadState.mk (Cursor.advance ⟨file, close :: rest⟩) table
      rw [advance_cons close hrest]
    exact gives_params hempty
  · obtain ⟨index, stop, hstop, hgives, hfails⟩ :=
      separated_by_place file table tokens (tokens.length + 1) hne closed'
        (Nat.le_succ _)
    refine ⟨index, stop, hstop, fun hclosed => ?_, fun hbroken => ?_⟩
    · have hslots : Gives (separated slot .expectedParamOrParen) (place file table tokens)
          ((slotsBefore tokens index).map slotParam?) (place file table (tokens.drop (index + 1))) :=
        gives_separated.2 (.inr ⟨hnone, hgives hclosed⟩)
      have hread := gives_params hslots
      rw [List.filterMap_map] at hread
      exact ⟨_, rfl, getElem?_everySecond _, length_params _, hread⟩
    · unfold params
      exact fails_bind.2 (.inl (fails_separated.2 ⟨hnone, hfails hbroken⟩))
  · intro s subject operands hsubject hoperands names t hparams
    refine heading_of_params hsubject hopen hne hparams ?_
    obtain ⟨symbol, rfl, rfl⟩ | ⟨spelling, precedence, rfl, rfl⟩ := hoperands
    · rfl
    · rfl

/-- A comma in a slot, in `unary - (x,,,y)`: the closing parenthesis is the third separator, the
parameters are `x` and `y`, and that is one too many for the operator. -/
theorem comma_in_a_slot :
    ∃ (opening mark : Token) (tokens : List Token) (s : ReadState),
      opening.kind = .openParen ∧ Closed (opening :: tokens) ∧ lead tokens ≠ .closeParen
      ∧ tokens.map Token.text = ["x", ",", ",", ",", "y", ")", "EOF"]
      ∧ Gives params (place "sel" .standard tokens) ["x", "y"] (place "sel" .standard [mark])
      ∧ Gives Grammar.subject s (.unary "-") (place "sel" .standard (opening :: tokens))
      ∧ Fails heading s ⟨.arityMismatch "unary-" 1 2, ⟨14, "sel"⟩⟩
          (place "sel" .standard [mark]) := by
  let opening : Token := ⟨.openParen, "(", 7, 8, some 'x'⟩
  let close : Token := ⟨.closeParen, ")", 13, 14, none⟩
  let mark : Token := ⟨.eof, "EOF", 14, 14, none⟩
  let tokens : List Token := [⟨.identifier, "x", 8, 9, some ','⟩, ⟨.comma, ",", 9, 10, some ','⟩,
    ⟨.comma, ",", 10, 11, some ','⟩, ⟨.comma, ",", 11, 12, some 'y'⟩,
    ⟨.identifier, "y", 12, 13, some ')'⟩, close, mark]
  let s : ReadState := place "sel" .standard
    (⟨.unaryWord, "unary", 0, 5, some ' '⟩ :: ⟨.symbol, "-", 6, 7, some '('⟩ :: opening :: tokens)
  have closed : Closed (opening :: tokens) := by
    intro last hlast
    cases hlast
    rfl
  have hnone : lead tokens ≠ .closeParen := by decide
  have hthird : FirstStop tokens 5 close :=
    .later (by decide) rfl (.later (by decide) rfl (.separator (by decide) (by decide)))
  have hsubject : Gives Grammar.subject s (.unary "-")
      (place "sel" .standard (opening :: tokens)) := by
    have hsign : "-".toList.all Operator.isOperatorChar = true := by decide +kernel
    have hword : Gives advance s () (place "sel" .standard
        (⟨.symbol, "-", 6, 7, some '('⟩ :: opening :: tokens)) := gives_advance.2 rfl
    have hsymbol : Gives advance (place "sel" .standard
        (⟨.symbol, "-", 6, 7, some '('⟩ :: opening :: tokens)) ()
        (place "sel" .standard (opening :: tokens)) := gives_advance.2 rfl
    refine .bind (gives_kind.2 ⟨rfl, rfl⟩) (.bind hword (.bind (gives_kind.2 ⟨rfl, rfl⟩) ?_))
    refine gives_ite.2 (.inl ⟨rfl, .bind (gives_text.2 ⟨rfl, rfl⟩) ?_⟩)
    exact gives_ite.2 (.inl ⟨hsign, .bind hsymbol (gives_pure.2 ⟨rfl, rfl⟩)⟩)
  have hopen : opening.kind = .openParen := rfl
  obtain ⟨-, hlist, hheading⟩ := parameters_by_place "sel" .standard hopen closed
  obtain ⟨index, stop, hstop, hgives, -⟩ := hlist hnone
  obtain ⟨rfl, rfl⟩ := hstop.unique hthird
  obtain ⟨names, hnames, -, -, hparams⟩ := hgives ⟨rfl, rfl⟩
  obtain rfl : names = ["x", "y"] := hnames
  have hmismatch := (hheading s _ 1 hsubject (.inl ⟨"-", rfl, rfl⟩) _ _ hparams).2 (by decide)
  exact ⟨opening, mark, tokens, s, hopen, closed, hnone, rfl, hparams, hsubject, hmismatch⟩

end Language
end Fixity
