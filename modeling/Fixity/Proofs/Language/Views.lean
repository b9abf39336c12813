/-
  Fixity.Proofs.Language.Views
  ────────────────────────────────
  **WHAT READING SEES OF A TOKEN.**

  Of a token reading sees the kind, the text, and the operator character that it goes
  together with; it sees neither where the token stands nor what else follows it.
  So two lists of tokens that look the same are read the same: as the same forms, or
  with the same fault at the token of the same index, and the table is the same after
  both.

  The two runs stay side by side: each stands before the same token of its list.

  Main results: `alike_views` (the runs stay side by side) and `readAlike_of_view_eq` (what
  both give).
-/
import Fixity.Proofs.Language.Places
import Fixity.Proofs.Reading.Lockstep
import Fixity.Proofs.Scanning.Spacing

namespace Fixity

open Operator (isOperatorChar)

/-! ## §1. Views. -/

namespace Token

/-- The operator character that a symbol goes together with: the one that it remembers, if
it is of the alphabet itself. -/
def partner? (token : Token) : Option Char :=
  if token.kind = .symbol then
    token.text.toList.head?.bind fun first =>
      token.trailing.filter fun next => isOperatorChar first && isOperatorChar next
  else none

/-- What reading sees of a token. -/
structure View where
  /-- What it is. -/
  kind : Kind
  /-- The characters it was cut from. -/
  text : String
  /-- The operator character that it goes together with. -/
  partner : Option Char
deriving DecidableEq

/-- What reading sees of this token. -/
def view (token : Token) : View := ⟨token.kind, token.text, token.partner?⟩

/-- The operator that starts with a token so seen. -/
def View.operator? (view : View) : Option OperatorReading :=
  if view.kind = .symbol then
    view.text.toList.head?.map fun first =>
      match view.partner with
      | some next => ⟨String.ofList [first, next], 2⟩
      | none => ⟨String.singleton first, 1⟩
  else none

/-- A token looks the same wherever it stands. -/
theorem view_respaced (token : Token) : token.respaced.view = token.view := rfl

/-- A token remembers an operator character that it goes together with. -/
theorem partner?_eq_some_iff {token : Token} {d : Char} :
    token.partner? = some d
      ↔ ∃ c, token.kind = .symbol ∧ token.text.toList.head? = some c ∧ isOperatorChar c = true
          ∧ token.trailing = some d ∧ isOperatorChar d = true := by
  unfold partner?
  constructor
  · intro h
    split at h
    · next hkind =>
      obtain ⟨c, hc, hfilter⟩ := Option.bind_eq_some_iff.1 h
      obtain ⟨htrail, hboth⟩ := Option.filter_eq_some_iff.1 hfilter
      obtain ⟨hoperator, hoperator'⟩ := Bool.and_eq_true_iff.1 hboth
      exact ⟨c, hkind, hc, hoperator, htrail, hoperator'⟩
    · exact absurd h nofun
  · rintro ⟨c, hkind, hc, hoperator, htrail, hoperator'⟩
    rw [if_pos hkind, hc, Option.bind_some, htrail]
    simp [Option.filter, hoperator, hoperator']

end Token

namespace Cursor

theorem operator?_cons (file : String) (token : Token) (rest : List Token) :
    operator? ⟨file, token :: rest⟩ = token.view.operator? := by
  rw [operator?, Language.currentOf?_cons, Token.View.operator?]
  by_cases hkind : token.kind = .symbol
  · rw [if_pos hkind, if_pos (show token.view.kind = .symbol from hkind), Option.bind_some]
    show token.text.toList.head?.map _ = token.text.toList.head?.map _
    cases hfirst : token.text.toList.head? with
    | none => rfl
    | some first =>
        -- the character that the cursor asks for is the partner of the token
        have hpartner : partner? ⟨file, token :: rest⟩ first = token.partner? := by
          rw [Token.partner?, if_pos hkind, hfirst]
          rfl
        rw [Option.map_some, Option.map_some, hpartner]
        rfl
  · rw [if_neg hkind, if_neg (show ¬ token.view.kind = .symbol from hkind), Option.bind_none]

end Cursor

namespace Language

open Grammar Read

/-! ## §2. Lists that look the same. -/

/-- Two states before the tokens of the same index in two lists that look the same. -/
structure Beside (file : String) (tokens others : List Token) (s t : ReadState) : Prop where
  /-- The tables are the same. -/
  table : t.table = s.table
  /-- Both texts have the name. -/
  named : s.cursor.file = file ∧ t.cursor.file = file
  /-- As many tokens of the one list were read as of the other. -/
  index : ∃ used used', tokens = used ++ s.cursor.tokens ∧ others = used' ++ t.cursor.tokens
    ∧ used.length = used'.length
  /-- The tokens that are left look the same. -/
  view : s.cursor.tokens.map Token.view = t.cursor.tokens.map Token.view
  /-- There is a token. -/
  some : s.cursor.tokens ≠ []

/-- The same fault of one file at the start of the tokens of the same index. -/
def SamePlace (file : String) (tokens others : List Token) (error other : Error) : Prop :=
  error.fault = other.fault
    ∧ ∃ (index : Nat) (token token' : Token), tokens[index]? = some token
        ∧ others[index]? = some token' ∧ error.position = ⟨token.start, file⟩
        ∧ other.position = ⟨token'.start, file⟩

variable {tokens others : List Token}

/-- Reading sees no more of a list than the views of its tokens. -/
theorem alike_views (file : String) (tokens others : List Token) :
    Alike (Beside file tokens others) (SamePlace file tokens others) := by
  -- the tokens that are looked at are there, and look the same
  have hlook {s t : ReadState} (h : Beside file tokens others s t) :
      ∃ table token rest token' rest', s = place file table (token :: rest)
        ∧ t = place file table (token' :: rest') ∧ token.view = token'.view
        ∧ rest.map Token.view = rest'.map Token.view := by
    obtain ⟨⟨_, left⟩, table⟩ := s
    obtain ⟨⟨_, left'⟩, table'⟩ := t
    obtain ⟨token, rest, rfl⟩ := List.exists_cons_of_ne_nil h.some
    cases h.table
    cases h.named.1
    cases h.named.2
    obtain ⟨token', rest', rfl, hview, hrest⟩ := List.map_eq_cons_iff.1 h.view.symm
    exact ⟨table, token, rest, token', rest', rfl, rfl, hview.symm, hrest.symm⟩
  have hoperator {s t : ReadState} (h : Beside file tokens others s t) :
      s.cursor.operator? = t.cursor.operator? := by
    obtain ⟨table, token, rest, token', rest', rfl, rfl, hview, -⟩ := hlook h
    rw [Cursor.operator?_cons, Cursor.operator?_cons, hview]
  refine ⟨⟨?kind, ?text, ?length, ?operator, ?ahead, ?advance, ?error⟩, ?declare⟩
  case kind =>
    intro s t h
    obtain ⟨table, token, rest, token', rest', rfl, rfl, hview, -⟩ := hlook h
    exact congrArg Token.View.kind hview
  case text =>
    intro s t h
    obtain ⟨table, token, rest, token', rest', rfl, rfl, hview, -⟩ := hlook h
    exact congrArg Token.View.text hview
  case length =>
    intro s t h
    simpa using congrArg List.length h.view
  case operator => exact hoperator
  case ahead =>
    intro s t h
    simp only [infixAhead?, hoperator h, h.table]
  case advance =>
    intro s t h
    obtain ⟨used, used', hused, hused', hlength⟩ := h.index
    obtain ⟨table, token, rest, token', rest', rfl, rfl, hview, hrest⟩ := hlook h
    -- the last token is not left, and it is the last one of both lists
    cases rest with
    | nil =>
        cases rest' with
        | nil => exact h
        | cons next' more' => cases hrest
    | cons next more =>
        cases rest' with
        | nil => cases hrest
        | cons next' more' =>
            refine ⟨rfl, ⟨rfl, rfl⟩, ⟨used ++ [token], used' ++ [token'], ?_, ?_, ?_⟩, hrest,
              List.cons_ne_nil next more⟩
            · rw [List.append_assoc]
              exact hused
            · rw [List.append_assoc]
              exact hused'
            · rw [List.length_append, List.length_append, hlength]
              rfl
  case error =>
    intro s t fault h
    obtain ⟨used, used', hused, hused', hlength⟩ := h.index
    obtain ⟨table, token, rest, token', rest', rfl, rfl, -, -⟩ := hlook h
    refine ⟨rfl, used.length, token, token', ?_, ?_, rfl, rfl⟩
    · rw [hused]
      simp
    · rw [hused', hlength]
      simp
  case declare =>
    intro s t spelling precedence h
    refine ⟨?_, h.named, h.index, h.view, h.some⟩
    exact congrArg (Operator.Table.declare · spelling precedence) h.table

/-! ## §3. Programs that look the same. -/

/-- What reading two lists gives is the same: the same forms or the same fault at the
tokens of the same index, and the same table. -/
def ReadAlike (file : String) (tokens others : List Token) (outcome other : Outcome) : Prop :=
  outcome.table = other.table
    ∧ match outcome.result, other.result with
      | .ok forms, .ok forms' => forms = forms'
      | .error error, .error error' => SamePlace file tokens others error error'
      | _, _ => False

/-- **Lists that look the same are read the same.** -/
theorem readAlike_of_view_eq (file : String) (table : Operator.Table) (some : tokens ≠ [])
    (same : tokens.map Token.view = others.map Token.view) :
    ReadAlike file tokens others (Program.ofTokens file tokens table)
      (Program.ofTokens file others table) := by
  have hbeside : Beside file tokens others (place file table tokens) (place file table others) :=
    ⟨rfl, ⟨rfl, rfl⟩, ⟨[], [], rfl, rfl, rfl⟩, same, some⟩
  have hforms := (alike_views file tokens others).forms_inStep .standard hbeside
  unfold Program.ofTokens
  match hrun : (Grammar.forms .standard).run (place file table tokens),
    hrun' : (Grammar.forms .standard).run (place file table others) with
  | .ok forms s, .ok forms' t =>
      rw [hrun, hrun'] at hforms
      exact ⟨hforms.2.table.symm, hforms.1⟩
  | .error error s, .error error' t =>
      rw [hrun, hrun'] at hforms
      exact ⟨hforms.2.table.symm, hforms.1⟩
  | .ok forms s, .error error' t => rw [hrun, hrun'] at hforms; exact hforms.elim
  | .error error s, .ok forms' t => rw [hrun, hrun'] at hforms; exact hforms.elim

/-- A list is read as it is with the places of a short text. -/
theorem readAlike_respaced (file : String) (table : Operator.Table) (linked : Linked tokens) :
    ReadAlike file tokens (tokens.map Token.respaced) (Program.ofTokens file tokens table)
      (Program.ofTokens file (tokens.map Token.respaced) table) := by
  refine readAlike_of_view_eq file table (fun hnil => ?_) (by simp [Token.view_respaced])
  exact linked.cut_respaced.ne_nil (by rw [hnil]; rfl)

/-- If one of two lists that are read alike gives forms, the other gives the same. -/
theorem ReadAlike.ok {outcome other : Outcome} {forms : List Form}
    (h : ReadAlike file tokens others outcome other) (hok : outcome.result = .ok forms) :
    other.result = .ok forms := by
  have hresult := h.2
  rw [hok] at hresult
  match hother : other.result with
  | .ok forms' =>
      rw [hother] at hresult
      rw [hresult]
  | .error error =>
      rw [hother] at hresult
      exact hresult.elim

end Language
end Fixity
