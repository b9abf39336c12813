/-
  Fixity.Proofs.Language.Climbing
  ────────────────────────────────
  **WHAT CLIMBING READS, AND HOW IT GROUPS.**

  Climbing takes operators and operands one after the other and calls itself for what binds
  tighter.  Seen from outside it reads a row: an operator that is tight enough, the operand
  right after it, and so on, as long as such an operator stands next.  What it gives is the
  tree of that row, which is cut at the last of its loosest operators:

      a = b + c * d - e     (= a (- (+ b (* c d)) e))

  So its calls and its lookahead leave no trace, and where the climb began only says how
  long the row is.

  Main results: `row_of_links` (the row, in terms of what reading does) and
  `climb_groups`.
-/
import Fixity.Proofs.Language.Programs

namespace Fixity.Language

open Grammar Read
open Text (byteLength)

variable {file : String} {table : Operator.Table} {loosest : UInt32} {input rest : List Token}
variable {links : List Link} {e : Expr} {s t : ReadState}

/-! ## §1. Rows of operators and operands. -/

/-- Operators and operands from a state to another one: the operator under the cursor has at
least a precedence, the operand is what is read right after its tokens, and the row goes on
where that ends. -/
inductive Row (loosest : UInt32) : ReadState → List Link → ReadState → Prop
  /-- No operator is taken. -/
  | done (s : ReadState) : Row loosest s [] s
  /-- An operator and its operand are taken. -/
  | link {s next t : ReadState} {operator : OperatorReading} {precedence : UInt32} {operand : Expr}
      {links : List Link} :
      s.cursor.operator? = some operator →
      s.table.lookup operator.spelling = some precedence →
      loosest ≤ precedence →
      (s.cursor.advanceBy operator.width).tokens = s.cursor.tokens.drop operator.width →
      Gives (read .standard .unary) { s with cursor := s.cursor.advanceBy operator.width }
        operand next →
      Row loosest next links t →
      Row loosest s (⟨operator.spelling, precedence, operand⟩ :: links) t

/-- No operator of at least a precedence stands under the cursor. -/
def RowEnds (loosest : UInt32) (s : ReadState) : Prop :=
  ∀ operator precedence, s.cursor.operator? = some operator →
    s.table.lookup operator.spelling = some precedence → precedence < loosest

/-- An operand at the cursor is read exactly when one stands there. -/
theorem gives_operand_place (cut : Cut input) :
    Gives (read .standard .unary) (place file table input) e t
      ↔ ∃ rest, Derives table (.operand e) input rest ∧ Cut rest ∧ t = place file table rest :=
  gives_achieve_place cut (.inr (by decide))

/-- Links that stand somewhere are read there as a row. -/
theorem row_of_links (file : String) (h : Derives table (.links links) input rest)
    (cut : Cut input) (hle : ∀ link ∈ links, loosest ≤ link.precedence) :
    Row loosest (place file table input) links (place file table rest) := by
  induction links generalizing input with
  | nil =>
      cases h
      exact .done _
  | cons link links ih =>
      obtain ⟨hlink, hrest⟩ := List.forall_mem_cons.1 hle
      cases h with
      | @link spelling precedence operand _ _ next after _ hspelled hlookup hoperand hlinks =>
          obtain ⟨width, hoperator, cut', hadvance, hdrop⟩ := operator?_of_spelled file cut hspelled
          have hread : Gives (read .standard .unary)
              ⟨Cursor.advanceBy width ⟨file, input⟩, table⟩ operand (place file table after) := by
            rw [hadvance]
            exact (gives_operand_place cut').2 ⟨after, hoperand, hoperand.cut cut', rfl⟩
          have htokens : (Cursor.advanceBy width ⟨file, input⟩).tokens = input.drop width := by
            rw [hadvance, hdrop]
          have hmore := ih hlinks (hoperand.cut cut') hrest
          exact @Row.link loosest (place file table input) _ _ ⟨spelling, width⟩ precedence operand
            links hoperator hlookup hlink htokens hread hmore

/-- A row stops where no operator of at least its precedence stands. -/
theorem rowEnds_of_looser (file : String) (cut : Cut input) (h : Looser table loosest input) :
    RowEnds loosest (place file table input) := by
  intro operator precedence hoperator hlookup
  apply (looser_iff file cut loosest).1 h operator
  show (Cursor.operator? ⟨file, input⟩).bind _ = _
  rw [hoperator]
  show (table.lookup operator.spelling).map _ = _
  rw [hlookup]
  rfl

/-! ## §2. Climbing. -/

/-- What an expression is extended to. -/
theorem climb_row (cut : Cut input) {left : Expr}
    (h : Gives (achieve .standard (.climb loosest left)) (place file table input) e t) :
    ∃ links, Row loosest (place file table input) links t ∧ RowEnds loosest t
      ∧ t.table = table ∧ e = Chain.tree left links := by
  obtain ⟨rest, ⟨links, hlinks, hle, hlooser, hgrouped⟩, cut', rfl⟩ :=
    (gives_achieve_place cut (show Asked (.climb loosest left) input from trivial)).1 h
  exact ⟨links, row_of_links file hlinks cut hle, rowEnds_of_looser file cut' hlooser, rfl,
    hgrouped.unique (.tree left links)⟩

/-- What an expression is read as. -/
theorem expression_row (cut : Cut input)
    (h : Gives (read .standard .expression) (place file table input) e t) :
    ∃ first next links, Gives (read .standard .unary) (place file table input) first next
      ∧ Row 0 next links t ∧ RowEnds 0 t ∧ t.table = table ∧ e = Chain.tree first links := by
  obtain ⟨rest, hderives, cut', rfl⟩ :=
    (gives_achieve_place cut (show Asked (.read .expression) input from .inr (by decide))).1 h
  cases hderives with
  | chain hoperand hlinks hends hgrouped =>
      have cut₁ := hoperand.cut cut
      exact ⟨_, _, _, (gives_operand_place cut).2 ⟨_, hoperand, cut₁, rfl⟩,
        row_of_links file hlinks cut₁ fun _ _ => UInt32.zero_le,
        rowEnds_of_looser file cut' (looser_zero_iff.2 hends), rfl, hgrouped.unique (.tree _ _)⟩

/-- The precedence above one that something tighter follows is its successor. -/
theorem succ_of_tighterAhead {precedence : UInt32} (h : tighterAhead s precedence = true) :
    (precedence + 1).toNat = precedence.toNat + 1 := by
  unfold tighterAhead at h
  split at h
  · next operator next _ => exact toNat_succ_of_lt (of_decide_eq_true h)
  · cases h

/-- **Climbing gives the tree of the row that it reads.**  At every place of the tokens of a
text, from every table, precedence and left side: what climbing takes is a row of operators
of at least that precedence and of operands; it stops only where no such operator stands; and
it gives the tree of the row on the left side.  An expression is the tree of its first operand
and the row of all operators after it.  And the precedence that climbing calls itself with is
one more than another one, without wrapping around. -/
theorem climb_groups {file source : String} {tokens : List Token}
    (htokens : tokenize file source = .ok tokens) (bound : byteLength source.toList < 4294967296)
    (hsuffix : input <:+ tokens) (hne : input ≠ []) (table : Operator.Table) :
    (∀ loosest left e t,
        Gives (achieve .standard (.climb loosest left)) (place file table input) e t →
        ∃ links, Row loosest (place file table input) links t ∧ RowEnds loosest t
          ∧ t.table = table ∧ e = Chain.tree left links)
    ∧ (∀ e t, Gives (read .standard .expression) (place file table input) e t →
        ∃ first next links, Gives (read .standard .unary) (place file table input) first next
          ∧ Row 0 next links t ∧ RowEnds 0 t ∧ t.table = table ∧ e = Chain.tree first links)
    ∧ ∀ s precedence, tighterAhead s precedence = true →
        (precedence + 1).toNat = precedence.toNat + 1 := by
  have cut := (cut_of_tokenize htokens bound).suffix hsuffix hne
  exact ⟨fun _ _ _ _ => climb_row cut, fun _ _ => expression_row cut,
    fun _ _ => succ_of_tighterAhead⟩

/-- Precedences that rise and fall: the power comes in with the right side of the sum, the
difference hangs on the sum, and the comparison is too loose. -/
theorem difference_of_sum :
    ∃ tokens t links, tokenize "sel" "a + b * c ** d - e < f" = .ok tokens
      ∧ Gives (achieve .standard (.climb 11 (.scalar "a"))) (place "sel" .standard (tokens.drop 1))
          (.binary "-" (.binary "+" (.scalar "a") (.binary "*" (.scalar "b")
            (.binary "**" (.scalar "c") (.scalar "d")))) (.scalar "e")) t
      ∧ Row 11 (place "sel" .standard (tokens.drop 1)) links t ∧ RowEnds 11 t
      ∧ Chain.tree (.scalar "a") links
          = .binary "-" (.binary "+" (.scalar "a") (.binary "*" (.scalar "b")
            (.binary "**" (.scalar "c") (.scalar "d")))) (.scalar "e") := by
  let tokens : List Token := [⟨.identifier, "a", 0, 1, some ' '⟩, ⟨.symbol, "+", 2, 3, some ' '⟩,
    ⟨.identifier, "b", 4, 5, some ' '⟩, ⟨.symbol, "*", 6, 7, some ' '⟩,
    ⟨.identifier, "c", 8, 9, some ' '⟩, ⟨.symbol, "*", 10, 11, some '*'⟩,
    ⟨.symbol, "*", 11, 12, some ' '⟩, ⟨.identifier, "d", 13, 14, some ' '⟩,
    ⟨.symbol, "-", 15, 16, some ' '⟩, ⟨.identifier, "e", 17, 18, some ' '⟩,
    ⟨.symbol, "<", 19, 20, some ' '⟩, ⟨.identifier, "f", 21, 22, none⟩,
    ⟨.eof, "EOF", 22, 22, none⟩]
  have htokens : tokenize "sel" "a + b * c ** d - e < f" = .ok tokens := by decide +kernel
  have hclimb : Gives (achieve .standard (.climb 11 (.scalar "a")))
      (place "sel" .standard (tokens.drop 1))
      (.binary "-" (.binary "+" (.scalar "a") (.binary "*" (.scalar "b")
        (.binary "**" (.scalar "c") (.scalar "d")))) (.scalar "e"))
      (place "sel" .standard (tokens.drop 10)) := by
    unfold Gives
    rfl
  obtain ⟨hgroups, -, -⟩ :=
    climb_groups htokens (by decide) (tokens.drop_suffix 1) (by decide) .standard
  obtain ⟨links, hrow, hends, -, htree⟩ := hgroups _ _ _ _ hclimb
  exact ⟨tokens, _, links, htokens, hclimb, hrow, hends, htree.symm⟩

end Fixity.Language
