/-
  Fixity.Proofs.Language.Nodes
  ────────────────────────────────
  **WELL FORMED TREES, NODE BY NODE.**

  A node of a tree is looked at by itself, where it stands: its name is a name, its
  number carries no sign and is one, its operator is spelled as an operator and known,
  its array has dimensions, and it is a block only where a body may stand.  A tree is
  well formed if each of its nodes is, however deep; and it is enough to look at the root
  and, in the same way, at the parts of the root.

  A form is looked at with the table that is in force for it, its own operator included.

  Main result: `wellFormed_iff` (the root and its parts).
-/
import Fixity.Proofs.Language.Written

namespace Fixity

open Operator (isOperatorChar)

/-! ## §1. Nodes. -/

/-- Whether a number is one, without a sign: a binary64 value or too large for one. -/
def Number.IsUnsigned (value : Number) : Prop := value = .infinite false ∨ value.isPlain = true

namespace Expr

/-- The parts of an expression, with where each of them stands in it. -/
def parts : Expr → List (Expr × Standing)
  | number _ | array _ _ => []
  | var _ operands | call _ operands => operands.map fun operand => (operand, .operand)
  | unary _ operand => [(operand, .operand)]
  | binary _ left right => [(left, .operand), (right, .operand)]
  | branch condition consequent alternative =>
    (condition, .operand) :: (consequent, .body)
      :: alternative.toList.map fun alternative => (alternative, .body)
  | countLoop _ first last step body =>
    (first, .operand) :: (last, .operand) :: (body, .body)
      :: step.toList.map fun step => (step, .operand)
  | whileLoop condition body => [(condition, .operand), (body, .body)]
  | repeatLoop times body => [(times, .operand), (body, .body)]
  | block statements => statements.map fun statement => (statement, .body)

/-- The nodes of a tree: the tree itself where it stands, and the nodes of its parts. -/
inductive Occurs : Expr → Standing → Expr → Standing → Prop
  /-- The root. -/
  | root {tree : Expr} {standing : Standing} : Occurs tree standing tree standing
  /-- A node of a part. -/
  | part {tree part node : Expr} {standing inner place : Standing} :
      (part, inner) ∈ tree.parts → Occurs part inner node place → Occurs tree standing node place

/-- Whether one node is as it should be where it stands. -/
def IsProper (table : Operator.Table) : Expr → Standing → Prop
  | number value, _ => value.IsUnsigned
  | var name _, _ | call name _, _ | countLoop name _ _ _ _, _ => isName name = true
  | unary operator _, _ => isOperatorChar operator = true
  | binary operator _ _, _ => isInfix operator = true ∧ (table.lookup operator).isSome = true
  | array name dimensions, _ =>
    isName name = true ∧ dimensions ≠ [] ∧ ∀ dimension ∈ dimensions, 0 < dimension
  | block _, standing => standing = .body
  | branch _ _ _, _ | whileLoop _ _, _ | repeatLoop _ _, _ => True

/-- Whether every node of a tree is as it should be. -/
def WellFormed (table : Operator.Table) (tree : Expr) (standing : Standing) : Prop :=
  ∀ node place, Occurs tree standing node place → node.IsProper table place

/-! ## §2. The root and its parts. -/

variable {table : Operator.Table} {tree : Expr} {standing : Standing}

/-- A tree is well formed if its root is and its parts are. -/
theorem wellFormed_iff :
    WellFormed table tree standing
      ↔ tree.IsProper table standing ∧ ∀ part ∈ tree.parts, WellFormed table part.1 part.2 := by
  constructor
  · intro h
    exact ⟨h _ _ .root, fun part hpart node place hnode => h node place (.part hpart hnode)⟩
  · intro h node place hnode
    cases hnode with
    | root => exact h.1
    | part hpart hinner => exact h.2 _ hpart node place hinner

/-- What is well formed as an operand is well formed as a body. -/
theorem WellFormed.body (h : WellFormed table tree .operand) : WellFormed table tree .body := by
  rw [wellFormed_iff] at h ⊢
  refine ⟨?_, h.2⟩
  cases tree with
  | block statements => exact absurd h.1 nofun
  | _ => exact h.1

end Expr

/-! ## §3. Forms. -/

/-- Whether a form is as it should be under a table: a definition has a head that can be
written, an expression the head without a name, and the body is well formed. -/
def Form.WellFormed (table : Operator.Table) : Form → Prop
  | .definition function => function.prototype.Fits ∧ function.body.WellFormed table .body
  | .expression function =>
    function.prototype = Prototype.anonymous ∧ function.body.WellFormed table .body

/-- Whether every form of a program is as it should be under the table in force for it:
the one that the forms up to it leave, with its own operator. -/
def Program.WellFormed (table : Operator.Table) (forms : List Form) : Prop :=
  ∀ before form after, forms = before ++ form :: after →
    form.WellFormed (table.declareAll (Program.entries (before ++ [form])))

namespace Program

variable {table : Operator.Table} {form : Form} {forms : List Form}

theorem wellFormed_nil : WellFormed table [] :=
  fun before _ _ h => absurd h (by simp)

/-- The first form of a program, and the others after what it declares. -/
theorem wellFormed_cons :
    WellFormed table (form :: forms)
      ↔ form.WellFormed (table.declareAll form.function.prototype.entries)
        ∧ WellFormed (table.declareAll form.function.prototype.entries) forms := by
  constructor
  · intro h
    refine ⟨?_, fun before other after hforms => ?_⟩
    · simpa [entries] using h [] form forms rfl
    · have hother := h (form :: before) other after (by rw [hforms]; rfl)
      rwa [entries, List.cons_append, List.flatMap_cons, Operator.Table.declareAll_append] at hother
  · intro h before other after hforms
    cases before with
    | nil =>
        obtain ⟨rfl, rfl⟩ := List.cons.inj hforms
        simpa [entries] using h.1
    | cons first before =>
        obtain ⟨rfl, hmore⟩ := List.cons.inj hforms
        rw [entries, List.cons_append, List.flatMap_cons, Operator.Table.declareAll_append]
        exact h.2 before other after hmore

end Program
end Fixity
