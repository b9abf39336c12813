/-
  Fixity.Proofs.Language.Grouping
  ────────────────────────────────
  **THE TREE OF A CHAIN OF OPERATORS.**

  A chain is an operand followed by links, each an operator with its precedence
  and the operand after it.  Its tree is said WITHOUT an order of reading: the
  root is the last of the loosest operators, and the parts to its left and to its
  right are chains with trees of their own.  So tighter operators group first, and
  operators of one precedence group to the left.

  Main results: `Grouped.absorb` (an operand with everything tighter that follows it
  may be put in as one operand, which is how climbing goes about it), `Grouped.tree` (the
  tree, computed) and `Grouped.unique` (a chain has one tree).
-/
import Fixity.Expr.Basic

namespace Fixity.Language

/-- An operator between two operands, its precedence, and the operand after it. -/
structure Link where
  /-- The one or two characters of the operator. -/
  spelling : String
  /-- The precedence that the table gives it. -/
  precedence : UInt32
  /-- The operand after it. -/
  operand : Expr

/-! ## §1. The tree, computed. -/

namespace Chain

/-- A chain cut at the last of its loosest operators: the links before it, the operator with
the operand after it, and the links after that. -/
def cutAtRoot : List Link → Option (List Link × Link × List Link)
  | [] => none
  | link :: rest =>
    match cutAtRoot rest with
    | none => some ([], link, [])
    | some (before, root, after) =>
      if root.precedence ≤ link.precedence then some (link :: before, root, after)
      else some ([], link, rest)

/-- Only a chain without operators has no root. -/
theorem cutAtRoot_eq_none {links : List Link} (h : cutAtRoot links = none) : links = [] := by
  cases links with
  | nil => rfl
  | cons link rest =>
      unfold cutAtRoot at h
      split at h
      · cases h
      · split at h <;> cases h

/-- Where a chain is cut, no operator before is looser, and every one after is tighter. -/
theorem cutAtRoot_eq_some {links before after : List Link} {root : Link}
    (h : cutAtRoot links = some (before, root, after)) :
    links = before ++ root :: after ∧ (∀ other ∈ before, root.precedence ≤ other.precedence)
      ∧ ∀ other ∈ after, root.precedence < other.precedence := by
  induction links generalizing before after root with
  | nil => cases h
  | cons link rest ih =>
      unfold cutAtRoot at h
      split at h
      · next hnone =>
        cases h
        rw [cutAtRoot_eq_none hnone]
        exact ⟨rfl, List.forall_mem_nil _, List.forall_mem_nil _⟩
      · next before' root' after' hsome =>
        obtain ⟨hrest, hle, hlt⟩ := ih hsome
        split at h
        · next hroot =>
          cases h
          rw [hrest]
          exact ⟨rfl, List.forall_mem_cons.2 ⟨hroot, hle⟩, hlt⟩
        · next hlink =>
          cases h
          refine ⟨rfl, List.forall_mem_nil _, fun other hmem => ?_⟩
          -- the link is looser than the root of the rest, and so than all of the rest
          have hlooser : link.precedence < root'.precedence := UInt32.not_le.1 hlink
          rw [hrest, List.mem_append, List.mem_cons] at hmem
          rcases hmem with hmem | rfl | hmem
          · exact UInt32.lt_of_lt_of_le hlooser (hle other hmem)
          · exact hlooser
          · exact UInt32.lt_trans hlooser (hlt other hmem)

/-- The tree of a chain: cut at the last of its loosest operators, which is the root, with the
trees of the two parts. -/
def tree (first : Expr) (links : List Link) : Expr :=
  match _h : cutAtRoot links with
  | none => first
  | some (before, root, after) =>
    .binary root.spelling (tree first before) (tree root.operand after)
termination_by links.length
decreasing_by
  all_goals
    have hlength := congrArg List.length (cutAtRoot_eq_some _h).1
    rw [List.length_append, List.length_cons] at hlength
    omega

end Chain

/-! ## §2. The tree, said. -/

/-- The tree of a chain: its root is the last of its loosest operators. -/
inductive Grouped : Expr → List Link → Expr → Prop
  /-- A chain without operators is its operand. -/
  | operand (first : Expr) : Grouped first [] first
  /-- No operator before the root is looser, and every one after it is tighter. -/
  | root {first left right : Expr} {before after : List Link} {link : Link} :
      Grouped first before left →
      Grouped link.operand after right →
      (∀ other ∈ before, link.precedence ≤ other.precedence) →
      (∀ other ∈ after, link.precedence < other.precedence) →
      Grouped first (before ++ link :: after) (.binary link.spelling left right)

namespace Grouped

/-- A single operator between two operands. -/
theorem single (left right : Expr) (spelling : String) (precedence : UInt32) :
    Grouped left [⟨spelling, precedence, right⟩] (.binary spelling left right) := by
  show Grouped left ([] ++ [⟨spelling, precedence, right⟩]) _
  exact .root (.operand left) (.operand right) (by simp) (by simp)

/-! ## §3. Operators that bind tighter come in with their operand. -/

/-- If the operators right after an operator are tighter than it and the next one is
not, its right side may be grouped first and hung on what stands before it. -/
theorem absorb {first right tree : Expr} {link : Link} {tight more : List Link}
    (grouped : Grouped (.binary link.spelling first right) more tree)
    (inner : Grouped link.operand tight right)
    (tighter : ∀ other ∈ tight, link.precedence < other.precedence)
    (looser : ∀ next ∈ more.head?, next.precedence ≤ link.precedence) :
    Grouped first (link :: tight ++ more) tree := by
  generalize hleft : Expr.binary link.spelling first right = left at grouped
  induction grouped with
  | operand _ =>
      subst hleft
      have h : Grouped first ([] ++ link :: tight) (.binary link.spelling first right) :=
        .root (.operand first) inner (by simp) tighter
      simpa using h
  | @root _ left right before after root hbefore hafter hle hlt ihleft _ =>
      -- the root is looser than the operator that was absorbed, so it stays the root
      have hroot : root.precedence ≤ link.precedence := by
        cases before with
        | nil => exact looser root (by simp)
        | cons head rest =>
            exact UInt32.le_trans (hle head (by simp)) (looser head (by simp))
      have hhead : ∀ next ∈ before.head?, next.precedence ≤ link.precedence := by
        intro next hnext
        exact looser next (by cases before <;> simp_all)
      have hleft' := ihleft hhead hleft
      have h := Grouped.root hleft' hafter ?_ hlt
      · simpa using h
      · intro other hmem
        simp only [List.cons_append, List.mem_cons, List.mem_append] at hmem
        rcases hmem with rfl | hmem | hmem
        · exact hroot
        · exact UInt32.le_trans hroot (UInt32.le_of_lt (tighter other hmem))
        · exact hle other hmem

/-! ## §4. A chain has one tree. -/

/-- The tree of a chain is a tree of it. -/
theorem tree (first : Expr) (links : List Link) :
    Grouped first links (Chain.tree first links) := by
  fun_induction Chain.tree first links with
  | case1 first links hnone =>
      rw [Chain.cutAtRoot_eq_none hnone]
      exact .operand first
  | case2 first links before root after hsome ihbefore ihafter =>
      obtain ⟨hlinks, hle, hlt⟩ := Chain.cutAtRoot_eq_some hsome
      rw [hlinks]
      exact .root ihbefore ihafter hle hlt

/-- The links right after an operator that bind tighter, and the rest. -/
theorem split_tighter (precedence : UInt32) (links : List Link) :
    ∃ tight more, links = tight ++ more ∧ (∀ link ∈ tight, precedence < link.precedence)
      ∧ ∀ next ∈ more.head?, next.precedence ≤ precedence := by
  refine ⟨links.takeWhile (precedence < ·.precedence), links.dropWhile (precedence < ·.precedence),
    List.takeWhile_append_dropWhile.symm, ?_, ?_⟩
  · intro link hmem
    exact of_decide_eq_true (List.all_eq_true.1 List.all_takeWhile link hmem)
  · intro next hnext
    have h :=
      List.head?_dropWhile_not (fun link : Link => decide (precedence < link.precedence)) links
    rw [Option.mem_def.1 hnext] at h
    exact UInt32.not_lt.1 (by simpa using h)

/-- Every chain has a tree. -/
theorem exists_tree (first : Expr) (links : List Link) : ∃ tree, Grouped first links tree :=
  ⟨Chain.tree first links, tree first links⟩

/-- The last of the loosest operators stands at one place only. -/
theorem root_place {before after before' after' : List Link} {link link' : Link}
    (h : before ++ link :: after = before' ++ link' :: after')
    (hle : ∀ other ∈ before, link.precedence ≤ other.precedence)
    (hlt : ∀ other ∈ after, link.precedence < other.precedence)
    (hle' : ∀ other ∈ before', link'.precedence ≤ other.precedence)
    (hlt' : ∀ other ∈ after', link'.precedence < other.precedence) :
    before = before' ∧ link = link' ∧ after = after' := by
  rcases List.append_eq_append_iff.1 h with ⟨gap, hb, ha⟩ | ⟨gap, hb, ha⟩
  · cases gap with
    -- each root stands after the other's, so it would be tighter and not tighter
    | nil => simp_all
    | cons head gap =>
        simp only [List.cons_append, List.cons.injEq] at ha
        obtain ⟨rfl, rfl⟩ := ha
        have h₁ := hlt link' (by simp)
        have h₂ := hle' link (by simp [hb])
        exact absurd h₁ (UInt32.not_lt.2 h₂)
  · cases gap with
    | nil => simp_all
    | cons head gap =>
        simp only [List.cons_append, List.cons.injEq] at ha
        obtain ⟨rfl, rfl⟩ := ha
        have h₁ := hlt' link (by simp)
        have h₂ := hle link' (by simp [hb])
        exact absurd h₁ (UInt32.not_lt.2 h₂)

/-- A chain has one tree. -/
theorem unique {first tree other : Expr} {links : List Link} (h : Grouped first links tree)
    (h' : Grouped first links other) : tree = other := by
  induction h generalizing other with
  | operand first =>
      generalize hlinks : ([] : List Link) = links at h'
      cases h' with
      | operand _ => rfl
      | root => simp at hlinks
  | root _ _ hle hlt ihleft ihright =>
      generalize hlinks : _ ++ _ :: _ = links at h'
      cases h' with
      | operand _ => simp at hlinks
      | root hleft' hright' hle' hlt' =>
          obtain ⟨rfl, rfl, rfl⟩ := root_place hlinks hle hlt hle' hlt'
          rw [ihleft hleft', ihright hright']

end Grouped
end Fixity.Language
