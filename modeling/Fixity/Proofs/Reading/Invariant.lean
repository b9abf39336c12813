/-
  Fixity.Proofs.Reading.Invariant
  ────────────────────────────────
  **WHAT READING LEAVES AS IT WAS.**

  A way of reading leaves a state whether it gives a result or fails.  A property that
  moving and declaring do not break is a property of that state in either case,
  since two runs from the same state are side by side as long as it holds.

  Only a heading declares.  So the table stays as it is through every body, wherever
  that stops.

  Main results: `InStep.keeps` with `abreast_both` and `alike_both` (what the steps keep
  is kept) and `table_read` (a body leaves the table alone).
-/
import Fixity.Proofs.Reading.Failure
import Fixity.Proofs.Reading.Lockstep

namespace Fixity.Read

open Grammar

variable {α β : Type} {I : ReadState → Prop} {s : ReadState}

/-- The state that a way of reading leaves from another one has a property, whether it gives
a result or fails. -/
def Leaves (I : ReadState → Prop) (p : Read α) (s : ReadState) : Prop :=
  (∀ {a t}, Gives p s a t → I t) ∧ ∀ {error t}, Fails p s error t → I t

/-- A property of states that a way of reading keeps, whether it gives a result or fails. -/
def Keeps (I : ReadState → Prop) (p : Read α) : Prop := ∀ ⦃s : ReadState⦄, I s → Leaves I p s

/-- A sequence leaves what its first part leaves if that fails, and what its second part
leaves from there otherwise. -/
theorem leaves_bind {p : Read α} {f : α → Read β}
    (hgives : ∀ {a t}, Gives p s a t → Leaves I (f a) t)
    (hfails : ∀ {error t}, Fails p s error t → I t) : Leaves I (p >>= f) s := by
  refine ⟨fun h => ?_, fun h => ?_⟩
  · obtain ⟨a, t, hp, hf⟩ := gives_bind.1 h
    exact (hgives hp).1 hf
  · obtain hp | ⟨a, t, hp, hf⟩ := fails_bind.1 h
    · exact hfails hp
    · exact (hgives hp).2 hf

theorem leaves_pure {a : α} (h : I s) : Leaves I (pure a : Read α) s :=
  ⟨fun hgives => (gives_pure.1 hgives).2 ▸ h, fun hfails => absurd hfails fails_pure⟩

/-- Equal states with a property. -/
def Both (I : ReadState → Prop) (s t : ReadState) : Prop := s = t ∧ I s

/-- A run that is in step with itself as long as a property holds keeps the property. -/
theorem InStep.keeps {p : Read α} (h : InStep (Both I) Eq p) : Keeps I p := by
  intro s hs
  have hrelated := h ⟨rfl, hs⟩
  refine ⟨fun hgives => ?_, fun hfails => ?_⟩
  · rw [show p.run s = _ from hgives] at hrelated
    exact hrelated.2.2
  · rw [show p.run s = _ from hfails] at hrelated
    exact hrelated.2.2

/-- Equal states stay equal, and so they keep what moving does not break. -/
theorem abreast_both
    (advance : ∀ {s}, I s → I { s with cursor := s.cursor.advance }) : Abreast (Both I) Eq where
  kind := fun h => by rw [h.1]
  text := fun h => by rw [h.1]
  length := fun h => by rw [h.1]
  operator := fun h => by rw [h.1]
  ahead := fun h => by rw [h.1]
  advance := fun h => ⟨by rw [h.1], advance h.2⟩
  error := fun fault h => by rw [h.1]

theorem alike_both (advance : ∀ {s}, I s → I { s with cursor := s.cursor.advance })
    (declare : ∀ {s} (spelling : String) (precedence : UInt32), I s →
      I { s with table := s.table.declare spelling precedence }) : Alike (Both I) Eq where
  toAbreast := abreast_both advance
  declare := fun spelling precedence h => ⟨by rw [h.1], declare spelling precedence h.2⟩

/-! ## §1. The table. -/

/-- The table is none of what moving changes. -/
theorem abreast_table (table : Operator.Table) : Abreast (Both fun s => s.table = table) Eq :=
  abreast_both id

/-- A body leaves the table alone, whether it is read or fails. -/
theorem table_read (choice : Choice) (production : Production) (table : Operator.Table) :
    Keeps (fun s => s.table = table) (read choice production) :=
  ((abreast_table table).read_inStep choice production).keeps

end Fixity.Read
