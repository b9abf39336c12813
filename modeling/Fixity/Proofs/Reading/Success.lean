/-
  Fixity.Proofs.Reading.Success
  ────────────────────────────────
  **WHEN READING SUCCEEDS, AND WITH WHAT.**

  `Gives p s a t` says that `p`, started in the state `s`, gives `a` and leaves
  the state `t`.  Each way of reading is put together from a few steps, so each of
  them has one law here, an equivalence: it opens a success into the successes of
  its parts, and it builds a success from theirs.

  Main results: `gives_bind` (a sequence succeeds part by part), `gives_upTo_succ` and
  `gives_separatedUpTo_succ` (one round of a repetition).
-/
import Fixity.Reading

namespace Fixity.Read

variable {α β : Type} {s t u : ReadState}

/-- A way of reading gives a result from one state and leaves another. -/
def Gives (p : Read α) (s : ReadState) (a : α) (t : ReadState) : Prop := p.run s = .ok a t

/-! ## §1. Sequences. -/

@[simp] theorem gives_pure {a b : α} : Gives (pure a) s b t ↔ b = a ∧ t = s := by
  show EStateM.Result.ok a s = .ok b t ↔ _
  simp [eq_comm]

@[simp] theorem gives_throw {error : Error} {a : α} : ¬ Gives (throw error : Read α) s a t := by
  show ¬ EStateM.Result.error error s = .ok a t
  simp

/-- A sequence succeeds when its parts do, one after the other. -/
@[simp] theorem gives_bind {p : Read α} {f : α → Read β} {b : β} :
    Gives (p >>= f) s b u ↔ ∃ a t, Gives p s a t ∧ Gives (f a) t b u := by
  unfold Gives
  show EStateM.bind p f s = _ ↔ ∃ a t, p s = .ok a t ∧ f a t = _
  unfold EStateM.bind
  cases hp : p s with
  | ok a t =>
    constructor
    · exact fun h => ⟨a, t, rfl, h⟩
    · intro hgiven
      obtain ⟨a', t', h, hf⟩ := hgiven
      cases h
      exact hf
  | error error t => simp

/-- A sequence is put together from the successes of its parts. -/
theorem Gives.bind {p : Read α} {f : α → Read β} {a : α} {b : β} (h : Gives p s a t)
    (h' : Gives (f a) t b u) : Gives (p >>= f) s b u := gives_bind.2 ⟨a, t, h, h'⟩

@[simp] theorem gives_map {p : Read α} {f : α → β} {b : β} :
    Gives (f <$> p) s b t ↔ ∃ a, Gives p s a t ∧ b = f a := by
  rw [map_eq_pure_bind, gives_bind]
  simp only [gives_pure]
  constructor
  · intro hgiven
    obtain ⟨a, t', h, rfl, rfl⟩ := hgiven
    exact ⟨a, h, rfl⟩
  · intro hgiven
    obtain ⟨a, h, rfl⟩ := hgiven
    exact ⟨a, t, h, rfl, rfl⟩

@[simp] theorem gives_get {a : ReadState} : Gives get s a t ↔ a = s ∧ t = s := by
  show EStateM.Result.ok s s = .ok a t ↔ _
  simp [eq_comm]

@[simp] theorem gives_modify {f : ReadState → ReadState} {done : PUnit} :
    Gives (modify f) s done t ↔ t = f s := by
  show EStateM.Result.ok PUnit.unit (f s) = .ok done t ↔ _
  simp [eq_comm]

@[simp] theorem gives_ite {c : Prop} [Decidable c] {p q : Read α} {a : α} :
    Gives (if c then p else q) s a t ↔ (c ∧ Gives p s a t) ∨ (¬ c ∧ Gives q s a t) := by
  split <;> simp [*]

/-! ## §2. Steps. -/

@[simp] theorem gives_cursor {cursor : Cursor} :
    Gives Read.cursor s cursor t ↔ cursor = s.cursor ∧ t = s := by
  simp [Read.cursor, and_comm]

@[simp] theorem gives_kind {kind : Kind} :
    Gives Read.kind s kind t ↔ kind = s.cursor.kind ∧ t = s := by
  simp [Read.kind, and_assoc, and_comm]

@[simp] theorem gives_text {text : String} :
    Gives Read.text s text t ↔ text = s.cursor.text ∧ t = s := by
  simp [Read.text, and_assoc, and_comm]

@[simp] theorem gives_advance {done : Unit} :
    Gives advance s done t ↔ t = { s with cursor := s.cursor.advance } := by
  simp [advance]

@[simp] theorem gives_advanceBy {count : Nat} {done : Unit} :
    Gives (advanceBy count) s done t ↔ t = { s with cursor := s.cursor.advanceBy count } := by
  simp [advanceBy]

@[simp] theorem gives_fail {fault : Fault} {a : α} : ¬ Gives (fail fault) s a t := by
  simp [fail]

@[simp] theorem gives_failFound {fault : String → Fault} {a : α} :
    ¬ Gives (failFound fault) s a t := by
  simp [failFound]

@[simp] theorem gives_declare {spelling : String} {precedence : UInt32} {done : Unit} :
    Gives (declare spelling precedence) s done t
      ↔ t = { s with table := s.table.declare spelling precedence } := by
  simp [declare]

/-! ## §3. Tokens that are needed. -/

@[simp] theorem gives_takeOr {needed : Kind} {fault : Fault} {done : Unit} :
    Gives (takeOr needed fault) s done t
      ↔ s.cursor.kind = needed ∧ t = { s with cursor := s.cursor.advance } := by
  simp [takeOr, and_assoc]

@[simp] theorem gives_take {needed : Kind} {shown : String} {done : Unit} :
    Gives (take needed shown) s done t
      ↔ s.cursor.kind = needed ∧ t = { s with cursor := s.cursor.advance } := by
  simp [take, and_assoc]

@[simp] theorem gives_identifier {name : String} :
    Gives identifier s name t
      ↔ s.cursor.identifier? = some name ∧ t = { s with cursor := s.cursor.advance } := by
  unfold identifier
  simp only [gives_bind, gives_cursor]
  constructor
  · intro hgiven
    obtain ⟨_, _, ⟨rfl, rfl⟩, h⟩ := hgiven
    split at h
    · simp_all
    · simp at h
  · intro hgiven
    obtain ⟨found, rfl⟩ := hgiven
    exact ⟨_, _, ⟨rfl, rfl⟩, by simp [found]⟩

@[simp] theorem gives_numberWith {accept : Number → Option α} {fault : String → Fault} {a : α} :
    Gives (numberWith accept fault) s a t
      ↔ s.cursor.number?.bind accept = some a ∧ t = { s with cursor := s.cursor.advance } := by
  unfold numberWith
  simp only [gives_bind, gives_cursor]
  constructor
  · intro hgiven
    obtain ⟨_, _, ⟨rfl, rfl⟩, h⟩ := hgiven
    split at h
    · simp_all
    · simp at h
  · intro hgiven
    obtain ⟨found, rfl⟩ := hgiven
    exact ⟨_, _, ⟨rfl, rfl⟩, by simp [found]⟩

/-- A token that may be there is taken when it is. -/
theorem gives_taken {wanted : Kind} {there : Bool} :
    Gives (taken wanted) s there t
      ↔ (s.cursor.kind = wanted ∧ there = true ∧ t = { s with cursor := s.cursor.advance })
        ∨ (s.cursor.kind ≠ wanted ∧ there = false ∧ t = s) := by
  simp [taken, and_assoc]
  grind

/-! ## §4. Repetition. -/

@[simp] theorem gives_rounds {bound : Nat} :
    Gives rounds s bound t ↔ bound = s.cursor.tokens.length + 1 ∧ t = s := by
  simp [rounds, and_assoc, and_comm]

@[simp] theorem gives_upTo_zero {item : Read (Option α)} {items : List α} :
    ¬ Gives (upTo item 0) s items t := by
  simp [upTo]

/-- One round either ends the repetition or gives its first item. -/
theorem gives_upTo_succ {item : Read (Option α)} {bound : Nat} {items : List α} :
    Gives (upTo item (bound + 1)) s items u
      ↔ (items = [] ∧ Gives item s none u)
        ∨ ∃ first more t, items = first :: more ∧ Gives item s (some first) t
            ∧ Gives (upTo item bound) t more u := by
  rw [upTo, gives_bind]
  constructor
  · intro hgiven
    obtain ⟨_ | first, t, h, rest⟩ := hgiven
    · simp only [gives_pure] at rest
      obtain ⟨rfl, rfl⟩ := rest
      exact .inl ⟨rfl, h⟩
    · simp only [bind_pure_comp, gives_map] at rest
      obtain ⟨more, hmore, rfl⟩ := rest
      exact .inr ⟨first, more, t, rfl, h, hmore⟩
  · intro hgiven
    obtain ⟨rfl, h⟩ | ⟨first, more, t, rfl, h, hmore⟩ := hgiven
    · exact ⟨none, u, h, by simp⟩
    · exact ⟨some first, t, h, by simpa using hmore⟩

@[simp] theorem gives_many {item : Read (Option α)} {items : List α} :
    Gives (many item) s items t ↔ Gives (upTo item (s.cursor.tokens.length + 1)) s items t := by
  simp [many, and_assoc]

@[simp] theorem gives_separatedUpTo_zero {item : Read α} {fault : String → Fault} {items : List α} :
    ¬ Gives (separatedUpTo item fault 0) s items t := by
  simp [separatedUpTo]

/-- One round gives the first item; a comma after it asks for more. -/
theorem gives_separatedUpTo_succ {item : Read α} {fault : String → Fault} {bound : Nat}
    {items : List α} :
    Gives (separatedUpTo item fault (bound + 1)) s items u
      ↔ ∃ first t, Gives item s first t ∧
          ((t.cursor.kind = .closeParen ∧ items = [first]
              ∧ u = { t with cursor := t.cursor.advance })
            ∨ (t.cursor.kind = .comma ∧ ∃ more, items = first :: more
              ∧ Gives (separatedUpTo item fault bound)
                  { t with cursor := t.cursor.advance } more u)) := by
  rw [separatedUpTo, gives_bind]
  refine exists_congr fun first => exists_congr fun t => and_congr_right fun _ => ?_
  rw [gives_bind]
  constructor
  · intro hgiven
    obtain ⟨_, _, hkind, h⟩ := hgiven
    obtain ⟨rfl, rfl⟩ := gives_kind.1 hkind
    split at h
    · next close =>
      simp at h
      exact .inl ⟨close, h.2, h.1⟩
    · next comma =>
      simp at h
      obtain ⟨more, hmore, rfl⟩ := h
      exact .inr ⟨comma, more, rfl, hmore⟩
    · simp at h
  · intro hgiven
    obtain ⟨close, rfl, rfl⟩ | ⟨comma, more, rfl, hmore⟩ := hgiven
    · exact ⟨_, _, gives_kind.2 ⟨rfl, rfl⟩, by rw [close]; simp⟩
    · exact ⟨_, _, gives_kind.2 ⟨rfl, rfl⟩, by rw [comma]; simpa using hmore⟩

/-- A list in parentheses is empty when it is closed at once. -/
theorem gives_separated {item : Read α} {fault : String → Fault} {items : List α} :
    Gives (separated item fault) s items t
      ↔ (s.cursor.kind = .closeParen ∧ items = [] ∧ t = { s with cursor := s.cursor.advance })
        ∨ (s.cursor.kind ≠ .closeParen
            ∧ Gives (separatedUpTo item fault (s.cursor.tokens.length + 1)) s items t) := by
  unfold separated
  simp only [gives_bind, gives_taken]
  constructor
  · intro hgiven
    obtain ⟨there, s', ⟨close, rfl, rfl⟩ | ⟨open_, rfl, rfl⟩, h⟩ := hgiven
    · simp at h
      exact .inl ⟨close, h.1, h.2⟩
    · simp [and_assoc] at h
      exact .inr ⟨open_, h⟩
  · intro hgiven
    obtain ⟨close, rfl, rfl⟩ | ⟨open_, h⟩ := hgiven
    · exact ⟨true, _, .inl ⟨close, rfl, rfl⟩, by simp⟩
    · exact ⟨false, s, .inr ⟨open_, rfl, rfl⟩, by simpa [and_assoc] using h⟩

end Fixity.Read
