/-
  Fixity.Proofs.Reading.Failure
  ────────────────────────────────
  **WHERE READING FAILS, AND WITH WHAT.**

  `Fails p s error t` says that `p`, started in the state `s`, stops with `error`
  and leaves the state `t`.  A sequence stops where one of its parts does, after
  the parts before it have succeeded; so the laws here go together with those of
  success.  As there, each way of reading has one law, an equivalence.

  One fault asks for more text: that a text ends inside a block.  `RunsOut p s t` says
  that `p` stops with that one.

  Main results: `fails_bind` (a sequence stops in one of its parts), `fails_upTo_succ`,
  `fails_separatedUpTo_succ` (a repetition stops in one of its rounds) and `runsOut_bind`.
  `Interrupted.first` and `Interrupted.later` build such a stop from those of the parts.
-/
import Fixity.Proofs.Reading.Success

namespace Fixity.Read

variable {α β : Type} {s t u : ReadState} {error : Error}

/-- A way of reading stops with an error and leaves a state. -/
def Fails (p : Read α) (s : ReadState) (error : Error) (t : ReadState) : Prop :=
  p.run s = .error error t

/-! ## §1. Sequences. -/

@[simp] theorem fails_pure {a : α} : ¬ Fails (pure a) s error t := by
  show ¬ EStateM.Result.ok a s = .error error t
  simp

@[simp] theorem fails_throw {error' : Error} :
    Fails (throw error' : Read α) s error t ↔ error = error' ∧ t = s := by
  show EStateM.Result.error error' s = .error error t ↔ _
  simp [eq_comm]

/-- A sequence stops in its first part, or in its second part once the first succeeds. -/
@[simp] theorem fails_bind {p : Read α} {f : α → Read β} :
    Fails (p >>= f) s error u
      ↔ Fails p s error u ∨ ∃ a t, Gives p s a t ∧ Fails (f a) t error u := by
  unfold Fails Gives
  show EStateM.bind p f s = _ ↔ p s = _ ∨ ∃ a t, p s = .ok a t ∧ f a t = _
  unfold EStateM.bind
  cases hp : p s with
  | ok a t =>
      constructor
      · exact fun h => .inr ⟨a, t, rfl, h⟩
      · intro h
        obtain h | ⟨a', t', h, hf⟩ := h
        · exact absurd h nofun
        · cases h
          exact hf
  | error error' t => simp

@[simp] theorem fails_map {p : Read α} {f : α → β} :
    Fails (f <$> p) s error t ↔ Fails p s error t := by
  rw [map_eq_pure_bind, fails_bind]
  simp

@[simp] theorem fails_get : ¬ Fails get s error t := by
  show ¬ EStateM.Result.ok s s = .error error t
  simp

@[simp] theorem fails_modify {f : ReadState → ReadState} : ¬ Fails (modify f) s error t := by
  show ¬ EStateM.Result.ok PUnit.unit (f s) = .error error t
  simp

@[simp] theorem fails_ite {c : Prop} [Decidable c] {p q : Read α} :
    Fails (if c then p else q) s error t
      ↔ (c ∧ Fails p s error t) ∨ (¬ c ∧ Fails q s error t) := by
  split <;> simp [*]

/-! ## §2. Steps. -/

@[simp] theorem fails_cursor : ¬ Fails Read.cursor s error t := by simp [Read.cursor]

@[simp] theorem fails_kind : ¬ Fails Read.kind s error t := by simp [Read.kind]

@[simp] theorem fails_text : ¬ Fails Read.text s error t := by simp [Read.text]

@[simp] theorem fails_advance : ¬ Fails advance s error t := by simp [advance]

@[simp] theorem fails_advanceBy {count : Nat} : ¬ Fails (advanceBy count) s error t := by
  simp [advanceBy]

@[simp] theorem fails_declare {spelling : String} {precedence : UInt32} :
    ¬ Fails (declare spelling precedence) s error t := by
  simp [declare]

/-- A fault is found at the current token. -/
@[simp] theorem fails_fail {fault : Fault} :
    Fails (fail fault : Read α) s error t ↔ error = ⟨fault, s.cursor.position⟩ ∧ t = s := by
  simp [fail, and_assoc]

@[simp] theorem fails_failFound {fault : String → Fault} :
    Fails (failFound fault : Read α) s error t
      ↔ error = ⟨fault s.cursor.text, s.cursor.position⟩ ∧ t = s := by
  simp [failFound, and_assoc]

/-! ## §3. Tokens that are needed. -/

@[simp] theorem fails_takeOr {needed : Kind} {fault : Fault} :
    Fails (takeOr needed fault) s error t
      ↔ s.cursor.kind ≠ needed ∧ error = ⟨fault, s.cursor.position⟩ ∧ t = s := by
  simp [takeOr, and_assoc]

@[simp] theorem fails_take {needed : Kind} {shown : String} :
    Fails (take needed shown) s error t
      ↔ s.cursor.kind ≠ needed
        ∧ error = ⟨.expectedToken shown s.cursor.text, s.cursor.position⟩ ∧ t = s := by
  simp [take, and_assoc]

@[simp] theorem fails_identifier :
    Fails identifier s error t
      ↔ s.cursor.identifier? = none
        ∧ error = ⟨.expectedIdentifier s.cursor.text, s.cursor.position⟩ ∧ t = s := by
  unfold identifier
  simp only [fails_bind, fails_cursor, gives_cursor, false_or]
  constructor
  · intro h
    obtain ⟨_, _, ⟨rfl, rfl⟩, h⟩ := h
    split at h
    · simp at h
    · next hnone => exact ⟨hnone, fails_failFound.1 h⟩
  · intro h
    refine ⟨_, _, ⟨rfl, rfl⟩, ?_⟩
    rw [h.1]
    exact fails_failFound.2 h.2

@[simp] theorem fails_numberWith {accept : Number → Option α} {fault : String → Fault} :
    Fails (numberWith accept fault) s error t
      ↔ s.cursor.number?.bind accept = none
        ∧ error = ⟨fault s.cursor.text, s.cursor.position⟩ ∧ t = s := by
  unfold numberWith
  simp only [fails_bind, fails_cursor, gives_cursor, false_or]
  constructor
  · intro h
    obtain ⟨_, _, ⟨rfl, rfl⟩, h⟩ := h
    split at h
    · simp at h
    · next hnone => exact ⟨hnone, fails_failFound.1 h⟩
  · intro h
    refine ⟨_, _, ⟨rfl, rfl⟩, ?_⟩
    rw [h.1]
    exact fails_failFound.2 h.2

@[simp] theorem fails_taken {wanted : Kind} : ¬ Fails (taken wanted) s error t := by
  simp [taken]

/-! ## §4. Repetition. -/

@[simp] theorem fails_rounds : ¬ Fails rounds s error t := by simp [rounds]

@[simp] theorem fails_upTo_zero {item : Read (Option α)} :
    Fails (upTo item 0) s error t
      ↔ error = ⟨.unexpectedToken s.cursor.text, s.cursor.position⟩ ∧ t = s := by
  simp [upTo]

/-- A repetition stops in its first round or in one after it. -/
theorem fails_upTo_succ {item : Read (Option α)} {bound : Nat} :
    Fails (upTo item (bound + 1)) s error u
      ↔ Fails item s error u
        ∨ ∃ first t, Gives item s (some first) t ∧ Fails (upTo item bound) t error u := by
  rw [upTo, fails_bind]
  refine or_congr_right ?_
  constructor
  · intro h
    -- a round that finds nothing ends the repetition, and that does not fail
    obtain ⟨_ | first, t, hitem, h⟩ := h
    · exact absurd h fails_pure
    · simp only [bind_pure_comp, fails_map] at h
      exact ⟨first, t, hitem, h⟩
  · intro h
    obtain ⟨first, t, hitem, h⟩ := h
    refine ⟨some first, t, hitem, ?_⟩
    simp only [bind_pure_comp, fails_map]
    exact h

@[simp] theorem fails_many {item : Read (Option α)} :
    Fails (many item) s error t ↔ Fails (upTo item (s.cursor.tokens.length + 1)) s error t := by
  simp [many, and_assoc]

@[simp] theorem fails_separatedUpTo_zero {item : Read α} {fault : String → Fault} :
    Fails (separatedUpTo item fault 0) s error t
      ↔ error = ⟨.unexpectedToken s.cursor.text, s.cursor.position⟩ ∧ t = s := by
  simp [separatedUpTo]

/-- A list stops in its first item, at what follows that one, or after the comma. -/
theorem fails_separatedUpTo_succ {item : Read α} {fault : String → Fault} {bound : Nat} :
    Fails (separatedUpTo item fault (bound + 1)) s error u
      ↔ Fails item s error u
        ∨ ∃ first t, Gives item s first t
          ∧ ((t.cursor.kind ≠ .closeParen ∧ t.cursor.kind ≠ .comma
              ∧ error = ⟨fault t.cursor.text, t.cursor.position⟩ ∧ u = t)
            ∨ (t.cursor.kind = .comma
              ∧ Fails (separatedUpTo item fault bound)
                  { t with cursor := t.cursor.advance } error u)) := by
  rw [separatedUpTo, fails_bind]
  refine or_congr_right (exists_congr fun first => exists_congr fun t => and_congr_right fun _ => ?_)
  simp only [fails_bind, fails_kind, gives_kind, false_or]
  constructor
  · intro h
    obtain ⟨_, _, ⟨rfl, rfl⟩, h⟩ := h
    split at h
    · simp at h
    · next comma =>
      simp only [fails_bind, fails_advance, gives_advance, fails_pure, and_false, exists_false,
        or_false, false_or] at h
      obtain ⟨_, _, rfl, h⟩ := h
      exact .inr ⟨comma, h⟩
    · next hclose hcomma => exact .inl ⟨hclose, hcomma, fails_failFound.1 h⟩
  · intro h
    refine ⟨_, _, ⟨rfl, rfl⟩, ?_⟩
    obtain ⟨hclose, hcomma, h⟩ | ⟨comma, h⟩ := h
    · split
      · next close => exact absurd close hclose
      · next comma => exact absurd comma hcomma
      · exact fails_failFound.2 h
    · rw [comma]
      simp only [fails_bind, fails_advance, gives_advance, false_or]
      exact ⟨(), _, rfl, .inl h⟩

/-- A list in parentheses that is closed at once does not fail. -/
theorem fails_separated {item : Read α} {fault : String → Fault} :
    Fails (separated item fault) s error t
      ↔ s.cursor.kind ≠ .closeParen
        ∧ Fails (separatedUpTo item fault (s.cursor.tokens.length + 1)) s error t := by
  unfold separated
  simp only [fails_bind, fails_taken, gives_taken, false_or]
  constructor
  · intro h
    obtain ⟨there, s', ⟨_, rfl, rfl⟩ | ⟨hopen, rfl, rfl⟩, h⟩ := h
    · simp at h
    · simp [and_assoc] at h
      exact ⟨hopen, h⟩
  · intro h
    exact ⟨false, s, .inr ⟨h.1, rfl, rfl⟩, by simpa [and_assoc] using h.2⟩

/-! ## §5. Meeting the end inside a block. -/

/-- A way of reading meets the end of the tokens inside a block. -/
def RunsOut (p : Read α) (s t : ReadState) : Prop :=
  ∃ error, Fails p s error t ∧ error.fault = .unterminatedBlock

@[simp] theorem runsOut_pure {a : α} : ¬ RunsOut (pure a) s t := by simp [RunsOut]

/-- A sequence meets the end in one of its parts. -/
@[simp] theorem runsOut_bind {p : Read α} {f : α → Read β} :
    RunsOut (p >>= f) s u ↔ RunsOut p s u ∨ ∃ a t, Gives p s a t ∧ RunsOut (f a) t u := by
  unfold RunsOut
  constructor
  · intro h
    obtain ⟨error, h, hfault⟩ := h
    obtain h | ⟨a, t, ha, h⟩ := fails_bind.1 h
    · exact .inl ⟨error, h, hfault⟩
    · exact .inr ⟨a, t, ha, error, h, hfault⟩
  · intro h
    obtain ⟨error, h, hfault⟩ | ⟨a, t, ha, error, h, hfault⟩ := h
    · exact ⟨error, fails_bind.2 (.inl h), hfault⟩
    · exact ⟨error, fails_bind.2 (.inr ⟨a, t, ha, h⟩), hfault⟩

@[simp] theorem runsOut_map {p : Read α} {f : α → β} : RunsOut (f <$> p) s t ↔ RunsOut p s t := by
  simp [RunsOut]

@[simp] theorem runsOut_get : ¬ RunsOut get s t := by simp [RunsOut]

@[simp] theorem runsOut_modify {f : ReadState → ReadState} : ¬ RunsOut (modify f) s t := by
  simp [RunsOut]

@[simp] theorem runsOut_ite {c : Prop} [Decidable c] {p q : Read α} :
    RunsOut (if c then p else q) s t ↔ (c ∧ RunsOut p s t) ∨ (¬ c ∧ RunsOut q s t) := by
  split <;> simp [*]

@[simp] theorem runsOut_cursor : ¬ RunsOut Read.cursor s t := by simp [RunsOut]

@[simp] theorem runsOut_kind : ¬ RunsOut Read.kind s t := by simp [RunsOut]

@[simp] theorem runsOut_text : ¬ RunsOut Read.text s t := by simp [RunsOut]

@[simp] theorem runsOut_advance : ¬ RunsOut advance s t := by simp [RunsOut]

@[simp] theorem runsOut_advanceBy {count : Nat} : ¬ RunsOut (advanceBy count) s t := by
  simp [RunsOut]

@[simp] theorem runsOut_declare {spelling : String} {precedence : UInt32} :
    ¬ RunsOut (declare spelling precedence) s t := by
  simp [RunsOut]

@[simp] theorem runsOut_fail {fault : Fault} :
    RunsOut (fail fault : Read α) s t ↔ fault = .unterminatedBlock ∧ t = s := by
  simp [RunsOut, and_comm]

@[simp] theorem runsOut_failFound {fault : String → Fault} :
    RunsOut (failFound fault : Read α) s t
      ↔ fault s.cursor.text = .unterminatedBlock ∧ t = s := by
  simp [RunsOut, and_comm]

@[simp] theorem runsOut_takeOr {needed : Kind} {fault : Fault} :
    RunsOut (takeOr needed fault) s t
      ↔ s.cursor.kind ≠ needed ∧ fault = .unterminatedBlock ∧ t = s := by
  simp [takeOr, and_assoc]

@[simp] theorem runsOut_take {needed : Kind} {shown : String} :
    ¬ RunsOut (take needed shown) s t := by
  simp [take]

@[simp] theorem runsOut_identifier : ¬ RunsOut identifier s t := by
  intro h
  obtain ⟨error, h, hfault⟩ := h
  rw [(fails_identifier.1 h).2.1] at hfault
  exact absurd hfault nofun

/-- A number that is refused is another fault. -/
theorem runsOut_numberWith {accept : Number → Option α} {fault : String → Fault}
    (other : ∀ text, fault text ≠ .unterminatedBlock) :
    ¬ RunsOut (numberWith accept fault) s t := by
  intro h
  obtain ⟨error, h, hfault⟩ := h
  rw [(fails_numberWith.1 h).2.1] at hfault
  exact other _ hfault

@[simp] theorem runsOut_taken {wanted : Kind} : ¬ RunsOut (taken wanted) s t := by simp [RunsOut]

theorem runsOut_upTo_zero {item : Read (Option α)} : ¬ RunsOut (upTo item 0) s t := by
  simp [RunsOut]

/-- A repetition meets the end in one of its rounds. -/
theorem runsOut_upTo_succ {item : Read (Option α)} {bound : Nat} :
    RunsOut (upTo item (bound + 1)) s u
      ↔ RunsOut item s u
        ∨ ∃ first t, Gives item s (some first) t ∧ RunsOut (upTo item bound) t u := by
  unfold RunsOut
  simp only [fails_upTo_succ]
  grind

@[simp] theorem runsOut_many {item : Read (Option α)} :
    RunsOut (many item) s t ↔ RunsOut (upTo item (s.cursor.tokens.length + 1)) s t := by
  simp [RunsOut]

/-- A list meets the end in its first item or after the comma behind it. -/
theorem runsOut_separatedUpTo {item : Read α} {fault : String → Fault} {bound : Nat}
    (other : ∀ text, fault text ≠ .unterminatedBlock)
    (h : RunsOut (separatedUpTo item fault (bound + 1)) s u) :
    RunsOut item s u
      ∨ ∃ first t, Gives item s first t ∧ t.cursor.kind = .comma
          ∧ RunsOut (separatedUpTo item fault bound) { t with cursor := t.cursor.advance } u := by
  obtain ⟨error, h, hfault⟩ := h
  obtain h | ⟨first, t, hfirst, ⟨-, -, rfl, -⟩ | ⟨hcomma, h⟩⟩ := fails_separatedUpTo_succ.1 h
  · exact .inl ⟨error, h, hfault⟩
  · exact absurd hfault (other _)
  · exact .inr ⟨first, t, hfirst, hcomma, error, h, hfault⟩

/-! ## §6. Meeting it somewhere. -/

/-- A way of reading meets the end of the tokens inside a block, whatever it leaves. -/
def Interrupted (p : Read α) (s : ReadState) : Prop := ∃ t, RunsOut p s t

namespace Interrupted

/-- A sequence is interrupted with its first part. -/
theorem first {p : Read α} {f : α → Read β} (h : Interrupted p s) : Interrupted (p >>= f) s := by
  obtain ⟨u, h⟩ := h
  exact ⟨u, runsOut_bind.2 (.inl h)⟩

/-- Or it is interrupted after its first part. -/
theorem later {p : Read α} {f : α → Read β} {a : α} (h : Gives p s a t)
    (h' : Interrupted (f a) t) : Interrupted (p >>= f) s := by
  obtain ⟨u, h'⟩ := h'
  exact ⟨u, runsOut_bind.2 (.inr ⟨a, t, h, h'⟩)⟩

theorem ite {c : Prop} [Decidable c] {p q : Read α} :
    Interrupted (if c then p else q) s ↔ (c ∧ Interrupted p s) ∨ (¬ c ∧ Interrupted q s) := by
  split <;> simp [*]

theorem firstRound {item : Read (Option α)} {bound : Nat} (h : Interrupted item s) :
    Interrupted (upTo item (bound + 1)) s := by
  obtain ⟨u, h⟩ := h
  exact ⟨u, runsOut_upTo_succ.2 (.inl h)⟩

theorem laterRound {item : Read (Option α)} {bound : Nat} {a : α} (h : Gives item s (some a) t)
    (h' : Interrupted (upTo item bound) t) : Interrupted (upTo item (bound + 1)) s := by
  obtain ⟨u, h'⟩ := h'
  exact ⟨u, runsOut_upTo_succ.2 (.inr ⟨a, t, h, h'⟩)⟩

theorem many {item : Read (Option α)}
    (h : Interrupted (upTo item (s.cursor.tokens.length + 1)) s) : Interrupted (many item) s := by
  obtain ⟨u, h⟩ := h
  exact ⟨u, runsOut_many.2 h⟩

theorem firstItem {item : Read α} {fault : String → Fault} {bound : Nat}
    (h : Interrupted item s) : Interrupted (separatedUpTo item fault (bound + 1)) s := by
  obtain ⟨u, error, h, hfault⟩ := h
  exact ⟨u, error, fails_separatedUpTo_succ.2 (.inl h), hfault⟩

/-- A list is interrupted after one of its commas. -/
theorem laterItem {item : Read α} {fault : String → Fault} {bound : Nat} {a : α}
    (h : Gives item s a t) (comma : t.cursor.kind = .comma)
    (h' : Interrupted (separatedUpTo item fault bound) { t with cursor := t.cursor.advance }) :
    Interrupted (separatedUpTo item fault (bound + 1)) s := by
  obtain ⟨u, error, h', hfault⟩ := h'
  exact ⟨u, error, fails_separatedUpTo_succ.2 (.inr ⟨a, t, h, .inr ⟨comma, h'⟩⟩), hfault⟩

theorem separated {item : Read α} {fault : String → Fault}
    (some : s.cursor.kind ≠ .closeParen)
    (h : Interrupted (separatedUpTo item fault (s.cursor.tokens.length + 1)) s) :
    Interrupted (separated item fault) s := by
  obtain ⟨u, error, h, hfault⟩ := h
  exact ⟨u, error, fails_separated.2 ⟨some, h⟩, hfault⟩

/-- Runs that are the same are interrupted together. -/
theorem of_run {p q : Read α} (same : p.run s = q.run t) (h : Interrupted q t) :
    Interrupted p s := by
  obtain ⟨u, error, h, hfault⟩ := h
  exact ⟨u, error, same.trans h, hfault⟩

end Interrupted

end Fixity.Read
