/-
  Fixity.Proofs.Reading.Front
  ────────────────────────────────
  **TWO TEXTS WITH A COMMON FRONT.**

  Reading sees the token under the cursor, what the table says, and how many tokens are
  left; and the number of tokens only bounds how often a repetition is entered and how
  deep a construct is nested.  So two lists of tokens with a common front are read alike
  as long as the cursor is in the front, whatever stands behind it: a run that fails there
  fails on both, and a run that goes on there does so on both.

  The two runs have different bounds, so nothing is in step once the front is left.  What
  is said here of a run holds only if it ENDS in the front, and since the cursor never
  moves back all of the run was in the front then.  The bounds are never reached there:
  every round of a repetition takes a token of the front, and so do every two levels.

  Main results: `Tracks.bind` (a sequence), `tracks_upTo` (a repetition, with any two
  bounds that the front does not exceed), `tracks_descend` (constructs to any two depths
  that the front does not exceed) and `tracks_forms` (programs).
-/
import Fixity.Proofs.Reading.Invariant

namespace Fixity.Read

open Grammar

variable {α β : Type} {tail tail' : List Token} {near : Nat} {s t u : ReadState}

/-! ## §1. States before a common front. -/

/-- Two states before the same tokens, not more than `near` of them, and then before
different ones. -/
structure Shared (tail tail' : List Token) (near : Nat) (s t : ReadState) : Prop where
  /-- The tokens of the front. -/
  front : ∃ token front, s.cursor.tokens = token :: front ++ tail
    ∧ t.cursor.tokens = token :: front ++ tail' ∧ front.length < near
  /-- The first list does not end with the front. -/
  behind : tail ≠ []
  /-- The file. -/
  file : s.cursor.file = t.cursor.file
  /-- The table. -/
  table : s.table = t.table

/-- The cursor has not left the front. -/
def Inside (tail : List Token) (s : ReadState) : Prop := tail.length < s.cursor.tokens.length

namespace Shared

/-- Before no token there is no front. -/
theorem not_zero : ¬ Shared tail tail' 0 s t := by
  intro h
  obtain ⟨token, front, -, -, hnear⟩ := h.front
  omega

/-- A longer front will do. -/
theorem mono {far : Nat} (h : Shared tail tail' near s t) (hle : near ≤ far) :
    Shared tail tail' far s t := by
  obtain ⟨token, front, hs, ht, hnear⟩ := h.front
  exact ⟨⟨token, front, hs, ht, by omega⟩, h.behind, h.file, h.table⟩

/-- The front has a length, which neither list falls below. -/
theorem exists_length (h : Shared tail tail' near s t) :
    ∃ n, n ≤ near ∧ n ≤ s.cursor.tokens.length ∧ n ≤ t.cursor.tokens.length
      ∧ Shared tail tail' n s t := by
  obtain ⟨token, front, hs, ht, hnear⟩ := h.front
  refine ⟨front.length + 1, by omega, ?_, ?_, ⟨token, front, hs, ht, by omega⟩, h.behind, h.file,
    h.table⟩
  · rw [hs, List.length_append, List.length_cons]
    omega
  · rw [ht, List.length_append, List.length_cons]
    omega

theorem current? (h : Shared tail tail' near s t) : s.cursor.current? = t.cursor.current? := by
  obtain ⟨token, front, hs, ht, -⟩ := h.front
  unfold Cursor.current?
  rw [hs, ht]
  rfl

theorem kind (h : Shared tail tail' near s t) : s.cursor.kind = t.cursor.kind := by
  unfold Cursor.kind
  rw [h.current?]

theorem text (h : Shared tail tail' near s t) : s.cursor.text = t.cursor.text := by
  unfold Cursor.text
  rw [h.current?]

theorem identifier? (h : Shared tail tail' near s t) :
    s.cursor.identifier? = t.cursor.identifier? := by
  rw [identifier?_eq, identifier?_eq, h.kind, h.text]

theorem number? (h : Shared tail tail' near s t) : s.cursor.number? = t.cursor.number? := by
  rw [number?_eq, number?_eq, h.kind, h.text]

theorem isSymbol (h : Shared tail tail' near s t) (c : Char) :
    s.cursor.isSymbol c = t.cursor.isSymbol c := by
  unfold Cursor.isSymbol
  rw [h.kind, h.text]

theorem position (h : Shared tail tail' near s t) : s.cursor.position = t.cursor.position := by
  unfold Cursor.position
  rw [h.current?, h.file]

/-- An operator is a token and the character that this one remembers. -/
theorem operator? (h : Shared tail tail' near s t) : s.cursor.operator? = t.cursor.operator? := by
  unfold Cursor.operator? Cursor.partner? Cursor.trailing? Cursor.currentOf?
  rw [h.current?]

theorem infixAhead? (h : Shared tail tail' near s t) : infixAhead? s = infixAhead? t := by
  unfold Grammar.infixAhead?
  rw [h.operator?, h.table]

/-- Moving leaves the front or goes on in both lists. -/
theorem advance (h : Shared tail tail' near s t)
    (inside : Inside tail { s with cursor := s.cursor.advance }) :
    Shared tail tail' (near - 1) { s with cursor := s.cursor.advance }
      { t with cursor := t.cursor.advance } := by
  obtain ⟨token, front, hs, ht, hnear⟩ := h.front
  cases front with
  | nil =>
      -- the token was the last one of the front
      obtain ⟨next, rest, hbehind⟩ := List.exists_cons_of_ne_nil h.behind
      refine absurd inside ?_
      have hmoved : s.cursor.advance.tokens = tail := by
        unfold Cursor.advance
        rw [hs, hbehind]
        rfl
      show ¬ tail.length < s.cursor.advance.tokens.length
      rw [hmoved]
      omega
  | cons next front =>
      refine ⟨⟨next, front, ?_, ?_, ?_⟩, h.behind, ?_, h.table⟩
      · show s.cursor.advance.tokens = _
        unfold Cursor.advance
        rw [hs]
        rfl
      · show t.cursor.advance.tokens = _
        unfold Cursor.advance
        rw [ht]
        rfl
      · rw [List.length_cons] at hnear
        omega
      · show s.cursor.advance.file = t.cursor.advance.file
        rw [Cursor.file_advance, Cursor.file_advance, h.file]

end Shared

/-! ## §2. Runs that end in the front. -/

/-- A way of reading that moves forward only. -/
def Forward (p : Read α) : Prop :=
  ∀ n, InStep (Both fun s => s.cursor.tokens.length ≤ n) Eq p

/-- Moving forward is all that the steps do. -/
theorem alike_length (n : Nat) : Alike (Both fun s => s.cursor.tokens.length ≤ n) Eq :=
  alike_both (fun h => Nat.le_trans (Cursor.tokens_advance_suffix _).length_le h) fun _ _ h => h

/-- What ends in the front started there. -/
theorem Forward.gives {p : Read α} (h : Forward p) {a : α} (hp : Gives p s a t) :
    Inside tail t → Inside tail s := by
  intro inside
  have hle := ((h s.cursor.tokens.length).keeps (Nat.le_refl _)).1 hp
  exact Nat.lt_of_lt_of_le inside hle

theorem Forward.fails {p : Read α} (h : Forward p) {error : Error} (hp : Fails p s error t) :
    Inside tail t → Inside tail s := by
  intro inside
  have hle := ((h s.cursor.tokens.length).keeps (Nat.le_refl _)).2 hp
  exact Nat.lt_of_lt_of_le inside hle

/-- What is done may depend on the state. -/
theorem Forward.of_run {p : Read α} (h : ∀ s, ∃ q : Read α, p.run s = q.run s ∧ Forward q) :
    Forward p := by
  intro n s t hboth
  obtain ⟨rfl, hle⟩ := hboth
  obtain ⟨q, hrun, hq⟩ := h s
  rw [hrun]
  exact hq n ⟨rfl, hle⟩

/-- The second way of reading does on the second list what the first one does on the first,
as long as that ends in the front; when it gives a value, so much of the front is left at
most. -/
structure Tracks (tail tail' : List Token) (near : Nat) (left : α → Nat) (p q : Read α) :
    Prop where
  /-- The cursor does not move back. -/
  forward : Forward p
  /-- A success is repeated. -/
  gives : ∀ {s t a u}, Shared tail tail' near s t → Gives p s a u → Inside tail u →
    ∃ v, Gives q t a v ∧ Shared tail tail' (left a) u v
  /-- A failure is repeated. -/
  fails : ∀ {s t error u}, Shared tail tail' near s t → Fails p s error u → Inside tail u →
    ∃ v, Fails q t error v ∧ u.table = v.table

namespace Tracks

variable {left : α → Nat} {p q : Read α}

/-- There is nothing to repeat before an empty front. -/
theorem zero (h : Forward p) : Tracks tail tail' 0 left p q :=
  ⟨h, fun hshared => absurd hshared Shared.not_zero, fun hshared => absurd hshared Shared.not_zero⟩

/-- A shorter front is read as well, and more of it may be left. -/
theorem mono {far : Nat} {more : α → Nat} (h : Tracks tail tail' far left p q) (hle : near ≤ far)
    (hleft : ∀ a, left a ≤ more a) : Tracks tail tail' near more p q := by
  refine ⟨h.forward, fun hshared hp inside => ?_, fun hshared hp inside => ?_⟩
  · obtain ⟨v, hq, hv⟩ := h.gives (hshared.mono hle) hp inside
    exact ⟨v, hq, hv.mono (hleft _)⟩
  · exact h.fails (hshared.mono hle) hp inside

theorem pure {a : α} (hle : near ≤ left a) :
    Tracks tail tail' near left (Pure.pure a) (Pure.pure a) := by
  refine ⟨fun n => .pure a, fun hshared hp _ => ?_, fun _ hp _ => absurd hp fails_pure⟩
  obtain ⟨rfl, rfl⟩ := gives_pure.1 hp
  exact ⟨_, gives_pure.2 ⟨rfl, rfl⟩, hshared.mono hle⟩

/-- A sequence is repeated part by part: if it ends in the front, so does its first part. -/
theorem bind {mid : α → Nat} {left : β → Nat} {f g : α → Read β}
    (h : Tracks tail tail' near mid p q)
    (h' : ∀ a, Tracks tail tail' (mid a) left (f a) (g a)) :
    Tracks tail tail' near left (p >>= f) (q >>= g) := by
  refine ⟨fun n => .bind (h.forward n) fun a => (h' a).forward n, ?_, ?_⟩
  · intro s t b w hshared hp inside
    obtain ⟨a, u, ha, hb⟩ := gives_bind.1 hp
    obtain ⟨v, hq, hv⟩ := h.gives hshared ha ((h' a).forward.gives hb inside)
    obtain ⟨w', hg, hw⟩ := (h' a).gives hv hb inside
    exact ⟨w', hq.bind hg, hw⟩
  · intro s t error w hshared hp inside
    obtain ha | ⟨a, u, ha, hb⟩ := fails_bind.1 hp
    · obtain ⟨v, hq, hv⟩ := h.fails hshared ha inside
      exact ⟨v, fails_bind.2 (.inl hq), hv⟩
    · obtain ⟨v, hq, hv⟩ := h.gives hshared ha ((h' a).forward.fails hb inside)
      obtain ⟨w', hg, hw⟩ := (h' a).fails hv hb inside
      exact ⟨w', fails_bind.2 (.inr ⟨a, v, hq, hg⟩), hw⟩

theorem ite {c : Prop} [Decidable c] {p' q' : Read α} (h : Tracks tail tail' near left p q)
    (h' : Tracks tail tail' near left p' q') :
    Tracks tail tail' near left (if c then p else p') (if c then q else q') := by
  split
  · exact h
  · exact h'

/-- What is done may depend on the states: on what they show alike, and on how many tokens are
left, which are not fewer than the front has. -/
theorem of_run (forward : Forward p)
    (h : ∀ {n s t}, n ≤ near → n ≤ s.cursor.tokens.length → n ≤ t.cursor.tokens.length →
      Shared tail tail' n s t →
      ∃ p' q', p.run s = p'.run s ∧ q.run t = q'.run t ∧ Tracks tail tail' n left p' q') :
    Tracks tail tail' near left p q := by
  refine ⟨forward, fun hshared hgives inside => ?_, fun hshared hfails inside => ?_⟩
  · obtain ⟨n, hnear, hs, ht, hshared⟩ := hshared.exists_length
    obtain ⟨p', q', hp, hq, htracks⟩ := h hnear hs ht hshared
    obtain ⟨v, hv, hleft⟩ := htracks.gives hshared (hp.symm.trans hgives) inside
    exact ⟨v, hq.trans hv, hleft⟩
  · obtain ⟨n, hnear, hs, ht, hshared⟩ := hshared.exists_length
    obtain ⟨p', q', hp, hq, htracks⟩ := h hnear hs ht hshared
    obtain ⟨v, hv, htable⟩ := htracks.fails hshared (hp.symm.trans hfails) inside
    exact ⟨v, hq.trans hv, htable⟩

/-- What both states show alike may decide what is done. -/
theorem view {γ : Type} (look : ReadState → γ) (f g : γ → Read α)
    (hlook : ∀ {s t}, Shared tail tail' near s t → look s = look t)
    (hp : ∀ s, p.run s = (f (look s)).run s) (hq : ∀ s, q.run s = (g (look s)).run s)
    (h : ∀ c, Tracks tail tail' near left (f c) (g c)) : Tracks tail tail' near left p q := by
  refine .of_run (fun n => ?_) fun {n s t} hle _ _ hshared => ?_
  · exact .view look f (fun hboth => by rw [hboth.1]) hp fun c => (h c).forward n
  · refine ⟨f (look s), g (look s), hp s, ?_, (h _).mono hle fun _ => Nat.le_refl _⟩
    rw [hq, hlook (hshared.mono hle)]

end Tracks

/-! ## §3. Steps. -/

theorem tracks_kind : Tracks tail tail' near (fun _ => near) Read.kind Read.kind := by
  refine .of_run (fun n => (alike_length n).kind_inStep) fun {_ s _} hle _ _ hshared => ?_
  refine ⟨pure s.cursor.kind, pure s.cursor.kind, rfl, ?_, .pure hle⟩
  rw [hshared.kind]
  rfl

theorem tracks_text : Tracks tail tail' near (fun _ => near) Read.text Read.text := by
  refine .of_run (fun n => (alike_length n).text_inStep) fun {_ s _} hle _ _ hshared => ?_
  refine ⟨pure s.cursor.text, pure s.cursor.text, rfl, ?_, .pure hle⟩
  rw [hshared.text]
  rfl

/-- Moving takes a token of the front. -/
theorem tracks_advance : Tracks tail tail' near (fun _ => near - 1) Read.advance Read.advance := by
  refine ⟨fun n => (alike_length n).advance_inStep, fun hshared hp inside => ?_,
    fun _ hp _ => absurd hp fails_advance⟩
  obtain rfl := gives_advance.1 hp
  exact ⟨_, gives_advance.2 rfl, hshared.advance inside⟩

theorem tracks_advanceBy (count : Nat) :
    Tracks tail tail' near (fun _ => near - count) (advanceBy count) (advanceBy count) := by
  induction count generalizing near with
  | zero => exact .pure (Nat.le_refl _)
  | succ count ih =>
      have hmove : Tracks tail tail' near (fun _ => near - 1) Read.advance Read.advance :=
        tracks_advance
      have hboth := hmove.bind fun _ => @ih (near - 1)
      refine hboth.mono (Nat.le_refl _) fun _ => ?_
      omega

/-- A fault is found at the same token. -/
theorem tracks_fail (fault : Fault) {left : α → Nat} :
    Tracks tail tail' near left (fail fault) (fail fault) := by
  refine ⟨fun n => (alike_length n).fail_inStep fault, fun _ hp _ => absurd hp gives_fail,
    fun hshared hp _ => ?_⟩
  obtain ⟨rfl, rfl⟩ := fails_fail.1 hp
  refine ⟨_, fails_fail.2 ⟨?_, rfl⟩, hshared.table⟩
  rw [hshared.position]

theorem tracks_failFound (fault : String → Fault) {left : α → Nat} :
    Tracks tail tail' near left (failFound fault) (failFound fault) :=
  .bind tracks_text fun _ => tracks_fail _

theorem tracks_takeOr (needed : Kind) (fault : Fault) :
    Tracks tail tail' near (fun _ => near - 1) (takeOr needed fault) (takeOr needed fault) :=
  .bind tracks_kind fun _ => .ite tracks_advance (tracks_fail fault)

theorem tracks_take (needed : Kind) (shown : String) :
    Tracks tail tail' near (fun _ => near - 1) (take needed shown) (take needed shown) :=
  .bind tracks_text fun _ => tracks_takeOr needed _

/-- A token that may be there is taken by both runs or by neither. -/
theorem tracks_taken (wanted : Kind) :
    Tracks tail tail' near (fun there => if there = true then near - 1 else near) (taken wanted)
      (taken wanted) := by
  refine .bind tracks_kind fun _ => .ite (.bind tracks_advance fun _ => .pure ?_) (.pure ?_)
  · exact Nat.le_refl _
  · exact Nat.le_refl _

/-- What is done then depends on whether it was there. -/
theorem tracks_taken_ite (wanted : Kind) {left : α → Nat} {p q p' q' : Read α}
    (h : Tracks tail tail' (near - 1) left p q) (h' : Tracks tail tail' near left p' q') :
    Tracks tail tail' near left
      (do if ← taken wanted then p else p') (do if ← taken wanted then q else q') := by
  refine (tracks_taken wanted).bind fun there => ?_
  cases there with
  | true => exact h
  | false => exact h'

theorem tracks_identifier : Tracks tail tail' near (fun _ => near - 1) identifier identifier := by
  refine .of_run (fun n => (alike_length n).identifier_inStep) fun {_ s t} hle _ _ hshared => ?_
  refine ⟨_, _, run_cursor_bind _ s, run_cursor_bind _ t, ?_⟩
  rw [hshared.identifier?]
  cases t.cursor.identifier? with
  | some name => exact .bind tracks_advance fun _ => .pure (Nat.sub_le_sub_right hle 1)
  | none => exact tracks_failFound _

theorem tracks_numberWith (accept : Number → Option α) (fault : String → Fault) :
    Tracks tail tail' near (fun _ => near - 1) (numberWith accept fault)
      (numberWith accept fault) := by
  refine .of_run (fun n => (alike_length n).numberWith_inStep accept fault)
    fun {_ s t} hle _ _ hshared => ?_
  refine ⟨_, _, run_cursor_bind _ s, run_cursor_bind _ t, ?_⟩
  rw [hshared.number?]
  cases t.cursor.number?.bind accept with
  | some value => exact .bind tracks_advance fun _ => .pure (Nat.sub_le_sub_right hle 1)
  | none => exact tracks_failFound _

/-! ## §4. Repetition. -/

/-- What is left of the front after an item that may be missing: an item takes a token. -/
def afterItem (near : Nat) (found : Option α) : Nat := if found.isSome then near - 1 else near

/-- Rounds that each take a token do not reach a bound that the front does not exceed. -/
theorem tracks_upTo {item item' : Read (Option α)}
    (h : ∀ n, n ≤ near → Tracks tail tail' n (afterItem n) item item') {bound bound' : Nat}
    (hbound : near ≤ bound) (hbound' : near ≤ bound') :
    Tracks tail tail' near (fun _ => near) (upTo item bound) (upTo item' bound') := by
  induction near generalizing bound bound' with
  | zero => exact .zero fun n => (alike_length n).upTo_inStep ((h 0 (Nat.le_refl _)).forward n) bound
  | succ near ih =>
      obtain ⟨bound, rfl⟩ := Nat.exists_eq_add_one.2 (show 0 < bound by omega)
      obtain ⟨bound', rfl⟩ := Nat.exists_eq_add_one.2 (show 0 < bound' by omega)
      have hmore : Tracks tail tail' near (fun _ => near) (upTo item bound) (upTo item' bound') :=
        ih (fun n hn => h n (by omega)) (by omega) (by omega)
      refine .bind (h (near + 1) (Nat.le_refl _)) fun found => ?_
      cases found with
      | none => exact .pure (Nat.le_refl _)
      | some first => exact .bind hmore fun _ => .pure (Nat.le_succ _)

theorem run_rounds_bind (f : Nat → Read α) (s : ReadState) :
    (rounds >>= f).run s = (f (s.cursor.tokens.length + 1)).run s := rfl

/-- A repetition has more rounds than the front has tokens. -/
theorem tracks_many {item item' : Read (Option α)}
    (h : ∀ n, n ≤ near → Tracks tail tail' n (afterItem n) item item') :
    Tracks tail tail' near (fun _ => near) (many item) (many item') := by
  refine .of_run (fun n => (alike_length n).many_inStep ((h near (Nat.le_refl _)).forward n))
    fun {n s t} hle hs ht _ => ?_
  refine ⟨_, _, run_rounds_bind _ s, run_rounds_bind _ t, ?_⟩
  refine (tracks_upTo (fun m hm => h m (by omega)) ?_ ?_).mono (Nat.le_refl _) fun _ => hle
  · omega
  · omega

theorem tracks_separatedUpTo {item item' : Read α} {fault : String → Fault}
    (h : ∀ n, n ≤ near → Tracks tail tail' n (fun _ => n - 1) item item') {bound bound' : Nat}
    (hbound : near ≤ bound) (hbound' : near ≤ bound') :
    Tracks tail tail' near (fun _ => near - 1) (separatedUpTo item fault bound)
      (separatedUpTo item' fault bound') := by
  induction near generalizing bound bound' with
  | zero =>
      exact .zero fun n =>
        (alike_length n).separatedUpTo_inStep ((h 0 (Nat.le_refl _)).forward n) fault bound
  | succ near ih =>
      obtain ⟨bound, rfl⟩ := Nat.exists_eq_add_one.2 (show 0 < bound by omega)
      obtain ⟨bound', rfl⟩ := Nat.exists_eq_add_one.2 (show 0 < bound' by omega)
      have hmore : Tracks tail tail' near (fun _ => near - 1) (separatedUpTo item fault bound)
          (separatedUpTo item' fault bound') :=
        ih (fun n hn => h n (by omega)) (by omega) (by omega)
      refine .bind (h (near + 1) (Nat.le_refl _)) fun first => .bind tracks_kind fun kind => ?_
      cases kind with
      | closeParen => exact .bind tracks_advance fun _ => .pure (by omega)
      | comma =>
          refine .bind tracks_advance fun _ => .bind (hmore.mono ?_ fun _ => Nat.le_refl _) fun _ =>
            .pure ?_
          · omega
          · omega
      | _ => exact tracks_failFound _

theorem tracks_separated {item item' : Read α} {fault : String → Fault}
    (h : ∀ n, n ≤ near → Tracks tail tail' n (fun _ => n - 1) item item') :
    Tracks tail tail' near (fun _ => near - 1) (separated item fault) (separated item' fault) := by
  refine tracks_taken_ite _ (.pure (Nat.le_refl _)) ?_
  refine .of_run (fun n => ?_) fun {n s t} hle hs ht _ => ?_
  · exact .bind (alike_length n).rounds_inStep fun bound =>
      (alike_length n).separatedUpTo_inStep ((h near (Nat.le_refl _)).forward n) fault bound
  · refine ⟨_, _, run_rounds_bind _ s, run_rounds_bind _ t, ?_⟩
    refine (tracks_separatedUpTo (fun m hm => h m (by omega)) ?_ ?_).mono (Nat.le_refl _)
      fun _ => Nat.sub_le_sub_right hle 1
    · omega
    · omega

/-! ## §5. Constructs over two levels. -/

/-- The levels that a goal takes over a front: two for each token, one less for a production
that its first token picks. -/
def levels : Goal → Nat → Nat
  | .climb _ _, near => 2 * near
  | .read production, near =>
      if production ∈ [.expression, .unary, .primary, .block] then 2 * near else 2 * near - 1

/-- What is left of a front after a goal: what is read takes a token. -/
def afterGoal : Goal → Nat → Nat
  | .climb _ _, near => near
  | .read _, near => near - 1

/-- Two levels that do the same over fronts that both of them reach through. -/
structure Agree (tail tail' : List Token) (reach : Nat) (level level' : Level) : Prop where
  /-- The language chooses in the first one. -/
  choice : level.choice = .standard
  /-- And in the second one. -/
  choice' : level'.choice = .standard
  /-- What is asked of the first one is done by the second one. -/
  below : ∀ goal {near}, levels goal near ≤ reach →
    Tracks tail tail' near (fun _ => afterGoal goal near) (level.below goal) (level'.below goal)

namespace Agree

variable {reach : Nat} {level level' : Level}

theorem expression (agree : Agree tail tail' reach level level') (h : 2 * near ≤ reach) :
    Tracks tail tail' near (fun _ => near - 1) level.expression level'.expression :=
  agree.below (.read .expression) h

theorem unary (agree : Agree tail tail' reach level level') (h : 2 * near ≤ reach) :
    Tracks tail tail' near (fun _ => near - 1) level.unary level'.unary :=
  agree.below (.read .unary) h

theorem block (agree : Agree tail tail' reach level level') (h : 2 * near ≤ reach) :
    Tracks tail tail' near (fun _ => near - 1) level.block level'.block :=
  agree.below (.read .block) h

/-- What is asked of the first level moves forward. -/
theorem forward (agree : Agree tail tail' reach level level') (goal : Goal) :
    Forward (level.below goal) := by
  have hnone : levels goal 0 ≤ reach := by
    unfold levels
    split
    · omega
    · split <;> omega
  exact (agree.below goal hnone).forward

end Agree

/-- What the first token picks is no general production. -/
theorem specific_of_standard {kind : Kind} {production : Production}
    (h : Choice.standard kind = some production) :
    production ∉ [.expression, .unary, .primary, .block] := by
  revert h
  cases kind <;> intro h <;> cases h <;> decide

/-- An operator takes a token. -/
theorem width_pos {cursor : Cursor} {operator : OperatorReading}
    (h : cursor.operator? = some operator) : 0 < operator.width := by
  unfold Cursor.operator? at h
  obtain ⟨token, -, h⟩ := Option.bind_eq_some_iff.1 h
  obtain ⟨first, -, rfl⟩ := Option.map_eq_some_iff.1 h
  split
  · exact Nat.zero_lt_two
  · exact Nat.zero_lt_one

section Constructs

variable {reach : Nat} {level level' : Level} (agree : Agree tail tail' reach level level')
include agree

theorem tracks_primary (h : 2 * near ≤ reach + 1) :
    Tracks tail tail' near (fun _ => near - 1) (primary level) (primary level') := by
  refine .bind tracks_kind fun kind => ?_
  rw [agree.choice, agree.choice']
  cases hchoice : Choice.standard kind with
  | none => exact tracks_failFound _
  | some production =>
      refine agree.below (.read production) ?_
      rw [levels, if_neg (specific_of_standard hchoice)]
      omega

theorem tracks_unary (h : 2 * near ≤ reach + 1) :
    Tracks tail tail' near (fun _ => near - 1) (unary level) (unary level') := by
  refine .bind tracks_kind fun kind =>
    .ite (.bind tracks_text fun text => ?_) (tracks_primary agree h)
  cases signOf? text with
  | none => exact tracks_failFound _
  | some sign =>
      refine .bind tracks_advance fun _ => .bind (agree.unary ?_) fun _ => .pure ?_
      · omega
      · omega

/-- The right side of an operator, behind at least one token. -/
theorem tracks_rightSide (precedence : UInt32) (h : 2 * near ≤ reach) :
    Tracks tail tail' near (fun _ => near) (rightSide level precedence)
      (rightSide level' precedence) := by
  refine .bind (agree.unary h) fun operand => ?_
  have hclimb : Tracks tail tail' (near - 1) (fun _ => near - 1)
      (level.below (.climb (precedence + 1) operand))
      (level'.below (.climb (precedence + 1) operand)) := by
    refine agree.below (.climb (precedence + 1) operand) ?_
    rw [levels]
    omega
  refine .view (tighterAhead · precedence)
    (fun tighter => if tighter then level.below (.climb (precedence + 1) operand) else pure operand)
    (fun tighter => if tighter then level'.below (.climb (precedence + 1) operand) else pure operand)
    (fun hshared => ?_) (fun _ => rfl) (fun _ => rfl) fun _ => .ite (hclimb.mono ?_ fun _ => ?_)
      (.pure ?_)
  · rw [tighterAhead, tighterAhead, hshared.infixAhead?]
  · exact Nat.le_refl _
  · omega
  · omega

theorem tracks_link (loosest : UInt32) (h : 2 * near ≤ reach + 1) :
    Tracks tail tail' near (afterItem near) (Grammar.link level loosest)
      (Grammar.link level' loosest) := by
  refine .of_run (fun n => (alike_length n).link_inStep (fun goal => agree.forward goal n) loosest)
    fun {n s t} hle _ _ hshared => ?_
  refine ⟨_, _, run_get_bind _ s, run_get_bind _ t, ?_⟩
  rw [hshared.infixAhead?]
  cases hahead : infixAhead? t with
  | none => exact .pure hle
  | some ahead =>
      obtain ⟨operator, hoperator, hlookup⟩ := Option.bind_eq_some_iff.1 hahead
      obtain ⟨precedence, -, rfl⟩ := Option.map_eq_some_iff.1 hlookup
      have hwidth := width_pos hoperator
      refine .ite (.bind (tracks_advanceBy _) fun _ =>
        .bind (tracks_rightSide agree _ ?_) fun _ => .pure ?_) (.pure hle)
      · omega
      · show n - operator.width ≤ near - 1
        omega

theorem tracks_climb (loosest : UInt32) (left : Expr) (h : 2 * near ≤ reach + 1) :
    Tracks tail tail' near (fun _ => near) (climb level loosest left)
      (climb level' loosest left) :=
  .bind (tracks_many fun n hn => tracks_link agree loosest (by omega)) fun _ =>
    .pure (Nat.le_refl _)

theorem tracks_expression (h : 2 * near ≤ reach + 1) :
    Tracks tail tail' near (fun _ => near - 1) (Grammar.expression level)
      (Grammar.expression level') := by
  refine .bind (tracks_unary agree h) fun _ => tracks_climb agree 0 _ ?_
  omega

omit agree in
theorem tracks_number :
    Tracks tail tail' near (fun _ => near - 1) Grammar.number Grammar.number :=
  .bind (tracks_numberWith _ _) fun _ => .pure (Nat.le_refl _)

theorem tracks_paren (h : 2 * near ≤ reach + 2) :
    Tracks tail tail' near (fun _ => near - 1) (paren level) (paren level') :=
  .bind tracks_advance fun _ => .bind (agree.expression (by omega)) fun _ =>
    .bind (tracks_takeOr _ _) fun _ => .pure (by omega)

omit agree in
/-- A pair of brackets that is there takes a token. -/
theorem tracks_bracket (empty : Fault) {content content' : Read α}
    (h : Tracks tail tail' (near - 1) (fun _ => near - 1) content content') :
    Tracks tail tail' near (afterItem near) (bracket empty content) (bracket empty content') := by
  refine tracks_taken_ite _ (.bind tracks_kind fun _ => .ite (tracks_fail _) ?_)
    (.pure (Nat.le_refl _))
  refine .bind h fun value => .bind (tracks_take _ _) fun _ => .pure ?_
  show near - 1 - 1 ≤ near - 1
  omega

omit agree in
theorem tracks_array :
    Tracks tail tail' near (fun _ => near - 1) Grammar.array Grammar.array := by
  refine .bind tracks_advance fun _ => .bind tracks_identifier fun name =>
    .bind tracks_kind fun _ => .ite (.bind (tracks_many fun n hn => ?_) fun _ => .pure ?_)
      (tracks_fail _)
  · exact tracks_bracket _ ((tracks_numberWith _ _).mono (Nat.le_refl _) fun _ => by omega)
  · omega

theorem tracks_named (h : 2 * near ≤ reach + 2) :
    Tracks tail tail' near (fun _ => near - 1) (named level) (named level') := by
  refine .bind tracks_identifier fun name => .bind tracks_kind fun kind => ?_
  cases kind with
  | openBracket =>
      refine .bind (tracks_many fun n hn => tracks_bracket _ ?_) fun _ => .pure (Nat.le_refl _)
      refine (agree.expression ?_).mono (Nat.le_refl _) fun _ => ?_
      · omega
      · omega
  | openParen =>
      refine .bind tracks_advance fun _ =>
        .bind (tracks_separated fun n hn => agree.expression ?_) fun _ => .pure ?_
      · omega
      · omega
  | _ => exact .pure (Nat.le_refl _)

theorem tracks_statement (h : 2 * near ≤ reach) :
    Tracks tail tail' near (afterItem near) (statement level) (statement level') := by
  have hstatement : Tracks tail tail' near (afterItem near)
      (do let statement ← level.block; let _ ← taken .semicolon; return some statement)
      (do let statement ← level'.block; let _ ← taken .semicolon; return some statement) := by
    refine .bind (agree.block h) fun statement =>
      .bind (tracks_taken .semicolon) fun there => .pure ?_
    show (if there = true then near - 1 - 1 else near - 1) ≤ near - 1
    split <;> omega
  refine .bind tracks_kind fun kind => ?_
  cases kind with
  | closeBlock => exact .pure (Nat.le_refl _)
  | eof => exact tracks_fail _
  | _ => exact hstatement

/-- A block is read over the next level, a single expression over this one. -/
theorem tracks_block (h : 2 * near ≤ reach + 1) :
    Tracks tail tail' near (fun _ => near - 1) (Grammar.block level) (Grammar.block level') := by
  refine tracks_taken_ite _ ?_ (tracks_expression agree h)
  refine .bind (tracks_many fun n hn => tracks_statement agree (by omega)) fun _ =>
    .bind tracks_advance fun _ => .pure ?_
  omega

omit agree in
theorem tracks_optionally (mark : Kind) {part part' : Read Expr}
    (h : Tracks tail tail' (near - 1) (fun _ => near) part part') :
    Tracks tail tail' near (fun _ => near) (optionally mark part) (optionally mark part') :=
  tracks_taken_ite _ (.bind h fun _ => .pure (Nat.le_refl _)) (.pure (Nat.le_refl _))

theorem tracks_branch (h : 2 * near ≤ reach + 2) :
    Tracks tail tail' near (fun _ => near - 1) (branch level) (branch level') := by
  refine .bind tracks_advance fun _ => .bind (agree.expression (by omega)) fun _ =>
    .bind (tracks_take _ _) fun _ => .bind (agree.block (by omega)) fun _ =>
      .bind (tracks_optionally _ ((agree.block (by omega)).mono (Nat.le_refl _) fun _ => ?_))
        fun _ => .pure ?_
  · omega
  · omega

omit agree in
theorem tracks_equalsSign :
    Tracks tail tail' near (fun _ => near - 1) equalsSign equalsSign := by
  refine .of_run (fun n => (alike_length n).equalsSign_inStep) fun {n s t} hle _ _ hshared => ?_
  refine ⟨_, _, run_cursor_bind _ s, run_cursor_bind _ t, ?_⟩
  rw [hshared.isSymbol]
  exact .ite (tracks_advance.mono (Nat.le_refl _) fun _ => Nat.sub_le_sub_right hle 1)
    (tracks_failFound _)

theorem tracks_countLoop (h : 2 * near ≤ reach + 2) :
    Tracks tail tail' near (fun _ => near - 1) (countLoop level) (countLoop level') := by
  refine .bind tracks_advance fun _ => .bind tracks_identifier fun _ =>
    .bind tracks_equalsSign fun _ => .bind (agree.expression (by omega)) fun _ =>
      .bind (tracks_take _ _) fun _ => .bind (agree.expression (by omega)) fun _ =>
        .bind (tracks_optionally _ ((agree.expression (by omega)).mono (Nat.le_refl _) fun _ => ?_))
          fun _ => .bind (agree.block (by omega)) fun _ => .pure ?_
  · omega
  · omega

theorem tracks_whileLoop (h : 2 * near ≤ reach + 2) :
    Tracks tail tail' near (fun _ => near - 1) (whileLoop level) (whileLoop level') :=
  .bind tracks_advance fun _ => .bind (agree.expression (by omega)) fun _ =>
    .bind (agree.block (by omega)) fun _ => .pure (by omega)

theorem tracks_repeatLoop (h : 2 * near ≤ reach + 2) :
    Tracks tail tail' near (fun _ => near - 1) (repeatLoop level) (repeatLoop level') :=
  .bind tracks_advance fun _ => .bind (tracks_take _ _) fun _ =>
    .bind (agree.expression (by omega)) fun _ => .bind (tracks_takeOr _ _) fun _ =>
      .bind (agree.block (by omega)) fun _ => .pure (by omega)

/-- Over levels that agree as far as they reach, the next ones reach further. -/
theorem tracks_pursue (goal : Goal) (h : levels goal near ≤ reach + 1) :
    Tracks tail tail' near (fun _ => afterGoal goal near) (pursue level goal)
      (pursue level' goal) := by
  cases goal with
  | climb loosest left => exact tracks_climb agree loosest left h
  | read production =>
      unfold levels at h
      cases production with
      | expression => exact tracks_expression agree h
      | unary => exact tracks_unary agree h
      | primary => exact tracks_primary agree h
      | block => exact tracks_block agree h
      | number => exact tracks_number
      | array => exact tracks_array
      | paren => exact tracks_paren agree (by simp at h; omega)
      | identifier => exact tracks_named agree (by simp at h; omega)
      | branch => exact tracks_branch agree (by simp at h; omega)
      | countLoop => exact tracks_countLoop agree (by simp at h; omega)
      | whileLoop => exact tracks_whileLoop agree (by simp at h; omega)
      | repeatLoop => exact tracks_repeatLoop agree (by simp at h; omega)

end Constructs

/-- Levels agree as far as both depths reach. -/
theorem tracks_descend {reach depth depth' : Nat} (hdepth : reach ≤ depth)
    (hdepth' : reach ≤ depth') :
    Agree tail tail' reach ⟨.standard, descend .standard depth⟩
      ⟨.standard, descend .standard depth'⟩ := by
  have hforward : ∀ depth goal, Forward (descend .standard depth goal) := fun depth goal n =>
    (alike_length n).descend_inStep .standard depth goal
  induction reach generalizing depth depth' with
  | zero =>
      refine ⟨rfl, rfl, fun goal near h => ?_⟩
      -- every goal takes a level, so no token is left of a front that is reached through
      have hzero : near = 0 := by
        cases goal with
        | climb => rw [levels] at h; omega
        | read production =>
            rw [levels] at h
            split at h <;> omega
      rw [hzero]
      exact .zero (hforward _ _)
  | succ reach ih =>
      obtain ⟨depth, rfl⟩ := Nat.exists_eq_add_one.2 (show 0 < depth by omega)
      obtain ⟨depth', rfl⟩ := Nat.exists_eq_add_one.2 (show 0 < depth' by omega)
      have hlevels := ih (Nat.le_of_succ_le_succ hdepth) (Nat.le_of_succ_le_succ hdepth')
      exact ⟨rfl, rfl, fun goal near h => tracks_pursue hlevels goal h⟩

/-! ## §6. Headings and forms. -/

/-- Reading has more levels than the front asks for. -/
theorem tracks_read (production : Production) :
    Tracks tail tail' near (fun _ => near - 1) (read .standard production)
      (read .standard production) := by
  refine .of_run (fun n => (alike_length n).read_inStep .standard production)
    fun {n s t} hle hs ht _ => ?_
  refine ⟨_, _, run_cursor_bind (fun cursor => descend .standard (depthFor cursor) _) s,
    run_cursor_bind (fun cursor => descend .standard (depthFor cursor) _) t, ?_⟩
  have hagree : Agree tail tail' (2 * n) ⟨.standard, descend .standard (depthFor s.cursor)⟩
      ⟨.standard, descend .standard (depthFor t.cursor)⟩ := by
    apply tracks_descend
    · unfold depthFor
      omega
    · unfold depthFor
      omega
  refine (hagree.below (.read production) ?_).mono (Nat.le_refl _) fun _ =>
    Nat.sub_le_sub_right hle 1
  rw [levels]
  split <;> omega

theorem tracks_freeExpression :
    Tracks tail tail' near (fun _ => near - 1) (freeExpression .standard)
      (freeExpression .standard) :=
  .bind (tracks_read _) fun _ => .pure (Nat.le_refl _)

theorem tracks_slot : Tracks tail tail' near (fun _ => near - 1) slot slot := by
  refine .bind tracks_kind fun kind => .ite (tracks_failFound _) ?_
  refine .view (·.cursor.identifier?) (fun param => do Read.advance; return param)
    (fun param => do Read.advance; return param) Shared.identifier? (fun _ => rfl) (fun _ => rfl) ?_
  exact fun _ => .bind tracks_advance fun _ => .pure (Nat.le_refl _)

theorem tracks_params : Tracks tail tail' near (fun _ => near - 1) params params :=
  .bind (tracks_separated fun _ _ => tracks_slot) fun _ => .pure (Nat.le_refl _)

/-- Both runs declare the same. -/
theorem tracks_declare (spelling : String) (precedence : UInt32) :
    Tracks tail tail' near (fun _ => near) (declare spelling precedence)
      (declare spelling precedence) := by
  refine ⟨fun n => (alike_length n).declare_inStep spelling precedence, fun hshared hp _ => ?_,
    fun _ hp _ => absurd hp fails_declare⟩
  obtain rfl := gives_declare.1 hp
  refine ⟨_, gives_declare.2 rfl, hshared.front, hshared.behind, hshared.file, ?_⟩
  rw [hshared.table]

theorem tracks_declaredPrecedence :
    Tracks tail tail' near (fun _ => near) declaredPrecedence declaredPrecedence := by
  refine .bind tracks_kind fun _ => .ite ?_ (.pure (Nat.le_refl _))
  exact (tracks_numberWith _ _).mono (Nat.le_refl _) fun _ => Nat.sub_le near 1

/-- What an operator is declared with stands behind its keyword and its spelling. -/
theorem tracks_binarySubject :
    Tracks tail tail' near (fun _ => near) binarySubject binarySubject := by
  have hrest (operator : OperatorReading) : Tracks tail tail' (near - 1) (fun _ => near)
      (do
        advanceBy operator.width
        let precedence ← declaredPrecedence
        declare operator.spelling precedence
        return Subject.binary operator.spelling precedence)
      (do
        advanceBy operator.width
        let precedence ← declaredPrecedence
        declare operator.spelling precedence
        return Subject.binary operator.spelling precedence) :=
    .bind (tracks_advanceBy _) fun _ => .bind tracks_declaredPrecedence fun _ =>
      .bind (tracks_declare _ _) fun _ => .pure (by omega)
  refine .bind tracks_advance fun _ =>
    .of_run (.of_run fun s => ⟨_, run_cursor_bind _ s, ?_⟩) fun {n s t} hle _ _ hshared =>
      ⟨_, _, run_cursor_bind _ s, run_cursor_bind _ t, ?_⟩
  · cases s.cursor.operator? with
    | none => exact fun n => (alike_length n).failFound_inStep _
    | some operator => exact (hrest operator).forward
  · rw [hshared.operator?]
    cases t.cursor.operator? with
    | none => exact tracks_failFound _
    | some operator => exact (hrest operator).mono hle fun _ => Nat.le_refl _

theorem tracks_unarySubject :
    Tracks tail tail' near (fun _ => near) unarySubject unarySubject := by
  refine .bind tracks_advance fun _ => .bind tracks_kind fun _ => .ite
    (.bind tracks_text fun _ => .ite (.bind tracks_advance fun _ => .pure ?_) (tracks_fail _))
    (tracks_failFound _)
  omega

theorem tracks_subject :
    Tracks tail tail' near (fun _ => near) Grammar.subject Grammar.subject := by
  refine .bind tracks_kind fun kind => ?_
  cases kind with
  | identifier => exact .bind tracks_identifier fun _ => .pure (Nat.sub_le near 1)
  | unaryWord => exact tracks_unarySubject
  | binaryWord => exact tracks_binarySubject
  | _ => exact tracks_failFound _

theorem tracks_heading : Tracks tail tail' near (fun _ => near - 1) heading heading := by
  refine .bind tracks_subject fun subject => .bind (tracks_take _ _) fun _ =>
    .bind tracks_params fun names => ?_
  cases subject.operands? with
  | none => exact .pure (Nat.sub_le _ 1)
  | some operands => exact .ite (.pure (Nat.sub_le _ 1)) (tracks_fail _)

theorem tracks_definition :
    Tracks tail tail' near (fun _ => near - 1) (definition .standard) (definition .standard) := by
  refine .bind (tracks_take _ _) fun _ => .bind tracks_heading fun _ =>
    .bind (tracks_read _) fun _ => .pure ?_
  omega

/-- Semicolons are passed over in the front, or the front is left. -/
theorem dropSemicolons_front {token : Token} {front : List Token} (behind : tail ≠ [])
    (inside : tail.length < (dropSemicolons (token :: front ++ tail)).length) :
    ∃ first rest, dropSemicolons (token :: front ++ tail) = first :: rest ++ tail
      ∧ dropSemicolons (token :: front ++ tail') = first :: rest ++ tail'
      ∧ rest.length ≤ front.length := by
  induction front generalizing token with
  | nil =>
      obtain ⟨next, rest, rfl⟩ := List.exists_cons_of_ne_nil behind
      have hlast : token.kind ≠ .semicolon := by
        intro hkind
        have hdrop : dropSemicolons (token :: next :: rest) = dropSemicolons (next :: rest) :=
          if_pos hkind
        have hle := (dropSemicolons_suffix (next :: rest)).length_le
        rw [List.cons_append, List.nil_append, hdrop] at inside
        omega
      refine ⟨token, [], if_neg hlast, ?_, Nat.le_refl _⟩
      cases tail' with
      | nil => rfl
      | cons => exact if_neg hlast
  | cons next front ih =>
      by_cases hkind : token.kind = .semicolon
      · have hdrop (tail : List Token) : dropSemicolons (token :: (next :: front) ++ tail)
            = dropSemicolons (next :: front ++ tail) := if_pos hkind
        rw [hdrop] at inside
        obtain ⟨first, rest, hs, ht, hle⟩ := ih inside
        refine ⟨first, rest, (hdrop tail).trans hs, (hdrop tail').trans ht, ?_⟩
        rw [List.length_cons]
        omega
      · exact ⟨token, next :: front, if_neg hkind, if_neg hkind, Nat.le_refl _⟩

theorem tracks_skipSemicolons :
    Tracks tail tail' near (fun _ => near) skipSemicolons skipSemicolons := by
  refine ⟨fun n => (alike_length n).skipSemicolons_inStep, fun {s t _ u} hshared hp inside => ?_,
    fun _ hp _ => absurd hp fails_modify⟩
  obtain rfl := gives_modify.1 hp
  obtain ⟨token, front, hs, ht, hnear⟩ := hshared.front
  unfold Inside at inside
  rw [hs] at inside
  obtain ⟨first, rest, hs', ht', hle⟩ := dropSemicolons_front hshared.behind inside
  refine ⟨_, gives_modify.2 rfl, ⟨first, rest, ?_, ?_, ?_⟩, hshared.behind, hshared.file,
    hshared.table⟩
  · rw [hs]
    exact hs'
  · rw [ht]
    exact ht'
  · omega

theorem tracks_form :
    Tracks tail tail' near (afterItem near) (form .standard) (form .standard) := by
  refine .bind tracks_skipSemicolons fun _ => .bind tracks_kind fun kind => ?_
  cases kind with
  | eof => exact .pure (Nat.le_refl _)
  | funcWord => exact .bind tracks_definition fun _ => .pure (Nat.le_refl _)
  | _ => exact .bind tracks_freeExpression fun _ => .pure (Nat.le_refl _)

/-- A program that stops in the front of a text stops there in every text with that front. -/
theorem tracks_forms :
    Tracks tail tail' near (fun _ => near) (forms .standard) (forms .standard) :=
  tracks_many fun _ _ => tracks_form

end Fixity.Read
