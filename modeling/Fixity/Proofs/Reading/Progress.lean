/-
  Fixity.Proofs.Reading.Progress
  ────────────────────────────────
  **EVERY ROUND TAKES A TOKEN.**

  A cursor stays on the last token, so a loop ends only if none of its rounds moves there
  in vain.  The tokens of a text end with the token for the end, and nothing takes that
  one: a token is taken only after a look at its kind.  So what is read leaves fewer
  tokens than it found, and a repetition is over before its rounds are.

  Two ways of reading are compared here that differ in their bounds only.  As long as no
  bound is reached they do the same; and none is, if a value comes with fewer tokens left.
  Both facts are shown side by side, since each step of the second one gives the room for
  the next step of the first one.

  Main results: `Settles.bind` (a sequence), `Ahead.advance` (a token that is not the end
  is taken), `settles_upTo` and `settles_separatedUpTo` (repetitions with any two bounds
  that there are not enough tokens for).
-/
import Fixity.Proofs.Reading.Front

namespace Fixity

/-! ## §1. How far a cursor has come. -/

/-- Tokens that end with the token for the end, if there are any. -/
def Closed (tokens : List Token) : Prop := ∀ last ∈ tokens.getLast?, last.kind = .eof

/-- The second list of tokens is left of the first one: a part at its end, with its last
token. -/
structure Onward (tokens rest : List Token) : Prop where
  /-- Nothing has moved back. -/
  suffix : rest <:+ tokens
  /-- The last token is not passed. -/
  parked : tokens ≠ [] → rest ≠ []

/-- Where closed tokens do not show the end, there is more than one. -/
theorem Closed.two_le {cursor : Cursor} (closed : Closed cursor.tokens)
    (solid : cursor.kind ≠ .eof) : 2 ≤ cursor.tokens.length := by
  obtain ⟨file, tokens⟩ := cursor
  cases tokens with
  | nil => exact absurd rfl solid
  | cons token rest =>
      cases rest with
      | nil => exact absurd (closed token rfl) solid
      | cons next rest => exact Nat.le_add_left 2 rest.length

namespace Onward

variable {tokens rest : List Token}

theorem refl (tokens : List Token) : Onward tokens tokens := ⟨List.suffix_refl _, id⟩

/-- What is left of closed tokens is closed. -/
theorem closed (h : Onward tokens rest) (closed : Closed tokens) : Closed rest := by
  intro last hlast
  obtain ⟨before, rfl⟩ := h.suffix
  apply closed
  rw [List.getLast?_append, Option.mem_def.1 hlast]
  rfl

/-- Moving goes on. -/
theorem advance {cursor : Cursor} (h : Onward tokens cursor.tokens) :
    Onward tokens cursor.advance.tokens := by
  refine ⟨(Cursor.tokens_advance_suffix cursor).trans h.suffix, fun hne => ?_⟩
  have hcursor := h.parked hne
  unfold Cursor.advance
  split
  · exact List.cons_ne_nil _ _
  · exact hcursor

end Onward

namespace Read

open Grammar

variable {α β : Type} {tokens : List Token} {near : Nat} {s t : ReadState}

/-- A state that was reached from some tokens, with fewer than `near` of them left. -/
structure Ahead (tokens : List Token) (near : Nat) (s : ReadState) : Prop
    extends Onward tokens s.cursor.tokens where
  /-- So many are left at most. -/
  near : s.cursor.tokens.length < near

namespace Ahead

theorem not_zero : ¬ Ahead tokens 0 s := fun h => Nat.not_lt_zero _ h.near

theorem mono {far : Nat} (h : Ahead tokens near s) (hle : near ≤ far) : Ahead tokens far s :=
  ⟨h.toOnward, Nat.lt_of_lt_of_le h.near hle⟩

/-- Moving does not go back. -/
theorem stay (h : Ahead tokens near s) :
    Ahead tokens near { s with cursor := s.cursor.advance } :=
  ⟨h.toOnward.advance,
    Nat.lt_of_le_of_lt (Cursor.tokens_advance_suffix s.cursor).length_le h.near⟩

/-- A token that is not the end is not the last one, and moving takes it. -/
theorem advance (closed : Closed tokens) (h : Ahead tokens near s) (solid : s.cursor.kind ≠ .eof) :
    Ahead tokens (near - 1) { s with cursor := s.cursor.advance } := by
  have hmore := (h.toOnward.closed closed).two_le solid
  refine ⟨h.toOnward.advance, ?_⟩
  have hlength := length_advance s.cursor hmore
  have hnear := h.near
  show s.cursor.advance.tokens.length < near - 1
  omega

end Ahead

/-- Being ahead is kept by all steps. -/
theorem alike_ahead (tokens : List Token) (near : Nat) : Alike (Both (Ahead tokens near)) Eq :=
  alike_both Ahead.stay fun _ _ h => ⟨h.toOnward, h.near⟩

/-! ## §2. Doing the same, and getting on. -/

/-- From every state with the first property, two ways of reading do the same, and a value
comes with the second property. -/
structure Settles (before : ReadState → Prop) (after : α → ReadState → Prop) (p q : Read α) :
    Prop where
  /-- Both do the same. -/
  same : ∀ {s}, before s → p.run s = q.run s
  /-- What holds with a value. -/
  gives : ∀ {s a t}, before s → Gives p s a t → after a t

namespace Settles

variable {before before' : ReadState → Prop} {after after' : α → ReadState → Prop} {p q : Read α}

theorem mono (h : Settles before after p q) (hbefore : ∀ {s}, before' s → before s)
    (hafter : ∀ {a s}, after a s → after' a s) : Settles before' after' p q :=
  ⟨fun hs => h.same (hbefore hs), fun hs hp => hafter (h.gives (hbefore hs) hp)⟩

/-- Nothing is asked where no state is possible. -/
theorem never (h : ∀ {s}, ¬ before s) : Settles before after p q :=
  ⟨fun hs => absurd hs h, fun hs => absurd hs h⟩

theorem pure {a : α} (h : ∀ {s}, before s → after a s) :
    Settles before after (Pure.pure a) (Pure.pure a) := by
  refine ⟨fun _ => rfl, fun hs hp => ?_⟩
  obtain ⟨rfl, rfl⟩ := gives_pure.1 hp
  exact h hs

/-- A sequence, part by part. -/
theorem bind {mid : α → ReadState → Prop} {after : β → ReadState → Prop} {f g : α → Read β}
    (h : Settles before mid p q) (h' : ∀ a, Settles (mid a) after (f a) (g a)) :
    Settles before after (p >>= f) (q >>= g) := by
  refine ⟨fun {s} hs => ?_, fun {s b u} hs hgives => ?_⟩
  · have hp := h.same hs
    show EStateM.bind p f s = EStateM.bind q g s
    unfold EStateM.bind
    change p s = q s at hp
    rw [← hp]
    cases hrun : p s with
    | ok a t => exact (h' a).same (h.gives hs hrun)
    | error error t => rfl
  · obtain ⟨a, t, hp, hf⟩ := gives_bind.1 hgives
    exact (h' a).gives (h.gives hs hp) hf

theorem ite {c : Prop} [Decidable c] {p' q' : Read α} (h : c → Settles before after p q)
    (h' : ¬ c → Settles before after p' q') :
    Settles before after (if c then p else p') (if c then q else q') := by
  split
  · next hc => exact h hc
  · next hc => exact h' hc

/-- What is done may depend on the state. -/
theorem of_run
    (h : ∀ s, before s → ∃ p' q' : Read α, p.run s = p'.run s ∧ q.run s = q'.run s
      ∧ Settles (· = s) after p' q') : Settles before after p q := by
  refine ⟨fun {s} hs => ?_, fun {s a t} hs hgives => ?_⟩
  · obtain ⟨p', q', hp, hq, hsettles⟩ := h s hs
    rw [hp, hq]
    exact hsettles.same rfl
  · obtain ⟨p', q', hp, -, hsettles⟩ := h s hs
    exact hsettles.gives rfl (hp.symm.trans hgives)

/-- What is seen of the state may decide what is done. -/
theorem view {γ : Type} (look : ReadState → γ) {f g : γ → Read α}
    (hp : ∀ s, p.run s = (f (look s)).run s) (hq : ∀ s, q.run s = (g (look s)).run s)
    (h : ∀ c, Settles (fun s => before s ∧ look s = c) after (f c) (g c)) :
    Settles before after p q := by
  refine .of_run fun s hs => ⟨f (look s), g (look s), hp s, hq s, ?_⟩
  refine (h (look s)).mono (fun {t} ht => ?_) id
  rw [ht]
  exact ⟨hs, rfl⟩

/-- A look at the kind of the current token. -/
theorem kind {f g : Kind → Read α}
    (h : ∀ kind, Settles (fun s => before s ∧ s.cursor.kind = kind) after (f kind) (g kind)) :
    Settles before after (Read.kind >>= f) (Read.kind >>= g) :=
  .view (·.cursor.kind) (fun _ => rfl) (fun _ => rfl) h

/-- A look at its text. -/
theorem text {f g : String → Read α} (h : ∀ text, Settles before after (f text) (g text)) :
    Settles before after (Read.text >>= f) (Read.text >>= g) :=
  .view (·.cursor.text) (fun _ => rfl) (fun _ => rfl) fun text => (h text).mono And.left id

/-- A way of reading without bounds does the same as itself. -/
theorem steady (h : ∀ {s a t}, before s → Gives p s a t → after a t) : Settles before after p p :=
  ⟨fun _ => rfl, h⟩

/-- It keeps what it keeps. -/
theorem keep (h : Keeps before p) : Settles before (fun _ => before) p p :=
  steady fun hs hp => (h hs).1 hp

/-- A failure gives no value. -/
theorem fail (fault : Fault) : Settles before after (Read.fail fault) (Read.fail fault) :=
  steady fun _ hp => absurd hp gives_fail

theorem failFound (fault : String → Fault) :
    Settles before after (Read.failFound fault) (Read.failFound fault) :=
  .text fun _ => .fail _

end Settles

/-! ## §3. Steps. -/

theorem kind_of_identifier? {cursor : Cursor} {name : String}
    (h : cursor.identifier? = some name) : cursor.kind = .identifier := by
  rw [identifier?_eq] at h
  split at h
  · assumption
  · cases h

theorem kind_of_number? {cursor : Cursor} {value : Number} (h : cursor.number? = some value) :
    cursor.kind = .number := by
  rw [number?_eq] at h
  split at h
  · assumption
  · cases h

/-- An operator starts with a symbol. -/
theorem kind_of_operator? {cursor : Cursor} {operator : OperatorReading}
    (h : cursor.operator? = some operator) : cursor.kind = .symbol := by
  obtain ⟨token, htoken, -⟩ := Option.bind_eq_some_iff.1 h
  obtain ⟨hcurrent, hkind⟩ := Option.filter_eq_some_iff.1 htoken
  unfold Cursor.kind
  rw [hcurrent]
  exact eq_of_beq hkind

section Steps

variable (closed : Closed tokens)
include closed

/-- A token that is not the end is taken. -/
theorem settles_leave :
    Settles (fun s => Ahead tokens near s ∧ s.cursor.kind ≠ .eof)
      (fun _ => Ahead tokens (near - 1)) advance advance := by
  refine .steady fun hs hp => ?_
  obtain rfl := gives_advance.1 hp
  exact hs.1.advance closed hs.2

/-- A token of a known kind is taken. -/
theorem settles_advance {kind : Kind} (solid : kind ≠ .eof) :
    Settles (fun s => Ahead tokens near s ∧ s.cursor.kind = kind)
      (fun _ => Ahead tokens (near - 1)) advance advance :=
  (settles_leave closed).mono (fun hs => ⟨hs.1, hs.2 ▸ solid⟩) id

theorem settles_takeOr (needed : Kind) (solid : needed ≠ .eof) (fault : Fault) :
    Settles (Ahead tokens near) (fun _ => Ahead tokens (near - 1)) (takeOr needed fault)
      (takeOr needed fault) :=
  .kind fun _ => .ite (fun hkind => settles_advance closed (hkind ▸ solid)) fun _ => .fail fault

theorem settles_take (needed : Kind) (solid : needed ≠ .eof) (shown : String) :
    Settles (Ahead tokens near) (fun _ => Ahead tokens (near - 1)) (take needed shown)
      (take needed shown) :=
  .text fun _ => settles_takeOr closed needed solid _

/-- A token that may be there leaves fewer tokens if it was. -/
theorem settles_taken_ite (wanted : Kind) (solid : wanted ≠ .eof) {p q p' q' : Read α}
    {after : α → ReadState → Prop} (h : Settles (Ahead tokens (near - 1)) after p q)
    (h' : Settles (Ahead tokens near) after p' q') :
    Settles (Ahead tokens near) after
      (do if ← taken wanted then p else p') (do if ← taken wanted then q else q') := by
  have htaken : Settles (Ahead tokens near)
      (fun there => Ahead tokens (if there = true then near - 1 else near)) (taken wanted)
      (taken wanted) :=
    .kind fun _ => .ite
      (fun hkind => .bind (settles_advance closed (hkind ▸ solid)) fun _ => .pure id)
      fun _ => .pure And.left
  refine htaken.bind fun there => ?_
  cases there with
  | true => exact h
  | false => exact h'

theorem settles_identifier :
    Settles (Ahead tokens near) (fun _ => Ahead tokens (near - 1)) identifier identifier := by
  refine .steady fun hs hp => ?_
  obtain ⟨hname, rfl⟩ := gives_identifier.1 hp
  apply hs.advance closed
  rw [kind_of_identifier? hname]
  exact nofun

theorem settles_numberWith (accept : Number → Option α) (fault : String → Fault) :
    Settles (Ahead tokens near) (fun _ => Ahead tokens (near - 1)) (numberWith accept fault)
      (numberWith accept fault) := by
  refine .steady fun hs hp => ?_
  obtain ⟨hvalue, rfl⟩ := gives_numberWith.1 hp
  obtain ⟨value, hnumber, -⟩ := Option.bind_eq_some_iff.1 hvalue
  apply hs.advance closed
  rw [kind_of_number? hnumber]
  exact nofun

/-- A place of a parameter is not at the end. -/
theorem settles_slot :
    Settles (Ahead tokens near) (fun _ => Ahead tokens (near - 1)) slot slot := by
  refine .kind fun kind => .ite (fun _ => .failFound _) fun hkind => ?_
  refine .view (·.cursor.identifier?) (f := fun param => do advance; return param)
    (g := fun param => do advance; return param) (fun _ => rfl) (fun _ => rfl) fun param => ?_
  exact .bind ((settles_advance closed hkind).mono And.left id) fun _ => .pure id

/-- An operator that is ahead is taken with all its tokens, the first one at least. -/
theorem settles_operator (operator : OperatorReading) :
    Settles (fun s => Ahead tokens near s ∧ s.cursor.operator? = some operator)
      (fun _ => Ahead tokens (near - 1)) (advanceBy operator.width)
      (advanceBy operator.width) := by
  refine .steady fun {s _ _} hs hp => ?_
  obtain rfl := gives_advanceBy.1 hp
  obtain ⟨count, hcount⟩ := Nat.exists_eq_add_one.2 (width_pos hs.2)
  have hfirst : Ahead tokens (near - 1) { s with cursor := s.cursor.advance } := by
    apply hs.1.advance closed
    rw [kind_of_operator? hs.2]
    exact nofun
  rw [hcount]
  have hrest : Gives (advanceBy count) { s with cursor := s.cursor.advance } ()
      { s with cursor := s.cursor.advanceBy (count + 1) } := gives_advanceBy.2 rfl
  exact (((alike_ahead tokens (near - 1)).advanceBy_inStep count).keeps hfirst).1 hrest

end Steps

end Read

/-! ## §4. Repetition. -/

open Read Grammar

/-- Bounds to read within, in place of those that the tokens give. -/
structure Allowance where
  /-- The rounds of a repetition that is begun at a cursor. -/
  rounds : Cursor → Nat
  /-- The levels of a construct that is begun at a cursor. -/
  levels : Cursor → Nat
  /-- The error at a bound. -/
  spent : Error

namespace Allowance

/-- Bounds that there are not enough tokens for: a round for each token and one more, two
levels for each token and two more. -/
structure Ample (allowance : Allowance) : Prop where
  rounds : ∀ cursor, cursor.tokens.length < allowance.rounds cursor
  levels : ∀ cursor, 2 * cursor.tokens.length + 2 ≤ allowance.levels cursor

/-- As many rounds and levels as are needed. -/
def least (spent : Error) : Allowance :=
  ⟨fun cursor => cursor.tokens.length + 1, fun cursor => 2 * cursor.tokens.length + 2, spent⟩

theorem ample_least (spent : Error) : (least spent).Ample :=
  ⟨fun _ => Nat.lt_succ_self _, fun _ => Nat.le_refl _⟩

variable {α : Type} (allowance : Allowance)

/-- Reads items until there is none. -/
def upTo (item : Read (Option α)) : Nat → Read (List α)
  | 0 => throw allowance.spent
  | bound + 1 => do
    match ← item with
    | none => return []
    | some first => return first :: (← upTo item bound)

/-- Reads items until there is none. -/
def many (item : Read (Option α)) : Read (List α) := do
  allowance.upTo item (allowance.rounds (← Read.cursor))

/-- Reads items with commas between them, up to and with the closing parenthesis. -/
def separatedUpTo (item : Read α) (fault : String → Fault) : Nat → Read (List α)
  | 0 => throw allowance.spent
  | bound + 1 => do
    let first ← item
    match ← kind with
    | .closeParen => advance; return [first]
    | .comma => advance; return first :: (← separatedUpTo item fault bound)
    | _ => failFound fault

/-- Reads what stands between parentheses after the first. -/
def separated (item : Read α) (fault : String → Fault) : Read (List α) := do
  if ← taken .closeParen then return []
  else allowance.separatedUpTo item fault (allowance.rounds (← Read.cursor))

/-- Passes over semicolons. -/
def semicolonsUpTo : Nat → Read Unit
  | 0 => throw allowance.spent
  | bound + 1 => do
    if (← kind) = .semicolon then
      advance
      semicolonsUpTo bound
    else return ()

/-- Passes over semicolons. -/
def semicolons : Read Unit := do
  allowance.semicolonsUpTo (allowance.rounds (← Read.cursor))

end Allowance

namespace Read

variable {α β : Type} {tokens : List Token} {near : Nat} {allowance : Allowance}

/-- What is left after an item that may be missing: an item takes a token, and where there is
none, what ends the repetition holds. -/
def AfterItem (tokens : List Token) (ends : ReadState → Prop) (near : Nat) :
    Option α → ReadState → Prop
  | some _, s => Ahead tokens (near - 1) s
  | none, s => Ahead tokens near s ∧ ends s

/-- Rounds that each take a token do not reach a bound that there are not enough tokens for. -/
theorem settles_upTo {ends : ReadState → Prop} {item item' : Read (Option α)}
    (h : ∀ n, n ≤ near → Settles (Ahead tokens n) (AfterItem tokens ends n) item item')
    {bound bound' : Nat} (hbound : near ≤ bound) (hbound' : near ≤ bound') :
    Settles (Ahead tokens near) (fun _ s => Ahead tokens near s ∧ ends s) (upTo item bound)
      (allowance.upTo item' bound') := by
  induction near generalizing bound bound' with
  | zero => exact .never Ahead.not_zero
  | succ near ih =>
      obtain ⟨bound, rfl⟩ := Nat.exists_eq_add_one.2 (show 0 < bound by omega)
      obtain ⟨bound', rfl⟩ := Nat.exists_eq_add_one.2 (show 0 < bound' by omega)
      have hmore : Settles (Ahead tokens near) (fun _ s => Ahead tokens near s ∧ ends s)
          (upTo item bound) (allowance.upTo item' bound') :=
        ih (fun n hn => h n (by omega)) (by omega) (by omega)
      refine .bind (h (near + 1) (Nat.le_refl _)) fun found => ?_
      cases found with
      | none => exact .pure id
      | some first =>
          exact hmore.bind fun _ => .pure fun hs => ⟨hs.1.mono (Nat.le_succ near), hs.2⟩

/-- A state is ahead of one more token than it has left. -/
theorem Ahead.here (h : Ahead tokens near s) :
    s.cursor.tokens.length + 1 ≤ near ∧ Ahead tokens (s.cursor.tokens.length + 1) s :=
  ⟨h.near, h.toOnward, Nat.lt_succ_self _⟩

/-- A repetition ends before its rounds do. -/
theorem settles_many (ample : allowance.Ample) {ends : ReadState → Prop}
    {item item' : Read (Option α)}
    (h : ∀ n, n ≤ near → Settles (Ahead tokens n) (AfterItem tokens ends n) item item') :
    Settles (Ahead tokens near) (fun _ s => Ahead tokens near s ∧ ends s) (many item)
      (allowance.many item') := by
  refine .of_run fun s hs => ⟨_, _, run_rounds_bind _ s, run_cursor_bind _ s, ?_⟩
  obtain ⟨hnear, hahead⟩ := hs.here
  refine (settles_upTo (fun n hn => h n (by omega)) (Nat.le_refl _) (ample.rounds _)).mono
    (fun heq => heq ▸ hahead) fun hafter => ⟨hafter.1.mono hnear, hafter.2⟩

/-- Items with commas between them: a comma takes a token. -/
theorem settles_separatedUpTo (closed : Closed tokens) {item item' : Read α}
    {fault : String → Fault}
    (h : ∀ n, n ≤ near → Settles (Ahead tokens n) (fun _ => Ahead tokens n) item item')
    {bound bound' : Nat} (hbound : near ≤ bound) (hbound' : near ≤ bound') :
    Settles (Ahead tokens near) (fun _ => Ahead tokens near) (separatedUpTo item fault bound)
      (allowance.separatedUpTo item' fault bound') := by
  induction near generalizing bound bound' with
  | zero => exact .never Ahead.not_zero
  | succ near ih =>
      obtain ⟨bound, rfl⟩ := Nat.exists_eq_add_one.2 (show 0 < bound by omega)
      obtain ⟨bound', rfl⟩ := Nat.exists_eq_add_one.2 (show 0 < bound' by omega)
      have hmore : Settles (Ahead tokens near) (fun _ => Ahead tokens near)
          (separatedUpTo item fault bound) (allowance.separatedUpTo item' fault bound') :=
        ih (fun n hn => h n (by omega)) (by omega) (by omega)
      refine .bind (h (near + 1) (Nat.le_refl _)) fun first => .kind fun kind => ?_
      cases kind with
      | closeParen =>
          exact .bind (settles_advance closed nofun) fun _ => .pure fun hs =>
            hs.mono (Nat.le_succ near)
      | comma =>
          exact .bind (settles_advance closed nofun) fun _ => .bind hmore fun _ => .pure fun hs =>
            hs.mono (Nat.le_succ near)
      | _ => exact .failFound _

theorem settles_separated (closed : Closed tokens) (ample : allowance.Ample)
    {item item' : Read α} {fault : String → Fault}
    (h : ∀ n, n ≤ near → Settles (Ahead tokens n) (fun _ => Ahead tokens n) item item') :
    Settles (Ahead tokens near) (fun _ => Ahead tokens near) (separated item fault)
      (allowance.separated item' fault) := by
  refine settles_taken_ite closed .closeParen nofun (.pure fun hs => hs.mono (Nat.sub_le near 1)) ?_
  refine .of_run fun s hs => ⟨_, _, run_rounds_bind _ s, run_cursor_bind _ s, ?_⟩
  obtain ⟨hnear, hahead⟩ := hs.here
  exact (settles_separatedUpTo closed (fun n hn => h n (by omega)) (Nat.le_refl _)
    (ample.rounds _)).mono (fun heq => heq ▸ hahead) fun hafter => hafter.mono hnear

/-- Passing over semicolons, one by one. -/
theorem run_skipSemicolons (closed : Closed s.cursor.tokens) :
    skipSemicolons.run s = (do
      if (← kind) = .semicolon then
        advance
        skipSemicolons
      else return () : Read Unit).run s := by
  have hdrop := dropSemicolons_eq s.cursor
  have hskip (t : ReadState) : skipSemicolons.run t = .ok ()
      { t with cursor := ⟨t.cursor.file, dropSemicolons t.cursor.tokens⟩ } := rfl
  rw [hskip, hdrop]
  by_cases hkind : s.cursor.kind = .semicolon
  · have hmore := closed.two_le (hkind ▸ nofun)
    rw [if_pos ⟨hkind, hmore⟩]
    show _ = (if s.cursor.kind = .semicolon then advance >>= fun _ => skipSemicolons
      else pure () : Read Unit).run s
    rw [if_pos hkind]
    show _ = skipSemicolons.run { s with cursor := s.cursor.advance }
    rw [hskip, Cursor.file_advance]
  · rw [if_neg fun h => hkind h.1]
    show _ = (if s.cursor.kind = .semicolon then advance >>= fun _ => skipSemicolons
      else pure () : Read Unit).run s
    rw [if_neg hkind]
    rfl

/-- Passing over semicolons ends at the end of the tokens at the latest. -/
theorem settles_semicolonsUpTo (closed : Closed tokens) {bound : Nat} (hbound : near ≤ bound) :
    Settles (Ahead tokens near) (fun _ => Ahead tokens near) skipSemicolons
      (allowance.semicolonsUpTo bound) := by
  induction near generalizing bound with
  | zero => exact .never Ahead.not_zero
  | succ near ih =>
      obtain ⟨bound, rfl⟩ := Nat.exists_eq_add_one.2 (show 0 < bound by omega)
      have hmore : Settles (Ahead tokens near) (fun _ => Ahead tokens near) skipSemicolons
          (allowance.semicolonsUpTo bound) := ih (by omega)
      refine .of_run fun s hs =>
        ⟨_, _, run_skipSemicolons (hs.toOnward.closed closed), rfl, ?_⟩
      have hround : Settles (Ahead tokens (near + 1)) (fun _ => Ahead tokens (near + 1))
          (do
            if (← kind) = .semicolon then
              advance
              skipSemicolons
            else return ())
          (allowance.semicolonsUpTo (bound + 1)) :=
        .kind fun kind => .ite
          (fun hkind => .bind (settles_advance closed (hkind ▸ nofun)) fun _ =>
            hmore.mono id fun hs => hs.mono (Nat.le_succ near))
          fun _ => .pure And.left
      exact hround.mono (fun heq => heq ▸ hs) id

theorem settles_semicolons (closed : Closed tokens) (ample : allowance.Ample) :
    Settles (Ahead tokens near) (fun _ => Ahead tokens near) skipSemicolons
      allowance.semicolons := by
  refine .of_run fun s hs => ⟨skipSemicolons, _, rfl, run_cursor_bind _ s, ?_⟩
  obtain ⟨hnear, hahead⟩ := hs.here
  refine (settles_semicolonsUpTo closed (ample.rounds _)).mono (fun {t} heq => ?_)
    fun hafter => hafter.mono hnear
  rw [heq]
  exact hahead

end Read
end Fixity
