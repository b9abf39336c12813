/-
  Fixity.Proofs.Reading.Lockstep
  ────────────────────────────────
  **TWO RUNS SIDE BY SIDE.**

  Reading looks at the current token, at the operator that starts there, and at
  how many tokens are left; it moves forward and declares operators.  If two states
  look alike in these respects, and stay so when both move or declare, then every
  way of reading does the same from both: it gives the same result or fails with
  corresponding errors, and the states it leaves correspond again.

  Which states correspond, and which errors, is a parameter here.  Only a heading
  declares anything, so for everything else the states need to stay alike only when
  both move.

  Main results: `InStep.bind` (a sequence keeps two runs in step) and
  `forms_inStep` (so does reading a program).
-/
import Fixity.Program

namespace Fixity.Read

open Grammar

variable {α β : Type} {R : ReadState → ReadState → Prop} {E : Error → Error → Prop}

/-- Results that correspond: both are the same value or both are errors that
correspond, and the states do. -/
def Related (R : ReadState → ReadState → Prop) (E : Error → Error → Prop) :
    EStateM.Result Error ReadState α → EStateM.Result Error ReadState α → Prop
  | .ok a s, .ok b t => a = b ∧ R s t
  | .error e s, .error f t => E e f ∧ R s t
  | _, _ => False

/-- What corresponds to a success is a success with the same value. -/
theorem Related.of_ok {a : α} {s : ReadState} {result : EStateM.Result Error ReadState α}
    (h : Related R E (.ok a s) result) : ∃ t, result = .ok a t ∧ R s t := by
  cases result with
  | ok b t =>
      obtain ⟨rfl, hst⟩ := h
      exact ⟨t, rfl, hst⟩
  | error f t => exact h.elim

/-- What corresponds to a failure is a failure with an error that corresponds. -/
theorem Related.of_error {e : Error} {s : ReadState} {result : EStateM.Result Error ReadState α}
    (h : Related R E (.error e s) result) : ∃ f t, result = .error f t ∧ E e f ∧ R s t := by
  cases result with
  | ok b t => exact h.elim
  | error f t => exact ⟨f, t, rfl, h⟩

/-- A way of reading does the same from two states that correspond. -/
def InStep (R : ReadState → ReadState → Prop) (E : Error → Error → Prop) (p : Read α) : Prop :=
  ∀ ⦃s t : ReadState⦄, R s t → Related R E (p.run s) (p.run t)

/-- What states that correspond have in common, as long as nothing is declared. -/
structure Abreast (R : ReadState → ReadState → Prop) (E : Error → Error → Prop) : Prop where
  /-- The current tokens are of one kind. -/
  kind : ∀ {s t}, R s t → s.cursor.kind = t.cursor.kind
  /-- The current tokens have one text. -/
  text : ∀ {s t}, R s t → s.cursor.text = t.cursor.text
  /-- As many tokens are left. -/
  length : ∀ {s t}, R s t → s.cursor.tokens.length = t.cursor.tokens.length
  /-- The same operator starts here. -/
  operator : ∀ {s t}, R s t → s.cursor.operator? = t.cursor.operator?
  /-- The tables say the same of it. -/
  ahead : ∀ {s t}, R s t → infixAhead? s = infixAhead? t
  /-- Moving keeps the states alike. -/
  advance : ∀ {s t}, R s t →
    R { s with cursor := s.cursor.advance } { t with cursor := t.cursor.advance }
  /-- A fault found here gives errors that correspond. -/
  error : ∀ {s t} (fault : Fault), R s t → E ⟨fault, s.cursor.position⟩ ⟨fault, t.cursor.position⟩

/-- What states that correspond have in common, whatever is done to both. -/
structure Alike (R : ReadState → ReadState → Prop) (E : Error → Error → Prop) : Prop
    extends Abreast R E where
  /-- Declaring keeps the states alike. -/
  declare : ∀ {s t} (spelling : String) (precedence : UInt32), R s t →
    R { s with table := s.table.declare spelling precedence }
      { t with table := t.table.declare spelling precedence }

/-! ## §1. Sequences. -/

namespace InStep

theorem pure (a : α) : InStep R E (Pure.pure a : Read α) := fun _ _ h => ⟨rfl, h⟩

/-- A sequence keeps two runs in step if its parts do. -/
theorem bind {p : Read α} {f : α → Read β} (h : InStep R E p) (h' : ∀ a, InStep R E (f a)) :
    InStep R E (p >>= f) := by
  intro s t hst
  have hp := h hst
  show Related R E (EStateM.bind p f s) (EStateM.bind p f t)
  unfold EStateM.bind
  change Related R E (p s) (p t) at hp
  -- one run fails exactly where the other does, so two of the four cases are empty
  cases hs : p s with
  | ok a s' =>
      cases ht : p t with
      | ok b t' =>
          rw [hs, ht] at hp
          obtain ⟨rfl, hst'⟩ := hp
          exact h' a hst'
      | error f t' => rw [hs, ht] at hp; exact hp.elim
  | error e s' =>
      cases ht : p t with
      | ok b t' => rw [hs, ht] at hp; exact hp.elim
      | error f t' => rw [hs, ht] at hp; exact hp

theorem ite {c : Prop} [Decidable c] {p q : Read α} (hp : InStep R E p) (hq : InStep R E q) :
    InStep R E (if c then p else q) := by
  split
  · exact hp
  · exact hq

/-- What both states show alike may decide what is done. -/
theorem view {γ : Type} {p : Read α} (look : ReadState → γ) (f : γ → Read α)
    (hlook : ∀ {s t}, R s t → look s = look t) (hp : ∀ s, p.run s = (f (look s)).run s)
    (hf : ∀ c, InStep R E (f c)) : InStep R E p := by
  intro s t hst
  rw [hp, hp, hlook hst]
  exact hf _ hst

end InStep

namespace Abreast

variable (abreast : Abreast R E)
include abreast

/-! ## §2. Steps. -/

theorem kind_inStep : InStep R E Read.kind := fun _ _ h => ⟨abreast.kind h, h⟩

theorem text_inStep : InStep R E Read.text := fun _ _ h => ⟨abreast.text h, h⟩

theorem rounds_inStep : InStep R E rounds :=
  fun _ _ h => ⟨congrArg (· + 1) (abreast.length h), h⟩

theorem advance_inStep : InStep R E Read.advance := fun _ _ h => ⟨rfl, abreast.advance h⟩

theorem advanceBy_inStep (count : Nat) : InStep R E (advanceBy count) := by
  -- moving by many is moving one by one
  have hmoves : ∀ count {s t}, R s t →
      R { s with cursor := s.cursor.advanceBy count }
        { t with cursor := t.cursor.advanceBy count } := by
    intro count
    induction count with
    | zero => exact id
    | succ count ih => exact fun h => ih (abreast.advance h)
  exact fun s t h => ⟨rfl, hmoves count h⟩

theorem fail_inStep (fault : Fault) : InStep R E (fail fault : Read α) :=
  fun _ _ h => ⟨abreast.error fault h, h⟩

theorem failFound_inStep (fault : String → Fault) : InStep R E (failFound fault : Read α) :=
  .bind abreast.text_inStep fun _ => abreast.fail_inStep _

theorem takeOr_inStep (needed : Kind) (fault : Fault) : InStep R E (takeOr needed fault) :=
  .bind abreast.kind_inStep fun _ => .ite abreast.advance_inStep (abreast.fail_inStep fault)

theorem take_inStep (needed : Kind) (shown : String) : InStep R E (take needed shown) :=
  .bind abreast.text_inStep fun _ => abreast.takeOr_inStep needed _

theorem taken_inStep (wanted : Kind) : InStep R E (taken wanted) :=
  .bind abreast.kind_inStep fun _ =>
    .ite (.bind abreast.advance_inStep fun _ => .pure _) (.pure _)

end Abreast

/-- Looking at the cursor changes nothing. -/
theorem run_cursor_bind (f : Cursor → Read α) (s : ReadState) :
    (Read.cursor >>= f).run s = (f s.cursor).run s := rfl

/-- Looking at the whole state changes nothing. -/
theorem run_get_bind (f : ReadState → Read α) (s : ReadState) :
    ((get : Read ReadState) >>= f).run s = (f s).run s := rfl

/-- Passing over semicolons is moving as long as one stands here and is not the last
token. -/
theorem dropSemicolons_eq (cursor : Cursor) :
    dropSemicolons cursor.tokens
      = if cursor.kind = .semicolon ∧ 2 ≤ cursor.tokens.length
        then dropSemicolons cursor.advance.tokens else cursor.tokens := by
  obtain ⟨file, tokens⟩ := cursor
  match tokens with
  | [] => simp [dropSemicolons]
  | [token] => simp [dropSemicolons]
  | token :: next :: rest =>
      simp [dropSemicolons, Cursor.kind, Cursor.current?, Cursor.advance]

/-- Passing over semicolons only drops tokens from the front. -/
theorem dropSemicolons_suffix (tokens : List Token) : dropSemicolons tokens <:+ tokens := by
  fun_induction dropSemicolons tokens with
  | case1 token next rest hkind ih => exact ih.trans (List.suffix_cons _ _)
  | case2 token next rest hkind => exact List.suffix_refl _
  | case3 tokens _ => exact List.suffix_refl _

/-- Moving takes one token, unless it is the last. -/
theorem length_advance (cursor : Cursor) (h : 2 ≤ cursor.tokens.length) :
    cursor.advance.tokens.length + 1 = cursor.tokens.length := by
  obtain ⟨file, tokens⟩ := cursor
  match tokens with
  | [] => simp at h
  | [token] => simp at h
  | token :: next :: rest => rfl

/-- The name under the cursor is the text of an identifier. -/
theorem identifier?_eq (cursor : Cursor) :
    cursor.identifier? = if cursor.kind = .identifier then some cursor.text else none := by
  unfold Cursor.identifier? Cursor.currentOf? Cursor.kind Cursor.text
  cases cursor.current? with
  | none => rfl
  | some token =>
      by_cases h : token.kind = .identifier
      · simp [Option.filter, h]
      · simp [Option.filter, h]

/-- The number under the cursor is the value of the text of a number. -/
theorem number?_eq (cursor : Cursor) :
    cursor.number? = if cursor.kind = .number then Number.ofText? cursor.text else none := by
  unfold Cursor.number? Cursor.currentOf? Cursor.kind Cursor.text
  cases cursor.current? with
  | none => rfl
  | some token =>
      by_cases h : token.kind = .number
      · simp [Option.filter, h]
      · simp [Option.filter, h]

namespace Abreast

variable (abreast : Abreast R E)
include abreast

theorem identifier?_eq {s t : ReadState} (h : R s t) :
    s.cursor.identifier? = t.cursor.identifier? := by
  rw [Read.identifier?_eq, Read.identifier?_eq, abreast.kind h, abreast.text h]

theorem number?_eq {s t : ReadState} (h : R s t) : s.cursor.number? = t.cursor.number? := by
  rw [Read.number?_eq, Read.number?_eq, abreast.kind h, abreast.text h]

theorem isSymbol_eq {s t : ReadState} (h : R s t) (c : Char) :
    s.cursor.isSymbol c = t.cursor.isSymbol c := by
  unfold Cursor.isSymbol
  rw [abreast.kind h, abreast.text h]

theorem identifier_inStep : InStep R E identifier := by
  intro s t h
  rw [identifier, run_cursor_bind, run_cursor_bind, abreast.identifier?_eq h]
  cases t.cursor.identifier? with
  | none => exact abreast.failFound_inStep _ h
  | some name => exact InStep.bind abreast.advance_inStep (fun _ => .pure _) h

theorem numberWith_inStep (accept : Number → Option α) (fault : String → Fault) :
    InStep R E (numberWith accept fault) := by
  intro s t h
  rw [numberWith, run_cursor_bind, run_cursor_bind, abreast.number?_eq h]
  cases t.cursor.number?.bind accept with
  | none => exact abreast.failFound_inStep _ h
  | some value => exact InStep.bind abreast.advance_inStep (fun _ => .pure _) h

/-! ## §3. Repetition. -/

theorem upTo_inStep {item : Read (Option α)} (h : InStep R E item) (bound : Nat) :
    InStep R E (upTo item bound) := by
  induction bound with
  | zero => exact abreast.failFound_inStep _
  | succ bound ih =>
      refine .bind h fun found => ?_
      cases found with
      | none => exact .pure _
      | some first => exact .bind ih fun _ => .pure _

theorem many_inStep {item : Read (Option α)} (h : InStep R E item) : InStep R E (many item) :=
  .bind abreast.rounds_inStep fun bound => abreast.upTo_inStep h bound

theorem separatedUpTo_inStep {item : Read α} (h : InStep R E item) (fault : String → Fault)
    (bound : Nat) : InStep R E (separatedUpTo item fault bound) := by
  induction bound with
  | zero => exact abreast.failFound_inStep _
  | succ bound ih =>
      refine .bind h fun first => .bind abreast.kind_inStep fun kind => ?_
      split
      · exact .bind abreast.advance_inStep fun _ => .pure _
      · exact .bind abreast.advance_inStep fun _ => .bind ih fun _ => .pure _
      · exact abreast.failFound_inStep _

theorem separated_inStep {item : Read α} (h : InStep R E item) (fault : String → Fault) :
    InStep R E (separated item fault) :=
  .bind (abreast.taken_inStep _) fun _ => .ite (.pure _)
    (.bind abreast.rounds_inStep fun bound => abreast.separatedUpTo_inStep h fault bound)

/-! ## §4. Constructs over a level. -/

variable {level : Level} (below : ∀ goal, InStep R E (level.below goal))

include below

theorem primary_inStep : InStep R E (primary level) := by
  refine .bind abreast.kind_inStep fun kind => ?_
  cases level.choice kind with
  | none => exact abreast.failFound_inStep _
  | some production => exact below _

theorem unary_inStep : InStep R E (unary level) := by
  refine .bind abreast.kind_inStep fun kind =>
    .ite (.bind abreast.text_inStep fun text => ?_) (abreast.primary_inStep below)
  cases signOf? text with
  | none => exact abreast.failFound_inStep _
  | some sign => exact .bind abreast.advance_inStep fun _ => .bind (below _) fun _ => .pure _

theorem rightSide_inStep (precedence : UInt32) : InStep R E (rightSide level precedence) := by
  refine .bind (below _) fun operand => ?_
  refine .view (tighterAhead · precedence) (fun tighter =>
    if tighter then level.below (.climb (precedence + 1) operand) else pure operand)
    (fun h => ?_) (fun _ => rfl) fun _ => .ite (below _) (.pure _)
  rw [tighterAhead, tighterAhead, abreast.ahead h]

theorem link_inStep (loosest : UInt32) : InStep R E (Grammar.link level loosest) := by
  intro s t h
  rw [link, run_get_bind, run_get_bind, abreast.ahead h]
  cases infixAhead? t with
  | none => exact InStep.pure _ h
  | some ahead =>
      exact InStep.ite (.bind (abreast.advanceBy_inStep _) fun _ =>
        .bind (abreast.rightSide_inStep below _) fun _ => .pure _) (.pure _) h

theorem climb_inStep (loosest : UInt32) (left : Expr) : InStep R E (climb level loosest left) :=
  .bind (abreast.many_inStep (abreast.link_inStep below loosest)) fun _ => .pure _

theorem expression_inStep : InStep R E (Grammar.expression level) :=
  .bind (abreast.unary_inStep below) fun _ => abreast.climb_inStep below 0 _

omit below in
theorem number_inStep : InStep R E Grammar.number :=
  .bind (abreast.numberWith_inStep _ _) fun _ => .pure _

theorem paren_inStep : InStep R E (paren level) :=
  .bind abreast.advance_inStep fun _ => .bind (below _) fun _ =>
    .bind (abreast.takeOr_inStep _ _) fun _ => .pure _

omit below in
theorem bracket_inStep (empty : Fault) {content : Read α} (h : InStep R E content) :
    InStep R E (bracket empty content) :=
  .bind (abreast.taken_inStep _) fun _ => .ite
    (.bind abreast.kind_inStep fun _ => .ite (abreast.fail_inStep _)
      (.bind h fun _ => .bind (abreast.take_inStep _ _) fun _ => .pure _)) (.pure _)

omit below in
theorem array_inStep : InStep R E Grammar.array :=
  .bind abreast.advance_inStep fun _ => .bind abreast.identifier_inStep fun _ =>
    .bind abreast.kind_inStep fun _ => .ite
      (.bind (abreast.many_inStep (abreast.bracket_inStep _ (abreast.numberWith_inStep _ _)))
        fun _ => .pure _)
      (abreast.fail_inStep _)

theorem named_inStep : InStep R E (named level) := by
  refine .bind abreast.identifier_inStep fun name => .bind abreast.kind_inStep fun kind => ?_
  split
  · exact .bind (abreast.many_inStep (abreast.bracket_inStep _ (below _))) fun _ => .pure _
  · exact .bind abreast.advance_inStep fun _ =>
      .bind (abreast.separated_inStep (below _) _) fun _ => .pure _
  · exact .pure _

theorem statement_inStep : InStep R E (statement level) := by
  refine .bind abreast.kind_inStep fun kind => ?_
  split
  · exact .pure _
  · exact abreast.fail_inStep _
  · exact .bind (below _) fun _ => .bind (abreast.taken_inStep _) fun _ => .pure _

theorem block_inStep : InStep R E (Grammar.block level) :=
  .bind (abreast.taken_inStep _) fun _ => .ite
    (.bind (abreast.many_inStep (abreast.statement_inStep below)) fun _ =>
      .bind abreast.advance_inStep fun _ => .pure _)
    (abreast.expression_inStep below)

omit below in
theorem optionally_inStep (mark : Kind) {part : Read Expr} (h : InStep R E part) :
    InStep R E (optionally mark part) :=
  .bind (abreast.taken_inStep _) fun _ => .ite (.bind h fun _ => .pure _) (.pure _)

theorem branch_inStep : InStep R E (branch level) :=
  .bind abreast.advance_inStep fun _ => .bind (below _) fun _ =>
    .bind (abreast.take_inStep _ _) fun _ => .bind (below _) fun _ =>
      .bind (abreast.optionally_inStep _ (below _)) fun _ => .pure _

omit below in
theorem equalsSign_inStep : InStep R E equalsSign := by
  refine .view (fun s => s.cursor.isSymbol '=')
    (fun found => if found then Read.advance else failFound (.expectedToken "="))
    (fun h => abreast.isSymbol_eq h '=') (fun _ => rfl) ?_
  exact fun found => .ite abreast.advance_inStep (abreast.failFound_inStep _)

theorem countLoop_inStep : InStep R E (countLoop level) :=
  .bind abreast.advance_inStep fun _ => .bind abreast.identifier_inStep fun _ =>
    .bind abreast.equalsSign_inStep fun _ => .bind (below _) fun _ =>
      .bind (abreast.take_inStep _ _) fun _ => .bind (below _) fun _ =>
        .bind (abreast.optionally_inStep _ (below _)) fun _ => .bind (below _) fun _ => .pure _

theorem whileLoop_inStep : InStep R E (whileLoop level) :=
  .bind abreast.advance_inStep fun _ => .bind (below _) fun _ => .bind (below _) fun _ => .pure _

theorem repeatLoop_inStep : InStep R E (repeatLoop level) :=
  .bind abreast.advance_inStep fun _ => .bind (abreast.take_inStep _ _) fun _ =>
    .bind (below _) fun _ => .bind (abreast.takeOr_inStep _ _) fun _ =>
      .bind (below _) fun _ => .pure _

theorem pursue_inStep (goal : Goal) : InStep R E (pursue level goal) := by
  cases goal with
  | climb loosest left => exact abreast.climb_inStep below loosest left
  | read production =>
      cases production with
      | expression => exact abreast.expression_inStep below
      | unary => exact abreast.unary_inStep below
      | primary => exact abreast.primary_inStep below
      | number => exact abreast.number_inStep
      | paren => exact abreast.paren_inStep below
      | identifier => exact abreast.named_inStep below
      | array => exact abreast.array_inStep
      | block => exact abreast.block_inStep below
      | branch => exact abreast.branch_inStep below
      | countLoop => exact abreast.countLoop_inStep below
      | whileLoop => exact abreast.whileLoop_inStep below
      | repeatLoop => exact abreast.repeatLoop_inStep below

omit below in
/-- Reading to any depth keeps two runs in step. -/
theorem descend_inStep (choice : Choice) (depth : Nat) (goal : Goal) :
    InStep R E (descend choice depth goal) := by
  induction depth generalizing goal with
  | zero => exact abreast.failFound_inStep _
  | succ depth ih => exact abreast.pursue_inStep ih goal

omit below in
theorem achieve_inStep (choice : Choice) (goal : Goal) : InStep R E (achieve choice goal) := by
  refine .view (fun s => depthFor s.cursor) (fun depth => descend choice depth goal)
    (fun h => congrArg (2 * · + 3) (abreast.length h)) (fun s => ?_) ?_
  · exact run_cursor_bind (fun cursor => descend choice (depthFor cursor) goal) s
  exact fun depth => abreast.descend_inStep choice depth _

omit below in
theorem read_inStep (choice : Choice) (production : Production) :
    InStep R E (read choice production) :=
  abreast.achieve_inStep choice _

omit below in
theorem freeExpression_inStep (choice : Choice) : InStep R E (freeExpression choice) :=
  .bind (abreast.read_inStep choice _) fun _ => .pure _

omit below in
theorem slot_inStep : InStep R E slot := by
  refine .bind abreast.kind_inStep fun _ => .ite (abreast.failFound_inStep _) ?_
  refine .view (fun s => s.cursor.identifier?) (fun param => do Read.advance; return param)
    abreast.identifier?_eq (fun _ => rfl) ?_
  exact fun _ => .bind abreast.advance_inStep fun _ => .pure _

omit below in
theorem params_inStep : InStep R E params :=
  .bind (abreast.separated_inStep abreast.slot_inStep _) fun _ => .pure _

end Abreast

/-! ## §5. Headings and forms. -/

namespace Alike

variable (alike : Alike R E)
include alike

theorem declare_inStep (spelling : String) (precedence : UInt32) :
    InStep R E (Read.declare spelling precedence) :=
  fun _ _ h => ⟨rfl, alike.declare spelling precedence h⟩

theorem subject_inStep : InStep R E Grammar.subject := by
  refine .bind alike.kind_inStep fun kind => ?_
  split
  · exact .bind alike.identifier_inStep fun _ => .pure _
  · exact .bind alike.advance_inStep fun _ => .bind alike.kind_inStep fun _ => .ite
      (.bind alike.text_inStep fun _ => .ite
        (.bind alike.advance_inStep fun _ => .pure _) (alike.fail_inStep _))
      (alike.failFound_inStep _)
  · refine .bind alike.advance_inStep fun _ => ?_
    intro s t h
    rw [run_cursor_bind, run_cursor_bind, alike.operator h]
    cases t.cursor.operator? with
    | none => exact alike.failFound_inStep _ h
    | some operator =>
        have hprecedence : InStep R E declaredPrecedence :=
          .bind alike.kind_inStep fun _ => .ite (alike.numberWith_inStep _ _) (.pure _)
        exact InStep.bind (alike.advanceBy_inStep _) (fun _ => .bind hprecedence fun _ =>
          .bind (alike.declare_inStep _ _) fun _ => .pure _) h
  · exact alike.failFound_inStep _

theorem heading_inStep : InStep R E heading := by
  refine .bind alike.subject_inStep fun subject => .bind (alike.take_inStep _ _) fun _ =>
    .bind alike.params_inStep fun params => ?_
  cases subject.operands? with
  | none => exact .pure _
  | some operands => exact .ite (.pure _) (alike.fail_inStep _)

theorem skipSemicolons_inStep : InStep R E skipSemicolons := by
  have hdrop : ∀ n {s t}, R s t → s.cursor.tokens.length = n →
      R { s with cursor := { s.cursor with tokens := dropSemicolons s.cursor.tokens } }
        { t with cursor := { t.cursor with tokens := dropSemicolons t.cursor.tokens } } := by
    intro n
    induction n with
    | zero =>
        intro s t h hn
        rw [dropSemicolons_eq, dropSemicolons_eq t.cursor, if_neg (by omega),
          if_neg (by rw [← alike.length h]; omega)]
        exact h
    | succ n ih =>
        intro s t h hn
        rw [dropSemicolons_eq, dropSemicolons_eq t.cursor, ← alike.kind h, ← alike.length h]
        split
        · next hmore =>
          have hshorter := length_advance s.cursor hmore.2
          simpa using ih (alike.advance h) (by dsimp only; omega)
        · exact h
  exact fun s t h => ⟨rfl, hdrop _ h rfl⟩

theorem definition_inStep (choice : Choice) : InStep R E (definition choice) :=
  .bind (alike.take_inStep _ _) fun _ => .bind alike.heading_inStep fun _ =>
    .bind (alike.read_inStep _ _) fun _ => .pure _

theorem form_inStep (choice : Choice) : InStep R E (form choice) := by
  refine .bind alike.skipSemicolons_inStep fun _ => .bind alike.kind_inStep fun kind => ?_
  split
  · exact .pure _
  · exact .bind (alike.definition_inStep choice) fun _ => .pure _
  · exact .bind (alike.freeExpression_inStep choice) fun _ => .pure _

theorem forms_inStep (choice : Choice) : InStep R E (forms choice) :=
  alike.many_inStep (alike.form_inStep choice)

end Alike
end Fixity.Read
