/-
  Fixity.Proofs.Reading.Blame
  ────────────────────────────────
  **AN ERROR POINTS AT THE TOKEN WHERE READING STOPS.**

  Reading fails at the current token and stays there.  So wherever a construct stops,
  the place of the error is the place of the token under the cursor, and a program text
  that the fault shows is the text of that token.  Two faults say more: a block is
  unterminated only at the end of the tokens, and a number is bad only if a number
  token has no value.

  This is a property of the state that is left, `Points`.  A sequence has it where its
  first part does and its second part does from the states that the first one leaves,
  and so it is passed up from the few steps that fail to every construct.

  The production for numbers is the only one that may be called where its first token is
  of another kind, and then it shows that token; the choice of the language calls it for
  numbers only.

  Main results: `blames_descend` (every construct) and `blames_forms` (programs).
-/
import Fixity.Program
import Fixity.Proofs.Reading.Failure

namespace Fixity

/-! ## §1. What a fault shows. -/

namespace Fault

/-- The text of the token that a fault is about, if it shows that. -/
def shown? : Fault → Option String
  | unrecognisedToken token | badNumber token | unexpectedToken token | unknownOperator token =>
      some token
  | expectedToken _ found | expectedIdentifier found | invalidDimension found
  | expectedCommaOrParen found | expectedFunctionName found | expectedOperatorSymbol found
  | expectedParamOrParen found | invalidPrecedence found => some found
  | unmatchedParen | missingIndex _ | missingDimension _ | unterminatedBlock
  | arityMismatch _ _ _ => none

/-- Whether a fault says nothing about the kind of the token that it is found at. -/
def IsPlain (fault : Fault) : Prop :=
  fault ≠ .unterminatedBlock ∧ ∀ text, fault ≠ .badNumber text

/-- A fault that shows no token. -/
def IsSilent (fault : Fault) : Prop := fault.shown? = none ∧ fault.IsPlain

/-- A fault that shows the token it is given. -/
def Shows (fault : String → Fault) : Prop :=
  ∀ text, (fault text).shown? = some text ∧ (fault text).IsPlain

end Fault

/-- An error that points at the current token of a state. -/
structure Points (state : ReadState) (error : Error) : Prop where
  /-- It is placed there. -/
  position : error.position = state.cursor.position
  /-- If it shows a token, it is that one. -/
  shown : ∀ text, error.fault.shown? = some text → text = state.cursor.text
  /-- A block is unterminated at the end. -/
  ended : error.fault = .unterminatedBlock → state.cursor.kind = .eof
  /-- A bad number is a number token without a value. -/
  number : ∀ text, error.fault = .badNumber text →
    state.cursor.kind = .number ∧ state.cursor.number? = none

namespace Read

open Grammar

variable {α β : Type} {s t : ReadState} {error : Error}

theorem points_silent {fault : Fault} (h : fault.IsSilent) :
    Points s ⟨fault, s.cursor.position⟩ := by
  refine ⟨rfl, fun text htext => ?_, fun hfault => absurd hfault h.2.1,
    fun text hfault => absurd hfault (h.2.2 text)⟩
  exact absurd (h.1.symm.trans htext) nofun

theorem points_shows {fault : String → Fault} (h : Fault.Shows fault) :
    Points s ⟨fault s.cursor.text, s.cursor.position⟩ := by
  obtain ⟨hshown, hplain⟩ := h s.cursor.text
  refine ⟨rfl, fun text htext => ?_, fun hfault => absurd hfault hplain.1,
    fun text hfault => absurd hfault (hplain.2 text)⟩
  exact Option.some.inj (htext.symm.trans hshown)

theorem silent_missingDimension (name : String) : Fault.IsSilent (.missingDimension name) :=
  ⟨rfl, nofun, nofun⟩

theorem silent_missingIndex (name : String) : Fault.IsSilent (.missingIndex name) :=
  ⟨rfl, nofun, nofun⟩

theorem shows_invalidDimension : Fault.Shows .invalidDimension := fun _ => ⟨rfl, nofun, nofun⟩

/-! ## §2. Sequences. -/

/-- Where reading from a state fails, the error points at the token under the cursor. -/
def BlamesAt (p : Read α) (s : ReadState) : Prop := ∀ ⦃error t⦄, Fails p s error t → Points t error

/-- Wherever reading fails, the error points at the token under the cursor. -/
def Blames (p : Read α) : Prop := ∀ s, BlamesAt p s

theorem BlamesAt.bind {p : Read α} {f : α → Read β} (h : BlamesAt p s)
    (h' : ∀ {a t}, Gives p s a t → BlamesAt (f a) t) : BlamesAt (p >>= f) s := by
  intro error t hfails
  rcases fails_bind.1 hfails with hp | ⟨a, u, ha, hf⟩
  · exact h hp
  · exact h' ha hf

namespace Blames

/-- What does not fail blames nothing. -/
theorem of_never {p : Read α} (h : ∀ {s error t}, ¬ Fails p s error t) : Blames p :=
  fun _ _ _ hfails => absurd hfails h

theorem pure (a : α) : Blames (Pure.pure a : Read α) := of_never fails_pure

theorem bind {p : Read α} {f : α → Read β} (h : Blames p) (h' : ∀ a, Blames (f a)) :
    Blames (p >>= f) := fun s => BlamesAt.bind (h s) fun {a t} _ => h' a t

theorem ite {c : Prop} [Decidable c] {p q : Read α} (hp : Blames p) (hq : Blames q) :
    Blames (if c then p else q) := by
  split
  · exact hp
  · exact hq

/-- A step that looks at the state, and what is done then from that state. -/
theorem look {γ : Type} {p : Read γ} {f : γ → Read α} {view : ReadState → γ}
    (hgives : ∀ {s a t}, Gives p s a t → a = view s ∧ t = s) (hp : Blames p)
    (h : ∀ s, BlamesAt (f (view s)) s) : Blames (p >>= f) := by
  intro s
  refine BlamesAt.bind (hp s) fun {a t} ha => ?_
  obtain ⟨rfl, rfl⟩ := hgives ha
  exact h _

end Blames

/-! ## §3. Steps. -/

theorem blames_cursor : Blames Read.cursor := .of_never fails_cursor

theorem blames_kind : Blames Read.kind := .of_never fails_kind

theorem blames_text : Blames Read.text := .of_never fails_text

theorem blames_advance : Blames advance := .of_never fails_advance

theorem blames_advanceBy (count : Nat) : Blames (advanceBy count) := .of_never fails_advanceBy

theorem blames_taken (wanted : Kind) : Blames (taken wanted) := .of_never fails_taken

theorem blames_fail {fault : Fault} (h : fault.IsSilent) : Blames (fail fault : Read α) := by
  intro s error t hfails
  obtain ⟨rfl, rfl⟩ := fails_fail.1 hfails
  exact points_silent h

theorem blames_failFound {fault : String → Fault} (h : Fault.Shows fault) :
    Blames (failFound fault : Read α) := by
  intro s error t hfails
  obtain ⟨rfl, rfl⟩ := fails_failFound.1 hfails
  exact points_shows h

/-- A token that is missing is silent about what stands there. -/
theorem blames_takeOr (needed : Kind) {fault : Fault} (h : fault.IsSilent) :
    Blames (takeOr needed fault) :=
  .bind blames_kind fun _ => .ite blames_advance (blames_fail h)

theorem shows_expectedToken (shown : String) : Fault.Shows (.expectedToken shown) :=
  fun _ => ⟨rfl, nofun, nofun⟩

theorem blames_take (needed : Kind) (shown : String) : Blames (take needed shown) := by
  intro s error t hfails
  obtain ⟨-, rfl, rfl⟩ := fails_take.1 hfails
  exact points_shows (shows_expectedToken shown)

theorem blames_identifier : Blames identifier := by
  intro s error t hfails
  obtain ⟨-, rfl, rfl⟩ := fails_identifier.1 hfails
  exact points_shows fun _ => ⟨rfl, nofun, nofun⟩

theorem blames_numberWith (accept : Number → Option α) {fault : String → Fault}
    (h : Fault.Shows fault) : Blames (numberWith accept fault) := by
  intro s error t hfails
  obtain ⟨-, rfl, rfl⟩ := fails_numberWith.1 hfails
  exact points_shows h

/-! ## §4. Repetition. -/

theorem shows_unexpectedToken : Fault.Shows .unexpectedToken := fun _ => ⟨rfl, nofun, nofun⟩

theorem blames_upTo {item : Read (Option α)} (h : Blames item) (bound : Nat) :
    Blames (upTo item bound) := by
  induction bound with
  | zero => exact blames_failFound shows_unexpectedToken
  | succ bound ih =>
      refine .bind h fun found => ?_
      cases found with
      | none => exact .pure _
      | some first => exact .bind ih fun _ => .pure _

theorem blames_many {item : Read (Option α)} (h : Blames item) : Blames (many item) :=
  .bind (.of_never fails_rounds) fun bound => blames_upTo h bound

theorem blames_separated {item : Read α} {fault : String → Fault} (h : Blames item)
    (hfault : Fault.Shows fault) : Blames (separated item fault) := by
  have hupTo : ∀ bound, Blames (separatedUpTo item fault bound) := by
    intro bound
    induction bound with
    | zero => exact blames_failFound shows_unexpectedToken
    | succ bound ih =>
        refine .bind h fun first => .bind blames_kind fun kind => ?_
        split
        · exact .bind blames_advance fun _ => .pure _
        · exact .bind blames_advance fun _ => .bind ih fun _ => .pure _
        · exact blames_failFound hfault
  exact .bind (blames_taken _) fun _ => .ite (.pure _) (.bind (.of_never fails_rounds) hupTo)

/-! ## §5. Constructs over a level. -/

/-- The goals that a construct may be asked for wherever the cursor stands. -/
def FreeGoal (goal : Goal) : Prop := goal ≠ .read .number

/-- A level whose constructs point at the token where they stop. -/
structure BlamesBelow (level : Level) : Prop where
  /-- The language chooses. -/
  choice : level.choice = .standard
  /-- Every goal but a number. -/
  free : ∀ {goal}, FreeGoal goal → Blames (level.below goal)
  /-- A number where one stands. -/
  number : ∀ {s}, s.cursor.kind = .number → BlamesAt (level.below (.read .number)) s

section Constructs

variable {level : Level} (below : BlamesBelow level)

/-- A number is bad where a number token has no value. -/
theorem blamesAt_number (h : s.cursor.kind = .number) : BlamesAt Grammar.number s := by
  intro error t hfails
  simp only [Grammar.number, bind_pure_comp, fails_map] at hfails
  obtain ⟨hnone, rfl, rfl⟩ := fails_numberWith.1 hfails
  refine ⟨rfl, fun text htext => (Option.some.inj htext).symm,
    fun hfault => absurd hfault (by simp), fun text _ => ⟨h, ?_⟩⟩
  simpa using hnone

include below

theorem blames_expression_below : Blames level.expression := below.free nofun

theorem blames_unary_below : Blames level.unary := below.free nofun

theorem blames_block_below : Blames level.block := below.free nofun

/-- The language reads a number only where a number token stands. -/
theorem blames_primary : Blames (primary level) := by
  refine .look (fun h => gives_kind.1 h) blames_kind fun s => ?_
  rw [below.choice]
  cases hchoice : Choice.standard s.cursor.kind with
  | none => exact blames_failFound shows_unexpectedToken s
  | some production =>
      by_cases hproduction : production = .number
      · subst hproduction
        have hkind : s.cursor.kind = .number := by
          unfold Choice.standard at hchoice
          split at hchoice <;> simp_all
        exact below.number hkind
      · exact below.free (fun h => hproduction (Goal.read.inj h)) s

theorem blames_unary : Blames (unary level) := by
  refine .bind blames_kind fun _ => .ite (.bind blames_text fun text => ?_) (blames_primary below)
  cases signOf? text with
  | none => exact blames_failFound fun _ => ⟨rfl, nofun, nofun⟩
  | some sign =>
      exact .bind blames_advance fun _ => .bind (blames_unary_below below) fun _ => .pure _

theorem blames_climb (loosest : UInt32) (left : Expr) : Blames (climb level loosest left) := by
  have hright : ∀ precedence, Blames (rightSide level precedence) := fun precedence =>
    .bind (blames_unary_below below) fun operand =>
      .bind (.of_never fails_get) fun state => .ite (below.free nofun) (.pure _)
  refine .bind (blames_many (.bind (.of_never fails_get) fun state => ?_)) fun _ => .pure _
  cases infixAhead? state with
  | none => exact .pure _
  | some ahead =>
      exact .ite (.bind (blames_advanceBy _) fun _ => .bind (hright _) fun _ => .pure _) (.pure _)

theorem blames_expression : Blames (Grammar.expression level) :=
  .bind (blames_unary below) fun _ => blames_climb below 0 _

theorem blames_paren : Blames (paren level) :=
  .bind blames_advance fun _ => .bind (blames_expression_below below) fun _ =>
    .bind (blames_takeOr _ ⟨rfl, nofun, nofun⟩) fun _ => .pure _

omit below in
theorem blames_bracket {empty : Fault} (hempty : empty.IsSilent) {content : Read α}
    (h : Blames content) : Blames (bracket empty content) :=
  .bind (blames_taken _) fun _ => .ite
    (.bind blames_kind fun _ => .ite (blames_fail hempty)
      (.bind h fun _ => .bind (blames_take _ _) fun _ => .pure _)) (.pure _)

omit below in
theorem blames_array : Blames Grammar.array :=
  .bind blames_advance fun _ => .bind blames_identifier fun _ => .bind blames_kind fun _ => .ite
    (.bind (blames_many (blames_bracket (silent_missingDimension _)
      (blames_numberWith _ shows_invalidDimension))) fun _ => .pure _)
    (blames_fail (silent_missingDimension _))

theorem blames_named : Blames (named level) := by
  refine .bind blames_identifier fun name => .bind blames_kind fun kind => ?_
  split
  · exact .bind (blames_many (blames_bracket (silent_missingIndex _) (blames_expression_below below)))
      fun _ => .pure _
  · exact .bind blames_advance fun _ =>
      .bind (blames_separated (blames_expression_below below) fun _ => ⟨rfl, nofun, nofun⟩)
        fun _ => .pure _
  · exact .pure _

/-- A block is unterminated where the tokens are over. -/
theorem blames_statement : Blames (statement level) := by
  refine .look (fun h => gives_kind.1 h) blames_kind fun s => ?_
  split
  · exact Blames.pure _ s
  · next hkind =>
    intro error t hfails
    obtain ⟨rfl, rfl⟩ := fails_fail.1 hfails
    exact ⟨rfl, nofun, fun _ => hkind, nofun⟩
  · exact Blames.bind (blames_block_below below)
      (fun _ => .bind (blames_taken _) fun _ => .pure _) s

theorem blames_block : Blames (Grammar.block level) :=
  .bind (blames_taken _) fun _ => .ite
    (.bind (blames_many (blames_statement below)) fun _ =>
      .bind blames_advance fun _ => .pure _)
    (blames_expression below)

omit below in
theorem blames_optionally (mark : Kind) {part : Read Expr} (h : Blames part) :
    Blames (optionally mark part) :=
  .bind (blames_taken _) fun _ => .ite (.bind h fun _ => .pure _) (.pure _)

theorem blames_branch : Blames (branch level) :=
  .bind blames_advance fun _ => .bind (blames_expression_below below) fun _ =>
    .bind (blames_take _ _) fun _ => .bind (blames_block_below below) fun _ =>
      .bind (blames_optionally _ (blames_block_below below)) fun _ => .pure _

theorem blames_countLoop : Blames (countLoop level) := by
  have hequals : Blames equalsSign :=
    .bind blames_cursor fun _ => .ite blames_advance (blames_failFound (shows_expectedToken _))
  exact .bind blames_advance fun _ => .bind blames_identifier fun _ => .bind hequals fun _ =>
    .bind (blames_expression_below below) fun _ => .bind (blames_take _ _) fun _ =>
      .bind (blames_expression_below below) fun _ =>
        .bind (blames_optionally _ (blames_expression_below below)) fun _ =>
          .bind (blames_block_below below) fun _ => .pure _

theorem blames_whileLoop : Blames (whileLoop level) :=
  .bind blames_advance fun _ => .bind (blames_expression_below below) fun _ =>
    .bind (blames_block_below below) fun _ => .pure _

theorem blames_repeatLoop : Blames (repeatLoop level) :=
  .bind blames_advance fun _ => .bind (blames_take _ _) fun _ =>
    .bind (blames_expression_below below) fun _ =>
      .bind (blames_takeOr _ ⟨rfl, nofun, nofun⟩) fun _ =>
        .bind (blames_block_below below) fun _ => .pure _

theorem blames_pursue {goal : Goal} (h : FreeGoal goal) : Blames (pursue level goal) := by
  cases goal with
  | climb loosest left => exact blames_climb below loosest left
  | read production =>
      cases production with
      | expression => exact blames_expression below
      | unary => exact blames_unary below
      | primary => exact blames_primary below
      | number => exact absurd rfl h
      | paren => exact blames_paren below
      | identifier => exact blames_named below
      | array => exact blames_array
      | block => exact blames_block below
      | branch => exact blames_branch below
      | countLoop => exact blames_countLoop below
      | whileLoop => exact blames_whileLoop below
      | repeatLoop => exact blames_repeatLoop below

end Constructs

/-! ## §6. Any depth, headings and forms. -/

/-- However deep reading goes, it points at the token where it stops. -/
theorem blamesBelow_descend (depth : Nat) :
    BlamesBelow ⟨.standard, descend .standard depth⟩ := by
  induction depth with
  | zero =>
      have hzero : ∀ goal, Blames (descend .standard 0 goal) :=
        fun _ => blames_failFound shows_unexpectedToken
      exact ⟨rfl, fun {goal} _ => hzero goal, fun {s} _ => hzero (.read .number) s⟩
  | succ depth ih => exact ⟨rfl, fun h => blames_pursue ih h, fun h => blamesAt_number h⟩

theorem blames_achieve {goal : Goal} (h : FreeGoal goal) : Blames (achieve .standard goal) :=
  .bind blames_cursor fun cursor => (blamesBelow_descend (depthFor cursor)).free h

theorem blames_read {production : Production} (h : production ≠ .number) :
    Blames (read .standard production) :=
  blames_achieve fun hgoal => h (Goal.read.inj hgoal)

/-- A number that is asked for where another token stands is bad too, and shows that
token. -/
theorem fails_read_number {error : Error} (h : Fails (read .standard .number) s error t) :
    error = ⟨.badNumber s.cursor.text, s.cursor.position⟩ ∧ t = s := by
  have hnumber : Fails Grammar.number s error t := by
    unfold Grammar.read achieve at h
    rcases fails_bind.1 h with hcursor | ⟨cursor, s', hcursor, hdescend⟩
    · exact absurd hcursor fails_cursor
    · obtain ⟨rfl, rfl⟩ := gives_cursor.1 hcursor
      exact hdescend
  simp only [Grammar.number, bind_pure_comp, fails_map] at hnumber
  exact (fails_numberWith.1 hnumber).2

theorem blames_subject : Blames Grammar.subject := by
  refine .bind blames_kind fun kind => ?_
  split
  · exact .bind blames_identifier fun _ => .pure _
  · refine .bind blames_advance fun _ => .bind blames_kind fun _ => .ite ?_
      (blames_failFound fun _ => ⟨rfl, nofun, nofun⟩)
    refine .look (fun h => gives_text.1 h) blames_text fun s => ?_
    split
    · exact Blames.bind blames_advance (fun _ => .pure _) s
    · intro error t hfails
      obtain ⟨rfl, rfl⟩ := fails_fail.1 hfails
      exact points_shows fun _ => ⟨rfl, nofun, nofun⟩
  · refine .bind blames_advance fun _ => .bind blames_cursor fun cursor => ?_
    have hprecedence : Blames declaredPrecedence :=
      .bind blames_kind fun _ => .ite
        (blames_numberWith _ fun _ => ⟨rfl, nofun, nofun⟩) (.pure _)
    cases cursor.operator? with
    | none => exact blames_failFound fun _ => ⟨rfl, nofun, nofun⟩
    | some operator =>
        exact .bind (blames_advanceBy _) fun _ => .bind hprecedence fun _ =>
          .bind (.of_never fails_declare) fun _ => .pure _
  · exact blames_failFound fun _ => ⟨rfl, nofun, nofun⟩

theorem blames_params : Blames params := by
  have hslot : Blames slot :=
    .bind blames_kind fun _ => .ite (blames_failFound fun _ => ⟨rfl, nofun, nofun⟩)
      (.bind blames_cursor fun _ => .bind blames_advance fun _ => .pure _)
  exact .bind (blames_separated hslot fun _ => ⟨rfl, nofun, nofun⟩) fun _ => .pure _

theorem blames_heading : Blames heading := by
  refine .bind blames_subject fun subject => .bind (blames_take _ _) fun _ =>
    .bind blames_params fun params => ?_
  cases subject.operands? with
  | none => exact .pure _
  | some operands => exact .ite (.pure _) (blames_fail ⟨rfl, nofun, nofun⟩)

theorem blames_definition : Blames (definition .standard) :=
  .bind (blames_take _ _) fun _ => .bind blames_heading fun _ =>
    .bind (blames_read nofun) fun _ => .pure _

theorem blames_freeExpression : Blames (freeExpression .standard) :=
  .bind (blames_read nofun) fun _ => .pure _

theorem blames_form : Blames (form .standard) := by
  refine .bind (.of_never fails_modify) fun _ => .bind blames_kind fun kind => ?_
  split
  · exact .pure _
  · exact .bind blames_definition fun _ => .pure _
  · exact .bind blames_freeExpression fun _ => .pure _

/-- Wherever reading a program stops, the error points at the token under the cursor. -/
theorem blames_forms : Blames (forms .standard) := blames_many blames_form

end Read
end Fixity
