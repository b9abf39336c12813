/-
  Fixity.Proofs.Language.Termination
  ────────────────────────────────
  **READING ENDS BY ITSELF.**

  The grammar is given bounds: rounds for its repetitions, levels for its constructs.  They
  are no part of what is read.  Here the grammar is written once more with other bounds,
  and with another error where one is reached; the constructs without a repetition are the
  same ones.  Over tokens that end with the token for the end, all ample bounds give one
  and the same run, so none of them is ever reached, and reading without any bounds ends
  with the same result.

  This is also how far each construct gets: what is read takes a token, and a program is
  read up to the end.

  Main results: `settles_descend` (constructs), `settles_forms` (programs) and
  `reading_ends`.
-/
import Fixity.Proofs.Reading.Progress
import Fixity.Proofs.Language.Offending

namespace Fixity

open Read Grammar

/-! ## §1. The grammar within other bounds. -/

namespace Allowance

variable (allowance : Allowance)

/-- Extends an expression by the operators that follow, down to a precedence. -/
def climb (level : Level) (loosest : UInt32) (left : Expr) : Read Expr := do
  return attach left (← allowance.many (link level loosest))

/-- Reads operands with operators between them. -/
def expression (level : Level) : Read Expr := do allowance.climb level 0 (← unary level)

/-- Reads the declaration of an array. -/
def array : Read Expr := do
  advance
  let name ← identifier
  if (← kind) = .openBracket then
    return .array name (← allowance.many
      (bracket (.missingDimension name) (numberWith dimension? .invalidDimension)))
  else fail (.missingDimension name)

/-- Reads an element of an array after its name. -/
def element (level : Level) (name : String) : Read Expr := do
  return .var name (← allowance.many (bracket (.missingIndex name) level.expression))

/-- Reads a call after the name of the function. -/
def call (level : Level) (name : String) : Read Expr := do
  advance
  return .call name (← allowance.separated level.expression .expectedCommaOrParen)

/-- Reads a name and what it is followed by. -/
def named (level : Level) : Read Expr := do
  let name ← identifier
  match ← kind with
  | .openBracket => allowance.element level name
  | .openParen => allowance.call level name
  | _ => return .scalar name

/-- Reads a block, or a single expression. -/
def block (level : Level) : Read Expr := do
  if ← taken .openBlock then
    let statements ← allowance.many (statement level)
    advance
    return .block statements
  else allowance.expression level

/-- Reads a construct over a level. -/
def construct (level : Level) : Production → Read Expr
  | .expression => allowance.expression level
  | .identifier => allowance.named level
  | .array => allowance.array
  | .block => allowance.block level
  | production => Grammar.construct level production

/-- Does over a level what is asked. -/
def pursue (level : Level) : Goal → Read Expr
  | .read production => allowance.construct level production
  | .climb loosest left => allowance.climb level loosest left

/-- Does what is asked over so many levels. -/
def descend : Nat → Goal → Read Expr
  | 0, _ => throw allowance.spent
  | depth + 1, goal => allowance.pursue ⟨.standard, descend depth⟩ goal

/-- Reads a construct at the cursor. -/
def read (production : Production) : Read Expr := do
  allowance.descend (allowance.levels (← Read.cursor)) (.read production)

/-- Reads parameters after the opening parenthesis. -/
def params : Read (List String) := do
  return (← allowance.separated slot .expectedParamOrParen).filterMap id

/-- Reads the head of a definition. -/
def heading : Read Prototype := do
  let subject ← subject
  take .openParen "("
  let params ← allowance.params
  match subject.operands? with
  | some operands =>
    if params.length = operands then return subject.prototype params
    else fail (.arityMismatch subject.name operands params.length)
  | none => return subject.prototype params

/-- Reads a definition with its keyword. -/
def definition : Read Function := do
  take .funcWord "func"
  let prototype ← allowance.heading
  return ⟨prototype, ← allowance.read .block⟩

/-- Reads an expression that stands by itself. -/
def freeExpression : Read Function := do
  return ⟨Prototype.anonymous, ← allowance.read .block⟩

/-- Reads a form, if the tokens are not over. -/
def form : Read (Option Form) := do
  allowance.semicolons
  match ← kind with
  | .eof => return none
  | .funcWord => return some (.definition (← allowance.definition))
  | _ => return some (.expression (← allowance.freeExpression))

/-- Reads forms up to the end of the tokens. -/
def forms : Read (List Form) := allowance.many allowance.form

end Allowance

namespace Read

variable {tokens : List Token} {near reach : Nat} {allowance : Allowance}

/-! ## §2. Constructs over two levels. -/

/-- What a goal starts from: a production that its first token picks starts before the end. -/
def Entry (tokens : List Token) (goal : Goal) (near : Nat) (s : ReadState) : Prop :=
  Ahead tokens near s
    ∧ ∀ production, goal = .read production →
        production ∉ [.expression, .unary, .primary, .block] → s.cursor.kind ≠ .eof

/-- To climb can be asked for anywhere. -/
theorem entry_climb {s : ReadState} {loosest : UInt32} {left : Expr} (h : Ahead tokens near s) :
    Entry tokens (.climb loosest left) near s := by
  refine ⟨h, fun production heq => ?_⟩
  cases heq

/-- So can a production that no token picks. -/
theorem entry_general {s : ReadState} {production : Production}
    (hgeneral : production ∈ [.expression, .unary, .primary, .block]) (h : Ahead tokens near s) :
    Entry tokens (.read production) near s := by
  refine ⟨h, fun other heq hnot => ?_⟩
  cases heq
  exact absurd hgeneral hnot

/-- The token for the end picks no production. -/
theorem entry_picked {s : ReadState} {production : Production}
    (hpicked : Choice.standard s.cursor.kind = some production) (h : Ahead tokens near s) :
    Entry tokens (.read production) near s := by
  refine ⟨h, fun _ _ _ hend => ?_⟩
  rw [hend] at hpicked
  cases hpicked

/-- Two levels that do the same from states with so few tokens left that both of them reach
through. -/
structure Settled (tokens : List Token) (reach : Nat) (level level' : Level) : Prop where
  /-- The language chooses in the first one. -/
  choice : level.choice = .standard
  /-- And in the second one. -/
  choice' : level'.choice = .standard
  /-- What is asked of the first one is done by the second one. -/
  below : ∀ goal {near}, levels goal near ≤ reach →
    Settles (Entry tokens goal near) (fun _ => Ahead tokens (afterGoal goal near))
      (level.below goal) (level'.below goal)

namespace Settled

variable {level level' : Level}

/-- What no token picks can be asked for anywhere. -/
theorem general (settled : Settled tokens reach level level') (production : Production)
    (h : production ∈ [.expression, .unary, .primary, .block]) (hreach : 2 * near ≤ reach) :
    Settles (Ahead tokens near) (fun _ => Ahead tokens (near - 1))
      (level.below (.read production)) (level'.below (.read production)) := by
  have hlevels : levels (.read production) near ≤ reach := by
    rw [levels, if_pos h]
    exact hreach
  exact (settled.below (.read production) hlevels).mono (entry_general h) id

theorem expression (settled : Settled tokens reach level level') (h : 2 * near ≤ reach) :
    Settles (Ahead tokens near) (fun _ => Ahead tokens (near - 1)) level.expression
      level'.expression := settled.general .expression (by decide) h

theorem unary (settled : Settled tokens reach level level') (h : 2 * near ≤ reach) :
    Settles (Ahead tokens near) (fun _ => Ahead tokens (near - 1)) level.unary level'.unary :=
  settled.general .unary (by decide) h

theorem block (settled : Settled tokens reach level level') (h : 2 * near ≤ reach) :
    Settles (Ahead tokens near) (fun _ => Ahead tokens (near - 1)) level.block level'.block :=
  settled.general .block (by decide) h

end Settled

section Constructs

variable {level level' : Level} (closed : Closed tokens)
variable (settled : Settled tokens reach level level')

/-- Fewer tokens are left than before, or as many. -/
theorem Ahead.weaken {s : ReadState} (h : Ahead tokens (near - 1) s) : Ahead tokens near s :=
  h.mono (Nat.sub_le near 1)

include settled in
/-- At the end there is no primary expression. -/
theorem settles_primary (h : 2 * near ≤ reach + 1) :
    Settles (Ahead tokens near) (fun _ => Ahead tokens (near - 1)) (primary level)
      (primary level') := by
  refine .kind fun kind => ?_
  rw [settled.choice, settled.choice']
  cases hchoice : Choice.standard kind with
  | none => exact .failFound _
  | some production =>
      have hlevels : levels (.read production) near ≤ reach := by
        rw [levels, if_neg (specific_of_standard hchoice)]
        omega
      refine (settled.below (.read production) hlevels).mono (fun hs => ?_) id
      exact entry_picked (hs.2 ▸ hchoice) hs.1

include closed settled

theorem settles_unary (h : 2 * near ≤ reach + 1) :
    Settles (Ahead tokens near) (fun _ => Ahead tokens (near - 1)) (unary level)
      (unary level') := by
  refine .kind fun kind => .ite (fun hkind => .text fun text => ?_) fun _ =>
    (settles_primary settled h).mono And.left id
  cases signOf? text with
  | none => exact .failFound _
  | some sign =>
      refine .bind (settles_advance closed (hkind ▸ nofun)) fun _ =>
        .bind (settled.unary ?_) fun _ => .pure Ahead.weaken
      omega

omit closed in
/-- The right side of an operator, behind at least one token. -/
theorem settles_rightSide (precedence : UInt32) (h : 2 * near ≤ reach) :
    Settles (Ahead tokens near) (fun _ => Ahead tokens near) (rightSide level precedence)
      (rightSide level' precedence) := by
  refine .bind (settled.unary h) fun operand =>
    .view (tighterAhead · precedence)
      (f := fun tighter =>
        if tighter then level.below (.climb (precedence + 1) operand) else pure operand)
      (g := fun tighter =>
        if tighter then level'.below (.climb (precedence + 1) operand) else pure operand)
      (fun _ => rfl) (fun _ => rfl) fun tighter => .ite (fun _ => ?_) fun _ => .pure fun hs =>
        hs.1.weaken
  refine (settled.below (.climb (precedence + 1) operand) ?_).mono (fun hs => entry_climb hs.1)
    Ahead.weaken
  rw [levels]
  omega

theorem settles_link (loosest : UInt32) (h : 2 * near ≤ reach + 1) :
    Settles (Ahead tokens near) (AfterItem tokens (fun _ => True) near)
      (link level loosest) (link level' loosest) := by
  refine .of_run fun s hs => ⟨_, _, run_get_bind _ s, run_get_bind _ s, ?_⟩
  have hstay : Settles (· = s) (AfterItem tokens (fun _ => True) near)
      (pure none : Read (Option (String × Expr))) (pure none) :=
    .pure fun heq => ⟨heq ▸ hs, trivial⟩
  cases hahead : infixAhead? s with
  | none => exact hstay
  | some ahead =>
      obtain ⟨operator, hoperator, hlookup⟩ := Option.bind_eq_some_iff.1 hahead
      obtain ⟨precedence, -, rfl⟩ := Option.map_eq_some_iff.1 hlookup
      refine .ite (fun _ => ?_) fun _ => hstay
      refine .bind ((settles_operator closed operator).mono (fun heq => heq ▸ ⟨hs, hoperator⟩) id)
        fun _ => .bind (settles_rightSide settled precedence ?_) fun _ => .pure id
      omega

theorem settles_climb (ample : allowance.Ample) (loosest : UInt32) (left : Expr)
    (h : 2 * near ≤ reach + 1) :
    Settles (Ahead tokens near) (fun _ => Ahead tokens near) (climb level loosest left)
      (allowance.climb level' loosest left) :=
  .bind (settles_many ample fun n hn => settles_link closed settled loosest (by omega)) fun _ =>
    .pure And.left

theorem settles_expression (ample : allowance.Ample) (h : 2 * near ≤ reach + 1) :
    Settles (Ahead tokens near) (fun _ => Ahead tokens (near - 1)) (Grammar.expression level)
      (allowance.expression level') :=
  .bind (settles_unary closed settled h) fun _ => settles_climb closed settled ample 0 _ (by omega)

omit settled in
theorem settles_number :
    Settles (Ahead tokens near) (fun _ => Ahead tokens (near - 1)) Grammar.number Grammar.number :=
  .bind (settles_numberWith closed _ _) fun _ => .pure id

theorem settles_paren (h : 2 * near ≤ reach + 2) :
    Settles (fun s => Ahead tokens near s ∧ s.cursor.kind ≠ .eof)
      (fun _ => Ahead tokens (near - 1)) (paren level) (paren level') :=
  .bind (settles_leave closed) fun _ => .bind (settled.expression (by omega)) fun _ =>
    .bind (settles_takeOr closed .closeParen nofun _) fun _ => .pure fun hs => hs.weaken.weaken

omit settled in
/-- A pair of brackets that is there takes a token. -/
theorem settles_bracket {α : Type} (empty : Fault) {content content' : Read α}
    (h : Settles (Ahead tokens (near - 1)) (fun _ => Ahead tokens (near - 1)) content content') :
    Settles (Ahead tokens near) (AfterItem tokens (fun _ => True) near) (bracket empty content)
      (bracket empty content') := by
  refine settles_taken_ite closed .openBracket nofun
    (.kind fun kind => .ite (fun _ => .fail _) fun _ => ?_) (.pure fun hs => ⟨hs, trivial⟩)
  exact .bind (h.mono And.left id) fun value =>
    .bind (settles_take closed .closeBracket nofun _) fun _ => .pure Ahead.weaken

omit settled in
theorem settles_array (ample : allowance.Ample) :
    Settles (fun s => Ahead tokens near s ∧ s.cursor.kind ≠ .eof)
      (fun _ => Ahead tokens (near - 1)) Grammar.array allowance.array := by
  refine .bind (settles_leave closed) fun _ => .bind (settles_identifier closed) fun name =>
    .kind fun kind => .ite (fun _ => ?_) fun _ => .fail _
  refine .bind ((settles_many ample fun n hn => settles_bracket closed _ ?_).mono And.left id)
    fun _ => .pure fun hs => hs.1.weaken
  exact (settles_numberWith closed _ _).mono id Ahead.weaken

theorem settles_named (ample : allowance.Ample) (h : 2 * near ≤ reach + 2) :
    Settles (Ahead tokens near) (fun _ => Ahead tokens (near - 1)) (named level)
      (allowance.named level') := by
  refine .bind (settles_identifier closed) fun name => .kind fun kind => ?_
  cases kind with
  | openBracket =>
      refine .bind ((settles_many ample fun n hn => settles_bracket closed _ ?_).mono And.left id)
        fun _ => .pure And.left
      exact (settled.expression (by omega)).mono id Ahead.weaken
  | openParen =>
      refine .bind (settles_advance closed nofun) fun _ =>
        .bind (settles_separated closed ample fun n hn => ?_) fun _ => .pure Ahead.weaken
      exact (settled.expression (by omega)).mono id Ahead.weaken
  | _ => exact .pure And.left

omit closed in
theorem settles_statement (h : 2 * near ≤ reach) :
    Settles (Ahead tokens near) (AfterItem tokens (fun _ => True) near) (statement level)
      (statement level') := by
  have hstatement : Settles (Ahead tokens near) (AfterItem tokens (fun _ => True) near)
      (do let statement ← level.block; let _ ← taken .semicolon; return some statement)
      (do let statement ← level'.block; let _ ← taken .semicolon; return some statement) := by
    refine .bind (settled.block h) fun statement => .bind (.keep ?_) fun there => .pure id
    exact (alike_ahead tokens (near - 1)).taken_inStep .semicolon |>.keeps
  refine .kind fun kind => ?_
  cases kind with
  | closeBlock => exact .pure fun hs => ⟨hs.1, trivial⟩
  | eof => exact .fail _
  | _ => exact hstatement.mono And.left id

/-- A block is read over the next level, a single expression over this one. -/
theorem settles_block (ample : allowance.Ample) (h : 2 * near ≤ reach + 1) :
    Settles (Ahead tokens near) (fun _ => Ahead tokens (near - 1)) (Grammar.block level)
      (allowance.block level') := by
  refine settles_taken_ite closed .openBlock nofun ?_ (settles_expression closed settled ample h)
  refine .bind (settles_many ample fun n hn => settles_statement settled (by omega))
    fun statements => .bind ((Settles.keep ?_).mono And.left id) fun _ => .pure id
  exact (alike_ahead tokens (near - 1)).advance_inStep.keeps

omit settled in
theorem settles_optionally (mark : Kind) (solid : mark ≠ .eof) {part part' : Read Expr}
    (h : Settles (Ahead tokens near) (fun _ => Ahead tokens near) part part') :
    Settles (Ahead tokens near) (fun _ => Ahead tokens near) (optionally mark part)
      (optionally mark part') :=
  settles_taken_ite closed mark solid
    (.bind (h.mono Ahead.weaken id) fun _ => .pure id) (.pure id)

theorem settles_branch (h : 2 * near ≤ reach + 2) :
    Settles (fun s => Ahead tokens near s ∧ s.cursor.kind ≠ .eof)
      (fun _ => Ahead tokens (near - 1)) (branch level) (branch level') := by
  have hblock {n : Nat} (hn : n ≤ near - 1) :
      Settles (Ahead tokens n) (fun _ => Ahead tokens n) level.block level'.block :=
    (settled.block (by omega)).mono id Ahead.weaken
  refine .bind (settles_leave closed) fun _ => .bind (settled.expression (by omega)) fun _ =>
    .bind (settles_take closed .thenWord nofun _) fun _ => .bind (hblock (by omega)) fun _ =>
      .bind (settles_optionally closed .elseWord nofun (hblock (by omega))) fun _ => .pure fun hs =>
        hs.weaken.weaken

omit closed settled in
theorem settles_equalsSign :
    Settles (Ahead tokens near) (fun _ => Ahead tokens near) equalsSign equalsSign :=
  .keep (alike_ahead tokens near).equalsSign_inStep.keeps

theorem settles_countLoop (h : 2 * near ≤ reach + 2) :
    Settles (fun s => Ahead tokens near s ∧ s.cursor.kind ≠ .eof)
      (fun _ => Ahead tokens (near - 1)) (countLoop level) (countLoop level') := by
  have hexpression {n : Nat} (hn : n ≤ near - 1) :
      Settles (Ahead tokens n) (fun _ => Ahead tokens n) level.expression level'.expression :=
    (settled.expression (by omega)).mono id Ahead.weaken
  refine .bind (settles_leave closed) fun _ => .bind (settles_identifier closed) fun _ =>
    .bind settles_equalsSign fun _ => .bind (hexpression (by omega)) fun _ =>
      .bind (settles_take closed .comma nofun _) fun _ => .bind (hexpression (by omega)) fun _ =>
        .bind (settles_optionally closed .comma nofun (hexpression (by omega))) fun _ =>
          .bind (settled.block (by omega)) fun _ => .pure fun hs => hs.weaken.weaken.weaken

theorem settles_whileLoop (h : 2 * near ≤ reach + 2) :
    Settles (fun s => Ahead tokens near s ∧ s.cursor.kind ≠ .eof)
      (fun _ => Ahead tokens (near - 1)) (whileLoop level) (whileLoop level') :=
  .bind (settles_leave closed) fun _ => .bind (settled.expression (by omega)) fun _ =>
    .bind (settled.block (by omega)) fun _ => .pure fun hs => hs.weaken.weaken

theorem settles_repeatLoop (h : 2 * near ≤ reach + 2) :
    Settles (fun s => Ahead tokens near s ∧ s.cursor.kind ≠ .eof)
      (fun _ => Ahead tokens (near - 1)) (repeatLoop level) (repeatLoop level') :=
  .bind (settles_leave closed) fun _ => .bind (settles_take closed .openParen nofun _) fun _ =>
    .bind (settled.expression (by omega)) fun _ =>
      .bind (settles_takeOr closed .closeParen nofun _) fun _ =>
        .bind (settled.block (by omega)) fun _ => .pure fun hs =>
          hs.weaken.weaken.weaken.weaken

/-- Over levels that settle what they reach, the next ones reach further. -/
theorem settles_pursue (ample : allowance.Ample) (goal : Goal)
    (h : levels goal near ≤ reach + 1) :
    Settles (Entry tokens goal near) (fun _ => Ahead tokens (afterGoal goal near))
      (pursue level goal) (allowance.pursue level' goal) := by
  cases goal with
  | climb loosest left => exact (settles_climb closed settled ample loosest left h).mono And.left id
  | read production =>
      have hsolid {s : ReadState} (hs : Entry tokens (.read production) near s)
          (hnot : production ∉ [.expression, .unary, .primary, .block]) :
          Ahead tokens near s ∧ s.cursor.kind ≠ .eof := ⟨hs.1, hs.2 production rfl hnot⟩
      unfold levels at h
      cases production with
      | expression => exact (settles_expression closed settled ample h).mono And.left id
      | unary => exact (settles_unary closed settled h).mono And.left id
      | primary => exact (settles_primary settled h).mono And.left id
      | block => exact (settles_block closed settled ample h).mono And.left id
      | number => exact (settles_number closed).mono And.left id
      | identifier =>
          exact (settles_named closed settled ample (by simp at h; omega)).mono And.left id
      | array => exact (settles_array closed ample).mono (hsolid · (by decide)) id
      | paren =>
          exact (settles_paren closed settled (by simp at h; omega)).mono (hsolid · (by decide)) id
      | branch =>
          exact (settles_branch closed settled (by simp at h; omega)).mono (hsolid · (by decide)) id
      | countLoop =>
          exact (settles_countLoop closed settled (by simp at h; omega)).mono
            (hsolid · (by decide)) id
      | whileLoop =>
          exact (settles_whileLoop closed settled (by simp at h; omega)).mono
            (hsolid · (by decide)) id
      | repeatLoop =>
          exact (settles_repeatLoop closed settled (by simp at h; omega)).mono
            (hsolid · (by decide)) id

end Constructs

/-- Levels do the same as far as both depths reach. -/
theorem settles_descend (closed : Closed tokens) (ample : allowance.Ample) {depth depth' : Nat}
    (hdepth : reach ≤ depth) (hdepth' : reach ≤ depth') :
    Settled tokens reach ⟨.standard, descend .standard depth⟩
      ⟨.standard, allowance.descend depth'⟩ := by
  induction reach generalizing depth depth' with
  | zero =>
      refine ⟨rfl, rfl, fun goal near h => .never fun hs => ?_⟩
      -- every goal takes a level, so there is no state to start from
      have hzero : near = 0 := by
        cases goal with
        | climb => rw [levels] at h; omega
        | read production =>
            rw [levels] at h
            split at h <;> omega
      subst hzero
      exact Ahead.not_zero hs.1
  | succ reach ih =>
      obtain ⟨depth, rfl⟩ := Nat.exists_eq_add_one.2 (show 0 < depth by omega)
      obtain ⟨depth', rfl⟩ := Nat.exists_eq_add_one.2 (show 0 < depth' by omega)
      have hlevels := ih (Nat.le_of_succ_le_succ hdepth) (Nat.le_of_succ_le_succ hdepth')
      exact ⟨rfl, rfl, fun goal near h => settles_pursue closed hlevels ample goal h⟩

/-! ## §3. Headings and forms. -/

section Programs

variable (closed : Closed tokens) (ample : allowance.Ample)
include closed ample

/-- Reading has levels enough for the tokens that are left. -/
theorem settles_read (production : Production) :
    Settles (Entry tokens (.read production) near) (fun _ => Ahead tokens (near - 1))
      (read .standard production) (allowance.read production) := by
  refine .of_run fun s hs => ⟨_, _,
    run_cursor_bind (fun cursor => descend .standard (depthFor cursor) _) s,
    run_cursor_bind (fun cursor => allowance.descend (allowance.levels cursor) _) s, ?_⟩
  obtain ⟨hnear, hahead⟩ := hs.1.here
  have hsettled : Settled tokens (2 * (s.cursor.tokens.length + 1))
      ⟨.standard, descend .standard (depthFor s.cursor)⟩
      ⟨.standard, allowance.descend (allowance.levels s.cursor)⟩ := by
    apply settles_descend closed ample
    · unfold depthFor
      omega
    · have hlevels := ample.levels s.cursor
      omega
  have hentry : Entry tokens (.read production) (s.cursor.tokens.length + 1) s := ⟨hahead, hs.2⟩
  refine (hsettled.below (.read production) ?_).mono (fun heq => heq ▸ hentry) fun hafter =>
    hafter.mono (Nat.sub_le_sub_right hnear 1)
  rw [levels]
  split <;> omega

/-- A block can stand anywhere. -/
theorem settles_readBlock :
    Settles (Ahead tokens near) (fun _ => Ahead tokens (near - 1)) (read .standard .block)
      (allowance.read .block) :=
  (settles_read closed ample .block).mono (entry_general (by decide)) id

theorem settles_freeExpression :
    Settles (Ahead tokens near) (fun _ => Ahead tokens (near - 1)) (freeExpression .standard)
      allowance.freeExpression :=
  .bind (settles_readBlock closed ample) fun _ => .pure id

theorem settles_params :
    Settles (Ahead tokens near) (fun _ => Ahead tokens near) params allowance.params :=
  .bind (settles_separated closed ample fun _ _ =>
    (settles_slot closed).mono id Ahead.weaken) fun _ => .pure id

theorem settles_heading :
    Settles (Ahead tokens near) (fun _ => Ahead tokens near) heading allowance.heading := by
  refine .bind (.keep (alike_ahead tokens near).subject_inStep.keeps) fun subject =>
    .bind (settles_take closed .openParen nofun _) fun _ =>
      .bind (settles_params closed ample) fun names => ?_
  cases subject.operands? with
  | none => exact .pure Ahead.weaken
  | some operands => exact .ite (fun _ => .pure Ahead.weaken) fun _ => .fail _

/-- A definition takes its keyword. -/
theorem settles_definition :
    Settles (Ahead tokens near) (fun _ => Ahead tokens (near - 1)) (definition .standard)
      allowance.definition :=
  .bind (settles_take closed .funcWord nofun _) fun _ => .bind (settles_heading closed ample) fun _ =>
    .bind (settles_readBlock closed ample) fun _ => .pure Ahead.weaken

/-- Where there is no form, the tokens are at their end. -/
theorem settles_form :
    Settles (Ahead tokens near) (AfterItem tokens (fun s => s.cursor.kind = .eof) near)
      (form .standard) allowance.form := by
  refine .bind (settles_semicolons closed ample) fun _ => .kind fun kind => ?_
  cases kind with
  | eof => exact .pure id
  | funcWord =>
      exact .bind ((settles_definition closed ample).mono And.left id) fun _ => .pure id
  | _ => exact .bind ((settles_freeExpression closed ample).mono And.left id) fun _ => .pure id

/-- A program is read up to the end. -/
theorem settles_forms :
    Settles (Ahead tokens near) (fun _ s => Ahead tokens near s ∧ s.cursor.kind = .eof)
      (forms .standard) allowance.forms :=
  settles_many ample fun _ _ => settles_form closed ample

end Programs

end Read

/-! ## §4. Where reading ends. -/

/-- A state in which reading ends that took a token at least. -/
structure Further (s t : ReadState) : Prop extends Onward s.cursor.tokens t.cursor.tokens where
  /-- Fewer tokens are left. -/
  fewer : t.cursor.tokens.length < s.cursor.tokens.length

/-- Reading from a state ends without a bound: it does the same within all ample bounds,
whatever it would stop with at one of them. -/
def EndsByItself {α : Type} (s : ReadState) (p : Read α) (within : Allowance → Read α) : Prop :=
  ∀ allowance : Allowance, allowance.Ample → (within allowance).run s = p.run s

variable {α : Type} {s t : ReadState}

/-- A state is ahead of one more token than it has. -/
theorem ahead_start (s : ReadState) : Ahead s.cursor.tokens (s.cursor.tokens.length + 1) s :=
  ⟨.refl _, Nat.lt_succ_self _⟩

/-- What takes a token from every state leads further. -/
theorem further_of_ahead (h : Ahead s.cursor.tokens (s.cursor.tokens.length + 1 - 1) t) :
    Further s t := ⟨h.toOnward, h.near⟩

/-- What settles from a state ends by itself there. -/
theorem endsByItself_of_settles {before : ReadState → Prop} {after : α → ReadState → Prop}
    {p : Read α} {within : Allowance → Read α}
    (h : ∀ allowance : Allowance, allowance.Ample → Settles before after p (within allowance))
    (hs : before s) : EndsByItself s p within :=
  fun allowance ample => ((h allowance ample).same hs).symm

/-- What is left at the end is the last token, if no other one is of its kind. -/
theorem length_le_one {tokens rest : List Token} {file : String} (h : rest <:+ tokens)
    (hend : (Cursor.mk file rest).kind = .eof)
    (sole : ∀ token ∈ tokens.dropLast, token.kind ≠ .eof) : rest.length ≤ 1 := by
  obtain ⟨before, rfl⟩ := h
  cases rest with
  | nil => exact Nat.zero_le 1
  | cons first rest =>
      cases rest with
      | nil => exact Nat.le_refl 1
      | cons next rest =>
          refine absurd hend (sole first ?_)
          rw [List.dropLast_append_cons, List.dropLast_cons_cons]
          exact List.mem_append_right before List.mem_cons_self

/-- **Reading ends, and takes a token wherever it gives a value.**  From every state whose
tokens end with the token for the end: a program is read without a bound being reached, and
so are a block, an expression, an operand, a production that the first token picks, a
definition and a form; each of these leads further when it gives a value, and does not pass
the last token; nothing that can be read by itself moves back; and a program is read up to a
token for the end, which is the last one if there is no other. -/
theorem reading_ends (s : ReadState) (closed : Closed s.cursor.tokens) :
    EndsByItself s (forms .standard) Allowance.forms
    ∧ (∀ production, production ∈ [.expression, .unary, .primary, .block]
          ∨ Choice.standard s.cursor.kind = some production →
        EndsByItself s (read .standard production) (Allowance.read · production)
          ∧ ∀ expr t, Gives (read .standard production) s expr t → Further s t)
    ∧ (EndsByItself s (definition .standard) Allowance.definition
        ∧ ∀ function t, Gives (definition .standard) s function t → Further s t)
    ∧ (EndsByItself s (form .standard) Allowance.form
        ∧ ∀ found t, Gives (form .standard) s (some found) t → Further s t)
    ∧ (∀ {α : Type} {p : Read α}, Public p →
        Leaves (fun t => Onward s.cursor.tokens t.cursor.tokens) p s)
    ∧ ∀ found t, Gives (forms .standard) s found t → t.cursor.kind = .eof
        ∧ ((∀ token ∈ s.cursor.tokens.dropLast, token.kind ≠ .eof) →
          t.cursor.tokens.length ≤ 1) := by
  have hstart := ahead_start s
  have ample := Allowance.ample_least ⟨.unmatchedParen, Position.nowhere⟩
  refine ⟨?_, ?_, ⟨?_, ?_⟩, ⟨?_, ?_⟩, ?_, ?_⟩
  · exact endsByItself_of_settles (fun _ => settles_forms closed) hstart
  · intro production hproduction
    have hentry : Entry s.cursor.tokens (.read production) (s.cursor.tokens.length + 1) s := by
      rcases hproduction with hgeneral | hpicked
      · exact entry_general hgeneral hstart
      · exact entry_picked hpicked hstart
    refine ⟨endsByItself_of_settles (fun _ ample => settles_read closed ample production) hentry,
      fun expr t hgives => ?_⟩
    exact further_of_ahead ((settles_read closed ample production).gives hentry hgives)
  · exact endsByItself_of_settles (fun _ => settles_definition closed) hstart
  · intro function t hgives
    exact further_of_ahead ((settles_definition closed ample).gives hstart hgives)
  · exact endsByItself_of_settles (fun _ => settles_form closed) hstart
  · intro found t hgives
    exact further_of_ahead ((settles_form closed ample).gives hstart hgives)
  · intro α p hpublic
    exact hpublic.keeps (alike_both Onward.advance fun _ _ h => h) (.refl _)
  · intro found t hgives
    obtain ⟨hahead, hend⟩ := (settles_forms closed ample).gives hstart hgives
    exact ⟨hend, length_le_one hahead.suffix hend⟩

/-- A symbol that promises a second character, and an end in the middle of the tokens in its
place: the operator takes both, and the name behind them is its right side. -/
theorem ends_behind_torn_operator :
    ∃ s t : ReadState,
      s.cursor.tokens.map Token.kind = [.identifier, .symbol, .eof, .identifier, .eof]
      ∧ Closed s.cursor.tokens
      ∧ Gives (forms .standard) s
          [.expression ⟨Prototype.anonymous, .binary "**" (.scalar "a") (.scalar "b")⟩] t
      ∧ t.cursor.tokens.map Token.kind = [.eof]
      ∧ (Allowance.least ⟨.unmatchedParen, Position.nowhere⟩).forms.run s
          = (forms .standard).run s
      ∧ Further s t ∧ t.cursor.kind = .eof := by
  let tokens : List Token := [⟨.identifier, "a", 0, 1, some '*'⟩, ⟨.symbol, "*", 1, 2, some '*'⟩,
    ⟨.eof, "EOF", 2, 2, none⟩, ⟨.identifier, "b", 2, 3, none⟩, ⟨.eof, "EOF", 3, 3, none⟩]
  have closed : Closed tokens := by
    intro last hlast
    cases hlast
    rfl
  obtain ⟨hends, hreads, -, -, -, hend⟩ := reading_ends ⟨⟨"sel", tokens⟩, .standard⟩ closed
  have hforms : Gives (forms .standard) ⟨⟨"sel", tokens⟩, .standard⟩
      [.expression ⟨Prototype.anonymous, .binary "**" (.scalar "a") (.scalar "b")⟩]
      ⟨⟨"sel", tokens.drop 4⟩, .standard⟩ := by
    unfold Gives
    rfl
  have hexpression : Gives (read .standard .expression) ⟨⟨"sel", tokens⟩, .standard⟩
      (.binary "**" (.scalar "a") (.scalar "b")) ⟨⟨"sel", tokens.drop 4⟩, .standard⟩ := by
    unfold Gives
    rfl
  exact ⟨_, _, rfl, closed, hforms, rfl, hends _ (Allowance.ample_least _),
    (hreads .expression (.inl (by decide))).2 _ _ hexpression, (hend _ _ hforms).1⟩

end Fixity
