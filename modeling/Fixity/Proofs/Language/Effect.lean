/-
  Fixity.Proofs.Language.Effect
  ────────────────────────────────
  **WHAT READING DOES TO THE TABLE OF OPERATORS.**

  Only the head of a definition writes to the table, and it does so in its middle: as
  soon as the spelling and the precedence of an operator with two operands are read.
  All that comes before and after leaves the table alone, whether it is read or fails.

  So a program leaves the table with what its forms declare, in order.  A program that
  fails leaves it with what the forms before the failure declare, and with one operator
  more if the failing form is a definition that came so far.

  Nothing is ever taken out, and whatever is written has a precedence from 1 to 18 and is
  spelled as one symbol or as two operator characters.

  Main results: `heading_writes`, `form_writes` (what one form does), `Completed.table`,
  `completed_of_fails` (what a run does) and `table_effect`.
-/
import Fixity.Proofs.Language.Lexicon
import Fixity.Proofs.Language.Sequence
import Fixity.Proofs.Language.Views
import Fixity.Proofs.Reading.Invariant
import Fixity.Session

namespace Fixity

open Grammar Read

/-! ## §1. What a form writes. -/

namespace Cursor

/-- What the head of a definition writes: the operator with two operands, once its
spelling is read and its precedence is read or left out. -/
def announced? (cursor : Cursor) : Option Operator.Entry :=
  if cursor.kind = .binaryWord then
    cursor.advance.operator?.bind fun operator =>
      let after := cursor.advance.advanceBy operator.width
      if after.kind = .number then
        (after.number?.bind precedence?).map fun precedence => (operator.spelling, precedence)
      else some (operator.spelling, Operator.tightest)
  else none

/-- What the form at the cursor writes: what its head does, if it is a definition. -/
def written? (cursor : Cursor) : Option Operator.Entry :=
  let start : Cursor := { cursor with tokens := dropSemicolons cursor.tokens }
  if start.kind = .funcWord then start.advance.announced? else none

end Cursor

namespace Language

variable {s t u : ReadState} {error : Error}

theorem gives_declaredPrecedence {precedence : UInt32}
    (h : Gives declaredPrecedence s precedence t) :
    t.table = s.table
      ∧ (if s.cursor.kind = .number then s.cursor.number?.bind precedence?
          else some Operator.tightest) = some precedence := by
  simp only [declaredPrecedence, gives_bind, gives_kind, gives_ite, gives_numberWith,
    gives_pure] at h
  obtain ⟨_, _, ⟨rfl, rfl⟩, ⟨hkind, hvalue, rfl⟩ | ⟨hkind, rfl, rfl⟩⟩ := h
  · exact ⟨rfl, by rw [if_pos hkind, hvalue]⟩
  · exact ⟨rfl, by rw [if_neg hkind]⟩

theorem fails_declaredPrecedence (h : Fails declaredPrecedence s error t) :
    t.table = s.table ∧ s.cursor.kind = .number ∧ s.cursor.number?.bind precedence? = none := by
  simp only [declaredPrecedence, fails_bind, fails_kind, gives_kind, fails_ite, fails_numberWith,
    fails_pure, and_false, or_false, false_or] at h
  obtain ⟨_, _, ⟨rfl, rfl⟩, hkind, hnone, -, rfl⟩ := h
  exact ⟨rfl, hkind, hnone⟩

/-- What is defined writes what its head announces, and no more. -/
theorem gives_subject {subject : Subject} (h : Gives Grammar.subject s subject t) :
    t.table = s.table.declareAll s.cursor.announced?.toList
      ∧ subject.entries = s.cursor.announced?.toList := by
  simp only [Grammar.subject, gives_bind, gives_kind] at h
  obtain ⟨_, _, ⟨rfl, rfl⟩, h⟩ := h
  unfold Cursor.announced?
  split at h
  · next hkind =>
    rw [hkind, if_neg (by decide)]
    simp only [gives_bind, gives_identifier, gives_pure] at h
    obtain ⟨_, _, ⟨-, rfl⟩, rfl, rfl⟩ := h
    exact ⟨rfl, rfl⟩
  · next hkind =>
    rw [hkind, if_neg (by decide)]
    simp only [unarySubject, gives_bind, gives_advance, gives_kind, gives_ite, gives_text,
      gives_fail, gives_failFound, gives_pure, and_false, or_false] at h
    obtain ⟨_, _, rfl, _, _, ⟨rfl, rfl⟩, -, _, _, ⟨rfl, rfl⟩, -, _, _, rfl, rfl, rfl⟩ := h
    exact ⟨rfl, rfl⟩
  · next hkind =>
    rw [if_pos hkind]
    simp only [binarySubject, gives_bind, gives_advance, gives_cursor] at h
    obtain ⟨_, _, rfl, _, _, ⟨rfl, rfl⟩, h⟩ := h
    split at h
    · simp at h
    · next operator hoperator =>
      simp only [gives_bind, gives_advanceBy, gives_declare, gives_pure] at h
      obtain ⟨_, _, rfl, precedence, _, hprecedence, _, _, rfl, rfl, rfl⟩ := h
      obtain ⟨htable, hvalue⟩ := gives_declaredPrecedence hprecedence
      dsimp only at hoperator hvalue htable ⊢
      rw [hoperator, Option.bind_some, htable]
      split at hvalue
      · next hnumber =>
        rw [if_pos hnumber, hvalue]
        exact ⟨rfl, rfl⟩
      · next hnumber =>
        rw [if_neg hnumber, Option.some.inj hvalue]
        exact ⟨rfl, rfl⟩
  · simp at h

/-- A head that fails before anything is defined announces nothing. -/
theorem fails_subject (h : Fails Grammar.subject s error t) :
    t.table = s.table ∧ s.cursor.announced? = none := by
  simp only [Grammar.subject, fails_bind, fails_kind, gives_kind, false_or] at h
  obtain ⟨_, _, ⟨rfl, rfl⟩, h⟩ := h
  unfold Cursor.announced?
  split at h
  · next hkind =>
    rw [hkind, if_neg (by decide)]
    simp only [fails_bind, fails_identifier, fails_pure, and_false, exists_false, or_false] at h
    exact ⟨by rw [h.2.2], rfl⟩
  · next hkind =>
    rw [hkind, if_neg (by decide)]
    simp only [unarySubject, fails_bind, fails_advance, gives_advance, fails_kind, gives_kind,
      fails_ite, fails_text, gives_text, fails_fail, fails_failFound, fails_pure, and_false,
      exists_false, or_false, false_or] at h
    obtain ⟨_, _, rfl, _, _, ⟨rfl, rfl⟩, ⟨-, _, _, ⟨rfl, rfl⟩, -, -, rfl⟩ | ⟨-, -, rfl⟩⟩ := h
    · exact ⟨rfl, rfl⟩
    · exact ⟨rfl, rfl⟩
  · next hkind =>
    rw [if_pos hkind]
    simp only [binarySubject, fails_bind, fails_advance, gives_advance, fails_cursor, gives_cursor,
      false_or] at h
    obtain ⟨_, _, rfl, _, _, ⟨rfl, rfl⟩, h⟩ := h
    dsimp only at h
    split at h
    · next hoperator =>
      rw [hoperator]
      exact ⟨by rw [(fails_failFound.1 h).2], rfl⟩
    · next operator hoperator =>
      simp only [fails_bind, fails_advanceBy, gives_advanceBy, fails_declare, fails_pure, and_false,
        exists_false, or_false, false_or] at h
      obtain ⟨_, _, rfl, h⟩ := h
      obtain ⟨htable, hnumber, hnone⟩ := fails_declaredPrecedence h
      dsimp only at hnumber hnone htable ⊢
      rw [hoperator, Option.bind_some, if_pos hnumber, hnone]
      exact ⟨htable, rfl⟩
  · next hname hunary hbinary =>
    rw [if_neg hbinary]
    exact ⟨by rw [(fails_failFound.1 h).2], rfl⟩

/-- A head writes what it announces, whatever becomes of its parameters. -/
theorem heading_writes (s : ReadState) :
    Leaves (fun t => t.table = s.table.declareAll s.cursor.announced?.toList) heading s := by
  refine leaves_bind (fun {subject t} h => ?_) fun h => ?_
  · rw [← (gives_subject h).1]
    -- nothing behind the subject touches the table
    have abreast := abreast_table t.table
    refine InStep.keeps (.bind (abreast.take_inStep _ _) fun _ =>
      .bind abreast.params_inStep fun names => ?_) rfl
    cases subject.operands? with
    | none => exact .pure _
    | some operands => exact .ite (.pure _) (abreast.fail_inStep _)
  · obtain ⟨htable, hnone⟩ := fails_subject h
    rw [hnone]
    exact htable

/-- The prototype that a head gives declares what the head announces. -/
theorem entries_of_heading {prototype : Prototype} (h : Gives heading s prototype t) :
    prototype.entries = s.cursor.announced?.toList := by
  simp only [heading, gives_bind] at h
  obtain ⟨subject, _, hsubject, _, _, -, names, _, -, h⟩ := h
  rw [← (gives_subject hsubject).2]
  split at h
  · next operands hoperands =>
    simp only [gives_ite, gives_pure, gives_fail, and_false, or_false] at h
    obtain ⟨hfits, rfl, -⟩ := h
    refine entries_prototype fun n hn => ?_
    rw [hoperands] at hn
    cases hn
    exact hfits
  · next hoperands =>
    obtain ⟨rfl, -⟩ := gives_pure.1 h
    refine entries_prototype fun n hn => ?_
    rw [hoperands] at hn
    cases hn

theorem definition_writes (choice : Choice) (hword : s.cursor.kind = .funcWord) :
    Leaves (fun t => t.table = s.table.declareAll s.cursor.advance.announced?.toList)
      (definition choice) s := by
  refine leaves_bind (fun h => ?_) fun h => absurd hword (fails_take.1 h).1
  obtain ⟨-, rfl⟩ := gives_take.1 h
  have hheading := heading_writes { s with cursor := s.cursor.advance }
  refine leaves_bind (fun {_ t} h => ?_) fun h => hheading.2 h
  rw [← hheading.1 h]
  exact leaves_bind (fun h => leaves_pure ((table_read choice .block t.table rfl).1 h))
    fun h => (table_read choice .block t.table rfl).2 h

/-- A form writes what its head announces, and nothing if it is no definition; whether it is
read, fails or is not there. -/
theorem form_writes (choice : Choice) (s : ReadState) :
    Leaves (fun t => t.table = s.table.declareAll s.cursor.written?.toList) (form choice) s := by
  refine leaves_bind (fun h => ?_) fun h => absurd h (by simp [skipSemicolons])
  simp only [skipSemicolons, gives_modify] at h
  subst h
  refine leaves_bind (fun {kind t} h => ?_) fun h => absurd h fails_kind
  obtain ⟨rfl, rfl⟩ := gives_kind.1 h
  unfold Cursor.written?
  dsimp only
  generalize { s.cursor with tokens := dropSemicolons s.cursor.tokens } = start
  by_cases hword : start.kind = .funcWord
  · rw [if_pos hword, hword]
    have hdefinition := definition_writes (s := ⟨start, s.table⟩) choice hword
    exact leaves_bind (fun h => leaves_pure (hdefinition.1 h)) fun h => hdefinition.2 h
  · rw [if_neg hword]
    split
    · exact leaves_pure rfl
    · next hfunc => exact absurd hfunc hword
    · have hbody : Leaves (fun t => t.table = s.table) (freeExpression choice) ⟨start, s.table⟩ :=
        ((abreast_table s.table).read_inStep choice .block |>.bind fun _ => .pure _).keeps rfl
      exact leaves_bind (fun h => leaves_pure (hbody.1 h)) fun h => hbody.2 h

/-- The form that is read declares what it has written. -/
theorem entries_of_form {choice : Choice} {found : Option Form}
    (h : Gives (form choice) s found t) :
    Program.entries found.toList = s.cursor.written?.toList := by
  simp only [form, skipSemicolons, gives_bind, gives_modify, gives_kind] at h
  obtain ⟨_, _, rfl, _, _, ⟨rfl, rfl⟩, h⟩ := h
  unfold Cursor.written?
  dsimp only at h ⊢
  generalize { s.cursor with tokens := dropSemicolons s.cursor.tokens } = start at h
  by_cases hword : start.kind = .funcWord
  · rw [hword] at h
    rw [if_pos hword]
    simp only [definition, gives_bind, gives_take, gives_pure] at h
    obtain ⟨_, _, ⟨_, _, ⟨-, rfl⟩, prototype, _, hheading, e, _, -, rfl, rfl⟩, rfl, rfl⟩ := h
    rw [← entries_of_heading hheading]
    exact List.append_nil _
  · rw [if_neg hword]
    split at h
    · obtain ⟨rfl, -⟩ := gives_pure.1 h
      rfl
    · next hfunc => exact absurd hfunc hword
    · simp only [freeExpression, gives_bind, gives_pure] at h
      obtain ⟨_, _, ⟨e, _, -, rfl, rfl⟩, rfl, rfl⟩ := h
      rfl

/-! ## §2. What may be written. -/

/-- An operator that a text can declare: its precedence is from 1 to 18, and its spelling is
one symbol or two operator characters. -/
def Declarable (entry : Operator.Entry) : Prop :=
  isInfix entry.1 = true ∧ Operator.isValidPrecedence entry.2 = true

/-- What a head of a text announces can be declared. -/
theorem declarable_of_announced? {cursor : Cursor} {entry : Operator.Entry}
    (linked : Linked cursor.tokens) (h : cursor.announced? = some entry) : Declarable entry := by
  unfold Cursor.announced? at h
  split at h
  · obtain ⟨operator, hoperator, h⟩ := Option.bind_eq_some_iff.1 h
    have hspelling := isInfix_of_operator? linked.advance hoperator
    dsimp only at h
    split at h
    · obtain ⟨precedence, hprecedence, rfl⟩ := Option.map_eq_some_iff.1 h
      obtain ⟨value, -, hvalue⟩ := Option.bind_eq_some_iff.1 hprecedence
      exact ⟨hspelling, isValidPrecedence_of_precedence? hvalue⟩
    · cases h
      exact ⟨hspelling, show Operator.isValidPrecedence Operator.tightest = true by decide⟩
  · exact absurd h nofun

/-- Semicolons at the start do not unlink a list. -/
theorem linked_dropSemicolons {tokens : List Token} (linked : Linked tokens) :
    Linked (dropSemicolons tokens) := by
  induction linked with
  | last hmark => exact .last hmark
  | cons lexeme plain announces hrest ih =>
      rw [dropSemicolons]
      split
      · exact ih
      · exact .cons lexeme plain announces hrest

theorem declarable_of_written? {cursor : Cursor} {entry : Operator.Entry}
    (linked : Linked cursor.tokens) (h : cursor.written? = some entry) : Declarable entry := by
  unfold Cursor.written? at h
  dsimp only at h
  split at h
  · exact declarable_of_announced? (Linked.advance (linked_dropSemicolons linked)) h
  · exact absurd h nofun

/-! ## §3. Forms, one after the other. -/

/-- Forms read one after the other, from one state to another. -/
inductive Completed : ReadState → List Form → ReadState → Prop
  /-- No form. -/
  | nil {s : ReadState} : Completed s [] s
  /-- A form, and the forms after it. -/
  | cons {s t u : ReadState} {first : Form} {forms : List Form} :
      Gives (form .standard) s (some first) t → Completed t forms u →
      Completed s (first :: forms) u

/-- Forms leave the table with what they declare, in order. -/
theorem Completed.table {forms : List Form} (h : Completed s forms t) :
    t.table = s.table.declareAll (Program.entries forms) := by
  induction h with
  | nil => rfl
  | @cons s t u first forms hform _ ih =>
      have hfirst : t.table = s.table.declareAll (Program.entries [first]) := by
        rw [show [first] = (some first).toList from rfl, entries_of_form hform]
        exact (form_writes .standard s).1 hform
      rw [ih, hfirst, ← Operator.Table.declareAll_append]
      simp [Program.entries]

/-- Every form leaves a linked list linked. -/
theorem linked_form : Keeps (fun s => Linked s.cursor.tokens) (form .standard) :=
  ((alike_both (fun h => h.advance) fun _ _ h => h).form_inStep .standard).keeps

theorem Completed.linked {forms : List Form} (h : Completed s forms t) :
    Linked s.cursor.tokens → Linked t.cursor.tokens := by
  induction h with
  | nil => exact id
  | cons hform _ ih => exact fun linked => ih ((linked_form linked).1 hform)

/-- What the forms of a text declare can be declared. -/
theorem Completed.declarable {forms : List Form} (h : Completed s forms t) :
    Linked s.cursor.tokens → ∀ entry ∈ Program.entries forms, Declarable entry := by
  induction h with
  | nil => exact fun _ _ hmem => absurd hmem nofun
  | @cons s t u first forms hform _ ih =>
      intro linked entry hmem
      have hmem : entry ∈ Program.entries [first] ++ Program.entries forms := by
        simpa [Program.entries] using hmem
      obtain hmem | hmem := List.mem_append.1 hmem
      · rw [show [first] = (some first).toList from rfl, entries_of_form hform,
          Option.mem_toList] at hmem
        exact declarable_of_written? linked hmem
      · exact ih ((linked_form linked).1 hform) entry hmem

/-- A form of a text takes a token. -/
theorem length_of_form {first : Form} (linked : Linked s.cursor.tokens)
    (h : Gives (form .standard) s (some first) t) :
    t.cursor.tokens.length < s.cursor.tokens.length := by
  obtain ⟨⟨file, tokens⟩, table⟩ := s
  -- at the places of a short text the tokens look the same, and there every form takes one
  have hbeside : Beside file tokens (tokens.map Token.respaced) (place file table tokens)
      (place file table (tokens.map Token.respaced)) := by
    refine ⟨rfl, ⟨rfl, rfl⟩, ⟨[], [], rfl, rfl, rfl⟩, ?_, ?_⟩
    · simp [Token.view_respaced]
    · cases linked <;> simp
  have hrelated := (alike_views file tokens _).form_inStep .standard hbeside
  rw [show (form .standard).run (place file table tokens) = _ from h] at hrelated
  match hrun : (form .standard).run (place file table (tokens.map Token.respaced)) with
  | .error _ _ => rw [hrun] at hrelated; exact hrelated.elim
  | .ok found t' =>
      rw [hrun] at hrelated
      obtain ⟨rfl, hbeside'⟩ := hrelated
      obtain ⟨last, rest, rfl, -, hlength⟩ := place_of_form linked.cut_respaced hrun
      have hviews := congrArg List.length hbeside'.view
      simp only [List.length_map] at hviews hlength
      rw [hviews]
      exact hlength

/-- Rounds of forms that succeed are forms up to the end. -/
theorem completed_of_gives {bound : Nat} :
    ∀ {s : ReadState} {forms : List Form}, Gives (upTo (form .standard) bound) s forms u →
      ∃ t, Completed s forms t ∧ Gives (form .standard) t none u := by
  induction bound with
  | zero => exact fun h => absurd h gives_upTo_zero
  | succ bound ih =>
      intro s forms h
      obtain ⟨rfl, hnone⟩ | ⟨first, more, t, rfl, hfirst, hmore⟩ := gives_upTo_succ.1 h
      · exact ⟨s, .nil, hnone⟩
      · obtain ⟨t', hcompleted, hnone⟩ := ih hmore
        exact ⟨t', .cons hfirst hcompleted, hnone⟩

/-- Rounds of forms that fail are forms up to one that fails: there are rounds enough. -/
theorem completed_of_fails {bound : Nat} :
    ∀ {s : ReadState}, Linked s.cursor.tokens → s.cursor.tokens.length ≤ bound →
      Fails (upTo (form .standard) bound) s error u →
      ∃ forms t, Completed s forms t ∧ Fails (form .standard) t error u := by
  induction bound with
  | zero =>
      intro s linked hbound
      have hnil := List.length_eq_zero_iff.1 (Nat.le_zero.1 hbound)
      rw [hnil] at linked
      exact absurd linked nofun
  | succ bound ih =>
      intro s linked hbound h
      obtain hfirst | ⟨first, t, hfirst, hmore⟩ := fails_upTo_succ.1 h
      · exact ⟨[], s, .nil, hfirst⟩
      · have hlength := length_of_form linked hfirst
        obtain ⟨forms, t', hcompleted, hfails⟩ :=
          ih ((linked_form linked).1 hfirst) (by omega) hmore
        exact ⟨first :: forms, t', .cons hfirst hcompleted, hfails⟩

/-! ## §4. Programs and sessions. -/

variable {file source : String} {table : Operator.Table}

/-- A text that is a program leaves the table with what its forms declare. -/
theorem table_of_ok {forms : List Form} {last : Operator.Table}
    (h : Program.ofSource file source table = ⟨.ok forms, last⟩) :
    last = table.declareAll (Program.entries forms)
      ∧ ∀ entry ∈ Program.entries forms, Declarable entry := by
  obtain ⟨tokens, htokens⟩ := tokenize_of_ofSource h
  have linked := linked_of_tokenize htokens
  rw [ofSource_of_tokenize htokens, ofTokens_eq] at h
  split at h
  · next found t hrun =>
    cases h
    obtain ⟨t', hcompleted, hnone⟩ := completed_of_gives hrun
    refine ⟨?_, hcompleted.declarable linked⟩
    have hlast := (form_writes .standard t').1 hnone
    rw [← entries_of_form hnone] at hlast
    rw [hlast, hcompleted.table]
    rfl
  · exact absurd h nofun

/-- A text that is no program leaves the table with what the forms before the failure
declare, and with what the failing form has written. -/
theorem table_of_error {tokens : List Token} {last : Operator.Table}
    (tokenizes : tokenize file source = .ok tokens)
    (h : Program.ofSource file source table = ⟨.error error, last⟩) :
    ∃ forms s t, Completed (place file table tokens) forms s ∧ Fails (form .standard) s error t
      ∧ last = (table.declareAll (Program.entries forms)).declareAll s.cursor.written?.toList
      ∧ ∀ entry ∈ Program.entries forms ++ s.cursor.written?.toList, Declarable entry := by
  have linked := linked_of_tokenize tokenizes
  rw [ofSource_of_tokenize tokenizes, ofTokens_eq] at h
  split at h
  · exact absurd h nofun
  · next found t hrun =>
    cases h
    obtain ⟨forms, s, hcompleted, hfails⟩ :=
      completed_of_fails (s := place file table tokens) linked (Nat.le_succ _) hrun
    refine ⟨forms, s, t, hcompleted, hfails, ?_, ?_⟩
    · rw [(form_writes .standard s).2 hfails, hcompleted.table]
    · intro entry hmem
      obtain hmem | hmem := List.mem_append.1 hmem
      · exact hcompleted.declarable linked entry hmem
      · exact declarable_of_written? (hcompleted.linked linked) (Option.mem_toList.1 hmem)

/-- Whatever a text is, it adds declarations to the table. -/
theorem table_of_source (file source : String) (table : Operator.Table) :
    ∃ entries, (Program.ofSource file source table).table = table.declareAll entries
      ∧ ∀ entry ∈ entries, Declarable entry := by
  rcases h : Program.ofSource file source table with ⟨error | forms, last⟩
  case ok => exact ⟨_, table_of_ok h⟩
  case error =>
    cases htokens : tokenize file source with
    | ok tokens =>
        obtain ⟨forms, s, t, -, -, hlast, hdeclarable⟩ := table_of_error htokens h
        refine ⟨_, ?_, hdeclarable⟩
        rw [hlast, Operator.Table.declareAll_append]
    | error found =>
        rw [Program.ofSource, htokens] at h
        cases h
        exact ⟨[], rfl, List.forall_mem_nil _⟩

/-- A table that comes of another one by programs and lines of sessions, failing or not. -/
inductive Reaches (first : Operator.Table) : Operator.Table → Prop
  /-- Nothing was read. -/
  | refl : Reaches first first
  /-- A text was read as a program. -/
  | source (file source : String) {last : Operator.Table} :
      Reaches first last → Reaches first (Program.ofSource file source last).table
  /-- A session took a line, whatever lines wait in it. -/
  | line (session : Session) (line : String) :
      Reaches first session.table → Reaches first (session.feed line).2.table

/-- A line of a session does to the table what some text does, or nothing. -/
theorem table_of_feed (session : Session) (line : String) :
    (session.feed line).2.table = session.table
      ∨ ∃ source, (session.feed line).2.table
          = (Program.ofSource defaultFile source session.table).table := by
  unfold Session.feed
  split
  · exact .inl rfl
  · refine .inr ⟨session.extended line, ?_⟩
    dsimp only
    split
    · rfl
    · split <;> rfl

/-- A table that is reached has more declarations, all of which a text can make. -/
theorem Reaches.declareAll {first last : Operator.Table} (h : Reaches first last) :
    ∃ entries, last = first.declareAll entries ∧ ∀ entry ∈ entries, Declarable entry := by
  have hstep {inside : Operator.Table} (file source : String)
      (ih : ∃ entries, inside = first.declareAll entries ∧ ∀ entry ∈ entries, Declarable entry) :
      ∃ entries, (Program.ofSource file source inside).table = first.declareAll entries
        ∧ ∀ entry ∈ entries, Declarable entry := by
    obtain ⟨entries, rfl, hentries⟩ := ih
    obtain ⟨more, hmore, hdeclarable⟩ := table_of_source file source (first.declareAll entries)
    refine ⟨entries ++ more, ?_, fun entry hmem => ?_⟩
    · rw [hmore, Operator.Table.declareAll_append]
    · exact (List.mem_append.1 hmem).elim (hentries entry) (hdeclarable entry)
  induction h with
  | refl => exact ⟨[], rfl, nofun⟩
  | source file source _ ih => exact hstep file source ih
  | line session line _ ih =>
      obtain hsame | ⟨source, hsource⟩ := table_of_feed session line
      · rw [hsame]
        exact ih
      · rw [hsource]
        exact hstep defaultFile source ih

/-- **The effect of a text on the table is the declarations that were read in it.**  A text
without tokens changes nothing.  A program leaves what its forms declare, in order.  A
text that fails leaves what the forms before the failing one declare, and what the
failing form announces: that is at most one operator.  So every table that comes of the
standard one has precedences from 1 to 18 only, and goes on having every entry. -/
theorem table_effect (file source : String) (table : Operator.Table) :
    (∀ {error}, tokenize file source = .error error →
      Program.ofSource file source table = ⟨.error error, table⟩)
    ∧ (∀ {forms last}, Program.ofSource file source table = ⟨.ok forms, last⟩ →
      last = table.declareAll (Program.entries forms)
        ∧ ∀ entry ∈ Program.entries forms, Declarable entry)
    ∧ (∀ {tokens error last}, tokenize file source = .ok tokens →
      Program.ofSource file source table = ⟨.error error, last⟩ →
      ∃ forms s t, Completed (place file table tokens) forms s ∧ Fails (form .standard) s error t
        ∧ last = (table.declareAll (Program.entries forms)).declareAll s.cursor.written?.toList
        ∧ ∀ entry ∈ Program.entries forms ++ s.cursor.written?.toList, Declarable entry)
    ∧ ∀ {inside last}, Reaches .standard inside → Reaches inside last →
      (∀ entry ∈ last.entries, Operator.isValidPrecedence entry.2 = true)
        ∧ ∀ entry ∈ inside.entries, ∃ precedence, (entry.1, precedence) ∈ last.entries := by
  refine ⟨fun h => ?_, table_of_ok, table_of_error, fun hinside hlast => ?_⟩
  · rw [Program.ofSource, h]
  · obtain ⟨entries, rfl, hentries⟩ := hinside.declareAll
    obtain ⟨more, rfl, hmore⟩ := hlast.declareAll
    refine ⟨fun entry hmem => ?_, fun entry => Operator.Table.exists_mem_declareAll more⟩
    obtain hmem | hmem := Operator.Table.mem_declareAll hmem
    · exact (hmore entry hmem).2
    · obtain hmem | hmem := Operator.Table.mem_declareAll hmem
      · exact (hentries entry hmem).2
      · have hstandard : ∀ entry ∈ Operator.Table.standard.entries,
            Operator.isValidPrecedence entry.2 = true := by decide
        exact hstandard entry hmem

/-- A definition that lacks a parameter fails with its operator declared, behind the one of
the definition before it; a table that has an operator has it after a line that fails. -/
theorem declared_before_failure :
    Program.ofSource "sel" "a é" .standard
        = ⟨.error ⟨.unrecognisedToken "é", ⟨2, "sel"⟩⟩, .standard⟩
    ∧ Operator.Table.standard.declare "~" 5 = Operator.Table.standard.declareAll
        (Program.entries [.definition ⟨⟨"binary~", ["x", "y"], true, 5⟩, .scalar "x"⟩])
    ∧ (∃ tokens forms s t,
        tokenize "sel" "func binary ~ 5 (x, y) x; func binary ^ 7 (x) x" = .ok tokens
          ∧ Completed (place "sel" .standard tokens) forms s
          ∧ Fails (form .standard) s ⟨.arityMismatch "binary^" 2 1, ⟨46, "sel"⟩⟩ t
          ∧ (Operator.Table.standard.declare "~" 5).declare "^" 7
            = (Operator.Table.standard.declareAll (Program.entries forms)).declareAll
                s.cursor.written?.toList)
    ∧ ∃ precedence, ("~", precedence) ∈ ((Session.mk (Operator.Table.standard.declare "~" 5)
        "").feed "func binary ~ 7 (x) x").2.table.entries := by
  have hlexical : tokenize "sel" "a é" = .error ⟨.unrecognisedToken "é", ⟨2, "sel"⟩⟩ := by
    decide +kernel
  have hread : Program.ofSource "sel" "func binary ~ 5 (x, y) x" .standard
      = ⟨.ok [.definition ⟨⟨"binary~", ["x", "y"], true, 5⟩, .scalar "x"⟩],
        Operator.Table.standard.declare "~" 5⟩ := by decide +kernel
  have hfails : Program.ofSource "sel" "func binary ~ 5 (x, y) x; func binary ^ 7 (x) x" .standard
      = ⟨.error ⟨.arityMismatch "binary^" 2 1, ⟨46, "sel"⟩⟩,
        (Operator.Table.standard.declare "~" 5).declare "^" 7⟩ := by decide +kernel
  obtain ⟨tokens, htokens⟩ : ∃ tokens,
      tokenize "sel" "func binary ~ 5 (x, y) x; func binary ^ 7 (x) x" = .ok tokens :=
    exists_tokens (by decide +kernel)
  obtain ⟨forms, s, t, hcompleted, hform, hlast, -⟩ :=
    (table_effect "sel" _ .standard).2.2.1 htokens hfails
  have hreach : Reaches .standard (Operator.Table.standard.declare "~" 5) := by
    have hsource := Reaches.source "sel" "func binary ~ 5 (x, y) x" (@Reaches.refl .standard)
    rw [hread] at hsource
    exact hsource
  refine ⟨(table_effect "sel" "a é" .standard).1 hlexical,
    ((table_effect "sel" _ .standard).2.1 hread).1,
    ⟨tokens, forms, s, t, htokens, hcompleted, hform, hlast⟩, ?_⟩
  exact ((table_effect "sel" "" .standard).2.2.2 hreach
    (.line (Session.mk _ "") "func binary ~ 7 (x) x" .refl)).2 ("~", 5) (by decide)

end Language
end Fixity
