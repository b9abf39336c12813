/-
  Fixity.Proofs.Language.Repetition
  ────────────────────────────────
  **READING A TEXT AGAIN.**

  A text that is read again starts with the operators that it declared the first time.  It
  may then be grouped differently, or break off at a place that it had passed.  But it
  declares nothing new: the second reading gets no further than the first one, as
  measured by declarations.  For where the last operator of the first reading is declared,
  the second reading has the table that the first one had, and goes on like it.

  So the second reading repeats an initial part of what the first one declared.  That
  leaves the table as it is unless the text declares one operator with two precedences and
  the second reading stops between the two.  The THIRD reading is the second one over
  again: it knows the same operators, and which ones are known decides how far it goes.

  Main results: `run_form_declared` (a declaration made beforehand is not noticed where it
  is made), `Stops.prefix_again` (the second reading declares an initial part),
  `Stops.transfer` (what is known decides how far a reading goes) and `table_of_rereading`.
-/
import Fixity.Proofs.Language.Effect
import Fixity.Proofs.Language.Known

namespace Fixity.Language

open Grammar Read

variable {file : String} {table : Operator.Table} {input rest tokens : List Token}
variable {s t u : ReadState} {forms : List Form}

/-! ## §1. Declarations along a run. -/

/-- More tokens declare at least as much. -/
theorem declarations_suffix (h : rest <:+ input) :
    (declarations rest).length ≤ (declarations input).length := by
  obtain ⟨used, rfl⟩ := h
  induction used with
  | nil => exact Nat.le_refl _
  | cons token used ih =>
      rw [List.cons_append, declarations]
      split
      · rw [List.length_append]
        omega
      · exact ih

/-- Semicolons declare nothing. -/
theorem declarations_dropSemicolons (tokens : List Token) :
    declarations (dropSemicolons tokens) = declarations tokens := by
  fun_induction dropSemicolons tokens with
  | case1 token next rest hkind ih =>
      have hfunc : token.kind ≠ .funcWord := by rw [hkind]; decide
      have hfirst : declarations (token :: next :: rest) = declarations (next :: rest) :=
        if_neg hfunc
      rw [ih, hfirst]
  | case2 token next rest hkind => rfl
  | case3 tokens _ => rfl

/-- The tokens of a form declare what the form does. -/
theorem Item.declarations {first : Form} {last : Operator.Table} (cut : Cut input)
    (h : Item table input (some first) last rest) :
    declarations input = Program.entries [first] ++ declarations rest := by
  cases h with
  | definition hword hheading hbody =>
      obtain ⟨-, hat, hafter⟩ := hheading.declares (hword.cut cut (by simp))
      rw [declarations_of_mark hword, hat, hafter, declarations_of_passed hbody.passed]
      simp [Program.entries, Form.function]
  | expression hbody => exact declarations_of_passed hbody.passed

/-- A form leaves an end of the tokens. -/
theorem suffix_form (tokens : List Token) :
    Keeps (fun s => s.cursor.tokens <:+ tokens) (form .standard) := by
  have alike : Alike (Both fun s => s.cursor.tokens <:+ tokens) Eq :=
    alike_both (fun h => (Cursor.tokens_advance_suffix _).trans h) fun _ _ h => h
  exact (alike.form_inStep .standard).keeps

/-- Forms that were read leave an end of the tokens, and what stands before it declares what
they do. -/
theorem Completed.left (h : Completed s forms t) :
    ∀ {table : Operator.Table} {input : List Token}, Cut input → s = place file table input →
      ∃ last rest, t = place file last rest ∧ Cut rest ∧ rest <:+ input
        ∧ declarations input = Program.entries forms ++ declarations rest := by
  induction h with
  | @nil s =>
      intro table input cut hs
      exact ⟨table, input, hs, cut, List.suffix_refl _, rfl⟩
  | @cons s t u first forms hform _ ih =>
      intro table input cut hs
      subst hs
      have hsuffix := (suffix_form input (List.suffix_refl _)).1 hform
      obtain ⟨inside, after, hitem, cut', rfl⟩ := (gives_form_place cut).1 hform
      obtain ⟨last, rest, rfl, cut₂, hsuffix', hrest⟩ := ih cut' rfl
      refine ⟨last, rest, rfl, cut₂, hsuffix'.trans hsuffix, ?_⟩
      rw [← declarations_dropSemicolons, hitem.declarations (dropSemicolons_cut cut).1, hrest]
      simp [Program.entries]

/-! ## §2. The place where an operator is declared. -/

/-- What announces an operator is read as what is defined. -/
theorem exists_subject {entry : Operator.Entry} (h : s.cursor.announced? = some entry) :
    ∃ subject t, Gives Grammar.subject s subject t ∧ subject.entries = [entry] := by
  match hrun : Grammar.subject.run s with
  | .ok subject t =>
      have hentries := (gives_subject hrun).2
      rw [h] at hentries
      exact ⟨subject, t, hrun, hentries⟩
  | .error error t =>
      have hnone := (fails_subject hrun).2
      rw [h] at hnone
      exact absurd hnone nofun

/-- Where a form declares an operator, the tokens say so. -/
theorem declarations_of_written? {entry : Operator.Entry} (cut : Cut input)
    (h : Cursor.written? ⟨file, input⟩ = some entry) :
    ∃ rest, Mark .funcWord (dropSemicolons input) rest ∧ Cut rest
      ∧ Cursor.announced? ⟨file, rest⟩ = some entry
      ∧ declarations input = entry :: declarations rest := by
  have cut' := (dropSemicolons_cut cut).1
  unfold Cursor.written? at h
  dsimp only at h
  split at h
  · next hkind =>
    obtain ⟨rest, hword⟩ := mark_of_lead hkind (by simp)
    have cut₂ := hword.cut cut' (by simp)
    rw [hword.advance cut₂] at h
    obtain ⟨subject, t, hsubject, hentries⟩ := exists_subject (s := place file .empty rest) h
    obtain ⟨last, after, hnames, -, -⟩ := (gives_subject_place cut₂).1 hsubject
    refine ⟨rest, hword, cut₂, h, ?_⟩
    rw [← declarations_dropSemicolons, declarations_of_mark hword, hnames.declaredAt cut₂, hentries]
    rfl
  · exact absurd h nofun

/-- A declaration made beforehand is not noticed by the head that makes it. -/
theorem run_subject_declared {entry : Operator.Entry} (cut : Cut input)
    (h : Cursor.announced? ⟨file, input⟩ = some entry) :
    Grammar.subject.run (place file (table.declare entry.1 entry.2) input)
      = Grammar.subject.run (place file table input) := by
  obtain ⟨subject, t, hsubject, hentries⟩ := exists_subject (s := place file table input) h
  obtain ⟨last, rest, hnames, cut', rfl⟩ := (gives_subject_place cut).1 hsubject
  cases hnames with
  | function hname => exact absurd hentries nofun
  | unary hword hsign hc => exact absurd hentries nofun
  | @binary spelling precedence _ _ _ _ hword hspelled hprecedence hlead =>
      cases hentries
      have hagain : Gives Grammar.subject (place file (table.declare spelling precedence) input)
          (.binary spelling precedence)
          (place file ((table.declare spelling precedence).declare spelling precedence) rest) :=
        (gives_subject_place cut).2 ⟨_, rest, .binary hword hspelled hprecedence hlead, cut', rfl⟩
      rw [Operator.Table.declare_declare] at hagain
      rw [show Grammar.subject.run (place file table input) = _ from hsubject]
      exact hagain

/-- Nor is it noticed by the form. -/
theorem run_form_declared {entry : Operator.Entry} (cut : Cut input)
    (h : Cursor.written? ⟨file, input⟩ = some entry) :
    (form .standard).run (place file (table.declare entry.1 entry.2) input)
      = (form .standard).run (place file table input) := by
  have cut' := (dropSemicolons_cut cut).1
  obtain ⟨rest, hword, cut₂, hannounced, -⟩ := declarations_of_written? cut h
  have hheading : heading.run (place file (table.declare entry.1 entry.2) rest)
      = heading.run (place file table rest) := by
    rw [heading, run_bind, run_bind, run_subject_declared cut₂ hannounced]
  have hdefinition : (definition .standard).run
        (place file (table.declare entry.1 entry.2) (dropSemicolons input))
      = (definition .standard).run (place file table (dropSemicolons input)) := by
    have htake (table : Operator.Table) :
        (take .funcWord "func").run (place file table (dropSemicolons input))
          = .ok () (place file table rest) :=
      (gives_take_place cut' (by simp)).2 ⟨rest, hword, rfl⟩
    rw [definition, run_bind, run_bind, htake, htake]
    dsimp only
    rw [run_bind, run_bind, hheading]
  -- after the semicolons the word of a definition stands, whatever the table
  have hform (table : Operator.Table) : (form .standard).run (place file table input)
      = (do return some (.definition (← definition .standard)) : Read (Option Form)).run
          (place file table (dropSemicolons input)) := by
    have hkind : Gives Read.kind (place file table (dropSemicolons input)) .funcWord
        (place file table (dropSemicolons input)) := gives_kind.2 ⟨hword.lead.symm, rfl⟩
    rw [form, run_bind]
    show (Read.kind >>= _ : Read (Option Form)).run (place file table (dropSemicolons input)) = _
    rw [run_bind, hkind]
  rw [hform, hform, run_bind, run_bind, hdefinition]

/-- A form is read with every table that knows the same operators. -/
theorem gives_form_transfer {other : Operator.Table} (same : SameOperators table other)
    (cut : Cut input) {first : Form}
    (h : Gives (form .standard) (place file table input) (some first) t) :
    ∃ first' last last' rest, t = place file last rest ∧ Cut rest ∧ SameOperators last last'
      ∧ Gives (form .standard) (place file other input) (some first') (place file last' rest) := by
  obtain ⟨last, rest, hitem, cut', rfl⟩ := (gives_form_place cut).1 h
  obtain ⟨found, last', hitem', same', hfound⟩ := hitem.transfer same (dropSemicolons_cut cut).1
  obtain ⟨first', rfl⟩ := Option.isSome_iff_exists.1 hfound
  exact ⟨first', last, last', rest, rfl, cut', same',
    (gives_form_place cut).2 ⟨last', rest, hitem', cut', rfl⟩⟩

/-! ## §3. Whole readings. -/

/-- A reading: forms one after the other, up to a state from which no form is read. -/
structure Stops (s : ReadState) (forms : List Form) (t : ReadState) : Prop where
  /-- The forms are read. -/
  completed : Completed s forms t
  /-- No other one is. -/
  stuck : ∀ first u, ¬ Gives (form .standard) t (some first) u

/-- What a reading writes: what its forms declare, and what the form where it stops does. -/
def writes (forms : List Form) (t : ReadState) : List Operator.Entry :=
  Program.entries forms ++ t.cursor.written?.toList

/-- What the first form of a reading writes comes first. -/
theorem writes_cons (first : Form) (forms : List Form) (t : ReadState) :
    writes (first :: forms) t = Program.entries [first] ++ writes forms t := by
  simp [writes, Program.entries]

/-- An operator that is written is the first one or one of the others. -/
theorem written_first_or_later {first : Option Operator.Entry}
    {later before after : List Operator.Entry} {entry : Operator.Entry}
    (h : first.toList ++ later = before ++ entry :: after) :
    (before = [] ∧ first = some entry ∧ later = after)
      ∨ ∃ more, before = first.toList ++ more ∧ later = more ++ entry :: after := by
  cases first with
  | none => exact .inr ⟨before, rfl, h⟩
  | some other =>
      cases before with
      | nil =>
          cases h
          exact .inl ⟨rfl, rfl, rfl⟩
      | cons head more =>
          obtain ⟨rfl, hlater⟩ := List.cons.inj h
          exact .inr ⟨more, rfl, hlater⟩

theorem gives_unique {α : Type} {p : Read α} {a b : α} (h : Gives p s a t) (h' : Gives p s b u) :
    a = b ∧ t = u := by
  have heq : EStateM.Result.ok a t = EStateM.Result.ok b u := h.symm.trans h'
  cases heq
  exact ⟨rfl, rfl⟩

namespace Stops

/-- There is one reading from a state. -/
theorem unique {more : List Form} (h : Stops s forms t) (h' : Stops s more u) :
    forms = more ∧ t = u := by
  obtain ⟨hcompleted, hstuck⟩ := h
  induction hcompleted generalizing more with
  | nil =>
      cases h'.completed with
      | nil => exact ⟨rfl, rfl⟩
      | cons hform _ => exact absurd hform (hstuck _ _)
  | cons hform _ ih =>
      cases h'.completed with
      | nil => exact absurd hform (h'.stuck _ _)
      | cons hform' hcompleted' =>
          obtain ⟨hfirst, rfl⟩ := gives_unique hform hform'
          cases hfirst
          obtain ⟨rfl, rfl⟩ := ih ⟨hcompleted', h'.stuck⟩ hstuck
          exact ⟨rfl, rfl⟩

/-- A reading that writes an operator has a form that does: those before it write what
comes before, and it is read as far as before. -/
theorem split (h : Stops s forms t) {before after : List Operator.Entry} {entry : Operator.Entry}
    (hwrites : writes forms t = before ++ entry :: after) :
    ∃ first mid more, Completed s first mid ∧ Program.entries first = before
      ∧ mid.cursor.written? = some entry ∧ Stops mid more t
      ∧ writes more t = entry :: after := by
  obtain ⟨hcompleted, hstuck⟩ := h
  induction hcompleted generalizing before with
  | @nil s =>
      have hone : s.cursor.written?.toList ++ [] = before ++ entry :: after := by
        rw [List.append_nil]
        exact hwrites
      obtain ⟨rfl, hwritten, rfl⟩ | ⟨more, -, hlater⟩ := written_first_or_later hone
      · exact ⟨[], s, [], .nil, rfl, hwritten, ⟨.nil, hstuck⟩, hwrites⟩
      · exact absurd hlater.symm (by simp)
  | @cons s mid t first forms hform hrest ih =>
      have hfirst : Program.entries [first] = s.cursor.written?.toList := entries_of_form hform
      have hall := hwrites
      rw [writes_cons, hfirst] at hall
      obtain ⟨rfl, hwritten, -⟩ | ⟨before, rfl, hlater⟩ := written_first_or_later hall
      · exact ⟨[], s, first :: forms, .nil, rfl, hwritten, ⟨.cons hform hrest, hstuck⟩, hwrites⟩
      · obtain ⟨earlier, place, more, hearlier, rfl, hplace⟩ := ih hlater hstuck
        refine ⟨first :: earlier, place, more, .cons hform hearlier, ?_, hplace⟩
        rw [← hfirst]
        simp [Program.entries]

/-- Readings that start with the same step go on in the same way. -/
theorem writes_of_run {mid mid' : ReadState} {more : List Form}
    (h : Stops mid forms t) (h' : Stops mid' more u)
    (hwritten : mid.cursor.written? = mid'.cursor.written?)
    (hrun : (form .standard).run mid = (form .standard).run mid') :
    writes forms t = writes more u := by
  obtain ⟨hcompleted, hstuck⟩ := h
  cases hcompleted with
  | nil =>
      cases h'.completed with
      | nil => exact congrArg Option.toList hwritten
      | cons hform _ => exact absurd (hrun.trans hform) (hstuck _ _)
  | cons hform hcompleted =>
      cases h'.completed with
      | nil => exact absurd (hrun.symm.trans hform) (h'.stuck _ _)
      | cons hform' hcompleted' =>
          obtain ⟨hfirst, rfl⟩ := gives_unique (hrun.symm.trans hform) hform'
          cases hfirst
          obtain ⟨rfl, rfl⟩ := unique ⟨hcompleted, hstuck⟩ ⟨hcompleted', h'.stuck⟩
          rfl

/-- What a reading writes is an initial part of what the tokens declare. -/
theorem writes_prefix (cut : Cut input) (h : Stops (place file table input) forms t) :
    writes forms t <+: declarations input := by
  obtain ⟨last, rest, rfl, cut', -, hdeclarations⟩ := h.completed.left cut rfl
  rw [hdeclarations, writes]
  apply (List.prefix_append_right_inj _).2
  cases hwritten : Cursor.written? ⟨file, rest⟩ with
  | none => exact List.nil_prefix
  | some entry =>
      obtain ⟨after, -, -, -, hafter⟩ := declarations_of_written? cut' hwritten
      rw [hafter]
      exact ⟨declarations after, rfl⟩

/-- Where a reading stops it leaves the table with what it has written. -/
theorem leaves (h : Stops s forms t) :
    Leaves (fun u => u.table = s.table.declareAll (writes forms t)) (form .standard) t := by
  have hleaves := form_writes .standard t
  rw [h.completed.table, ← Operator.Table.declareAll_append] at hleaves
  exact hleaves

/-! ## §4. The second reading. -/

/-- Of two places in a text where an operator is declared, with as much declared from
there on, there is only one. -/
theorem same_place {entry other : Operator.Entry} {first second : List Token}
    (cut : Cut first) (cut' : Cut second) (h : first <:+ tokens) (h' : second <:+ tokens)
    (hwritten : Cursor.written? ⟨file, first⟩ = some entry)
    (hwritten' : Cursor.written? ⟨file, second⟩ = some other)
    (same : declarations first = declarations second) :
    dropSemicolons first = dropSemicolons second := by
  obtain ⟨after, ⟨token, -, hcons⟩, -, -, hafter⟩ := declarations_of_written? cut hwritten
  obtain ⟨after', ⟨token', -, hcons'⟩, -, -, hafter'⟩ := declarations_of_written? cut' hwritten'
  have hsuffix := (dropSemicolons_suffix first).trans h
  have hsuffix' := (dropSemicolons_suffix second).trans h'
  have hlength := congrArg List.length hafter
  have hlength' := congrArg List.length hafter'
  rw [← same, hlength] at hlength'
  simp only [List.length_cons] at hlength hlength'
  rw [hcons] at hsuffix ⊢
  rw [hcons'] at hsuffix' ⊢
  -- the one place is at or behind the other, and if it were behind, less would be declared
  obtain hbehind | hbehind := List.suffix_or_suffix_of_suffix hsuffix hsuffix'
  · obtain heq | hbehind := List.suffix_cons_iff.1 hbehind
    · exact heq
    · have hless := declarations_suffix hbehind
      rw [← hcons, declarations_dropSemicolons] at hless
      omega
  · obtain heq | hbehind := List.suffix_cons_iff.1 hbehind
    · exact heq.symm
    · have hless := declarations_suffix hbehind
      rw [← hcons', declarations_dropSemicolons, ← same] at hless
      omega

/-- **A second reading, with all that the first one has written, writes an initial part of
the same.**  If it gets to the last operator of the first reading, it has the table that
the first one had from there on, and goes on like it. -/
theorem prefix_again {more : List Form} (cut : Cut tokens)
    (h : Stops (place file table tokens) forms t)
    (h' : Stops (place file (table.declareAll (writes forms t)) tokens) more u) :
    writes more u <+: writes forms t := by
  obtain hprefix | hprefix :=
    List.prefix_or_prefix_of_prefix (h'.writes_prefix cut) (h.writes_prefix cut)
  · exact hprefix
  by_cases hnone : writes forms t = []
  -- with nothing written the second reading is the first one
  · rw [hnone] at h' ⊢
    obtain ⟨rfl, rfl⟩ := h.unique h'
    exact hnone ▸ List.nil_prefix
  · obtain ⟨before, entry, hlast⟩ : ∃ before entry, writes forms t = before ++ [entry] :=
      ⟨_, _, (List.dropLast_concat_getLast hnone).symm⟩
    obtain ⟨after, hafter⟩ := hprefix
    have hagain : writes more u = before ++ entry :: after := by
      rw [← hafter, hlast, List.append_assoc]
      rfl
    obtain ⟨first, mid, later, hfirst, hentries, hwritten, hstops, hlater⟩ := h.split hlast
    obtain ⟨first', mid', later', hfirst', hentries', hwritten', hstops', hlater'⟩ :=
      h'.split hagain
    obtain ⟨_, rest, rfl, cut₁, hsuffix, hbefore⟩ := hfirst.left cut rfl
    obtain ⟨_, rest', rfl, cut₂, hsuffix', hbefore'⟩ := hfirst'.left cut rfl
    have htable := hfirst.table
    have htable' := hfirst'.table
    rw [hentries] at hbefore htable
    rw [hentries'] at hbefore' htable'
    dsimp only at htable htable' hwritten hwritten'
    subst htable htable'
    -- both readings declare the operator at the same place, and have the same table after it
    have hsame := same_place cut₁ cut₂ hsuffix hsuffix' hwritten hwritten'
      (List.append_cancel_left (hbefore.symm.trans hbefore'))
    have hdeclared : (table.declareAll before).declare entry.1 entry.2
        = ((table.declareAll (writes forms t)).declareAll before).declare entry.1 entry.2 := by
      have hagain := Operator.Table.declareAll_again table (before ++ [entry]) []
      rw [List.append_nil, ← hlast] at hagain
      calc (table.declareAll before).declare entry.1 entry.2
          = table.declareAll (before ++ [entry]) :=
            (Operator.Table.declareAll_append table before [entry]).symm
        _ = table.declareAll (writes forms t) := by rw [hlast]
        _ = (table.declareAll (writes forms t)).declareAll (before ++ [entry]) := by
          rw [← hlast, hagain]
        _ = _ := Operator.Table.declareAll_append _ before [entry]
    have hrun : (form .standard).run (place file (table.declareAll before) rest)
        = (form .standard).run
            (place file ((table.declareAll (writes forms t)).declareAll before) rest') := by
      rw [← run_form_declared cut₁ hwritten, ← run_form_declared cut₂ hwritten', hdeclared]
      exact run_form_congr hsame
    have hrest := hstops.writes_of_run hstops' (hwritten.trans hwritten'.symm) hrun
    rw [hlater, hlater'] at hrest
    have hsame : writes more u = writes forms t := by rw [hagain, hlast, (List.cons.inj hrest).2]
    exact hsame ▸ List.prefix_refl _

/-- What is known decides how far a reading goes and what it writes. -/
theorem transfer {other : Operator.Table} (same : SameOperators table other) (cut : Cut input)
    (h : Stops (place file table input) forms t) :
    ∃ more u, Stops (place file other input) more u ∧ writes more u = writes forms t := by
  obtain ⟨hcompleted, hstuck⟩ := h
  generalize hs : place file table input = s at hcompleted
  induction hcompleted generalizing table other input with
  | nil =>
      subst hs
      refine ⟨[], _, ⟨.nil, fun first u hform => ?_⟩, rfl⟩
      obtain ⟨first', _, _, _, -, -, -, hform'⟩ := gives_form_transfer same.symm cut hform
      exact hstuck _ _ hform'
  | @cons s mid t first forms hform _ ih =>
      subst hs
      obtain ⟨first', last, last', rest, rfl, cut', same', hform'⟩ :=
        gives_form_transfer same cut hform
      obtain ⟨more, u, hstops, hwrites⟩ := ih same' cut' hstuck rfl
      refine ⟨first' :: more, u, ⟨.cons hform' hstops.completed, hstops.stuck⟩, ?_⟩
      have hentries : Program.entries [first'] = Program.entries [first] :=
        (entries_of_form hform').trans (entries_of_form hform).symm
      rw [writes_cons, writes_cons, hentries, hwrites]

end Stops

/-! ## §5. Texts. -/

/-- What the tokens declare does not depend on their places. -/
theorem declarations_respaced (tokens : List Token) :
    declarations (tokens.map Token.respaced) = declarations tokens := by
  have hat (rest : List Token) : declaredAt (rest.map Token.respaced) = declaredAt rest := by
    cases rest with
    | nil => rfl
    | cons token rest =>
        have hbeside : Beside "" (token :: rest) ((token :: rest).map Token.respaced)
            (place "" .empty (token :: rest))
            (place "" .empty ((token :: rest).map Token.respaced)) :=
          ⟨rfl, ⟨rfl, rfl⟩, ⟨[], [], rfl, rfl, rfl⟩, by simp [Token.view_respaced], nofun⟩
        have hrelated := (alike_views "" _ _).subject_inStep hbeside
        unfold declaredAt
        match hrun : Grammar.subject.run (place "" .empty (token :: rest)),
          hrun' : Grammar.subject.run
            (place "" .empty ((token :: rest).map Token.respaced)) with
        | .ok _ _, .ok _ _ => rw [hrun, hrun'] at hrelated; rw [hrelated.1]
        | .error _ _, .error _ _ => rfl
        | .ok _ _, .error _ _ => rw [hrun, hrun'] at hrelated; exact hrelated.elim
        | .error _ _, .ok _ _ => rw [hrun, hrun'] at hrelated; exact hrelated.elim
  induction tokens with
  | nil => rfl
  | cons token rest ih =>
      rw [List.map_cons, declarations, declarations, hat, ih]
      rfl

/-- Every text of tokens has a reading, which leaves the table with what it has written.  A
program writes all that its tokens declare. -/
theorem exists_reading {source : String} (tokenizes : tokenize file source = .ok tokens)
    (table : Operator.Table) :
    ∃ forms t, Stops (place file table (tokens.map Token.respaced)) forms t
      ∧ (Program.ofSource file source table).table = table.declareAll (writes forms t)
      ∧ (∀ entry ∈ writes forms t, Declarable entry)
      ∧ ∀ {found}, (Program.ofSource file source table).result = .ok found →
          writes forms t = declarations tokens := by
  have linked := (linked_of_tokenize tokenizes).respaced
  have cut := (linked_of_tokenize tokenizes).cut_respaced
  obtain ⟨htable, hresult⟩ := readAlike_respaced file table (linked_of_tokenize tokenizes)
  rw [ofSource_of_tokenize tokenizes, htable, ← declarations_respaced]
  have hwritten {forms : List Form} {t : ReadState}
      (h : Completed (place file table (tokens.map Token.respaced)) forms t) :
      ∀ entry ∈ writes forms t, Declarable entry := by
    intro entry hmem
    obtain hmem | hmem := List.mem_append.1 hmem
    · exact h.declarable linked entry hmem
    · exact declarable_of_written? (h.linked linked) (Option.mem_toList.1 hmem)
  rw [ofTokens_eq file (tokens.map Token.respaced)] at hresult ⊢
  match hrun : (upTo (form .standard) ((tokens.map Token.respaced).length + 1)).run
      (place file table (tokens.map Token.respaced)) with
  | .ok found u =>
      obtain ⟨t, hcompleted, hnone⟩ := completed_of_gives hrun
      have hstops : Stops (place file table (tokens.map Token.respaced)) found t :=
        ⟨hcompleted, fun first u h => absurd (gives_unique hnone h).1 nofun⟩
      refine ⟨found, t, hstops, hstops.leaves.1 hnone, hwritten hcompleted, fun _ => ?_⟩
      -- nothing is left but semicolons and the end
      obtain ⟨last, rest, rfl, cut', -, hdeclarations⟩ := hcompleted.left cut rfl
      obtain ⟨_, _, hitem, -, -⟩ := (gives_form_place cut').1 hnone
      have hrest : declarations rest = [] := by
        have cut₂ := (dropSemicolons_cut cut').1
        rw [← declarations_dropSemicolons]
        obtain ⟨mark, more, hcons⟩ := List.exists_cons_of_ne_nil cut₂.ne_nil
        rw [hcons] at hitem cut₂ ⊢
        cases hitem with
        | finished hlead =>
            cases cut₂.eq_nil_of_eof hlead
            exact Ending.declarations ⟨mark, hlead, .refl _⟩
      rw [hdeclarations, hrest, writes, ← entries_of_form hnone]
      rfl
  | .error error u =>
      obtain ⟨forms, t, hcompleted, hfails⟩ :=
        completed_of_fails (s := place file table (tokens.map Token.respaced)) linked
          (Nat.le_succ _) hrun
      have hstops : Stops (place file table (tokens.map Token.respaced)) forms t :=
        ⟨hcompleted, fun first u h => absurd (h.symm.trans hfails) nofun⟩
      refine ⟨forms, t, hstops, hstops.leaves.2 hfails, hwritten hcompleted, fun hok => ?_⟩
      rw [hok, hrun] at hresult
      exact hresult.elim

/-- What can be declared has a precedence above zero, so a table that says it knows it. -/
theorem Declarable.pos {entry : Operator.Entry} (h : Declarable entry) : 0 < entry.2 := by
  have hvalid := h.2
  simp only [Operator.isValidPrecedence, Bool.and_eq_true, decide_eq_true_eq] at hvalid
  exact UInt32.lt_of_lt_of_le (show 0 < Operator.loosest by decide) hvalid.1

/-- A table that has a row of declarations knows the same operators with an initial part of
the row declared again. -/
theorem sameOperators_again {entries again : List Operator.Entry} (h : again <+: entries)
    (declarable : ∀ entry ∈ entries, Declarable entry) :
    SameOperators (table.declareAll entries) ((table.declareAll entries).declareAll again) :=
  have pos : ∀ entry ∈ entries, 0 < entry.2 := fun entry hmem => (declarable entry hmem).pos
  .of_known (fun _ hmem => isSome_lookup_declareAll pos (h.subset hmem))
    fun entry hmem => pos entry (h.subset hmem)

/-- The table after a text was read so many times. -/
def tableAfter (file source : String) (table : Operator.Table) : Nat → Operator.Table
  | 0 => table
  | n + 1 => (Program.ofSource file source (tableAfter file source table n)).table

/-- What readings one after the other write: the second an initial part of what the first
does, and the third the same as the second. -/
theorem exists_readings {source : String} (tokenizes : tokenize file source = .ok tokens)
    (table : Operator.Table) :
    ∃ entries again : List Operator.Entry, again <+: entries ∧ entries <+: declarations tokens
      ∧ tableAfter file source table 1 = table.declareAll entries
      ∧ tableAfter file source table 2 = (table.declareAll entries).declareAll again
      ∧ tableAfter file source table 3 = tableAfter file source table 2
      ∧ ∀ {found}, (Program.ofSource file source (tableAfter file source table 1)).result
          = .ok found → again = entries := by
  have cut := (linked_of_tokenize tokenizes).cut_respaced
  obtain ⟨forms, t, hfirst, htable, hdeclarable, -⟩ := exists_reading tokenizes table
  obtain ⟨forms', t', hsecond, htable', -, hok⟩ :=
    exists_reading tokenizes (table.declareAll (writes forms t))
  obtain ⟨forms'', t'', hthird, htable'', -, -⟩ :=
    exists_reading tokenizes ((table.declareAll (writes forms t)).declareAll (writes forms' t'))
  have hagain := hfirst.prefix_again cut hsecond
  have hwhole := hfirst.writes_prefix cut
  rw [declarations_respaced] at hwhole
  -- the third reading knows what the second one knew, so it writes the same
  have hsame : writes forms'' t'' = writes forms' t' := by
    obtain ⟨more, u, hmore, hwrites⟩ :=
      hsecond.transfer (sameOperators_again hagain hdeclarable) cut
    obtain ⟨rfl, rfl⟩ := hthird.unique hmore
    exact hwrites
  have hone : tableAfter file source table 1 = table.declareAll (writes forms t) := htable
  have htwo : tableAfter file source table 2
      = (table.declareAll (writes forms t)).declareAll (writes forms' t') := by
    rw [tableAfter, hone, htable']
  refine ⟨_, _, hagain, hwhole, hone, htwo, ?_, fun h => ?_⟩
  · have htwice := Operator.Table.declareAll_again (table.declareAll (writes forms t))
      (writes forms' t') []
    rw [List.append_nil] at htwice
    rw [tableAfter, htwo, htable'', hsame, htwice]
  · rw [hone] at h
    have hall := hok h
    exact hagain.eq_of_length_le (by rw [hall]; exact hwhole.length_le)

/-- **A text that is read again repeats an initial part of its declarations.**  The first
reading declares an initial part of what the text declares, the second one an initial
part of that, and no reading after it changes anything.  So the second one leaves the
table as it is just when the part that it repeats ends with the precedences that the whole
ends with: in particular if no operator is declared with two precedences, or if the second
reading gets to the end of the text. -/
theorem table_of_rereading (file source : String) (table : Operator.Table) :
    ∃ entries again : List Operator.Entry, again <+: entries
      ∧ (∀ {tokens}, tokenize file source = .ok tokens → entries <+: declarations tokens)
      ∧ tableAfter file source table 1 = table.declareAll entries
      ∧ (∀ n, tableAfter file source table (n + 2) = (table.declareAll entries).declareAll again)
      ∧ (tableAfter file source table 2 = tableAfter file source table 1
        ↔ ∀ spelling precedence, Operator.Table.lastOf spelling again = some precedence →
            Operator.Table.lastOf spelling entries = some precedence)
      ∧ ((∀ spelling first second, (spelling, first) ∈ entries → (spelling, second) ∈ entries →
            first = second) →
          tableAfter file source table 2 = tableAfter file source table 1)
      ∧ ∀ {forms}, (Program.ofSource file source (tableAfter file source table 1)).result
          = .ok forms → tableAfter file source table 2 = tableAfter file source table 1 := by
  cases htokens : tokenize file source with
  | error error =>
      -- a text without tokens declares nothing
      have hread (table : Operator.Table) : (Program.ofSource file source table).table = table := by
        rw [Program.ofSource, htokens]
      have hafter (n : Nat) : tableAfter file source table n = table := by
        induction n with
        | zero => rfl
        | succ n ih => rw [tableAfter, ih, hread]
      refine ⟨[], [], List.prefix_refl _, fun _ => List.nil_prefix, hafter 1, fun n => hafter _, ?_,
        ?_, ?_⟩
      · rw [hafter, hafter]
        simp [Operator.Table.lastOf]
      · intro _
        rw [hafter, hafter]
      · intro _ _
        rw [hafter, hafter]
  | ok tokens =>
      obtain ⟨entries, again, hagain, hwhole, hone, htwo, hthree, hok⟩ :=
        exists_readings htokens table
      have hiff : tableAfter file source table 2 = tableAfter file source table 1
          ↔ ∀ spelling precedence, Operator.Table.lastOf spelling again = some precedence →
              Operator.Table.lastOf spelling entries = some precedence := by
        rw [htwo, hone]
        exact Operator.Table.declareAll_prefix_eq_self_iff hagain
      refine ⟨entries, again, hagain, ?_, hone, fun n => ?_, hiff, fun single => ?_, fun h => ?_⟩
      · intro tokens' h
        cases h
        exact hwhole
      · rw [← htwo]
        induction n with
        | zero => rfl
        | succ n ih =>
            calc tableAfter file source table (n + 3)
                = (Program.ofSource file source (tableAfter file source table (n + 2))).table := rfl
              _ = tableAfter file source table 3 := by rw [ih]; rfl
              _ = tableAfter file source table 2 := hthree
      · refine hiff.2 fun spelling precedence hlast => ?_
        have hmem := hagain.subset (Operator.Table.mem_of_lastOf hlast)
        cases hlast' : Operator.Table.lastOf spelling entries with
        | none => exact absurd rfl (Operator.Table.lastOf_eq_none_iff.1 hlast' _ hmem)
        | some other =>
            rw [single spelling other precedence (Operator.Table.mem_of_lastOf hlast') hmem]
      · refine hiff.2 fun spelling precedence hlast => ?_
        rw [← hok h]
        exact hlast

/-- Between two declarations of `~` stands a loop that the second reading breaks off at, since
`!` stands between operands once it is known: that reading ends with the first of the two
precedences, and so do all after it.  A text that declares its operator once leaves the
table as it was, although it is no program. -/
theorem stopped_between_declarations :
    (∃ source, source = "func binary ~ 5 (x, y) x; while a ! b; func binary ~ 7 (x, y) x; "
          ++ "func binary ! 5 (x, y) x"
        ∧ tableAfter "sel" source .standard 1 = (Operator.Table.standard.declare "~" 7).declare "!" 5
        ∧ ∀ n, tableAfter "sel" source .standard (n + 2)
          = (Operator.Table.standard.declare "~" 5).declare "!" 5)
    ∧ tableAfter "sel" "func binary ~ 5 (x, y) x; a ~" .standard 2
        = Operator.Table.standard.declare "~" 5 := by
  refine ⟨⟨_, rfl, by decide +kernel, fun n => ?_⟩, ?_⟩
  · obtain ⟨entries, again, -, -, -, hafter, -⟩ := table_of_rereading "sel"
      ("func binary ~ 5 (x, y) x; while a ! b; func binary ~ 7 (x, y) x; "
        ++ "func binary ! 5 (x, y) x") .standard
    rw [hafter n, ← hafter 0]
    decide +kernel
  · obtain ⟨entries, again, -, hwhole, -, -, -, hsingle, -⟩ :=
      table_of_rereading "sel" "func binary ~ 5 (x, y) x; a ~" .standard
    obtain ⟨tokens, htokens⟩ : ∃ tokens,
        tokenize "sel" "func binary ~ 5 (x, y) x; a ~" = .ok tokens :=
      exists_tokens (by decide +kernel)
    have hdeclarations : declarations tokens = [("~", 5)] := by
      have hone : (tokenize "sel" "func binary ~ 5 (x, y) x; a ~").map declarations
          = .ok [("~", 5)] := by decide +kernel
      rw [htokens] at hone
      exact Except.ok.inj hone
    have hsubset := (hwhole htokens).subset
    rw [hdeclarations] at hsubset
    rw [hsingle fun spelling first second hfirst hsecond => ?_]
    · decide +kernel
    · have hfirst := List.mem_singleton.1 (hsubset hfirst)
      have hsecond := List.mem_singleton.1 (hsubset hsecond)
      rw [(Prod.mk.inj hfirst).2, (Prod.mk.inj hsecond).2]

end Fixity.Language
