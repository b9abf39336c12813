/-
  Fixity.Proofs.Session.Continuing
  ────────────────────────────────
  **LINES THAT A DEFINITION CAN BE TYPED OVER.**

  A session asks for another line only if the text so far ends BETWEEN TWO STATEMENTS of
  an open block: after its brace, after a statement that is complete, or after the
  semicolon behind one.  A line that ends anywhere else inside a block, in the middle of
  an expression or of the head of a loop, fails, and the text is dropped, even if the
  next line would go on with it.

  The text is read again with every line, and each time with what the lines before it
  declare.  That changes where the text ends only if the lines declare an operator that
  the table did not know.

  Main results: `incomplete_iff` (which line asks for another one), `waits_iff` (which
  lines all do) and `assembled_iff` (which lines are taken together).
-/
import Mathlib.Data.List.Induction
import Fixity.Proofs.Language.Breaking
import Fixity.Proofs.Language.Known
import Fixity.Proofs.Session.Rereading

namespace Fixity.Session

open Grammar Read
open Fixity.Language
open Text (byteLength)

variable {table other : Operator.Table} {session next : Session} {lines : List String}
  {line source : String}

/-! ## §1. Where a text ends. -/

/-- The text ends between two statements of an open block: its forms are complete up to
there. -/
def EndsInBlock (table : Operator.Table) (source : String) : Prop :=
  ∃ tokens entries, tokenize defaultFile source = .ok tokens
    ∧ UnfinishedForms table tokens entries

/-- The text is a program. -/
def IsProgram (table : Operator.Table) (source : String) : Prop :=
  ∃ forms, (Program.ofSource defaultFile source table).result = .ok forms

/-- A text ends in a block exactly when that is where reading it stops. -/
theorem endsInBlock_iff (bounded : byteLength source.toList < 4294967296) :
    EndsInBlock table source
      ↔ ∃ error, (Program.ofSource defaultFile source table).result = .error error
          ∧ error.fault = .unterminatedBlock := by
  constructor
  · intro h
    obtain ⟨tokens, entries, htokens, h⟩ := h
    rw [ofSource_of_tokenize htokens]
    exact (asksForMore_iff (cut_of_tokenize htokens bounded)).2 ⟨entries, h⟩
  · intro h
    obtain ⟨error, hresult, hfault⟩ := h
    exact unfinished_of_ofSource hresult hfault bounded

/-- A text ends in a block as well for a table that knows the same operators. -/
theorem EndsInBlock.transfer (same : SameOperators table other) (h : EndsInBlock table source)
    (bounded : byteLength source.toList < 4294967296) : EndsInBlock other source := by
  obtain ⟨tokens, entries, htokens, hunfinished⟩ := h
  exact ⟨tokens, entries, htokens, hunfinished.transfer same (cut_of_tokenize htokens bounded)⟩

/-- A program has tokens, and it is read from them. -/
theorem IsProgram.exists_tokens (h : IsProgram table source) :
    ∃ tokens forms last, tokenize defaultFile source = .ok tokens
      ∧ Program.ofTokens defaultFile tokens table = ⟨.ok forms, last⟩ := by
  obtain ⟨forms, h⟩ := h
  have hread : Program.ofSource defaultFile source table
      = ⟨.ok forms, (Program.ofSource defaultFile source table).table⟩ := by rw [← h]
  obtain ⟨tokens, htokens⟩ := tokenize_of_ofSource hread
  exact ⟨tokens, forms, _, htokens, (ofSource_of_tokenize htokens).symm.trans hread⟩

/-- A text is a program as well for a table that knows the same operators. -/
theorem IsProgram.transfer (same : SameOperators table other) (h : IsProgram table source)
    (bounded : byteLength source.toList < 4294967296) : IsProgram other source := by
  obtain ⟨tokens, forms, last, htokens, hread⟩ := h.exists_tokens
  have cut := cut_of_tokenize htokens bounded
  obtain ⟨mark, hmark, hforms⟩ := (ofTokens_ok_iff cut).1 hread
  obtain ⟨forms', last', hforms'⟩ := hforms.transfer same cut
  refine ⟨forms', ?_⟩
  rw [ofSource_of_tokenize htokens, (ofTokens_ok_iff cut).2 ⟨mark, hmark, hforms'⟩]

/-! ## §2. The answer to a line. -/

/-- A text asks for another line exactly when it ends in a block. -/
theorem answer_incomplete_iff (bounded : byteLength source.toList < 4294967296) :
    (answer source (Program.ofSource defaultFile source table)).1 = .incomplete
      ↔ EndsInBlock table source := by
  rw [endsInBlock_iff bounded]
  unfold answer
  split
  · next hok => simp [hok]
  · next error herror =>
    split
    · next hfault => simp [herror, hfault]
    · next hfault => simp [herror, hfault]

/-- A text is answered with forms exactly when it is a program. -/
theorem answer_forms_iff :
    (∃ forms, (answer source (Program.ofSource defaultFile source table)).1 = .forms forms)
      ↔ IsProgram table source := by
  unfold answer IsProgram
  split
  · next forms hok => simp [hok]
  · next error herror =>
    split <;> simp [herror]

/-- **What a session that waits says to a line.**  The line asks for another one exactly
when the text with it ends between two statements of an open block, as read with the
operators that the lines before it declare.  It gives forms exactly when the text is a
program.  In all other cases it fails. -/
theorem feed_cases (waits : Waits table lines session)
    (plain : lines = [] → asksForHelp line = false)
    (bounded : byteLength (textOf (lines ++ [line])).toList < 4294967296) :
    ((session.feed line).1 = .incomplete
        ↔ EndsInBlock (table.declareAll (declared (textOf lines))) (textOf (lines ++ [line])))
      ∧ ((∃ forms, (session.feed line).1 = .forms forms)
        ↔ IsProgram (table.declareAll (declared (textOf lines))) (textOf (lines ++ [line])))
      ∧ ((∃ error text, (session.feed line).1 = .failed error text)
        ↔ ¬ EndsInBlock (table.declareAll (declared (textOf lines))) (textOf (lines ++ [line]))
          ∧ ¬ IsProgram (table.declareAll (declared (textOf lines))) (textOf (lines ++ [line]))) := by
  have hlength := byteLength_textOf_le lines line
  rw [feed_of_waits waits plain (by omega), ← answer_incomplete_iff bounded, ← answer_forms_iff]
  refine ⟨Iff.rfl, Iff.rfl, ?_⟩
  -- a text that is read is not answered with help
  unfold answer
  split
  · simp
  · split <;> simp

/-! ## §3. Lines that all ask for another one. -/

/-- The first line does not ask for help if more lines follow either. -/
theorem plain_of_append (plain : ∀ first ∈ (lines ++ [line]).head?, asksForHelp first = false) :
    ∀ first ∈ lines.head?, asksForHelp first = false := by
  intro first hmem
  refine plain first ?_
  rw [List.head?_append, Option.mem_def.1 hmem]
  rfl

/-- The lines of a session that waits are those that each leave the text so far inside a
block. -/
theorem waits_iff (plain : ∀ first ∈ lines.head?, asksForHelp first = false)
    (bounded : byteLength (textOf lines).toList < 4294967296) :
    (∃ session, Waits table lines session)
      ↔ ∀ before last, before ++ [last] <+: lines →
          EndsInBlock (table.declareAll (declared (textOf before))) (textOf (before ++ [last])) := by
  -- on the lines from the last one on: a session that waits has fed it to one that waits
  induction lines using List.reverseRecOn with
  | nil =>
      refine ⟨fun _ before last h => ?_, fun _ => ⟨_, .start⟩⟩
      exact absurd (List.prefix_nil.1 h) (by simp)
  | append_singleton lines line ih =>
      have hlength := byteLength_textOf_le lines line
      have hplain := plain_of_append plain
      have hidle : lines = [] → asksForHelp line = false := by
        rintro rfl
        exact plain line rfl
      constructor
      · intro h before last hfront
        obtain ⟨session, h⟩ := h
        generalize hlines : lines ++ [line] = all at h
        cases h with
        | start => exact absurd hlines (by simp)
        | line waits hfeed =>
            obtain ⟨rfl, hline⟩ := List.append_inj' hlines rfl
            cases hline
            obtain heq | hfront := List.prefix_concat_iff.1 hfront
            · obtain ⟨rfl, hlast⟩ := List.append_inj' heq rfl
              cases hlast
              exact (feed_cases waits hidle bounded).1.1 (by rw [hfeed])
            · exact (ih hplain (by omega)).1 ⟨_, waits⟩ before last hfront
      · intro h
        obtain ⟨session, waits⟩ := (ih hplain (by omega)).2 fun before last hfront =>
          h before last (hfront.trans (List.prefix_append _ _))
        have hfeed := (feed_cases waits hidle bounded).1.2 (h lines line (List.prefix_refl _))
        exact ⟨_, .line waits (Prod.ext hfeed rfl)⟩

/-! ## §4. Lines that are taken together. -/

/-- All lines but the last one ask for another one, and the last one gives forms. -/
def Assembled (table : Operator.Table) (lines : List String) (line : String) : Prop :=
  ∃ session, Waits table lines session ∧ ∃ forms, (session.feed line).1 = .forms forms

/-- Lines are taken together exactly if each but the last leaves the text so far inside a
block, and the text of all of them is a program. -/
theorem assembled_iff_declared
    (plain : ∀ first ∈ (lines ++ [line]).head?, asksForHelp first = false)
    (bounded : byteLength (textOf (lines ++ [line])).toList < 4294967296) :
    Assembled table lines line
      ↔ (∀ before last, before ++ [last] <+: lines →
          EndsInBlock (table.declareAll (declared (textOf before))) (textOf (before ++ [last])))
        ∧ IsProgram (table.declareAll (declared (textOf lines))) (textOf (lines ++ [line])) := by
  have hlength := byteLength_textOf_le lines line
  have hidle : lines = [] → asksForHelp line = false := by
    rintro rfl
    exact plain line rfl
  rw [← waits_iff (plain_of_append plain) (by omega)]
  constructor
  · rintro ⟨session, waits, hforms⟩
    exact ⟨⟨session, waits⟩, (feed_cases waits hidle bounded).2.1.1 hforms⟩
  · rintro ⟨⟨session, waits⟩, hprogram⟩
    exact ⟨session, waits, (feed_cases waits hidle bounded).2.1.2 hprogram⟩

/-- More lines go on after the text of the first ones. -/
theorem textOf_append (lines others : List String) :
    ∃ more, textOf (lines ++ others) = textOf lines ++ more := by
  induction others using List.reverseRecOn with
  | nil => exact ⟨"", by rw [List.append_nil, String.append_empty]⟩
  | append_singleton others line ih =>
      obtain ⟨more, hmore⟩ := ih
      obtain ⟨last, hlast⟩ := closed_eq (textOf (lines ++ others) ++ line)
      exact ⟨more ++ line ++ last, by
        rw [← List.append_assoc, textOf_concat, hlast, hmore]
        simp only [String.append_assoc]⟩

theorem byteLength_textOf_prefix {before : List String} (h : before <+: lines) :
    byteLength (textOf before).toList ≤ byteLength (textOf lines).toList := by
  obtain ⟨others, rfl⟩ := h
  obtain ⟨more, hmore⟩ := textOf_append before others
  rw [hmore, String.toList_append, Text.byteLength_append]
  exact Nat.le_add_right _ _

/-- If a table knows what a program declares that was typed over several lines, it knows the
same operators with what the first of these lines declare. -/
theorem sameOperators_declared {before : List String} (h : before <+: lines)
    (ends : ∀ front last, front ++ [last] <+: lines →
      ∃ other, EndsInBlock other (textOf (front ++ [last])))
    (bounded : byteLength (textOf (lines ++ [line])).toList < 4294967296)
    (program : IsProgram other (textOf (lines ++ [line])))
    (known : ∀ entry ∈ declared (textOf (lines ++ [line])), (table.lookup entry.1).isSome) :
    SameOperators table (table.declareAll (declared (textOf before))) := by
  cases before using List.reverseRecOn with
  | nil =>
      rw [declared_nil]
      exact fun _ => rfl
  | append_singleton front last =>
      obtain ⟨tokens, _, _, tokenizes, -⟩ := program.exists_tokens
      obtain ⟨_, others, entries, hothers, hunfinished⟩ := ends front last h
      obtain ⟨rest, hrest⟩ := h.trans (List.prefix_append lines [line])
      obtain ⟨more, hmore⟩ := textOf_append (front ++ [last]) rest
      rw [hrest] at hmore
      -- the lines are closed, so what they declare is declared by the whole text as well
      have hclosed : (textOf (front ++ [last])).toList.getLast? = some '\n' := by
        rw [textOf_concat]
        exact getLast?_closed _
      have hshort := byteLength_textOf_prefix (h.trans (List.prefix_append lines [line]))
      have hentries : declared (textOf (front ++ [last])) = entries := by
        rw [declared, hothers]
        exact hunfinished.declarations (cut_of_tokenize hothers (by omega))
      rw [declared, tokenizes] at known
      rw [hmore] at tokenizes bounded
      obtain ⟨later, hlater⟩ := declarations_further hclosed bounded hothers tokenizes hunfinished
      rw [hentries]
      refine .of_known (fun entry hmem => known entry ?_) hunfinished.pos
      show entry ∈ declarations tokens
      rw [hlater]
      exact List.mem_append_left _ hmem

/-- **A program can be typed over several lines exactly if each of them but the last ends
between two statements of an open block.**  What the lines before a line declare is known
to the reading of the text with that line.  If the table knew these operators from the
start, all of this is about the text as it is read from the first table. -/
theorem assembled_iff (table : Operator.Table) (lines : List String) (line : String)
    (plain : ∀ first ∈ (lines ++ [line]).head?, asksForHelp first = false)
    (bounded : byteLength (textOf (lines ++ [line])).toList < 4294967296) :
    (Assembled table lines line
        ↔ (∀ before last, before ++ [last] <+: lines →
            EndsInBlock (table.declareAll (declared (textOf before))) (textOf (before ++ [last])))
          ∧ IsProgram (table.declareAll (declared (textOf lines))) (textOf (lines ++ [line])))
      ∧ ((∀ entry ∈ declared (textOf (lines ++ [line])), (table.lookup entry.1).isSome) →
        (Assembled table lines line
          ↔ (∀ before last, before ++ [last] <+: lines →
              EndsInBlock table (textOf (before ++ [last])))
            ∧ IsProgram table (textOf (lines ++ [line])))) := by
  refine ⟨assembled_iff_declared plain bounded, fun known =>
    (assembled_iff_declared plain bounded).trans ?_⟩
  have hshort {before : List String} {last : String} (h : before ++ [last] <+: lines) :
      before <+: lines ∧ byteLength (textOf (before ++ [last])).toList < 4294967296 := by
    have hlength := byteLength_textOf_prefix (h.trans (List.prefix_append lines [line]))
    exact ⟨(List.prefix_append _ _).trans h, by omega⟩
  -- each of the two readings shows that the operators known are the same at every line
  constructor
  · rintro ⟨hends, hprogram⟩
    have hsame {before : List String} (h : before <+: lines) :=
      (sameOperators_declared h (fun front last h => ⟨_, hends front last h⟩) bounded hprogram
        known).symm
    exact ⟨fun before last h => (hends before last h).transfer (hsame (hshort h).1) (hshort h).2,
      hprogram.transfer (hsame (List.prefix_refl _)) bounded⟩
  · rintro ⟨hends, hprogram⟩
    have hsame {before : List String} (h : before <+: lines) :=
      sameOperators_declared h (fun front last h => ⟨_, hends front last h⟩) bounded hprogram known
    exact ⟨fun before last h => (hends before last h).transfer (hsame (hshort h).1) (hshort h).2,
      hprogram.transfer (hsame (List.prefix_refl _)) bounded⟩

/-- A definition can be typed with a break after each statement of its block.  Broken after
an operator it is not taken, though its whole text is a program. -/
theorem broken_after_operator :
    (∀ before last, before ++ [last] <+: ["func f(x) \x7b", "x;"] →
        EndsInBlock .standard (textOf (before ++ [last])))
      ∧ Assembled .standard ["func f(x) \x7b", "x;"] "\x7d"
      ∧ IsProgram .standard (textOf ["func f(x) \x7b", "x +", "y \x7d"])
      ∧ ¬ Assembled .standard ["func f(x) \x7b", "x +"] "y \x7d" := by
  have hplain {rest : List String} : ∀ first ∈ ("func f(x) \x7b" :: rest).head?,
      asksForHelp first = false := by
    intro first hmem
    cases hmem
    decide +kernel
  have hone : EndsInBlock .standard (textOf ["func f(x) \x7b"]) :=
    (endsInBlock_iff (by decide)).2 ⟨⟨.unterminatedBlock, ⟨12, "shell"⟩⟩, by decide +kernel, rfl⟩
  have htwo : EndsInBlock .standard (textOf ["func f(x) \x7b", "x;"]) :=
    (endsInBlock_iff (by decide)).2 ⟨⟨.unterminatedBlock, ⟨15, "shell"⟩⟩, by decide +kernel, rfl⟩
  have hends : ∀ before last, before ++ [last] <+: ["func f(x) \x7b", "x;"] →
      EndsInBlock .standard (textOf (before ++ [last])) := by
    intro before last h
    obtain heq | h := List.prefix_concat_iff.1 (show _ <+: ["func f(x) \x7b"] ++ ["x;"] from h)
    · rw [heq]
      exact htwo
    · obtain heq | h := List.prefix_concat_iff.1 (show _ <+: [] ++ ["func f(x) \x7b"] from h)
      · rw [heq]
        exact hone
      · exact absurd (List.prefix_nil.1 h) (by simp)
  have hprogram : IsProgram .standard (textOf (["func f(x) \x7b", "x;"] ++ ["\x7d"])) :=
    ⟨[.definition ⟨⟨"f", ["x"], false, 18⟩, .block [.scalar "x"]⟩], by decide +kernel⟩
  have hnone : declared (textOf (["func f(x) \x7b", "x;"] ++ ["\x7d"])) = [] := by decide +kernel
  refine ⟨hends, ?_, ?_, fun h => ?_⟩
  · refine ((assembled_iff .standard ["func f(x) \x7b", "x;"] "\x7d" hplain (by decide)).2 ?_).2
      ⟨hends, hprogram⟩
    rw [hnone]
    exact nofun
  · exact ⟨[.definition ⟨⟨"f", ["x"], false, 18⟩,
      .block [.binary "+" (.scalar "x") (.scalar "y")]⟩], by decide +kernel⟩
  · have hbreak := ((assembled_iff .standard ["func f(x) \x7b", "x +"] "y \x7d" hplain
      (by decide)).1.1 h).1 ["func f(x) \x7b"] "x +" (List.prefix_refl _)
    rw [show declared (textOf ["func f(x) \x7b"]) = [] by decide +kernel] at hbreak
    obtain ⟨error, hresult, hfault⟩ := (endsInBlock_iff (by decide)).1 hbreak
    have hread : (Program.ofSource defaultFile (textOf (["func f(x) \x7b"] ++ ["x +"]))
        (Operator.Table.standard.declareAll [])).result
          = .error ⟨.unexpectedToken "EOF", ⟨16, "shell"⟩⟩ := by decide +kernel
    rw [hread] at hresult
    cases hresult
    cases hfault

end Fixity.Session
