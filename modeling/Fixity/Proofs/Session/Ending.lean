/-
  Fixity.Proofs.Session.Ending
  ────────────────────────────────
  **WHAT IS REPORTED WHEN THE LINES END.**

  A run over lines answers each of them: with help, with the forms of the input that it
  completes, or with a report of why that input is no program.  A line that leaves a block
  open is answered by a later one.  If there is none, the run ends all the same, and
  nothing is said of the text that is kept.  So every line is reported exactly if the last
  one leaves no block open.

  Main results: `conversation_eq` (what is written, turn by turn), `answered_of_idle` (no
  text kept, no line unanswered) and `reported_iff`.
-/
import Mathlib.Data.List.Basic
import Fixity.CommandLine
import Fixity.Proofs.Session.Conservation
import Fixity.Proofs.Session.Rereading

namespace Fixity.CommandLine

open Session

variable {session : Session} {lines : List String}

/-! ## §1. Turns of a run. -/

/-- The turns of the lines of an input. -/
def rounds (input : String) : List Turn := turns (.start .standard) (inputLines input)

/-- The session in which the lines of an input end. -/
def atEnd (input : String) : Session := fed (.start .standard) (inputLines input)

/-- What is written in a turn: the prompt, the listing if it is asked for, the answer. -/
def told (showTokens : Bool) (turn : Turn) : Written :=
  prompt turn.before ++ (listingIf showTokens defaultFile turn.line ++ shown turn.answer)

/-- A conversation, turn by turn, with the prompt that gets no line. -/
theorem conversation_eq (showTokens : Bool) (session : Session) (lines : List String) :
    conversation showTokens session lines
      = (turns session lines).foldr (fun turn rest => told showTokens turn ++ rest)
          (prompt (fed session lines)) := by
  induction lines generalizing session with
  | nil => rfl
  | cons line rest ih =>
      rw [conversation_cons]
      show told showTokens ⟨session, line⟩ ++ conversation showTokens (session.feed line).2 rest = _
      rw [ih]
      rfl

/-- No line of an input is empty: what ends an input is not a line. -/
theorem inputLines_full (input : String) : ∀ line ∈ inputLines input, line ≠ "" := by
  intro line hmem
  obtain ⟨text, htext, rfl⟩ := List.mem_map.1 hmem
  intro hempty
  apply Text.lines_ne_nil input.toList text htext
  simpa using hempty

/-! ## §2. Which lines are answered. -/

/-- The input that the first of several turns belongs to comes to its end: the turn finishes
it, or keeps it for one that does. -/
inductive Finishes : List Turn → Prop
  /-- The turn finishes the input. -/
  | here {turn : Turn} {text : String} {rest : List Turn} :
      turn.finished? = some text → Finishes (turn :: rest)
  /-- A block is open, and a later turn finishes the input. -/
  | later {turn : Turn} {rest : List Turn} :
      turn.answer = .incomplete → Finishes rest → Finishes (turn :: rest)

/-- The first of several turns gets an answer: help, or what its input is read as. -/
def Answered (turns : List Turn) : Prop :=
  (∃ turn ∈ turns.head?, turn.answer = .help) ∨ Finishes turns

/-- Each of several turns gets an answer. -/
def AllAnswered (turns : List Turn) : Prop :=
  ∀ before turn after, turns = before ++ turn :: after → Answered (turn :: after)

/-- A turn that finishes nothing gave help, or left a block open. -/
theorem answer_of_unfinished {turn : Turn} (h : turn.finished? = none) :
    turn.answer = .help ∨ turn.answer = .incomplete := by
  unfold Turn.finished? at h
  generalize turn.answer = answer at h
  cases answer with
  | forms => cases h
  | incomplete => exact .inr rfl
  | help => exact .inl rfl
  | failed => cases h

/-- An input that is kept comes to its end if no text is kept after all lines. -/
theorem finishes_of_pending (full : ∀ line ∈ lines, line ≠ "") (hopen : session.pending ≠ "")
    (hidle : (fed session lines).pending = "") : Finishes (turns session lines) := by
  induction lines generalizing session with
  | nil => exact absurd hidle hopen
  | cons line rest ih =>
      obtain ⟨hline, hrest⟩ := List.forall_mem_cons.1 full
      have hkept := kept ⟨session, line⟩ hline
      cases hfinished : (Turn.mk session line).finished? with
      | some text => exact .here hfinished
      | none =>
          -- no help is given while text is kept, so the line left the block open
          rcases answer_of_unfinished hfinished with hhelp | hincomplete
          · exact absurd (hkept.help hhelp).1 hopen
          · have hnext := of_decide_eq_true (hkept.pending.2 hincomplete)
            exact .later hincomplete (ih hrest hnext hidle)

/-- A turn of a row of lines starts the turns of the lines from its own on. -/
theorem turns_split {before after : List Turn} {turn : Turn}
    (h : turns session lines = before ++ turn :: after) :
    ∃ earlier line later, lines = earlier ++ line :: later ∧ turn = ⟨fed session earlier, line⟩
      ∧ after = turns turn.after later := by
  induction before generalizing session lines with
  | nil =>
      cases lines with
      | nil => cases h
      | cons line rest =>
          obtain ⟨rfl, rfl⟩ := List.cons.inj h
          exact ⟨[], line, rest, rfl, rfl, rfl⟩
  | cons first before ih =>
      cases lines with
      | nil => cases h
      | cons line rest =>
          obtain ⟨-, hmore⟩ := List.cons.inj h
          obtain ⟨earlier, own, later, rfl, hturn, hafter⟩ := ih hmore
          exact ⟨line :: earlier, own, later, rfl, hturn, hafter⟩

/-- If no text is kept after all lines, each of them has been answered. -/
theorem answered_of_idle (full : ∀ line ∈ lines, line ≠ "")
    (hidle : (fed session lines).pending = "") : AllAnswered (turns session lines) := by
  intro before turn after hsplit
  obtain ⟨earlier, line, later, rfl, rfl, rfl⟩ := turns_split hsplit
  obtain ⟨-, hfull⟩ := List.forall_mem_append.1 full
  obtain ⟨hline, hlater⟩ := List.forall_mem_cons.1 hfull
  have hkept := kept ⟨fed session earlier, line⟩ hline
  cases hfinished : (Turn.mk (fed session earlier) line).finished? with
  | some text => exact .inr (.here hfinished)
  | none =>
      rcases answer_of_unfinished hfinished with hhelp | hincomplete
      · exact .inl ⟨_, rfl, hhelp⟩
      · have hopen := of_decide_eq_true (hkept.pending.2 hincomplete)
        have hend : (fed (Turn.mk (fed session earlier) line).after later).pending = "" := by
          rw [fed_append] at hidle
          exact hidle
        exact .inr (.later hincomplete (finishes_of_pending hlater hopen hend))

/-- What is kept after some lines was left open by the last of them. -/
theorem last_of_pending (line : String)
    (hopen : (fed session (lines ++ [line])).pending ≠ "") :
    ∃ error, (Turn.mk (fed session lines) line).answer = .incomplete
      ∧ (Program.ofSource defaultFile (fed session (lines ++ [line])).pending
          (fed session lines).table).result = .error error
      ∧ error.fault = .unterminatedBlock := by
  have hend : fed session (lines ++ [line]) = ((fed session lines).feed line).2 :=
    fed_append session lines [line]
  rw [hend] at hopen ⊢
  have hincomplete : ((fed session lines).feed line).1 = .incomplete :=
    (isPending_feed_iff _ _).1 (decide_eq_true hopen)
  obtain ⟨tokens, error, htokens, herror, hfault, hnext⟩ :=
    answer_of_incomplete (Prod.ext hincomplete rfl)
  refine ⟨error, hincomplete, ?_, hfault⟩
  rw [congrArg Session.pending hnext]
  show (Program.ofSource _ ((fed session lines).extended line) _).result = _
  rw [Language.ofSource_of_tokenize htokens]
  exact herror

/-- What is kept at the end of an input was left open by its last line. -/
theorem last_of_atEnd {input : String} (hopen : (atEnd input).pending ≠ "") :
    ∃ earlier last error, rounds input = earlier ++ [last] ∧ last.answer = .incomplete
      ∧ (Program.ofSource defaultFile (atEnd input).pending last.before.table).result
          = .error error
      ∧ error.fault = .unterminatedBlock := by
  unfold atEnd at hopen
  unfold atEnd rounds
  generalize inputLines input = lines at hopen
  rcases List.eq_nil_or_concat' lines with rfl | ⟨lines, line, rfl⟩
  · exact absurd rfl hopen
  · obtain ⟨error, hanswer, herror, hfault⟩ := last_of_pending line hopen
    exact ⟨_, _, error, turns_append _ _ _, hanswer, herror, hfault⟩

/-- A last turn that leaves a block open gets no answer. -/
theorem not_answered_of_incomplete {last : Turn} (h : last.answer = .incomplete) :
    ¬ Answered [last] := by
  intro hanswered
  rcases hanswered with ⟨turn, hturn, hhelp⟩ | hfinishes
  · cases hturn
    rw [h] at hhelp
    cases hhelp
  · cases hfinishes with
    | here hfinished =>
        unfold Turn.finished? at hfinished
        rw [h] at hfinished
        cases hfinished
    | later _ hmore => cases hmore

/-! ## §3. What is reported. -/

/-- The last turn of an input shows what the input is read as: its forms, or a report. -/
def Reported (input : List Turn) : Prop :=
  ∃ earlier last, input = earlier ++ [last]
    ∧ ((∃ forms, (Program.ofSource defaultFile (typed input) last.before.table).result = .ok forms
        ∧ shown last.answer = .lines (forms.map Form.line))
      ∨ ∃ error, (Program.ofSource defaultFile (typed input) last.before.table).result = .error error
        ∧ shown last.answer = .error (error.report (typed input)))

/-- An input that is finished is reported. -/
theorem reported_of_isInput {input : List Turn} (full : ∀ turn ∈ input, turn.line ≠ "")
    (h : IsInput input) : Reported input := by
  obtain ⟨earlier, last, rfl, -, hfinished⟩ := h
  have hline : last.line ≠ "" := full last (by simp)
  refine ⟨earlier, last, rfl, ?_⟩
  have hkept := kept last hline
  generalize typed (earlier ++ [last]) = text at hfinished ⊢
  unfold Turn.finished? at hfinished
  rw [extended_eq last.before hline] at hfinished
  cases hanswer : last.answer with
  | help =>
      rw [hanswer] at hfinished
      cases hfinished
  | incomplete =>
      rw [hanswer] at hfinished
      cases hfinished
  | forms forms =>
      rw [hanswer] at hfinished
      cases hfinished
      exact .inl ⟨forms, (hkept.forms forms hanswer).2, rfl⟩
  | failed error source =>
      rw [hanswer] at hfinished
      cases hfinished
      exact .inr ⟨error, (hkept.failed error _ hanswer).2.2, rfl⟩

/-- **Every line is reported exactly if the last one leaves no block open.**  A run over lines
writes what its turns tell, with one prompt at the end, and exits well.  The turns fall into
inputs, each shown as its forms or with a report, and a rest of which nothing is shown but
help.  Each line gets its answer if and only if no text is kept at the end; a text that is
kept ends inside a block, and no report says so. -/
theorem reported_iff (showTokens : Bool) (input : String) :
    runLines showTokens input
        = ⟨banner ++ (rounds input).foldr (fun turn rest => told showTokens turn ++ rest)
            (prompt (atEnd input)), 0⟩
    ∧ (∃ (inputs : List (List Turn)) (rest : List Turn),
        rounds input = inputs.flatten ++ rest
          ∧ (∀ text ∈ inputs, IsInput text ∧ Reported text)
          ∧ (∀ turn ∈ rest, turn.answer = .help ∨ turn.answer = .incomplete)
          ∧ (atEnd input).pending = typed rest)
    ∧ (AllAnswered (rounds input) ↔ (atEnd input).pending = "")
    ∧ ((atEnd input).pending ≠ "" →
        ∃ earlier last error, rounds input = earlier ++ [last] ∧ last.answer = .incomplete
          ∧ (Program.ofSource defaultFile (atEnd input).pending last.before.table).result
              = .error error
          ∧ error.fault = .unterminatedBlock) := by
  have full := inputLines_full input
  refine ⟨?_, ?_, ⟨?_, answered_of_idle full⟩, last_of_atEnd⟩
  · unfold runLines
    rw [conversation_eq]
    rfl
  · obtain ⟨inputs, rest, hrounds, hinputs, hrest, hpending⟩ :=
      exists_inputs (.start .standard) full (List.forall_mem_nil _) rfl
    rw [List.nil_append] at hrounds
    refine ⟨inputs, rest, hrounds, fun text htext => ⟨hinputs text htext, ?_⟩,
      fun turn hturn => answer_of_unfinished (hrest turn hturn), hpending⟩
    refine reported_of_isInput (fun turn hturn => ?_) (hinputs text htext)
    apply full
    rw [← lines_of_turns (.start .standard) (inputLines input), hrounds]
    exact List.mem_map_of_mem (List.mem_append_left _ (List.mem_flatten.2 ⟨text, htext, hturn⟩))
  · intro hall
    by_contra hopen
    obtain ⟨earlier, last, error, hrounds, hanswer, -, -⟩ := last_of_atEnd hopen
    exact not_answered_of_incomplete hanswer (hall earlier last [] hrounds)

/-- An expression, then a block that no line closes: the file is refused, the lines are not. -/
theorem open_block_unreported :
    runLines false "a;\n\x7b b;\n"
        = ⟨⟨"sel-parse 0.1.0 (type `help;` for help)\nready> expr a\nready>    ...> ", ""⟩, 0⟩
      ∧ (runFile false defaultFile "a;\n\x7b b;\n").exit = 1
      ∧ (atEnd "a;\n\x7b b;\n").pending = "\x7b b;\n"
      ∧ ¬ AllAnswered (rounds "a;\n\x7b b;\n")
      ∧ ∃ earlier last error, rounds "a;\n\x7b b;\n" = earlier ++ [last]
          ∧ last.answer = .incomplete
          ∧ (Program.ofSource defaultFile "\x7b b;\n" last.before.table).result = .error error
          ∧ error.fault = .unterminatedBlock := by
  have hkept : (atEnd "a;\n\x7b b;\n").pending = "\x7b b;\n" := by decide +kernel
  have hopen : (atEnd "a;\n\x7b b;\n").pending ≠ "" := by decide +kernel
  obtain ⟨-, -, hall, hlast⟩ := reported_iff false "a;\n\x7b b;\n"
  have hend := hlast hopen
  rw [hkept] at hend
  exact ⟨by decide +kernel, by decide +kernel, hkept, fun h => hopen (hall.1 h), hend⟩

end Fixity.CommandLine
