/-
  Fixity.Proofs.Session.Conservation
  ────────────────────────────────
  **NO LINE IS LOST, AND NONE IS READ TWICE.**

  A session keeps the lines of an open block and gives them up all at once, when they
  are a program or when they fail.  So the texts of the inputs that it has finished,
  one after the other, with the kept text behind them are what was typed: every line
  closed with a newline, in order, but for the lines that asked for help.

  One line, a turn, either finishes the input that it belongs to or is kept; a row of
  turns falls into inputs, each with the turns since the one before, and a rest that is
  kept.  An empty line is left out: while text is kept it adds nothing, since that text
  is closed already.

  Main results: `kept` (what one turn does), `text_conserved` and `exists_inputs` (what a
  row of turns does, by induction), together `input_conserved`.
-/
import Fixity.Session

namespace Fixity.Session

variable {session : Session} {lines : List String} {line : String}

/-! ## §1. What a session does with a line. -/

/-- The four ways to take a line: the answer, and the session after it. -/
inductive Takes (session : Session) (line : String) : Answer → Session → Prop
  /-- The line asks for help while no text is kept. -/
  | help : session.pending = "" → Takes session line .help session
  /-- The kept text with the line is a program. -/
  | forms {forms : List Form} {last : Operator.Table} :
      Program.ofSource defaultFile (session.pending ++ closed line) session.table
        = ⟨.ok forms, last⟩ →
      Takes session line (.forms forms) ⟨last, ""⟩
  /-- It ends inside a block. -/
  | incomplete {error : Error} {last : Operator.Table} :
      Program.ofSource defaultFile (session.pending ++ closed line) session.table
        = ⟨.error error, last⟩ →
      Takes session line .incomplete ⟨last, session.pending ++ closed line⟩
  /-- It is no program. -/
  | failed {error : Error} {last : Operator.Table} :
      Program.ofSource defaultFile (session.pending ++ closed line) session.table
        = ⟨.error error, last⟩ →
      Takes session line (.failed error (session.pending ++ closed line)) ⟨last, ""⟩

/-- A line that is not empty ends the text as it ends itself. -/
theorem extended_eq (session : Session) (full : line ≠ "") :
    session.extended line = session.pending ++ closed line := by
  have hne : line.toList ≠ [] := fun hnil => full (String.toList_eq_nil_iff.1 hnil)
  have hlast : (session.pending ++ line).toList.getLast? = line.toList.getLast? := by
    rw [String.toList_append, List.getLast?_append, List.getLast?_eq_some_getLast hne]
    rfl
  unfold extended closed
  rw [hlast]
  split
  · rfl
  · apply String.toList_inj.1
    simp

/-- A session takes a line in one of the four ways. -/
theorem takes_feed (session : Session) (full : line ≠ "") :
    Takes session line (session.feed line).1 (session.feed line).2 := by
  unfold feed
  split
  · next h =>
    rw [Bool.and_eq_true, Bool.not_eq_true'] at h
    have hidle : session.pending = "" := by simpa [isPending] using h.1
    exact .help hidle
  · rw [extended_eq session full]
    dsimp only
    rcases hread : Program.ofSource defaultFile (session.pending ++ closed line) session.table
      with ⟨error | forms, last⟩
    · dsimp only
      split
      · exact .incomplete hread
      · exact .failed hread
    · exact .forms hread

/-! ## §2. One turn. -/

/-- A line that is fed to a session. -/
structure Turn where
  /-- The session before. -/
  before : Session
  /-- The line. -/
  line : String

namespace Turn

/-- What the session answers. -/
def answer (turn : Turn) : Answer := (turn.before.feed turn.line).1

/-- The session after the line. -/
def after (turn : Turn) : Session := (turn.before.feed turn.line).2

/-- What a line adds to the text that was typed: the line, closed, unless it asks for help. -/
def added (turn : Turn) : String :=
  match turn.answer with
  | .help => ""
  | _ => closed turn.line

/-- The text that is finished with a line, as a program or as a failure. -/
def finished? (turn : Turn) : Option String :=
  match turn.answer with
  | .forms _ => some (turn.before.extended turn.line)
  | .failed _ source => some source
  | _ => none

/-- What a turn does with the kept text and the line. -/
structure Kept (turn : Turn) : Prop where
  /-- Text is kept exactly if the line left a block open. -/
  pending : turn.after.isPending = true ↔ turn.answer = .incomplete
  /-- Help is given only if no text is kept, and changes nothing. -/
  help : turn.answer = .help → turn.before.pending = "" ∧ turn.after = turn.before
  /-- A block that is open keeps the line. -/
  incomplete : turn.answer = .incomplete →
    turn.after.pending = turn.before.pending ++ closed turn.line
  /-- Forms are what the kept text with the line is read as, and none of it is kept. -/
  forms : ∀ forms, turn.answer = .forms forms → turn.after.pending = ""
    ∧ (Program.ofSource defaultFile (turn.before.pending ++ closed turn.line)
        turn.before.table).result = .ok forms
  /-- A failure gives back the kept text with the line, and none of it is kept. -/
  failed : ∀ error source, turn.answer = .failed error source → turn.after.pending = ""
    ∧ source = turn.before.pending ++ closed turn.line
    ∧ (Program.ofSource defaultFile source turn.before.table).result = .error error

end Turn

/-- A turn is one of the four. -/
theorem takes (turn : Turn) (full : turn.line ≠ "") :
    Takes turn.before turn.line turn.answer turn.after := takes_feed turn.before full

/-- What a turn does with the kept text and the line. -/
theorem kept (turn : Turn) (full : turn.line ≠ "") : turn.Kept := by
  have htakes := takes turn full
  have hpending := isPending_feed_iff turn.before turn.line
  change turn.after.isPending = true ↔ turn.answer = .incomplete at hpending
  constructor
  all_goals
    generalize turn.answer = answer at htakes hpending
    generalize turn.after = next at htakes hpending
  case pending => exact hpending
  case help =>
    rintro rfl
    cases htakes with
    | help idle => exact ⟨idle, rfl⟩
  case incomplete =>
    rintro rfl
    cases htakes with
    | incomplete hread => rfl
  case forms =>
    rintro forms rfl
    cases htakes with
    | forms hread => exact ⟨rfl, by rw [hread]⟩
  case failed =>
    rintro error source rfl
    cases htakes with
    | failed hread => exact ⟨rfl, rfl, by rw [hread]⟩

/-- What is finished with a turn and what is kept after it are what was kept before and what
the line adds. -/
theorem text_of_turn (turn : Turn) (full : turn.line ≠ "") :
    turn.finished?.getD "" ++ turn.after.pending = turn.before.pending ++ turn.added := by
  have htakes := takes turn full
  have hextended := extended_eq turn.before full
  unfold Turn.finished? Turn.added
  rw [hextended]
  generalize turn.answer = answer at htakes
  generalize turn.after = next at htakes
  cases htakes with
  | help idle => exact String.empty_append.trans String.append_empty.symm
  | forms hread => exact String.append_empty
  | incomplete hread => exact String.empty_append
  | failed hread => exact String.append_empty

/-- Where an input is finished, none of it is kept. -/
theorem pending_of_finished? (turn : Turn) (full : turn.line ≠ "") {text : String}
    (h : turn.finished? = some text) : turn.after.pending = "" := by
  have htakes := takes turn full
  unfold Turn.finished? at h
  generalize turn.answer = answer at htakes h
  generalize turn.after = next at htakes
  cases htakes with
  | help idle => cases h
  | forms hread => rfl
  | incomplete hread => cases h
  | failed hread => rfl

/-! ## §3. Many turns. -/

/-- The turns of several lines. -/
def turns (session : Session) : List String → List Turn
  | [] => []
  | line :: rest => ⟨session, line⟩ :: turns (session.feed line).2 rest

/-- The session after several lines. -/
def fed (session : Session) (lines : List String) : Session :=
  lines.foldl (fun session line => (session.feed line).2) session

/-- The texts that are finished in a row of turns, one after the other. -/
def finished (turns : List Turn) : String := String.join (turns.filterMap Turn.finished?)

/-- What a row of lines adds to the text that was typed. -/
def typed (turns : List Turn) : String := String.join (turns.map Turn.added)

/-- Every line has its turn. -/
theorem lines_of_turns (session : Session) (lines : List String) :
    (turns session lines).map Turn.line = lines := by
  induction lines generalizing session with
  | nil => rfl
  | cons line rest ih =>
      show line :: (turns (session.feed line).2 rest).map Turn.line = line :: rest
      rw [ih]

/-- Lines after lines are fed to the session that the former leave. -/
theorem fed_append (session : Session) (lines others : List String) :
    fed session (lines ++ others) = fed (fed session lines) others := List.foldl_append

theorem turns_append (session : Session) (lines others : List String) :
    turns session (lines ++ others) = turns session lines ++ turns (fed session lines) others := by
  induction lines generalizing session with
  | nil => rfl
  | cons line rest ih => exact congrArg (Turn.mk session line :: ·) (ih (session.feed line).2)

theorem finished_cons (turn : Turn) (rest : List Turn) :
    finished (turn :: rest) = turn.finished?.getD "" ++ finished rest := by
  unfold finished
  rw [List.filterMap_cons]
  cases turn.finished? with
  | none => exact String.empty_append.symm
  | some text => simp

theorem typed_cons (turn : Turn) (rest : List Turn) :
    typed (turn :: rest) = turn.added ++ typed rest := by
  simp [typed]

/-- What is finished with many turns and what is kept after them are what was kept before and
what the lines add. -/
theorem text_conserved (session : Session) (full : ∀ line ∈ lines, line ≠ "") :
    finished (turns session lines) ++ (fed session lines).pending
      = session.pending ++ typed (turns session lines) := by
  induction lines generalizing session with
  | nil => exact String.empty_append.trans String.append_empty.symm
  | cons line rest ih =>
      obtain ⟨hline, hrest⟩ := List.forall_mem_cons.1 full
      have hturn := text_of_turn ⟨session, line⟩ hline
      have hmore := ih (session.feed line).2 hrest
      calc finished (turns session (line :: rest)) ++ (fed session (line :: rest)).pending
          = (Turn.mk session line).finished?.getD "" ++ finished (turns (session.feed line).2 rest)
              ++ (fed (session.feed line).2 rest).pending := by
            rw [turns, finished_cons]
            rfl
        _ = (Turn.mk session line).finished?.getD "" ++ (session.feed line).2.pending
              ++ typed (turns (session.feed line).2 rest) := by
            rw [String.append_assoc, hmore, String.append_assoc]
        _ = session.pending ++ (Turn.mk session line).added
              ++ typed (turns (session.feed line).2 rest) := by
            rw [← hturn]
            rfl
        _ = session.pending ++ typed (turns session (line :: rest)) := by
            rw [turns, typed_cons, String.append_assoc]

/-! ## §4. Inputs. -/

/-- The turns of one input: the last one finishes it, none before it finishes anything, and
what is finished is the text of all of them. -/
def IsInput (input : List Turn) : Prop :=
  ∃ earlier last, input = earlier ++ [last] ∧ (∀ turn ∈ earlier, turn.finished? = none)
    ∧ last.finished? = some (typed input)

theorem typed_append (first second : List Turn) :
    typed (first ++ second) = typed first ++ typed second := by
  simp [typed]

/-- A row of turns, after some that are kept, falls into inputs and turns that are kept. -/
theorem exists_inputs (session : Session) (full : ∀ line ∈ lines, line ≠ "")
    {open_ : List Turn} (hopen : ∀ turn ∈ open_, turn.finished? = none)
    (htext : session.pending = typed open_) :
    ∃ (inputs : List (List Turn)) (kept : List Turn),
      open_ ++ turns session lines = inputs.flatten ++ kept
      ∧ (∀ input ∈ inputs, IsInput input) ∧ (∀ turn ∈ kept, turn.finished? = none)
      ∧ (fed session lines).pending = typed kept := by
  -- on the lines: a turn that finishes nothing is kept, one that does ends the input
  induction lines generalizing session open_ with
  | nil => exact ⟨[], open_, List.append_nil _, List.forall_mem_nil _, hopen, htext⟩
  | cons line rest ih =>
      obtain ⟨hline, hrest⟩ := List.forall_mem_cons.1 full
      have hturn := text_of_turn ⟨session, line⟩ hline
      have hsplit : open_ ++ turns session (line :: rest)
          = (open_ ++ [⟨session, line⟩]) ++ turns (session.feed line).2 rest := by
        rw [turns, List.append_assoc]
        rfl
      have htyped : typed (open_ ++ [⟨session, line⟩])
          = session.pending ++ (Turn.mk session line).added := by
        rw [typed_append, htext]
        simp [typed]
      rw [hsplit]
      cases hfinished : (Turn.mk session line).finished? with
      | none =>
          rw [hfinished] at hturn
          refine ih (session.feed line).2 hrest (fun turn hmem => ?_) ?_
          · obtain hmem | hmem := List.mem_append.1 hmem
            · exact hopen turn hmem
            · rw [List.mem_singleton.1 hmem]
              exact hfinished
          · rw [htyped, ← hturn]
            exact String.empty_append.symm
      | some text =>
          have hempty : (session.feed line).2.pending = "" :=
            pending_of_finished? ⟨session, line⟩ hline hfinished
          obtain ⟨inputs, kept, hall, hinputs, hkept, hpending⟩ :=
            ih (session.feed line).2 hrest (List.forall_mem_nil _) hempty
          refine ⟨(open_ ++ [⟨session, line⟩]) :: inputs, kept, ?_, ?_, hkept, hpending⟩
          · rw [List.flatten_cons, List.append_assoc (open_ ++ _), ← hall, List.nil_append]
          · refine List.forall_mem_cons.2 ⟨⟨open_, _, rfl, hopen, ?_⟩, hinputs⟩
            rw [hfinished, htyped, ← hturn, hfinished]
            show _ = some (text ++ (session.feed line).2.pending)
            rw [hempty, String.append_empty]

/-- **A session loses no input and takes none twice.**  After any number of lines every turn
has kept or given up what it should; the texts that were finished and the text that is kept
are what was typed, the requests for help aside; and each line belongs to one input that was
finished or to the text that is kept. -/
theorem input_conserved (table : Operator.Table) (full : ∀ line ∈ lines, line ≠ "") :
    (∀ turn ∈ turns (start table) lines, turn.Kept)
    ∧ finished (turns (start table) lines) ++ (fed (start table) lines).pending
        = typed (turns (start table) lines)
    ∧ ∃ (inputs : List (List Turn)) (rest : List Turn),
        turns (start table) lines = inputs.flatten ++ rest
          ∧ (∀ input ∈ inputs, IsInput input) ∧ (∀ turn ∈ rest, turn.finished? = none)
          ∧ (fed (start table) lines).pending = typed rest := by
  refine ⟨fun turn hmem => kept turn ?_, ?_, ?_⟩
  · apply full
    rw [← lines_of_turns (start table) lines]
    exact List.mem_map_of_mem hmem
  · rw [text_conserved (start table) full]
    exact String.empty_append
  · exact exists_inputs (start table) full (List.forall_mem_nil _) rfl

/-- A definition over three lines, help, an expression that fails and a loop that is open: the
line in the block that looks like a request for help belongs to the definition. -/
theorem help_inside_block :
    ∃ lines, lines = ["func f(x) \x7b", "help;", "x \x7d", " help;\n", "(a +", "while b \x7b\n"]
      ∧ (∀ line ∈ lines, line ≠ "")
      ∧ (∀ turn ∈ turns (start .standard) lines, turn.Kept)
      ∧ finished (turns (start .standard) lines) = "func f(x) \x7b\nhelp;\nx \x7d\n(a +\n"
      ∧ (fed (start .standard) lines).pending = "while b \x7b\n"
      ∧ finished (turns (start .standard) lines) ++ (fed (start .standard) lines).pending
          = typed (turns (start .standard) lines)
      ∧ ∃ (inputs : List (List Turn)) (rest : List Turn),
          turns (start .standard) lines = inputs.flatten ++ rest
            ∧ (∀ input ∈ inputs, IsInput input) ∧ (∀ turn ∈ rest, turn.finished? = none)
            ∧ (fed (start .standard) lines).pending = typed rest := by
  refine ⟨_, rfl, ?_⟩
  have full : ∀ line ∈ ["func f(x) \x7b", "help;", "x \x7d", " help;\n", "(a +",
      "while b \x7b\n"], line ≠ "" := by decide
  obtain ⟨hkept, htext, hinputs⟩ := input_conserved .standard full
  exact ⟨full, hkept, by decide +kernel, by decide +kernel, htext, hinputs⟩

end Fixity.Session
