/-
  Fixity.Session
  ────────────────────────────────
  **A SESSION OF LINES.**

  A session takes a program line by line.  Lines are kept until they form a whole
  program; only an open block asks for more.  Every line has the WHOLE of the kept
  text read again.  All programs of a session share one table of operators, and
  what was declared stays declared even if the text that declared it fails.

  Main results: `isPending_feed_iff` (text is kept exactly when more is asked for)
  and `feed_help` (help changes nothing).
-/
import Fixity.Program
import Fixity.Text.Blank

namespace Fixity

/-- What is known between two lines. -/
structure Session where
  /-- The operators. -/
  table : Operator.Table
  /-- The lines that wait for the end of a block. -/
  pending : String

/-- What a session says to a line. -/
inductive Answer where
  /-- The lines are a program. -/
  | forms (forms : List Form)
  /-- A block is still open. -/
  | incomplete
  /-- The line asked for help. -/
  | help
  /-- The lines, given back as `source`, are no program. -/
  | failed (error : Error) (source : String)

namespace Session

/-- The line that asks for help. -/
def helpCommand : String := "help;"

/-- The help. -/
def helpText : String :=
  "\n".intercalate
    ["Enter SEL expressions or definitions; each parsed form is printed.",
     "  func name(a, b) body              define a function",
     "  func unary OP (v) body            define a prefix operator",
     "  func binary OP PREC (a, b) body   define a binary operator, PREC in 1..18",
     "An open `\x7b` continues the input on the next line."]

/-- A session without lines. -/
def start (table : Operator.Table) : Session := ⟨table, ""⟩

/-- Whether lines wait for the end of a block. -/
def isPending (session : Session) : Bool := session.pending ≠ ""

/-- Whether a line asks for help, blanks around it aside. -/
def asksForHelp (line : String) : Bool := Text.trim line.toList == helpCommand.toList

/-- A text with a newline at its end. -/
def closed (text : String) : String :=
  if text.toList.getLast? = some '\n' then text else text.push '\n'

/-- The kept text with one more line. -/
def extended (session : Session) (line : String) : String := closed (session.pending ++ line)

/-- Takes a line. -/
def feed (session : Session) (line : String) : Answer × Session :=
  if !session.isPending && asksForHelp line then (.help, session)
  else
    let source := session.extended line
    let outcome := Program.ofSource defaultFile source session.table
    match outcome.result with
    | .ok forms => (.forms forms, ⟨outcome.table, ""⟩)
    | .error error =>
      if error.fault = .unterminatedBlock then (.incomplete, ⟨outcome.table, source⟩)
      else (.failed error source, ⟨outcome.table, ""⟩)

/-! ## §1. What is kept. -/

theorem closed_ne_empty (text : String) : closed text ≠ "" := by
  unfold closed
  split
  · next h => rintro rfl; simp at h
  · intro h
    have := congrArg String.toList h
    simp at this

/-- Help changes nothing. -/
theorem feed_help {session : Session} {line : String} (idle : session.isPending = false)
    (asks : asksForHelp line = true) : session.feed line = (.help, session) := by
  simp [feed, idle, asks]

/-- Text is kept exactly when more is asked for. -/
theorem isPending_feed_iff (session : Session) (line : String) :
    (session.feed line).2.isPending = true ↔ (session.feed line).1 = .incomplete := by
  unfold feed
  split
  · next h => simp_all
  · simp only
    split
    · simp [isPending]
    · split
      · simp [isPending, extended, closed_ne_empty]
      · simp [isPending]

end Session
end Fixity
