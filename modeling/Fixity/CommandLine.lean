/-
  Fixity.CommandLine
  ────────────────────────────────
  **THE COMMAND LINE, AS A FUNCTION.**

  The program reads one file, or lines one after the other.  It can list the
  tokens first.  Forms and tokens go to the output, reports of errors to the error
  output; the exit code of a file tells whether it is a program, and a session
  of lines always ends well.

  Main results: `conversation_nil`, `conversation_cons` (a prompt goes before each
  line and one more at the end).
-/
import Fixity.Report
import Fixity.Session

namespace Fixity.CommandLine

/-! ## §1. What is written. -/

/-- What is written to the two outputs. -/
structure Written where
  /-- The output. -/
  out : String
  /-- The error output. -/
  err : String
deriving Repr, DecidableEq

namespace Written

/-- Nothing. -/
def none : Written := ⟨"", ""⟩

/-- Lines on the output. -/
def lines (texts : List String) : Written :=
  ⟨String.join (texts.map fun text => text ++ "\n"), ""⟩

/-- A line on the error output. -/
def error (text : String) : Written := ⟨"", text ++ "\n"⟩

instance : Append Written :=
  ⟨fun first second => ⟨first.out ++ second.out, first.err ++ second.err⟩⟩

end Written

/-- A whole run. -/
structure Transcript where
  /-- What was written. -/
  written : Written
  /-- The exit code. -/
  exit : UInt32
deriving Repr, DecidableEq

/-- The listing of the tokens of a text, or the report of why there is none. -/
def tokenListing (file source : String) : Written :=
  match tokenize file source with
  | .ok tokens => .lines (tokens.map Token.listed)
  | .error error => .error (error.report source)

/-- The listing, if it is asked for. -/
def listingIf (showTokens : Bool) (file source : String) : Written :=
  if showTokens then tokenListing file source else .none

/-! ## §2. One file. -/

/-- The last component of a path that names a file: the part after the last slash,
with slashes and single dots at the end passed over.  A path that ends in two
dots, or is nothing else, has none and stands for itself. -/
def fileName (path : String) : String :=
  let parts := path.splitOn "/"
  let named := (parts.head?.toList.filter (· ≠ "")) ++ parts.tail.filter fun part =>
    part ≠ "" ∧ part ≠ "."
  match named.getLast? with
  | some name => if name = ".." ∨ name = "." then path else name
  | none => path

/-- The run over a file with the given content. -/
def runFile (showTokens : Bool) (path content : String) : Transcript :=
  let file := fileName path
  let listing := listingIf showTokens file content
  match (Program.ofSource file content .standard).result with
  | .ok forms => ⟨listing ++ .lines (forms.map Form.line), 0⟩
  | .error error => ⟨listing ++ .error (error.report content), 1⟩

/-- The reason given for a file that is not there. -/
def noSuchFile : String := "No such file or directory (os error 2)"

/-- The run over a file that cannot be read. -/
def runUnreadable (path reason : String) : Transcript :=
  ⟨.error ("Error: failed to read " ++ path ++ ": " ++ reason), 1⟩

/-! ## §3. Line by line. -/

/-- What is shown before the first prompt. -/
def banner : Written :=
  .lines ["sel-parse 0.1.0 (type `" ++ Session.helpCommand ++ "` for help)"]

/-- What is shown before a line is read. -/
def prompt (session : Session) : Written :=
  ⟨if session.isPending then "   ...> " else "ready> ", ""⟩

/-- What is shown of an answer. -/
def shown : Answer → Written
  | .forms forms => .lines (forms.map Form.line)
  | .incomplete => .none
  | .help => .lines [Session.helpText]
  | .failed error source => .error (error.report source)

/-- What is shown for a line, and the session after it. -/
def answerLine (showTokens : Bool) (session : Session) (line : String) : Written × Session :=
  let (answer, session') := session.feed line
  (listingIf showTokens defaultFile line ++ shown answer, session')

/-- What is shown from a prompt on, for the lines that follow. -/
def conversation (showTokens : Bool) (session : Session) : List String → Written
  | [] => prompt session
  | line :: rest =>
    let (written, session') := answerLine showTokens session line
    prompt session ++ written ++ conversation showTokens session' rest

/-- The lines of an input, each with the newline that ends it. -/
def inputLines (input : String) : List String := (Text.lines input.toList).map String.ofList

/-- The run over the lines of an input. -/
def runLines (showTokens : Bool) (input : String) : Transcript :=
  ⟨banner ++ conversation showTokens (.start .standard) (inputLines input), 0⟩

/-- A session without lines shows one prompt. -/
theorem conversation_nil (showTokens : Bool) (session : Session) :
    conversation showTokens session [] = prompt session := rfl

/-- A line is answered after a prompt, and the session goes on from there. -/
theorem conversation_cons (showTokens : Bool) (session : Session) (line : String)
    (rest : List String) :
    conversation showTokens session (line :: rest)
      = prompt session ++ (answerLine showTokens session line).1
        ++ conversation showTokens (answerLine showTokens session line).2 rest := rfl

/-! ## §4. Arguments. -/

/-- What the arguments ask for. -/
structure Options where
  /-- The file to read; lines are read if there is none. -/
  path? : Option String
  /-- Whether to list the tokens. -/
  showTokens : Bool
deriving Repr, DecidableEq

/-- Reads the arguments; more than one file, or an unknown option, is refused. -/
def Options.ofArgs? : List String → Option Options
  | [] => some ⟨none, false⟩
  | arg :: rest =>
    (Options.ofArgs? rest).bind fun options =>
      if arg = "--tokens" then some { options with showTokens := true }
      else if arg = "--verbose" ∨ arg = "-v" then some options
      else if arg.toList.head? = some '-' then none
      else if options.path?.isSome then none
      else some { options with path? := some arg }

end Fixity.CommandLine
