/-
  Fixity.Report
  ────────────────────────────────
  **AN ERROR SHOWN AGAINST THE TEXT IT POINTS INTO.**

  A report has five lines: the name of the fault and its tip, the file, an empty
  margin, the source line with its number, and a caret under the place:

      Error: UnmatchedParen (expected `)` to close `(`)
      -> main.sel
         |
      20 | (1 + 2
         | ------^

  The source line is shown without the spaces and tabs in front of it and without
  the blanks at its end; the caret's line counts from the first character shown,
  and the caret has one column to the right of that count of bytes.
-/
import Fixity.Fault
import Fixity.Text.Blank
import Fixity.Text.Line

namespace Fixity

open Text

/-! ## §1. The parts of a report. -/

/-- Whether a character is part of the indentation that a report removes. -/
def isIndent (c : Char) : Bool := c == ' ' || c == '\t'

/-- The heading of a report. -/
def Fault.heading (fault : Fault) : String :=
  match fault.tip? with
  | none => "Error: " ++ fault.name
  | some tip => "Error: " ++ fault.name ++ " (" ++ tip ++ ")"

/-- So many copies of a character. -/
def repeated (count : Nat) (c : Char) : String := String.ofList (List.replicate count c)

/-- The margin in front of a line without a number: as wide as a line number. -/
def margin (number : Nat) : String :=
  repeated ((toString number).length + 1) ' ' ++ "|"

/-- A source line as a report shows it. -/
def shownLine (line : List Char) : List Char := trimEnd (line.dropWhile isIndent)

/-- How many dashes lead to the caret: the bytes before the place that the report
shows, none for a place inside the indentation. -/
def dashes (place : LinePlace) : Nat :=
  place.offset - (place.text.takeWhile isIndent).length

/-! ## §2. The report. -/

/-- The report of an error against the text it points into. -/
def Error.report (error : Error) (source : String) : String :=
  let place := lineAt source.toList error.position.offset.toNat
  "\n".intercalate
    [error.fault.heading,
     "-> " ++ error.position.file,
     margin place.number,
     toString place.number ++ " | " ++ String.ofList (shownLine place.text),
     margin place.number ++ " " ++ repeated (dashes place) '-' ++ "^"]

end Fixity
