/-
  Fixity.Main
  ────────────────────────────────
  **THE PROGRAM.**

  Reads the arguments, the file or the lines, and writes what
  `Fixity.CommandLine` says.
-/
import Fixity.CommandLine

namespace Fixity.CommandLine

/-- Writes to the two outputs. -/
def Written.put (written : Written) : IO Unit := do
  IO.print written.out
  (← IO.getStdout).flush
  IO.eprint written.err

/-- Answers lines until there are no more. -/
partial def converse (showTokens : Bool) (session : Session) : IO Unit := do
  (prompt session).put
  let line ← (← IO.getStdin).getLine
  if line.isEmpty then return
  let (written, session') := answerLine showTokens session line
  written.put
  converse showTokens session'

/-- Runs over a file. -/
def runPath (showTokens : Bool) (path : String) : IO UInt32 := do
  let transcript ←
    try
      let content ← IO.FS.readFile path
      pure (runFile showTokens path content)
    catch
      | .noFileOrDirectory .. => pure (runUnreadable path noSuchFile)
      | reason => pure (runUnreadable path (toString reason))
  transcript.written.put
  return transcript.exit

/-- Runs as the arguments ask. -/
def run (args : List String) : IO UInt32 := do
  match Options.ofArgs? args with
  | none =>
    (Written.error "Usage: sel-parse [--tokens] [--verbose] [FILE]").put
    return 2
  | some ⟨some path, showTokens⟩ => runPath showTokens path
  | some ⟨none, showTokens⟩ =>
    banner.put
    converse showTokens (.start .standard)
    return 0

end Fixity.CommandLine

def main (args : List String) : IO UInt32 := Fixity.CommandLine.run args
