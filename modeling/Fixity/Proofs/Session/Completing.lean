/-
  Fixity.Proofs.Session.Completing
  ────────────────────────────────
  **A REQUEST FOR MORE CAN BE MET.**

  Only a text that ends inside a block asks for more, and every such text is the
  beginning of a program: what finishes its block, and all that is begun around it, can
  be written behind it.

  This is about the table that the text was read from.  A session reads the text again
  with each line, and then with what the text declares, so its beginning may be read in
  another way than before.

  Main result: `incomplete_completable`.
-/
import Fixity.Proofs.Language.Closing
import Fixity.Proofs.Session.Rereading

namespace Fixity.Session

open Fixity.Language
open Text (byteLength)

/-- **A text that asks for more is the beginning of a program.**  If reading a text stops
because it ends inside a block, some text after it makes it one that is read from the same
table.  So does some text after what a session keeps, for the table that the session had
when the last line came. -/
theorem incomplete_completable {file source : String} {table : Operator.Table}
    (bounded : byteLength source.toList < 536870912) :
    ((∃ error, (Program.ofSource file source table).result = .error error
        ∧ error.fault = .unterminatedBlock) → Completable file source table)
      ∧ ∀ (session : Session) (line : String), (session.feed line).1 = .incomplete →
          (session.feed line).2.pending = source → Completable defaultFile source session.table := by
  constructor
  · rintro ⟨error, herror, hfault⟩
    obtain ⟨tokens, entries, htokens, hunfinished⟩ :=
      unfinished_of_ofSource herror hfault (by omega)
    exact completable_of_unfinished htokens hunfinished bounded
  · intro session line hanswer hpending
    have hfeed : session.feed line = (.incomplete, (session.feed line).2) := Prod.ext hanswer rfl
    obtain ⟨_, _, -, -, -, hnext⟩ := answer_of_incomplete hfeed
    have hsource : session.extended line = source := by rw [← hpending, hnext]
    rw [← hsource] at bounded ⊢
    obtain ⟨_, entries, htokens, -, hunfinished, -⟩ := feed_of_incomplete hfeed (by omega)
    exact completable_of_unfinished htokens hunfinished bounded

/-- A loop in the count of another one, in an index, in a condition and in an argument: what
is missing finishes them from the inside out. -/
theorem open_loop_completable :
    Program.ofSource "sel" "f(a, if b[rept (while c \x7b d;\n" .standard
        = ⟨.error ⟨.unterminatedBlock, ⟨29, "sel"⟩⟩, .standard⟩
      ∧ Completable "sel" "f(a, if b[rept (while c \x7b d;\n" .standard
      ∧ ((start .standard).feed "f(a, if b[rept (while c \x7b d;").1 = .incomplete
      ∧ Completable defaultFile "f(a, if b[rept (while c \x7b d;\n" .standard
      ∧ (Program.ofSource "sel" ("f(a, if b[rept (while c \x7b d;\n" ++ "\x7d ) 0 ] then 0 )")
          .standard).result
        = .ok [.expression ⟨.anonymous, .call "f" [.scalar "a", .branch
            (.var "b" [.repeatLoop (.whileLoop (.scalar "c") (.block [.scalar "d"]))
              (.number (.finite false 0))]) (.number (.finite false 0)) none]⟩] := by
  have hfails : Program.ofSource "sel" "f(a, if b[rept (while c \x7b d;\n" .standard
      = ⟨.error ⟨.unterminatedBlock, ⟨29, "sel"⟩⟩, .standard⟩ := by decide +kernel
  have hkept : Program.ofSource defaultFile "f(a, if b[rept (while c \x7b d;\n" .standard
      = ⟨.error ⟨.unterminatedBlock, ⟨29, "shell"⟩⟩, .standard⟩ := by decide +kernel
  have hfeed : (start .standard).feed "f(a, if b[rept (while c \x7b d;"
      = (.incomplete, ⟨.standard, "f(a, if b[rept (while c \x7b d;\n"⟩) := by
    rw [feed_eq_answer _ _ fun _ => by decide]
    show answer "f(a, if b[rept (while c \x7b d;\n" (Program.ofSource defaultFile
      "f(a, if b[rept (while c \x7b d;\n" .standard) = _
    rw [hkept]
    rfl
  obtain ⟨hsource, hsession⟩ :=
    @incomplete_completable "sel" "f(a, if b[rept (while c \x7b d;\n" .standard (by decide)
  exact ⟨hfails, hsource ⟨_, congrArg Outcome.result hfails, rfl⟩, by rw [hfeed],
    hsession (start .standard) _ (by rw [hfeed]) (by rw [hfeed]), by decide +kernel⟩

end Fixity.Session
