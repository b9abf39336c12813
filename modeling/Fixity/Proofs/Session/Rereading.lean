/-
  Fixity.Proofs.Session.Rereading
  ────────────────────────────────
  **LINES THAT ARE READ AGAIN.**

  While a block is open a session keeps its lines, and every further line has all of
  them read again.  The table is not kept back: each reading starts from what the
  readings before it declared.  So the last line of an input is answered by reading
  the whole text with ALL OPERATORS THAT THE LINES BEFORE IT DECLARE already in the
  table, also in front of their declarations.

  That is the reading of the text from the first table only if those declarations
  make no difference to it.  They make none if the table says them already.  They
  do make one if an operator that is declared again, with another precedence, or
  one that is new, stands in front of its declaration.

  Main results: `feed_of_incomplete` (what a line that leaves a block open does),
  `table_of_waits` (the table after several of them) and `feed_last_line`.
-/
import Fixity.Proofs.Language.Declared
import Fixity.Proofs.Scanning.Segmentation
import Fixity.Session

namespace Fixity.Session

open Grammar Read
open Fixity.Language
open Text (byteLength)

variable {table : Operator.Table} {session next : Session} {lines : List String} {line : String}

/-! ## §1. A line and its text. -/

/-- The text of several lines, each closed with a newline. -/
def textOf (lines : List String) : String :=
  lines.foldl (fun text line => closed (text ++ line)) ""

/-- The operators that a text declares. -/
def declared (source : String) : List Operator.Entry :=
  match tokenize defaultFile source with
  | .ok tokens => declarations tokens
  | .error _ => []

/-- The answer to a text, from what reading it gives, and the session after it. -/
def answer (source : String) (outcome : Outcome) : Answer × Session :=
  match outcome.result with
  | .ok forms => (.forms forms, ⟨outcome.table, ""⟩)
  | .error error =>
    if error.fault = .unterminatedBlock then (.incomplete, ⟨outcome.table, source⟩)
    else (.failed error source, ⟨outcome.table, ""⟩)

/-- A line that does not ask for help is answered by reading the kept text with it. -/
theorem feed_eq_answer (session : Session) (line : String)
    (plain : session.isPending = false → asksForHelp line = false) :
    session.feed line
      = answer (session.extended line)
          (Program.ofSource defaultFile (session.extended line) session.table) := by
  unfold feed
  rw [if_neg]
  · rfl
  · intro h
    rw [Bool.and_eq_true, Bool.not_eq_true'] at h
    rw [plain h.1] at h
    exact absurd h.2 nofun

theorem textOf_concat (lines : List String) (line : String) :
    textOf (lines ++ [line]) = closed (textOf lines ++ line) := by
  unfold textOf
  rw [List.foldl_append]
  rfl

/-- A text that is closed ends with a newline. -/
theorem getLast?_closed (text : String) : (closed text).toList.getLast? = some '\n' := by
  unfold closed
  split
  · next h => exact h
  · rw [String.toList_push, List.getLast?_append]
    rfl

/-- What is closed is the text, and perhaps a newline after it. -/
theorem closed_eq (text : String) : ∃ last, closed text = text ++ last := by
  unfold closed
  split
  · exact ⟨"", String.append_empty.symm⟩
  · exact ⟨String.singleton '\n', rfl⟩

/-- A character that starts no token is another fault than an open block. -/
theorem fault_of_tokenize {file source : String} {error : Error}
    (h : tokenize file source = .error error) : error.fault ≠ .unterminatedBlock := by
  obtain ⟨place, c, rest, -, -, -, rfl⟩ := Scanner.visits_of_error h
  intro hfault
  cases hfault

/-- What asks for more was cut into tokens, and the last of its forms is not finished. -/
theorem unfinished_of_ofSource {file source : String} {error : Error}
    (h : (Program.ofSource file source table).result = .error error)
    (hfault : error.fault = .unterminatedBlock) (bounded : byteLength source.toList < 4294967296) :
    ∃ tokens entries, tokenize file source = .ok tokens ∧ UnfinishedForms table tokens entries := by
  cases htokens : tokenize file source with
  | error found =>
      rw [Program.ofSource, htokens] at h
      cases h
      exact absurd hfault (fault_of_tokenize htokens)
  | ok tokens =>
      rw [ofSource_of_tokenize htokens] at h
      obtain ⟨entries, hunfinished, -⟩ :=
        unfinished_of_ofTokens (cut_of_tokenize htokens bounded) h hfault
      exact ⟨tokens, entries, rfl, hunfinished⟩

/-- What a line that leaves a block open is: the text with it has tokens, and they end
inside a block. -/
theorem answer_of_incomplete (h : session.feed line = (.incomplete, next)) :
    ∃ tokens error, tokenize defaultFile (session.extended line) = .ok tokens
      ∧ (Program.ofTokens defaultFile tokens session.table).result = .error error
      ∧ error.fault = .unterminatedBlock
      ∧ next = ⟨(Program.ofTokens defaultFile tokens session.table).table,
          session.extended line⟩ := by
  -- a request for help is answered at once and leaves nothing open
  have plain : session.isPending = false → asksForHelp line = false := by
    intro hidle
    cases hasks : asksForHelp line with
    | false => rfl
    | true =>
        rw [feed_help hidle hasks] at h
        cases h
  rw [feed_eq_answer session line plain] at h
  cases htokens : tokenize defaultFile (session.extended line) with
  | error error =>
      rw [Program.ofSource, htokens, answer] at h
      dsimp only at h
      rw [if_neg (fault_of_tokenize htokens)] at h
      cases h
  | ok tokens =>
      rw [ofSource_of_tokenize htokens, answer] at h
      split at h
      · cases h
      · next error herror =>
        split at h
        · next hfault =>
          cases h
          exact ⟨tokens, error, rfl, herror, hfault, rfl⟩
        · cases h

/-- A line that leaves a block open: the text with it breaks off in a form, and what its
forms declare is in the table from then on. -/
theorem feed_of_incomplete (h : session.feed line = (.incomplete, next))
    (bounded : byteLength (session.extended line).toList < 4294967296) :
    ∃ tokens entries, tokenize defaultFile (session.extended line) = .ok tokens ∧ Cut tokens
      ∧ UnfinishedForms session.table tokens entries
      ∧ next.table = session.table.declareAll entries := by
  obtain ⟨tokens, error, htokens, herror, hfault, rfl⟩ := answer_of_incomplete h
  have cut := cut_of_tokenize htokens bounded
  obtain ⟨entries, hunfinished, htable⟩ := unfinished_of_ofTokens cut herror hfault
  exact ⟨tokens, entries, htokens, cut, hunfinished, htable⟩

/-! ## §2. Lines that leave a block open. -/

/-- A session that was fed lines, from one without lines on, each of which left a block
open. -/
inductive Waits (table : Operator.Table) : List String → Session → Prop
  /-- No line was fed. -/
  | start : Waits table [] (start table)
  /-- One more line was fed. -/
  | line {lines : List String} {line : String} {session next : Session} :
      Waits table lines session → session.feed line = (.incomplete, next) →
      Waits table (lines ++ [line]) next

/-- A session that waits keeps the text of its lines. -/
theorem pending_of_waits (h : Waits table lines session) : session.pending = textOf lines := by
  induction h with
  | start => rfl
  | line _ hfeed ih =>
      obtain ⟨_, _, -, -, -, rfl⟩ := answer_of_incomplete hfeed
      rw [textOf_concat, ← ih]
      rfl

/-- Texts with fewer lines are shorter. -/
theorem byteLength_textOf_le (lines : List String) (line : String) :
    byteLength (textOf lines).toList ≤ byteLength (textOf (lines ++ [line])).toList := by
  obtain ⟨last, hlast⟩ := closed_eq (textOf lines ++ line)
  rw [textOf_concat, hlast, String.toList_append, String.toList_append, Text.byteLength_append,
    Text.byteLength_append]
  omega

/-- No line declares no operator. -/
theorem declared_nil : declared (textOf []) = [] := by
  have htokens : tokenize defaultFile "" = .ok [(Scanner.start defaultFile "").endToken] := by
    unfold tokenize Scanner.tokens?
    rfl
  show declared "" = []
  rw [declared, htokens]
  rfl

/-- Forms that break off in a text declare what they do when the text goes on after a
newline as well. -/
theorem declarations_further {source more : String} {tokens extended : List Token}
    {entries : List Operator.Entry} (closed : source.toList.getLast? = some '\n')
    (bounded : byteLength (source ++ more).toList < 4294967296)
    (htokens : tokenize defaultFile source = .ok tokens)
    (hextended : tokenize defaultFile (source ++ more) = .ok extended)
    (h : UnfinishedForms table tokens entries) :
    ∃ others, declarations extended = entries ++ others := by
  have hlength : byteLength source.toList < 4294967296 := by
    rw [String.toList_append, Text.byteLength_append] at bounded
    omega
  obtain ⟨next, hseam⟩ := tokenize_extended closed htokens hextended
  exact h.declarations_seam (cut_of_tokenize htokens hlength) (cut_of_tokenize hextended bounded)
    hseam

/-- What lines that leave a block open declare, they declare with one more line as well. -/
theorem declared_extended (h : Waits table lines session) {tokens : List Token}
    (bounded : byteLength (textOf (lines ++ [line])).toList < 4294967296)
    (htokens : tokenize defaultFile (textOf (lines ++ [line])) = .ok tokens) :
    ∃ others, declarations tokens = declared (textOf lines) ++ others := by
  cases h with
  | start => exact ⟨declarations tokens, by rw [declared_nil, List.nil_append]⟩
  | @line lines last before _ hwaits hfeed =>
      -- the text before is closed, and its forms break off
      have hlength := byteLength_textOf_le (lines ++ [last]) line
      have hsource : before.extended last = textOf (lines ++ [last]) := by
        rw [extended, pending_of_waits hwaits, textOf_concat]
      rw [← hsource] at hlength
      obtain ⟨others, entries, hothers, cut, hunfinished, -⟩ :=
        feed_of_incomplete hfeed (by omega)
      have hdeclared : declared (textOf (lines ++ [last])) = entries := by
        rw [declared, ← hsource, hothers]
        exact hunfinished.declarations cut
      obtain ⟨more, hmore⟩ := closed_eq (textOf (lines ++ [last]) ++ line)
      rw [textOf_concat, hmore, ← hsource, String.append_assoc] at htokens bounded
      rw [hdeclared]
      exact declarations_further (getLast?_closed _) bounded hothers htokens hunfinished

/-- A session that waits has all operators in its table that its lines declare. -/
theorem table_of_waits (h : Waits table lines session)
    (bounded : byteLength (textOf lines).toList < 4294967296) :
    session.table = table.declareAll (declared (textOf lines)) := by
  -- on the lines: each reading declares once more what those before it did
  induction h with
  | start => rw [declared_nil]; rfl
  | @line lines line before next hwaits hfeed ih =>
      have hlength := byteLength_textOf_le lines line
      have hsource : before.extended line = textOf (lines ++ [line]) := by
        rw [extended, pending_of_waits hwaits, textOf_concat]
      obtain ⟨tokens, entries, htokens, cut, hunfinished, htable⟩ :=
        feed_of_incomplete hfeed (hsource ▸ bounded)
      rw [hsource] at htokens
      obtain ⟨others, hothers⟩ := declared_extended hwaits bounded htokens
      have hentries := hunfinished.declarations cut
      have hdeclared : declared (textOf (lines ++ [line])) = declarations tokens := by
        rw [declared, htokens]
      -- what was declared before is the beginning of what is declared now
      rw [htable, ih (by omega), ← hentries, hdeclared, hothers]
      exact Operator.Table.declareAll_again table _ others

/-! ## §3. The last line. -/

/-- Two readings agree in what a session says of them: the same forms, the same error, or
an open block both times, and the same table. -/
def Agree (outcome other : Outcome) : Prop :=
  outcome.table = other.table
    ∧ match outcome.result, other.result with
      | .ok forms, .ok others => forms = others
      | .error error, .error error' =>
        error = error' ∨ (error.fault = .unterminatedBlock ∧ error'.fault = .unterminatedBlock)
      | _, _ => False

/-- Readings of one text have one answer exactly when they agree. -/
theorem answer_eq_iff (source : String) (outcome other : Outcome) :
    answer source outcome = answer source other ↔ Agree outcome other := by
  obtain ⟨result, table⟩ := outcome
  obtain ⟨result', table'⟩ := other
  cases result with
  | ok forms =>
      cases result' with
      | ok others => simp [answer, Agree, and_comm]
      | error error' =>
          by_cases h : error'.fault = .unterminatedBlock <;> simp [answer, Agree, h]
  | error error =>
      cases result' with
      | ok others =>
          by_cases h : error.fault = .unterminatedBlock <;> simp [answer, Agree, h]
      | error error' =>
          by_cases h : error.fault = .unterminatedBlock
          · by_cases h' : error'.fault = .unterminatedBlock
            · simp [answer, Agree, h, h']
            · have hne : error ≠ error' := fun heq => h' (heq ▸ h)
              simp [answer, Agree, h, h', hne]
          · by_cases h' : error'.fault = .unterminatedBlock
            · have hne : error ≠ error' := fun heq => h (heq ▸ h')
              simp [answer, Agree, h, h', hne]
            · simp [answer, Agree, h, h', and_comm]

/-- A session that waits answers a line by reading the whole text with what the lines before
it declare. -/
theorem feed_of_waits (waits : Waits table lines session)
    (plain : lines = [] → asksForHelp line = false)
    (bounded : byteLength (textOf lines).toList < 4294967296) :
    session.feed line = answer (textOf (lines ++ [line]))
      (Program.ofSource defaultFile (textOf (lines ++ [line]))
        (table.declareAll (declared (textOf lines)))) := by
  have hsource : session.extended line = textOf (lines ++ [line]) := by
    rw [extended, pending_of_waits waits, textOf_concat]
  have hidle : session.isPending = false → asksForHelp line = false := by
    intro hidle
    cases waits with
    | start => exact plain rfl
    | line _ hfeed =>
        -- after a line that left a block open some text is kept
        have hpending := (isPending_feed_iff _ _).2 (congrArg Prod.fst hfeed)
        rw [hfeed] at hpending
        cases hpending.symm.trans hidle
  rw [feed_eq_answer session line hidle, hsource, table_of_waits waits bounded]

/-- **The last line of an input is answered by reading its whole text with the operators
that the lines before it declare.**  That is what one reading of the text from the
first table says exactly when the reading with these operators agrees with it.  It
does if the table says these operators already. -/
theorem feed_last_line (line : String) (waits : Waits table lines session)
    (plain : lines = [] → asksForHelp line = false)
    (bounded : byteLength (textOf lines).toList < 4294967296) :
    session.feed line = answer (textOf (lines ++ [line]))
        (Program.ofSource defaultFile (textOf (lines ++ [line]))
          (table.declareAll (declared (textOf lines))))
      ∧ (session.feed line = answer (textOf (lines ++ [line]))
          (Program.ofSource defaultFile (textOf (lines ++ [line])) table)
        ↔ Agree
            (Program.ofSource defaultFile (textOf (lines ++ [line]))
              (table.declareAll (declared (textOf lines))))
            (Program.ofSource defaultFile (textOf (lines ++ [line])) table))
      ∧ ((∀ spelling precedence, Operator.Table.lastOf spelling (declared (textOf lines))
            = some precedence → table.declared? spelling = some precedence) →
          session.feed line = answer (textOf (lines ++ [line]))
            (Program.ofSource defaultFile (textOf (lines ++ [line])) table)) := by
  have hfeed := feed_of_waits waits plain bounded
  refine ⟨hfeed, ?_, ?_⟩
  · rw [hfeed]
    exact answer_eq_iff _ _ _
  · intro said
    rw [hfeed, Operator.Table.declareAll_eq_self_iff.2 said]

/-- A line that leaves a block open, from what reading its text gives. -/
theorem waits_of_line {source : String} {last : Operator.Table} {error : Error}
    (plain : asksForHelp line = false) (hsource : closed line = source)
    (h : Program.ofSource defaultFile source table = ⟨.error error, last⟩)
    (hfault : error.fault = .unterminatedBlock) : Waits table [line] ⟨last, source⟩ := by
  refine .line .start ?_
  have htext : (start table).extended line = source := by
    rw [← hsource, extended]
    exact congrArg closed String.empty_append
  rw [feed_eq_answer _ _ fun _ => plain, htext]
  show answer source (Program.ofSource defaultFile source table) = _
  rw [h, answer]
  exact if_pos hfault

/-- Where an operator in front of its declaration binds tighter from there on, the
session and one reading of the text part; a definition without an operator is read alike. -/
theorem redeclared_in_front :
    (∃ session, Waits .standard ["a + b * c; func binary + 15 (x, y) \x7b"] session
      ∧ (session.feed "x \x7d").1 = .forms
          [.expression ⟨.anonymous,
            .binary "*" (.binary "+" (.scalar "a") (.scalar "b")) (.scalar "c")⟩,
           .definition ⟨⟨"binary+", ["x", "y"], true, 15⟩, .block [.scalar "x"]⟩]
      ∧ (Program.ofSource defaultFile "a + b * c; func binary + 15 (x, y) \x7b\nx \x7d\n"
          .standard).result = .ok
          [.expression ⟨.anonymous,
            .binary "+" (.scalar "a") (.binary "*" (.scalar "b") (.scalar "c"))⟩,
           .definition ⟨⟨"binary+", ["x", "y"], true, 15⟩, .block [.scalar "x"]⟩]
      ∧ session.feed "x \x7d" ≠ answer "a + b * c; func binary + 15 (x, y) \x7b\nx \x7d\n"
          (Program.ofSource defaultFile "a + b * c; func binary + 15 (x, y) \x7b\nx \x7d\n"
            .standard))
    ∧ ∃ session, Waits .standard ["func f(x) \x7b"] session
      ∧ session.feed "x \x7d" = answer "func f(x) \x7b\nx \x7d\n"
          (Program.ofSource defaultFile "func f(x) \x7b\nx \x7d\n" .standard) := by
  have htext : textOf (["a + b * c; func binary + 15 (x, y) \x7b"] ++ ["x \x7d"])
      = "a + b * c; func binary + 15 (x, y) \x7b\nx \x7d\n" := by decide +kernel
  have hdeclared : declared (textOf ["a + b * c; func binary + 15 (x, y) \x7b"]) = [("+", 15)] := by
    decide +kernel
  have htwice : Program.ofSource defaultFile "a + b * c; func binary + 15 (x, y) \x7b\nx \x7d\n"
      (Operator.Table.standard.declareAll [("+", 15)])
      = ⟨.ok [.expression ⟨.anonymous,
            .binary "*" (.binary "+" (.scalar "a") (.scalar "b")) (.scalar "c")⟩,
          .definition ⟨⟨"binary+", ["x", "y"], true, 15⟩, .block [.scalar "x"]⟩],
        Operator.Table.standard.declare "+" 15⟩ := by
    decide +kernel
  have honce : Program.ofSource defaultFile "a + b * c; func binary + 15 (x, y) \x7b\nx \x7d\n"
      .standard
      = ⟨.ok [.expression ⟨.anonymous,
            .binary "+" (.scalar "a") (.binary "*" (.scalar "b") (.scalar "c"))⟩,
          .definition ⟨⟨"binary+", ["x", "y"], true, 15⟩, .block [.scalar "x"]⟩],
        Operator.Table.standard.declare "+" 15⟩ := by
    decide +kernel
  have hopen : Program.ofSource defaultFile "a + b * c; func binary + 15 (x, y) \x7b\n" .standard
      = ⟨.error ⟨.unterminatedBlock, ⟨37, "shell"⟩⟩, Operator.Table.standard.declare "+" 15⟩ := by
    decide +kernel
  have hopen' : Program.ofSource defaultFile "func f(x) \x7b\n" .standard
      = ⟨.error ⟨.unterminatedBlock, ⟨12, "shell"⟩⟩, .standard⟩ := by
    decide +kernel
  have hnone : declared (textOf ["func f(x) \x7b"]) = [] := by decide +kernel
  have htext' : textOf (["func f(x) \x7b"] ++ ["x \x7d"]) = "func f(x) \x7b\nx \x7d\n" := by
    decide +kernel
  have waits : Waits .standard ["a + b * c; func binary + 15 (x, y) \x7b"] _ :=
    waits_of_line (by decide +kernel) (by decide +kernel) hopen rfl
  have waits' : Waits .standard ["func f(x) \x7b"] _ :=
    waits_of_line (by decide +kernel) (by decide +kernel) hopen' rfl
  have hlast := feed_last_line "x \x7d" waits nofun (by decide)
  rw [htext, hdeclared] at hlast
  obtain ⟨hfeed, hagree, -⟩ := hlast
  refine ⟨⟨_, waits, ?_, ?_, ?_⟩, _, waits', ?_⟩
  · rw [hfeed, htwice]
    rfl
  · rw [honce]
  · intro h
    have hforms := (hagree.1 h).2
    rw [htwice, honce] at hforms
    exact absurd hforms (by decide)
  · have hsaid := (feed_last_line "x \x7d" waits' nofun (by decide)).2.2
    rw [hnone, htext'] at hsaid
    exact hsaid nofun

end Fixity.Session
