/-
  Fixity.Proofs.Language.Sequence
  ────────────────────────────────
  **PROGRAMS ONE AFTER THE OTHER.**

  Two texts with a semicolon on a line of its own between them are one text.  If the
  first is a program, the whole text is read as its forms and then from there on
  just as the second text is read with the table that the first one leaves:
  whether that succeeds or fails, and with an error so many bytes further on.

  The forms before the semicolon are those of the grammar, which does not tell it from
  the end.  What comes after it is read by two runs side by side, one on the second
  text and one on the rest of the whole.

  Main results: `run_forms_append` (forms of the grammar are read first, whatever
  follows), `alike_further` (the runs stay side by side), `program_append`, and
  `ofSource_sessionText` (a session of programs is one program).
-/
import Fixity.Proofs.Language.Joining
import Fixity.Proofs.Language.Programs
import Fixity.Proofs.Reading.Lockstep

namespace Fixity.Language

open Grammar Read
open Text (byteLength)

variable {file : String} {table : Operator.Table} {input rest : List Token}

/-! ## §1. Rounds of forms. -/

theorem run_bind {α β : Type} (p : Read α) (f : α → Read β) (s : ReadState) :
    (p >>= f).run s = match p.run s with
      | .ok a t => (f a).run t
      | .error error t => .error error t := by
  show EStateM.bind p f s = match p s with | .ok a t => f a t | .error error t => .error error t
  unfold EStateM.bind
  cases p s <;> rfl

/-- What one round of a repetition does. -/
theorem run_upTo_succ {α : Type} (item : Read (Option α)) (bound : Nat) (s : ReadState) :
    (upTo item (bound + 1)).run s = match item.run s with
      | .ok none t => .ok [] t
      | .ok (some first) t => match (upTo item bound).run t with
        | .ok more u => .ok (first :: more) u
        | .error error u => .error error u
      | .error error t => .error error t := by
  rw [upTo, run_bind]
  cases item.run s with
  | error error t => rfl
  | ok found t =>
      cases found with
      | none => rfl
      | some first =>
          dsimp only
          rw [run_bind]
          cases (upTo item bound).run t <;> rfl

/-- A form that is read leaves fewer tokens of the same text. -/
theorem place_of_form {form : Form} {t : ReadState} (cut : Cut input)
    (h : (Grammar.form .standard).run (place file table input) = .ok (some form) t) :
    ∃ last rest, t = place file last rest ∧ Cut rest ∧ rest.length < input.length := by
  obtain ⟨last, rest, hitem, cut', rfl⟩ := (gives_form_place cut).1 h
  have hlength := hitem.length
  have hdrop := (dropSemicolons_cut cut).2.2
  exact ⟨last, rest, rfl, cut', by omega⟩

/-- Every form takes a token, so any bound that the tokens do not reach will do. -/
theorem run_upTo_bound (n : Nat) :
    ∀ {m : Nat} {table : Operator.Table} {input : List Token}, Cut input → input.length ≤ n →
      input.length ≤ m →
      (upTo (form .standard) n).run (place file table input)
        = (upTo (form .standard) m).run (place file table input) := by
  induction n with
  | zero =>
      intro m table input cut hn
      exact absurd cut.length_pos (Nat.not_lt.2 hn)
  | succ n ih =>
      intro m table input cut hn hm
      obtain ⟨m, rfl⟩ := cut.exists_bound hm
      rw [run_upTo_succ, run_upTo_succ]
      match hform : (form .standard).run (place file table input) with
      | .ok none t => rfl
      | .error error t => rfl
      | .ok (some first) t =>
          -- both bounds are still enough for the fewer tokens that are left
          obtain ⟨last, rest, rfl, cut', hlength⟩ := place_of_form cut hform
          dsimp only
          rw [ih cut' (by omega) (by omega : rest.length ≤ m)]

/-- A result after forms that were read before. -/
def following (forms : List Form) :
    EStateM.Result Error ReadState (List Form) → EStateM.Result Error ReadState (List Form)
  | .ok more t => .ok (forms ++ more) t
  | .error error t => .error error t

@[simp] theorem following_nil (result : EStateM.Result Error ReadState (List Form)) :
    following [] result = result := by
  cases result <;> rfl

/-- A form is read after the semicolons. -/
theorem run_form_congr (h : dropSemicolons input = dropSemicolons rest) :
    (form .standard).run (place file table input)
      = (form .standard).run (place file table rest) := by
  have hskip : skipSemicolons.run (place file table input)
      = skipSemicolons.run (place file table rest) := by
    show EStateM.Result.ok () (place file table (dropSemicolons input))
      = .ok () (place file table (dropSemicolons rest))
    rw [h]
  rw [form, run_bind, run_bind, hskip]

/-- Passing over a semicolon first makes no difference. -/
theorem run_form_semicolon {next : List Token} (cut : Cut input)
    (h : Mark .semicolon input next) :
    (form .standard).run (place file table input)
      = (form .standard).run (place file table next) :=
  run_form_congr (dropSemicolons_of_mark cut h)

theorem run_upTo_semicolon {next : List Token} (cut : Cut input) (h : Mark .semicolon input next)
    {bound : Nat} (hbound : input.length ≤ bound) :
    (upTo (form .standard) bound).run (place file table input)
      = (upTo (form .standard) bound).run (place file table next) := by
  obtain ⟨bound, rfl⟩ := cut.exists_bound hbound
  rw [run_upTo_succ, run_upTo_succ, run_form_semicolon cut h]

/-- Forms of the grammar are read first, and then whatever follows them is. -/
theorem run_forms_append {forms : List Form} {last : Operator.Table}
    (h : Forms table input forms last rest) :
    ∀ {n m : Nat}, Cut input → input.length ≤ n → rest.length ≤ m →
      (upTo (form .standard) n).run (place file table input)
        = following forms ((upTo (form .standard) m).run (place file last rest)) := by
  -- a form of the grammar is a round of the repetition
  have hround {table inside : Operator.Table} {input after : List Token} {first : Form} {n : Nat}
      (cut : Cut input) (hn : input.length ≤ n) (hlead : lead input ≠ .semicolon)
      (hitem : Item table input (some first) inside after) :
      after.length ≤ n - 1 ∧ Cut after
        ∧ (upTo (form .standard) n).run (place file table input)
            = following [first] ((upTo (form .standard) (n - 1)).run (place file inside after)) := by
    have hlength := hitem.length
    have cut' := hitem.cut cut
    have hform : (form .standard).run (place file table input)
        = .ok (some first) (place file inside after) := by
      refine (gives_form_place cut).2 ⟨inside, after, ?_, cut', rfl⟩
      rw [dropSemicolons_of_lead hlead]
      exact hitem
    obtain ⟨n, rfl⟩ := cut.exists_bound hn
    refine ⟨by omega, cut', ?_⟩
    rw [run_upTo_succ, hform, Nat.add_sub_cancel]
    dsimp only
    cases (upTo (form .standard) n).run (place file inside after) <;> rfl
  have hfollow (first : Form) (more : List Form)
      (result : EStateM.Result Error ReadState (List Form)) :
      following [first] (following more result) = following (first :: more) result := by
    cases result <;> rfl
  induction h with
  | nil =>
      intro n m cut hn hm
      rw [following_nil, run_upTo_bound n cut hn hm]
  | skip hsemicolon _ ih =>
      intro n m cut hn hm
      have hlength := Leads.length hsemicolon
      rw [run_upTo_semicolon cut hsemicolon hn]
      exact ih (hsemicolon.cut cut (by simp)) (by omega) hm
  | definition hword hheading hbody _ ih =>
      intro n m cut hn hm
      obtain ⟨hlength, cut', hrun⟩ := hround cut hn (hword.lead_ne (by simp))
        (.definition hword hheading hbody)
      rw [hrun, ih cut' hlength hm, hfollow]
  | expression hbody _ ih =>
      intro n m cut hn hm
      obtain ⟨hlength, cut', hrun⟩ := hround cut hn (lead_ne_of_derives hbody rfl)
        (.expression hbody)
      rw [hrun, ih cut' hlength hm, hfollow]

/-! ## §2. The same tokens further on. -/

/-- A state whose tokens are those of another one, so many bytes further on. -/
structure Further (distance : Nat) (s t : ReadState) : Prop where
  /-- The tokens are the same, further on. -/
  moved : t = place s.cursor.file s.table (s.cursor.tokens.map (Token.later distance))
  /-- There is a token. -/
  some : s.cursor.tokens ≠ []
  /-- No place leaves the range of places. -/
  small : ∀ token ∈ s.cursor.tokens, token.start.toNat + distance < 4294967296

/-- The same fault of the same file, so many bytes further on. -/
structure Behind (distance : Nat) (error other : Error) : Prop where
  /-- The fault. -/
  fault : other.fault = error.fault
  /-- The file. -/
  file : other.position.file = error.position.file
  /-- The place. -/
  offset : other.position.offset.toNat = error.position.offset.toNat + distance

/-- Reading does not see how far on the tokens stand; only an error says so. -/
theorem alike_further (distance : Nat) : Alike (Further distance) (Behind distance) := by
  -- the token that is looked at is there, and is the same but for its place
  have hlook {s t : ReadState} (h : Further distance s t) :
      ∃ file table token rest, s = place file table (token :: rest)
        ∧ t = place file table (token.later distance :: rest.map (Token.later distance)) := by
    obtain ⟨⟨file, tokens⟩, table⟩ := s
    obtain ⟨token, rest, hcons⟩ := List.exists_cons_of_ne_nil h.some
    cases hcons
    exact ⟨file, table, token, rest, rfl, h.moved⟩
  have hoperator {s t : ReadState} (h : Further distance s t) :
      s.cursor.operator? = t.cursor.operator? := by
    obtain ⟨file, table, token, rest, rfl, rfl⟩ := hlook h
    simp only [Cursor.operator?, currentOf?_cons]
    by_cases hkind : token.kind = .symbol
    · rw [if_pos hkind, if_pos (show (token.later distance).kind = .symbol from hkind)]
      rfl
    · rw [if_neg hkind, if_neg (show ¬ (token.later distance).kind = .symbol from hkind)]
      rfl
  refine ⟨⟨?kind, ?text, ?length, ?operator, ?ahead, ?advance, ?error⟩, ?declare⟩
  case kind =>
    intro s t h
    obtain ⟨file, table, token, rest, rfl, rfl⟩ := hlook h
    rfl
  case text =>
    intro s t h
    obtain ⟨file, table, token, rest, rfl, rfl⟩ := hlook h
    rfl
  case length =>
    intro s t h
    rw [h.moved, List.length_map]
  case operator => exact hoperator
  case ahead =>
    intro s t h
    have htable : t.table = s.table := by rw [h.moved]
    simp only [infixAhead?, hoperator h, htable]
  case advance =>
    intro s t h
    have hsuffix := Cursor.tokens_advance_suffix s.cursor
    refine ⟨?_, ?_, fun token hmem => h.small token (hsuffix.subset hmem)⟩
    · obtain ⟨file, table, token, rest, rfl, rfl⟩ := hlook h
      cases rest <;> rfl
    · obtain ⟨file, table, token, rest, rfl, rfl⟩ := hlook h
      cases rest <;> simp [Cursor.advance]
  case declare =>
    intro s t spelling precedence h
    refine ⟨?_, h.some, h.small⟩
    rw [h.moved]
  case error =>
    intro s t fault h
    obtain ⟨file, table, token, rest, rfl, rfl⟩ := hlook h
    have hsmall := h.small token (by simp)
    refine ⟨rfl, rfl, ?_⟩
    show (token.start + UInt32.ofNat distance).toNat = token.start.toNat + distance
    -- the sum does not wrap around, since no place leaves the range
    rw [UInt32.toNat_add, UInt32.toNat_ofNat_of_lt' (by simp only [UInt32.size]; omega),
      Nat.mod_eq_of_lt (by simpa using hsmall)]

/-! ## §3. Two texts with a semicolon between them. -/

/-- What a program gives is what reading its forms gives. -/
theorem ofTokens_eq (file : String) (tokens : List Token) (table : Operator.Table) :
    Program.ofTokens file tokens table
      = match (upTo (form .standard) (tokens.length + 1)).run (place file table tokens) with
        | .ok forms t => ⟨.ok forms, t.table⟩
        | .error error t => ⟨.error error, t.table⟩ := by
  rw [Program.ofTokens]
  have hmany : (Grammar.forms .standard).run (place file table tokens)
      = (upTo (form .standard) (tokens.length + 1)).run (place file table tokens) := by
    rw [forms, many, run_bind]
    rfl
  cases hrun : (upTo (form .standard) (tokens.length + 1)).run (place file table tokens) with
  | ok found s => rw [hmany, hrun]
  | error error s => rw [hmany, hrun]

/-- The forms of the first text are read first, and then the second text is read further
on with the table that the first one leaves. -/
theorem run_joined {first second : String} {last : Operator.Table} {forms : List Form}
    {others : List Token}
    (bounded : byteLength (first ++ "\n;\n" ++ second).toList < 4294967296)
    (tokenizes : tokenize file second = .ok others)
    (h : Program.ofSource file first table = ⟨.ok forms, last⟩) :
    ∃ joined t, tokenize file (first ++ "\n;\n" ++ second) = .ok joined
      ∧ Further (byteLength first.toList + 3) (place file last others) t
      ∧ (upTo (form .standard) (joined.length + 1)).run (place file table joined)
          = following forms ((upTo (form .standard) (others.length + 1)).run t) := by
  obtain ⟨tokens, htokens⟩ := tokenize_of_ofSource h
  have hlength : byteLength first.toList + 3 + byteLength second.toList < 4294967296 := by
    have hnewlines : byteLength "\n;\n".toList = 3 := by decide
    simp only [String.toList_append, Text.byteLength_append, hnewlines] at bounded
    exact bounded
  have cut := cut_of_tokenize htokens (by omega)
  rw [ofSource_of_tokenize htokens, ofTokens_ok_iff cut] at h
  obtain ⟨mark, hmark, hforms⟩ := h
  obtain ⟨joined, hjoined, hseam⟩ := tokenize_joined htokens tokenizes
  have cutJoined := cut_of_tokenize hjoined bounded
  have hsemicolon : Mark .semicolon
      (semicolonAfter (byteLength first.toList)
        :: others.map (Token.later (byteLength first.toList + 3)))
      (others.map (Token.later (byteLength first.toList + 3))) := ⟨_, rfl, rfl⟩
  refine ⟨joined, _, hjoined, ⟨rfl, Scanner.tokens?_ne_nil tokenizes, ?_⟩, ?_⟩
  · intro token hmem
    obtain ⟨n, hn, -, hle⟩ := Scanner.start_of_tokens? tokenizes token hmem
    simp only [Scanner.start, Nat.zero_add] at hle
    rw [hn, UInt32.toNat_ofNat_of_lt' (by simp only [UInt32.size]; omega)]
    omega
  · have hall := hforms.seam (by rw [hsemicolon.lead]; decide) hseam
    have cut' := hall.cut cutJoined
    rw [run_forms_append hall cutJoined (Nat.le_succ _) (Nat.le_refl _),
      run_upTo_semicolon cut' hsemicolon (Nat.le_refl _)]
    exact congrArg (following forms)
      (run_upTo_bound _ (hsemicolon.cut cut' (by simp)) (by simp) (by simp))

/-- A text that is a program is read on with the text after it: the forms of both. -/
theorem ofSource_joined_ok {first second : String} {last final : Operator.Table}
    {forms more : List Form}
    (bounded : byteLength (first ++ "\n;\n" ++ second).toList < 4294967296)
    (h : Program.ofSource file first table = ⟨.ok forms, last⟩)
    (hmore : Program.ofSource file second last = ⟨.ok more, final⟩) :
    Program.ofSource file (first ++ "\n;\n" ++ second) table = ⟨.ok (forms ++ more), final⟩ := by
  obtain ⟨others, tokenizes⟩ := tokenize_of_ofSource hmore
  obtain ⟨joined, t, hjoined, hfurther, hrun⟩ := run_joined bounded tokenizes h
  have hstep := (alike_further (byteLength first.toList + 3)).upTo_inStep
    ((alike_further _).form_inStep .standard) (others.length + 1) hfurther
  rw [ofSource_of_tokenize tokenizes, ofTokens_eq] at hmore
  rw [ofSource_of_tokenize hjoined, ofTokens_eq, hrun]
  -- the run on the second text succeeds, so the one further on does
  generalize (upTo (form .standard) (others.length + 1)).run (place file last others) = result
    at hstep hmore
  generalize (upTo (form .standard) (others.length + 1)).run t = result' at hstep
  match result, result', hstep with
  | .error _ _, .error _ _, _ => exact absurd hmore nofun
  | .ok found s, .ok _ s', ⟨rfl, hs⟩ =>
      cases hmore
      rw [hs.moved]
      rfl

/-- A text that is a program changes nothing about the failure of the text after it but
the place. -/
theorem ofSource_joined_error {first second : String} {last final : Operator.Table}
    {forms : List Form} {others : List Token} {error : Error}
    (bounded : byteLength (first ++ "\n;\n" ++ second).toList < 4294967296)
    (tokenizes : tokenize file second = .ok others)
    (h : Program.ofSource file first table = ⟨.ok forms, last⟩)
    (herror : Program.ofSource file second last = ⟨.error error, final⟩) :
    ∃ other, Program.ofSource file (first ++ "\n;\n" ++ second) table = ⟨.error other, final⟩
      ∧ Behind (byteLength first.toList + 3) error other := by
  obtain ⟨joined, t, hjoined, hfurther, hrun⟩ := run_joined bounded tokenizes h
  have hstep := (alike_further (byteLength first.toList + 3)).upTo_inStep
    ((alike_further _).form_inStep .standard) (others.length + 1) hfurther
  rw [ofSource_of_tokenize tokenizes, ofTokens_eq] at herror
  rw [ofSource_of_tokenize hjoined, ofTokens_eq, hrun]
  -- the run on the second text fails, so the one further on does
  generalize (upTo (form .standard) (others.length + 1)).run (place file last others) = result
    at hstep herror
  generalize (upTo (form .standard) (others.length + 1)).run t = result' at hstep
  match result, result', hstep with
  | .ok _ _, .ok _ _, _ => exact absurd herror nofun
  | .error found s, .error other s', ⟨hbehind, hs⟩ =>
      cases herror
      refine ⟨other, ?_, hbehind⟩
      rw [hs.moved]
      rfl

/-! ## §4. Sessions of programs. -/

/-- Texts that are programs, each read with the table that the one before it leaves:
their forms, and the table at the end. -/
inductive Consecutive (file : String) :
    Operator.Table → List String → List Form → Operator.Table → Prop
  /-- No text. -/
  | nil {table : Operator.Table} : Consecutive file table [] [] table
  /-- A program, and the programs after it. -/
  | cons {table inside last : Operator.Table} {source : String} {sources : List String}
      {forms more : List Form} :
      Program.ofSource file source table = ⟨.ok forms, inside⟩ →
      Consecutive file inside sources more last →
      Consecutive file table (source :: sources) (forms ++ more) last

/-- The text of a session: semicolons on lines of their own between its texts. -/
def sessionText (sources : List String) : String := "\n;\n".intercalate sources

theorem sessionText_cons_cons (first second : String) (sources : List String) :
    sessionText (first :: second :: sources)
      = first ++ "\n;\n" ++ sessionText (second :: sources) :=
  String.intercalate_cons_cons

/-- The empty text is a program without forms. -/
theorem ofSource_empty (file : String) (table : Operator.Table) :
    Program.ofSource file "" table = ⟨.ok [], table⟩ := by
  have htokens : tokenize file "" = .ok [(Scanner.start file "").endToken] := by
    unfold tokenize Scanner.tokens?
    rfl
  rw [ofSource_of_tokenize htokens]
  rfl

/-- A session of programs is one program: that of the joined text. -/
theorem ofSource_sessionText {sources : List String} {forms : List Form} {last : Operator.Table}
    (h : Consecutive file table sources forms last) :
    byteLength (sessionText sources).toList < 4294967296 →
      Program.ofSource file (sessionText sources) table = ⟨.ok forms, last⟩ := by
  -- on the session: a program is put before the text of the ones after it
  induction h with
  | nil =>
      intro _
      exact ofSource_empty file _
  | @cons table inside last source sources forms more hfirst hrest ih =>
      intro bounded
      cases sources with
      | nil =>
          cases hrest
          rw [List.append_nil]
          exact hfirst
      | cons second sources =>
          rw [sessionText_cons_cons] at bounded ⊢
          refine ofSource_joined_ok bounded hfirst (ih ?_)
          rw [String.toList_append, Text.byteLength_append] at bounded
          omega

/-- **Programs compose.**  If a text is a program, then with a semicolon and another
text after it it is read as the two texts are, one after the other over one table: as
the forms of both, or with the error of the second one so many bytes further on.  So a
session that goes on after that text is one program with it. -/
theorem program_append {first : String} {last : Operator.Table} {forms : List Form}
    (h : Program.ofSource file first table = ⟨.ok forms, last⟩) :
    (∀ {second : String} {others : List Token}, tokenize file second = .ok others →
      byteLength (first ++ "\n;\n" ++ second).toList < 4294967296 →
      (∀ {more final}, Program.ofSource file second last = ⟨.ok more, final⟩ →
        Program.ofSource file (first ++ "\n;\n" ++ second) table = ⟨.ok (forms ++ more), final⟩)
      ∧ ∀ {error final}, Program.ofSource file second last = ⟨.error error, final⟩ →
        ∃ other, Program.ofSource file (first ++ "\n;\n" ++ second) table
            = ⟨.error other, final⟩
          ∧ other.fault = error.fault ∧ other.position.file = error.position.file
          ∧ other.position.offset.toNat
              = error.position.offset.toNat + byteLength first.toList + 3)
    ∧ ∀ {sources : List String} {more : List Form} {final : Operator.Table},
        Consecutive file last sources more final →
        byteLength (sessionText (first :: sources)).toList < 4294967296 →
        Program.ofSource file (sessionText (first :: sources)) table
          = ⟨.ok (forms ++ more), final⟩ := by
  refine ⟨?_, ?_⟩
  · intro second others tokenizes bounded
    refine ⟨fun hmore => ofSource_joined_ok bounded h hmore, ?_⟩
    intro error final herror
    obtain ⟨other, hother, hbehind⟩ := ofSource_joined_error bounded tokenizes h herror
    refine ⟨other, hother, hbehind.fault, hbehind.file, ?_⟩
    rw [hbehind.offset, Nat.add_assoc]
  · intro sources more final hsession bounded
    exact ofSource_sessionText (.cons h hsession) bounded

/-- An operator that binds tighter from the first text on does so in the second text,
and the error of a second text that breaks off is found past the first one. -/
theorem redeclared_before_use :
    ∃ forms last, Program.ofSource "sel" "func binary + 15 (x, y) x" .standard = ⟨.ok forms, last⟩
      ∧ Program.ofSource "sel" "func binary + 15 (x, y) x\n;\na + b * c" .standard
        = ⟨.ok (forms ++ [.expression ⟨.anonymous,
            .binary "*" (.binary "+" (.scalar "a") (.scalar "b")) (.scalar "c")⟩]), last⟩
      ∧ (∃ error, Program.ofSource "sel" "func binary + 15 (x, y) x\n;\na +" .standard
          = ⟨.error error, last⟩
        ∧ error.position.offset.toNat = 3 + byteLength "func binary + 15 (x, y) x".toList + 3)
      ∧ Program.ofSource "sel" "func binary + 15 (x, y) x\n;\na + b * c\n;\na" .standard
        = ⟨.ok (forms ++ [.expression ⟨.anonymous,
            .binary "*" (.binary "+" (.scalar "a") (.scalar "b")) (.scalar "c")⟩,
            .expression ⟨.anonymous, .scalar "a"⟩]), last⟩ := by
  have hfirst : Program.ofSource "sel" "func binary + 15 (x, y) x" .standard
      = ⟨.ok [.definition ⟨⟨"binary+", ["x", "y"], true, 15⟩, .scalar "x"⟩],
        Operator.Table.standard.declare "+" 15⟩ := by decide +kernel
  have hsecond : Program.ofSource "sel" "a + b * c" (Operator.Table.standard.declare "+" 15)
      = ⟨.ok [.expression ⟨.anonymous,
          .binary "*" (.binary "+" (.scalar "a") (.scalar "b")) (.scalar "c")⟩],
        Operator.Table.standard.declare "+" 15⟩ := by decide +kernel
  have hlast : Program.ofSource "sel" "a" (Operator.Table.standard.declare "+" 15)
      = ⟨.ok [.expression ⟨.anonymous, .scalar "a"⟩],
        Operator.Table.standard.declare "+" 15⟩ := by decide +kernel
  have hbroken : Program.ofSource "sel" "a +" (Operator.Table.standard.declare "+" 15)
      = ⟨.error ⟨.unexpectedToken "EOF", ⟨3, "sel"⟩⟩, Operator.Table.standard.declare "+" 15⟩ := by
    decide +kernel
  obtain ⟨others, htokens⟩ := tokenize_of_ofSource hsecond
  obtain ⟨broken, hbroken'⟩ : ∃ tokens, tokenize "sel" "a +" = .ok tokens :=
    exists_tokens (by decide +kernel)
  refine ⟨_, _, hfirst, (program_append hfirst).1 htokens (by decide) |>.1 hsecond, ?_,
    (program_append hfirst).2 (.cons hsecond (.cons hlast .nil)) (by decide)⟩
  obtain ⟨error, herror, -, -, hoffset⟩ :=
    ((program_append hfirst).1 hbroken' (by decide)).2 hbroken
  exact ⟨error, herror, hoffset⟩

end Fixity.Language
