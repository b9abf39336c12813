/-
  Fixity.Proofs.Language.Unused
  ────────────────────────────────
  **OPERATORS THAT A TEXT DOES NOT SPELL.**

  A text asks the table of operators only for what it spells: for the operators that
  start at its tokens.  So two tables that report the same of these spellings are read
  alike, whatever else they hold, and go on reporting the same, since what a heading
  declares is put into both.

  A heading declares what is spelled after its keyword.  So the entries of all other
  spellings come through a text as they were, whether the text is a program or fails.

  Main results: `forms_alike` (two tables that agree on a text are read alike),
  `spelled_of_written?` (a text declares only what it spells) and `unused_invisible`.
-/
import Fixity.Proofs.Language.Repetition

namespace Fixity.Language

open Grammar Read

variable {file source : String} {tokens : List Token} {table other : Operator.Table}
variable {s t : ReadState}

/-! ## §1. What a text spells. -/

/-- The operator that starts at a token. -/
def operatorAt? (token : Token) : Option OperatorReading := Cursor.operator? ⟨defaultFile, [token]⟩

/-- The spellings of the operators that start at the tokens of a text. -/
def spellings (tokens : List Token) : List String :=
  tokens.filterMap fun token => (operatorAt? token).map OperatorReading.spelling

/-- The operator at the cursor starts at its token. -/
theorem operator?_eq_operatorAt? (cursor : Cursor) :
    cursor.operator? = cursor.current?.bind operatorAt? := by
  obtain ⟨file, tokens⟩ := cursor
  cases tokens with
  | nil => rfl
  | cons token rest => rfl

/-- What stands at a place in a text is one of its spellings. -/
theorem spelling_mem_spellings {cursor : Cursor} {operator : OperatorReading}
    (hsuffix : cursor.tokens <:+ tokens) (h : cursor.operator? = some operator) :
    operator.spelling ∈ spellings tokens := by
  rw [operator?_eq_operatorAt?] at h
  obtain ⟨token, htoken, hoperator⟩ := Option.bind_eq_some_iff.1 h
  have hmem : token ∈ tokens := hsuffix.subset (List.mem_of_mem_head? htoken)
  refine List.mem_filterMap.2 ⟨token, hmem, ?_⟩
  rw [hoperator]
  rfl

/-! ## §2. Two tables that agree. -/

/-- Two tables report the same of some spellings. -/
def AgreeOn (known : List String) (table other : Operator.Table) : Prop :=
  ∀ spelling ∈ known, table.lookup spelling = other.lookup spelling

/-- What is declared in both tables is reported alike by both. -/
theorem AgreeOn.declare {known : List String} (h : AgreeOn known table other) (spelling : String)
    (precedence : UInt32) :
    AgreeOn known (table.declare spelling precedence) (other.declare spelling precedence) := by
  intro asked hasked
  unfold Operator.Table.lookup
  by_cases heq : asked = spelling
  · subst heq
    rw [Operator.Table.declared?_declare_self, Operator.Table.declared?_declare_self]
  · rw [Operator.Table.declared?_declare_of_ne _ _ heq,
      Operator.Table.declared?_declare_of_ne _ _ heq]
    exact h asked hasked

/-- Tables that report the same, at one place of a text. -/
structure Agreeing (tokens : List Token) (s t : ReadState) : Prop where
  /-- The place. -/
  cursor : s.cursor = t.cursor
  /-- It is in the text. -/
  suffix : s.cursor.tokens <:+ tokens
  /-- The tables agree on what the text spells. -/
  tables : AgreeOn (spellings tokens) s.table t.table

/-- The table is asked for the operator at the cursor only, so both runs hear the same. -/
theorem Agreeing.ahead (h : Agreeing tokens s t) : infixAhead? s = infixAhead? t := by
  unfold infixAhead?
  rw [← h.cursor]
  cases hoperator : s.cursor.operator? with
  | none => rfl
  | some operator =>
      have hlookup := h.tables _ (spelling_mem_spellings h.suffix hoperator)
      rw [Option.bind_some, Option.bind_some, hlookup]

/-- Tables that agree on a text are alike to all that reads it. -/
theorem forms_alike (tokens : List Token) : Alike (Agreeing tokens) Eq where
  kind := fun h => by rw [h.cursor]
  text := fun h => by rw [h.cursor]
  length := fun h => by rw [h.cursor]
  operator := fun h => by rw [h.cursor]
  ahead := Agreeing.ahead
  advance := fun {s t} h => by
    refine ⟨congrArg Cursor.advance h.cursor, ?_, h.tables⟩
    exact (Cursor.tokens_advance_suffix s.cursor).trans h.suffix
  error := fun fault h => by rw [h.cursor]
  declare := fun spelling precedence h =>
    ⟨h.cursor, h.suffix, h.tables.declare spelling precedence⟩

/-- Tables that agree on a text are read alike, and agree on it afterwards. -/
theorem ofTokens_alike (file : String) (h : AgreeOn (spellings tokens) table other) :
    (Program.ofTokens file tokens table).result = (Program.ofTokens file tokens other).result
      ∧ AgreeOn (spellings tokens) (Program.ofTokens file tokens table).table
          (Program.ofTokens file tokens other).table := by
  have hstart : Agreeing tokens ⟨⟨file, tokens⟩, table⟩ ⟨⟨file, tokens⟩, other⟩ :=
    ⟨rfl, List.suffix_refl _, h⟩
  have hrelated := (forms_alike tokens).forms_inStep .standard hstart
  unfold Program.ofTokens
  cases hrun : (forms .standard).run ⟨⟨file, tokens⟩, table⟩ with
  | ok found u =>
      rw [hrun] at hrelated
      obtain ⟨v, hrun', hagreeing⟩ := hrelated.of_ok
      rw [hrun']
      exact ⟨rfl, hagreeing.tables⟩
  | error error u =>
      rw [hrun] at hrelated
      obtain ⟨_, v, hrun', rfl, hagreeing⟩ := hrelated.of_error
      rw [hrun']
      exact ⟨rfl, hagreeing.tables⟩

/-! ## §3. What a text writes to the table. -/

/-- What a head announces is spelled after its keyword. -/
theorem spelled_of_announced? {cursor : Cursor} {entry : Operator.Entry}
    (hsuffix : cursor.tokens <:+ tokens) (h : cursor.announced? = some entry) :
    entry.1 ∈ spellings tokens := by
  unfold Cursor.announced? at h
  split at h
  · obtain ⟨operator, hoperator, h⟩ := Option.bind_eq_some_iff.1 h
    have hspelled : operator.spelling ∈ spellings tokens :=
      spelling_mem_spellings ((Cursor.tokens_advance_suffix _).trans hsuffix) hoperator
    dsimp only at h
    split at h
    · obtain ⟨precedence, -, rfl⟩ := Option.map_eq_some_iff.1 h
      exact hspelled
    · cases h
      exact hspelled
  · exact absurd h nofun

/-- A form of a text writes what the text spells, if anything. -/
theorem spelled_of_written? {cursor : Cursor} {entry : Operator.Entry}
    (hsuffix : cursor.tokens <:+ tokens) (h : cursor.written? = some entry) :
    entry.1 ∈ spellings tokens := by
  unfold Cursor.written? at h
  dsimp only at h
  split at h
  · refine spelled_of_announced? ?_ h
    exact (Cursor.tokens_advance_suffix _).trans ((dropSemicolons_suffix _).trans hsuffix)
  · exact absurd h nofun

/-- A row of forms of a text declares what the text spells, and leaves an end of it. -/
theorem Completed.spelled {forms : List Form} (h : Completed s forms t) :
    s.cursor.tokens <:+ tokens → t.cursor.tokens <:+ tokens
      ∧ ∀ entry ∈ Program.entries forms, entry.1 ∈ spellings tokens := by
  induction h with
  | nil => exact fun hsuffix => ⟨hsuffix, nofun⟩
  | @cons s t u first forms hform _ ih =>
      intro hsuffix
      obtain ⟨hlast, hforms⟩ := ih ((suffix_form tokens hsuffix).1 hform)
      refine ⟨hlast, fun entry hmem => ?_⟩
      have hmem : entry ∈ Program.entries [first] ++ Program.entries forms := by
        simpa [Program.entries] using hmem
      obtain hmem | hmem := List.mem_append.1 hmem
      · rw [show [first] = (some first).toList from rfl, entries_of_form hform,
          Option.mem_toList] at hmem
        exact spelled_of_written? hsuffix hmem
      · exact hforms entry hmem

/-- Whatever becomes of a text, it declares nothing that it does not spell. -/
theorem ofTokens_spelled (file : String) (table : Operator.Table) (linked : Linked tokens) :
    ∃ entries, (Program.ofTokens file tokens table).table = table.declareAll entries
      ∧ ∀ entry ∈ entries, entry.1 ∈ spellings tokens := by
  rw [ofTokens_eq]
  split
  · next found t hrun =>
    obtain ⟨u, hcompleted, hnone⟩ := completed_of_gives hrun
    obtain ⟨-, hspelled⟩ := hcompleted.spelled (List.suffix_refl tokens)
    refine ⟨Program.entries found, ?_, hspelled⟩
    have hlast := (form_writes .standard u).1 hnone
    rw [← entries_of_form hnone] at hlast
    rw [hlast, hcompleted.table]
    rfl
  · next error t hrun =>
    obtain ⟨found, u, hcompleted, hfails⟩ :=
      completed_of_fails (s := place file table tokens) linked (Nat.le_succ _) hrun
    obtain ⟨hleft, hspelled⟩ := hcompleted.spelled (List.suffix_refl tokens)
    refine ⟨Program.entries found ++ u.cursor.written?.toList, ?_, fun entry hmem => ?_⟩
    · rw [(form_writes .standard u).2 hfails, hcompleted.table, Operator.Table.declareAll_append]
    · obtain hmem | hmem := List.mem_append.1 hmem
      · exact hspelled entry hmem
      · exact spelled_of_written? hleft (Option.mem_toList.1 hmem)

/-- A spelling that does not occur has the entry that it had. -/
theorem declared?_of_unspelled (file : String) (table : Operator.Table) (linked : Linked tokens)
    {spelling : String} (h : spelling ∉ spellings tokens) :
    (Program.ofTokens file tokens table).table.declared? spelling = table.declared? spelling := by
  obtain ⟨entries, hentries, hspelled⟩ := ofTokens_spelled file table linked
  have hnone : Operator.Table.lastOf spelling entries = none := by
    rw [Operator.Table.lastOf_eq_none_iff]
    intro entry hmem heq
    exact h (heq ▸ hspelled entry hmem)
  rw [hentries, Operator.Table.declared?_declareAll, hnone]
  rfl

/-! ## §4. Texts. -/

/-- An operator of precedence 0 is not reported, and no entry is not either. -/
theorem lookup_declare_zero (table : Operator.Table) {spelling : String}
    (h : table.lookup spelling = none) (asked : String) :
    (table.declare spelling 0).lookup asked = table.lookup asked := by
  by_cases heq : asked = spelling
  · subst heq
    rw [h]
    unfold Operator.Table.lookup
    rw [Operator.Table.declared?_declare_self]
    rfl
  · unfold Operator.Table.lookup
    rw [Operator.Table.declared?_declare_of_ne _ _ heq]

/-- Operators that a text does not spell do not change what the table says of the others. -/
theorem agreeOn_declareAll (table : Operator.Table) {known : List String}
    {entries : List Operator.Entry} (h : ∀ entry ∈ entries, entry.1 ∉ known) :
    AgreeOn known (table.declareAll entries) table := by
  intro spelling hspelling
  have hnone : Operator.Table.lastOf spelling entries = none := by
    rw [Operator.Table.lastOf_eq_none_iff]
    intro entry hmem heq
    exact h entry hmem (heq ▸ hspelling)
  unfold Operator.Table.lookup
  rw [Operator.Table.declared?_declareAll, hnone]
  rfl

/-- **Operators that a text does not use cannot change how it is read.**  Two tables that
report the same of the spellings in a text give it the same forms or the same error, and
report the same of these spellings afterwards; every other spelling keeps the entry that
it had.  So an entry of precedence 0 is as good as none, and what was declared before
is invisible to a text that does not spell it. -/
theorem unused_invisible (tokenizes : tokenize file source = .ok tokens) :
    (∀ table other, AgreeOn (spellings tokens) table other →
      (Program.ofSource file source table).result = (Program.ofSource file source other).result
        ∧ AgreeOn (spellings tokens) (Program.ofSource file source table).table
            (Program.ofSource file source other).table)
    ∧ (∀ table spelling, spelling ∉ spellings tokens →
      (Program.ofSource file source table).table.declared? spelling = table.declared? spelling)
    ∧ (∀ table spelling, table.lookup spelling = none →
      (Program.ofSource file source (table.declare spelling 0)).result
          = (Program.ofSource file source table).result
        ∧ ∀ asked, (Program.ofSource file source (table.declare spelling 0)).table.lookup asked
            = (Program.ofSource file source table).table.lookup asked)
    ∧ ∀ table (entries : List Operator.Entry), (∀ entry ∈ entries, entry.1 ∉ spellings tokens) →
      (Program.ofSource file source (table.declareAll entries)).result
        = (Program.ofSource file source table).result := by
  have linked := linked_of_tokenize tokenizes
  have hsource : ∀ table, Program.ofSource file source table = Program.ofTokens file tokens table :=
    fun table => ofSource_of_tokenize tokenizes
  simp only [hsource]
  refine ⟨fun table other agree => ofTokens_alike file agree,
    fun table spelling => declared?_of_unspelled file table linked, ?_,
    fun table entries unspelled => (ofTokens_alike file (agreeOn_declareAll table unspelled)).1⟩
  intro table spelling hnone
  have hzero := lookup_declare_zero table hnone
  obtain ⟨hresult, hagree⟩ := ofTokens_alike file fun asked (_ : asked ∈ spellings tokens) =>
    hzero asked
  refine ⟨hresult, fun asked => ?_⟩
  by_cases hasked : asked ∈ spellings tokens
  · exact hagree asked hasked
  · -- the text does not touch the entry, so both tables report what they did at the start
    unfold Operator.Table.lookup
    rw [declared?_of_unspelled file _ linked hasked, declared?_of_unspelled file _ linked hasked]
    exact hzero asked

/-- A text that declares one operator and uses it and another one does not see a third one,
and one of precedence 0 neither where it stands in the table nor where it is missing. -/
theorem ampersand_unused :
    (∃ tokens, tokenize "sel" "func binary ^ 5 (x, y) x; a ^ b + c" = .ok tokens
      ∧ spellings tokens = ["^", "^", "+"])
    ∧ (Program.ofSource "sel" "func binary ^ 5 (x, y) x; a ^ b + c" .standard).result
        = (Program.ofSource "sel" "func binary ^ 5 (x, y) x; a ^ b + c"
            ((Operator.Table.standard.declare "^" 0).declare "&" 7)).result
    ∧ (Program.ofSource "sel" "func binary ^ 5 (x, y) x; a ^ b + c"
        (Operator.Table.standard.declare "&" 7)).table.declared? "&" = some 7
    ∧ (Program.ofSource "sel" "func binary ^ 5 (x, y) x; a ^ b + c"
          (Operator.Table.standard.declare "^" 0)).result
        = (Program.ofSource "sel" "func binary ^ 5 (x, y) x; a ^ b + c" .standard).result
    ∧ (Program.ofSource "sel" "func binary ^ 5 (x, y) x; a ^ b + c"
          (Operator.Table.standard.declareAll [("&", 7), ("*", 1)])).result
        = (Program.ofSource "sel" "func binary ^ 5 (x, y) x; a ^ b + c" .standard).result := by
  obtain ⟨tokens, htokens⟩ : ∃ tokens,
      tokenize "sel" "func binary ^ 5 (x, y) x; a ^ b + c" = .ok tokens :=
    exists_tokens (by decide +kernel)
  have hspellings : spellings tokens = ["^", "^", "+"] := by
    have hone : (tokenize "sel" "func binary ^ 5 (x, y) x; a ^ b + c").map spellings
        = .ok ["^", "^", "+"] := by decide +kernel
    rw [htokens] at hone
    exact Except.ok.inj hone
  obtain ⟨hagree, hframe, hzero, hbefore⟩ := unused_invisible htokens
  rw [hspellings] at hagree hframe hbefore
  refine ⟨⟨tokens, htokens, hspellings⟩, (hagree _ _ ?_).1, ?_, (hzero _ _ ?_).1, hbefore _ _ ?_⟩
  · unfold AgreeOn
    decide +kernel
  · rw [hframe _ _ (by decide)]
    decide +kernel
  · decide +kernel
  · decide

end Fixity.Language
