/-
  Fixity.Proofs.Language.Literals
  ────────────────────────────────
  **WHICH LITERALS ARE DIMENSIONS AND PRECEDENCES.**

  A dimension and a precedence are whole numbers in a range, written as literals.  The
  literal is read as a number first, and the number is looked at then:

      arr a[3.0]                         dimension 3
      arr a[2.5]                         no dimension
      arr a[0.99999999999999999999]      dimension 1

  So a literal is taken exactly if the rational that it denotes ROUNDS TO a whole number in
  the range, and that number is recorded.  One that denotes a whole number rounds to no
  other.

  Main results: `Literal.isNumeral_iff` (literals are the numerals of a text),
  `Literal.natural?_number_iff` (which whole number a literal reads as) and `literal_decides`
  (dimensions and precedences).
-/
import Fixity.Proofs.Language.Places
import Fixity.Proofs.Language.Sequence
import Fixity.Proofs.Number.Nearest
import Fixity.Proofs.Reading.Failure
import Fixity.Proofs.Reading.Progress
import Fixity.Proofs.Scanning.Enclosing

namespace Fixity

/-! ## §1. Literals. -/

namespace Number

/-- Digits, and perhaps a point and more digits. -/
structure Literal where
  /-- The digits before the point. -/
  whole : List Char
  /-- The digits behind the point, none if there is no point. -/
  fraction : List Char
  /-- There is a digit before the point. -/
  whole_ne_nil : whole ≠ []
  isDigits_whole : IsDigits whole
  isDigits_fraction : IsDigits fraction

namespace Literal

/-- The characters of a literal. -/
def chars (literal : Literal) : List Char :=
  if literal.fraction = [] then literal.whole else literal.whole ++ '.' :: literal.fraction

/-- The text of a literal. -/
def text (literal : Literal) : String := String.ofList literal.chars

/-- The rational that a literal denotes. -/
def value (literal : Literal) : ℚ :=
  digitsValue (literal.whole ++ literal.fraction) / 10 ^ literal.fraction.length

/-- The number that a literal is read as. -/
def number (literal : Literal) : Number :=
  ofDecimal false (digitsValue (literal.whole ++ literal.fraction))
    (-(literal.fraction.length : Int))

/-- Literals are the numerals that stand in a text. -/
theorem isNumeral_iff {text : List Char} :
    IsNumeral text ↔ ∃ literal : Literal, literal.chars = text := by
  constructor
  · intro h
    obtain ⟨digits, hne, hdigits, rfl | ⟨fraction, hne', hfraction, rfl⟩⟩ := h
    · exact ⟨⟨text, [], hne, hdigits, by simp [IsDigits]⟩, if_pos rfl⟩
    · exact ⟨⟨digits, fraction, hne, hdigits, hfraction⟩, if_neg hne'⟩
  · intro h
    obtain ⟨⟨whole, fraction, hne, hwhole, hfraction⟩, rfl⟩ := h
    refine ⟨whole, hne, hwhole, ?_⟩
    by_cases hnone : fraction = []
    · exact .inl (if_pos hnone)
    · exact .inr ⟨fraction, hnone, hfraction, if_neg hnone⟩

variable (literal : Literal)

theorem ofText?_text : ofText? literal.text = some literal.number := by
  rw [ofText?, text, String.toList_ofList, chars]
  by_cases hnone : literal.fraction = []
  · rw [if_pos hnone, ofChars?_digits literal.whole_ne_nil literal.isDigits_whole, number, hnone,
      List.append_nil]
    rfl
  · rw [if_neg hnone, ofChars?_point literal.whole_ne_nil literal.isDigits_whole
      literal.isDigits_fraction]
    rfl

/-- A literal is one token where neither a digit nor a point follows. -/
theorem split?_chars (next : Char) (digit : next.isDigit = false) (point : next ≠ '.')
    (rest : List Char) :
    split? (literal.chars ++ next :: rest)
      = some (⟨some .number, literal.chars⟩, next :: rest) := by
  have hstop : ∀ c ∈ (next :: rest).head?, c.isDigit = false := by simpa using digit
  have hpoint : ∀ c more, next :: rest = '.' :: c :: more → c.isDigit = false := by
    intro c more heq
    exact absurd (List.cons.inj heq).1 point
  have hnumber : splitNumber (literal.chars ++ next :: rest) = (literal.chars, next :: rest) := by
    unfold chars
    by_cases hnone : literal.fraction = []
    · rw [if_pos hnone]
      exact splitNumber_whole literal.isDigits_whole hstop hpoint
    · rw [if_neg hnone, List.append_assoc, List.cons_append]
      exact splitNumber_point literal.isDigits_whole hnone literal.isDigits_fraction hstop
  obtain ⟨c, more, hchars, hc⟩ : ∃ c more, literal.chars = c :: more ∧ c.isDigit = true := by
    obtain ⟨c, more, hwhole⟩ := List.exists_cons_of_ne_nil literal.whole_ne_nil
    have hc : c.isDigit = true := literal.isDigits_whole c (by simp [hwhole])
    unfold chars
    split
    · exact ⟨c, more, hwhole, hc⟩
    · exact ⟨c, more ++ '.' :: literal.fraction, by rw [hwhole]; rfl, hc⟩
  rw [hchars] at hnumber ⊢
  rw [List.cons_append] at hnumber ⊢
  simp [split?, isWordStart_of_isDigit hc, hc, hnumber]

/-- **The whole number that a literal is read as** is the one that its rational rounds to. -/
theorem natural?_number_iff {n : Nat} (hpos : 0 < n) (hsmall : n < twoTo 32) :
    literal.number.natural? = some n ↔ RoundsTo literal.value n :=
  natural?_ofDecimal_iff hpos hsmall

end Literal
end Number

namespace Language

open Grammar Read Number Scanner
open Text (byteLength)

variable {tokens rest : List Token} {s t : ReadState} {error : Error}

theorem dimension?_number_iff (literal : Literal) (n : UInt32) :
    dimension? literal.number = some n ↔ 1 ≤ n.toNat ∧ RoundsTo literal.value n.toNat := by
  have hsmall : n.toNat < twoTo 32 := n.toNat_lt
  have hword : n.toNat ≤ 4294967295 := Nat.le_of_lt_succ n.toNat_lt
  rw [dimension?_eq_some_iff]
  constructor
  · intro h
    exact ⟨h.2.1, (literal.natural?_number_iff h.2.1 hsmall).1 h.1⟩
  · intro h
    exact ⟨(literal.natural?_number_iff h.1 hsmall).2 h.2, h.1, hword⟩

theorem precedence?_number_iff (literal : Literal) (n : UInt32) :
    precedence? literal.number = some n
      ↔ (1 ≤ n.toNat ∧ n.toNat ≤ 18) ∧ RoundsTo literal.value n.toNat := by
  have hsmall : n.toNat < twoTo 32 := n.toNat_lt
  rw [precedence?_eq_some_iff]
  constructor
  · intro h
    exact ⟨h.2, (literal.natural?_number_iff h.2.1 hsmall).1 h.1⟩
  · intro h
    exact ⟨(literal.natural?_number_iff h.1.1 hsmall).2 h.2, h.1⟩

theorem dimension?_number_eq_none_iff (literal : Literal) :
    dimension? literal.number = none
      ↔ ∀ n : UInt32, 1 ≤ n.toNat → ¬ RoundsTo literal.value n.toNat := by
  rw [Option.eq_none_iff_forall_ne_some]
  refine forall_congr' fun n => ?_
  rw [Ne, dimension?_number_iff, not_and]

theorem precedence?_number_eq_none_iff (literal : Literal) :
    precedence? literal.number = none
      ↔ ∀ n : UInt32, 1 ≤ n.toNat → n.toNat ≤ 18 → ¬ RoundsTo literal.value n.toNat := by
  rw [Option.eq_none_iff_forall_ne_some]
  refine forall_congr' fun n => ?_
  rw [Ne, precedence?_number_iff, not_and, and_imp]

/-! ## §2. Programs of one form. -/

/-- Past a step that succeeds, reading is what comes behind it. -/
theorem run_past {α β : Type} {p : Read α} {f : α → Read β} {a : α} (h : Gives p s a t) :
    (p >>= f).run s = (f a).run t := by
  rw [run_bind, show p.run s = .ok a t from h]

/-- No operator is taken where no symbol stands. -/
theorem gives_climb_of_kind {level : Level} (loosest : UInt32) (e : Expr)
    (h : s.cursor.kind ≠ .symbol) : Gives (climb level loosest e) s e s := by
  have hnone : infixAhead? s = none := by
    unfold infixAhead?
    cases hoperator : s.cursor.operator? with
    | none => rfl
    | some operator => exact absurd (kind_of_operator? hoperator) h
  have hlink : Gives (Grammar.link level loosest) s none s := by
    unfold Grammar.link
    refine Gives.bind (gives_get.2 ⟨rfl, rfl⟩) ?_
    rw [hnone]
    exact gives_pure.2 ⟨rfl, rfl⟩
  exact Gives.bind (gives_many.2 (gives_upTo_succ.2 (.inl ⟨rfl, hlink⟩))) (gives_pure.2 ⟨rfl, rfl⟩)

/-- What picks a primary expression is none of the kinds that are looked for before. -/
theorem kind_ne_of_standard {kind : Kind} {production : Production}
    (h : Choice.standard kind = some production) :
    kind ≠ .symbol ∧ kind ≠ .openBlock ∧ kind ≠ .semicolon ∧ kind ≠ .eof ∧ kind ≠ .funcWord := by
  refine ⟨?_, ?_, ?_, ?_, ?_⟩
  all_goals
    rintro rfl
    exact absurd h nofun

/-- **A body** is the construct that its first token picks, and the operators that follow. -/
theorem run_body {production : Production} (h : Choice.standard s.cursor.kind = some production) :
    (read .standard .block).run s
      = (construct ⟨.standard, descend .standard (2 * s.cursor.tokens.length + 1)⟩ production
          >>= climb ⟨.standard, descend .standard (2 * s.cursor.tokens.length + 2)⟩ 0).run s := by
  obtain ⟨hsymbol, hbrace, -⟩ := kind_ne_of_standard h
  have hkind : Gives Read.kind s s.cursor.kind s := gives_kind.2 ⟨rfl, rfl⟩
  have hunary : (unary ⟨.standard, descend .standard (2 * s.cursor.tokens.length + 2)⟩).run s
      = (construct ⟨.standard, descend .standard (2 * s.cursor.tokens.length + 1)⟩ production).run
          s := by
    unfold unary primary
    rw [run_past hkind, if_neg hsymbol, run_past hkind]
    dsimp only
    rw [h]
    rfl
  calc (read .standard .block).run s
    _ = (Grammar.block ⟨.standard, descend .standard (2 * s.cursor.tokens.length + 2)⟩).run s :=
      run_past (gives_cursor.2 ⟨rfl, rfl⟩)
    _ = (Grammar.expression
          ⟨.standard, descend .standard (2 * s.cursor.tokens.length + 2)⟩).run s :=
      run_past (gives_taken.2 (.inr ⟨hbrace, rfl, rfl⟩))
    _ = _ := by
      rw [Grammar.expression, run_bind, run_bind, hunary]

variable {file : String} {table : Operator.Table} {func : Token}

/-- The kind that a cursor shows is that of its first token. -/
theorem kind_ne_of_first {first : Token} {kind other : Kind} (h : first.kind = kind)
    (hne : kind ≠ other) : (place file table (first :: rest)).cursor.kind ≠ other := by
  intro heq
  exact hne (h.symm.trans heq)

/-- No semicolon is passed over where none stands. -/
theorem gives_skipSemicolons (hlead : lead tokens ≠ .semicolon) :
    Gives skipSemicolons (place file table tokens) () (place file table tokens) := by
  refine gives_modify.2 ?_
  show place file table tokens = place file table (dropSemicolons tokens)
  rw [dropSemicolons_of_lead hlead]

/-- A form that starts with a primary expression is one that stands by itself, with the operators
that follow. -/
theorem run_expressionForm {production : Production}
    (h : Choice.standard (lead tokens) = some production) :
    (form .standard).run (place file table tokens)
      = (do
          let first ← construct ⟨.standard, descend .standard (2 * tokens.length + 1)⟩ production
          let e ← climb ⟨.standard, descend .standard (2 * tokens.length + 2)⟩ 0 first
          return some (.expression ⟨.anonymous, e⟩) : Read (Option Form)).run
          (place file table tokens) := by
  obtain ⟨-, -, hsemicolon, heof, hfunc⟩ := kind_ne_of_standard h
  have hbody := run_body (show Choice.standard (place file table tokens).cursor.kind = _ from h)
  unfold form
  rw [run_past (gives_skipSemicolons hsemicolon), run_past (gives_kind.2 ⟨rfl, rfl⟩)]
  split
  · next hend => exact absurd hend heof
  · next hword => exact absurd hword hfunc
  · simp only [freeExpression, bind_assoc, pure_bind]
    rw [run_bind, hbody, ← run_bind, bind_assoc]

/-- A form that starts with the keyword is a head and a body. -/
theorem run_definitionForm (hfunc : func.kind = .funcWord) (tokens : List Token)
    (hne : tokens ≠ []) :
    (form .standard).run (place file table (func :: tokens))
      = (do
          let prototype ← heading
          let body ← read .standard .block
          return some (.definition ⟨prototype, body⟩) : Read (Option Form)).run
          (place file table tokens) := by
  have hlead : lead (func :: tokens) = .funcWord := hfunc
  have htake : Gives (take .funcWord "func") (place file table (func :: tokens)) ()
      (place file table tokens) := gives_take.2 ⟨hfunc, by rw [advance_cons func hne]⟩
  unfold form
  rw [run_past (gives_skipSemicolons (by rw [hlead]; decide)),
    run_past (gives_kind.2 ⟨hlead.symm, rfl⟩)]
  simp only [definition, bind_assoc, pure_bind]
  rw [run_past htake]

/-- A program is one form if nothing but the end mark is left behind it. -/
theorem ofTokens_of_gives {first mark : Token} {rest : List Token} {found : Form}
    (h : Gives (form .standard) ⟨⟨file, first :: rest⟩, table⟩ (some found) t)
    (hleft : t.cursor.tokens = [mark]) (hmark : mark.kind = .eof) :
    Program.ofTokens file (first :: rest) table = ⟨.ok [found], t.table⟩ := by
  have hskip : Gives skipSemicolons t () t := by
    refine gives_modify.2 ?_
    obtain ⟨⟨file', tokens⟩, table'⟩ := t
    cases hleft
    rfl
  have hend : t.cursor.kind = .eof := by
    unfold Cursor.kind Cursor.current?
    rw [hleft]
    exact hmark
  have hnone : Gives (form .standard) t none t := by
    unfold form
    refine Gives.bind hskip (Gives.bind (gives_kind.2 ⟨rfl, rfl⟩) ?_)
    rw [hend]
    exact gives_pure.2 ⟨rfl, rfl⟩
  have hforms : Gives (upTo (form .standard) ((first :: rest).length + 1))
      ⟨⟨file, first :: rest⟩, table⟩ [found] t :=
    gives_upTo_succ.2 (.inr ⟨found, [], t, rfl, h, gives_upTo_succ.2 (.inl ⟨rfl, hnone⟩)⟩)
  rw [ofTokens_eq, show (upTo (form .standard) ((first :: rest).length + 1)).run _ = _ from hforms]

/-- A program fails where its first form does. -/
theorem ofTokens_of_fails
    (h : Fails (form .standard) ⟨⟨file, tokens⟩, table⟩ error t) :
    Program.ofTokens file tokens table = ⟨.error error, t.table⟩ := by
  have hforms : Fails (upTo (form .standard) (tokens.length + 1)) ⟨⟨file, tokens⟩, table⟩ error t :=
    fails_upTo_succ.2 (.inl h)
  rw [ofTokens_eq, show (upTo (form .standard) (tokens.length + 1)).run _ = _ from hforms]

/-- A blank yields nothing. -/
theorem yields_blank (file : String) (offset : Nat) (rest : List Char) :
    Yields ⟨file, offset, ' ' :: rest⟩ [] ⟨file, offset + 1, rest⟩ := by
  have hgap : Gap [' '] rest := by
    refine Gap.of_blank (fun c hmem => ?_) rest
    rw [List.mem_singleton.1 hmem]
    rfl
  exact yields_gap hgap file offset

/-! ## §3. A declaration with one dimension. -/

section Declaration

variable {word name opening number closing next : Token}

/-- The text of a declaration whose dimension is the given literal. -/
def declarationText (literal : Literal) : String := "arr a[" ++ literal.text ++ "]"

theorem tokenize_declaration (file : String) (literal : Literal) :
    ∃ word name opening number closing mark : Token,
      tokenize file (declarationText literal) = .ok [word, name, opening, number, closing, mark]
        ∧ word.kind = .arrWord ∧ name.kind = .identifier ∧ name.text = "a"
        ∧ opening.kind = .openBracket
        ∧ number.kind = .number ∧ number.text = literal.text ∧ number.start = 6
        ∧ closing.kind = .closeBracket ∧ mark.kind = .eof := by
  have htext : (declarationText literal).toList = "arr a[".toList ++ (literal.chars ++ [']']) := by
    simp [declarationText, Literal.text]
  generalize hrest : literal.chars ++ [']'] = rest at htext
  have hword := yields_token (show split? ("arr a[".toList ++ rest)
    = some (⟨some .arrWord, ['a', 'r', 'r']⟩, " a[".toList ++ rest) from rfl) file 0
  have hname := yields_token (show split? ("a[".toList ++ rest)
    = some (⟨some .identifier, ['a']⟩, '[' :: rest) from rfl) file 4
  have hopening := yields_token (show split? ('[' :: rest)
    = some (⟨some .openBracket, ['[']⟩, rest) from rfl) file 5
  have hnumber := yields_token (literal.split?_chars ']' (by decide) (by decide) []) file 6
  have hclosing := yields_token (show split? [']']
    = some (⟨some .closeBracket, [']']⟩, []) from rfl) file (6 + byteLength literal.chars)
  rw [hrest] at hnumber
  have hall := hword.trans ((yields_blank file 3 _).trans
    (hname.trans (hopening.trans (hnumber.trans hclosing))))
  rw [← htext] at hall
  obtain ⟨mark, hmark, htokens⟩ := Scanner.Yields.tokenize hall
  exact ⟨_, _, _, _, _, mark, htokens, rfl, rfl, rfl, rfl, rfl, rfl, rfl, rfl, hmark⟩

/-- A number that is accepted. -/
theorem gives_numberWith_of_text {α : Type} {accept : Number → Option α} {fault : String → Fault}
    {value : Number} {a : α} (hnumber : number.kind = .number)
    (hvalue : ofText? number.text = some value) (haccept : accept value = some a) :
    Gives (numberWith accept fault) (place file table (number :: next :: rest)) a
      (place file table (next :: rest)) :=
  gives_numberWith.2 ⟨by simp [Cursor.number?, currentOf?_cons, hnumber, hvalue, haccept], rfl⟩

/-- A number that is not accepted is at fault itself. -/
theorem fails_numberWith_of_text {α : Type} {accept : Number → Option α} {fault : String → Fault}
    {value : Number} (hnumber : number.kind = .number)
    (hvalue : ofText? number.text = some value) (haccept : accept value = none) :
    Fails (numberWith accept fault) (place file table (number :: rest))
      ⟨fault number.text, ⟨number.start, file⟩⟩ (place file table (number :: rest)) :=
  fails_numberWith.2
    ⟨by simp [Cursor.number?, currentOf?_cons, hnumber, hvalue, haccept], rfl, rfl⟩

theorem gives_identifier_of_kind (hname : name.kind = .identifier) :
    Gives identifier (place file table (name :: next :: rest)) name.text
      (place file table (next :: rest)) :=
  gives_identifier.2 ⟨by simp [Cursor.identifier?, currentOf?_cons, hname], rfl⟩

/-- **A declaration** is read from its first dimension on. -/
theorem run_array (hname : name.kind = .identifier) (hopening : opening.kind = .openBracket)
    (hnumber : number.kind = .number) :
    array.run (place file table (word :: name :: opening :: number :: rest))
      = (do
          let first ← numberWith dimension? .invalidDimension
          take .closeBracket "]"
          let more ← upTo (bracket (.missingDimension name.text)
            (numberWith dimension? .invalidDimension)) (rest.length + 2)
          return .array name.text (first :: more) : Read Expr).run
          (place file table (number :: rest)) := by
  have hadvance : Gives advance (place file table (word :: name :: opening :: number :: rest)) ()
      (place file table (name :: opening :: number :: rest)) := gives_advance.2 rfl
  have hrounds : Gives rounds (place file table (opening :: number :: rest)) (rest.length + 2 + 1)
      (place file table (opening :: number :: rest)) := gives_rounds.2 ⟨rfl, rfl⟩
  have htaken : Gives (taken .openBracket) (place file table (opening :: number :: rest)) true
      (place file table (number :: rest)) := gives_taken.2 (.inl ⟨hopening, rfl, rfl⟩)
  have hbracket : Gives Read.kind (place file table (opening :: number :: rest)) .openBracket
      (place file table (opening :: number :: rest)) := gives_kind.2 ⟨hopening.symm, rfl⟩
  have hsome : Gives Read.kind (place file table (number :: rest)) .number
      (place file table (number :: rest)) := gives_kind.2 ⟨hnumber.symm, rfl⟩
  unfold array
  rw [run_past hadvance, run_past (gives_identifier_of_kind hname), run_past hbracket, if_pos rfl]
  simp only [many, bind_assoc]
  rw [run_past hrounds, upTo]
  simp only [bracket, bind_assoc]
  rw [run_past htaken, if_pos rfl]
  simp only [bind_assoc]
  rw [run_past hsome, if_neg (by decide)]
  simp only [bind_assoc, pure_bind]

/-- A declaration whose one dimension is accepted, at the end of the tokens. -/
theorem gives_array_of_number {mark : Token} {value : Number} {n : UInt32}
    (hname : name.kind = .identifier) (hopening : opening.kind = .openBracket)
    (hnumber : number.kind = .number) (hclosing : closing.kind = .closeBracket)
    (hmark : mark.kind = .eof) (hvalue : ofText? number.text = some value)
    (haccept : dimension? value = some n) :
    Gives array (place file table [word, name, opening, number, closing, mark])
      (.array name.text [n]) (place file table [mark]) := by
  have hclose : Gives (take .closeBracket "]") (place file table [closing, mark]) ()
      (place file table [mark]) := gives_take.2 ⟨hclosing, rfl⟩
  have hother : (place file table [mark]).cursor.kind ≠ .openBracket :=
    kind_ne_of_first hmark (by decide)
  have hnone : Gives (bracket (.missingDimension name.text)
      (numberWith dimension? .invalidDimension)) (place file table [mark]) none
      (place file table [mark]) :=
    Gives.bind (gives_taken.2 (.inr ⟨hother, rfl, rfl⟩)) (gives_pure.2 ⟨rfl, rfl⟩)
  unfold Gives
  rw [run_array hname hopening hnumber]
  refine Gives.bind (gives_numberWith_of_text hnumber hvalue haccept) (Gives.bind hclose ?_)
  exact Gives.bind (gives_upTo_succ.2 (.inl ⟨rfl, hnone⟩)) (gives_pure.2 ⟨rfl, rfl⟩)

/-- A declaration whose first dimension is not accepted is at fault there. -/
theorem fails_array_of_number {value : Number} (hname : name.kind = .identifier)
    (hopening : opening.kind = .openBracket) (hnumber : number.kind = .number)
    (hvalue : ofText? number.text = some value) (haccept : dimension? value = none) :
    Fails array (place file table (word :: name :: opening :: number :: rest))
      ⟨.invalidDimension number.text, ⟨number.start, file⟩⟩
      (place file table (number :: rest)) := by
  unfold Fails
  rw [run_array hname hopening hnumber]
  exact fails_bind.2 (.inl (fails_numberWith_of_text hnumber hvalue haccept))

/-- **A declaration** with a literal for its dimension takes what the literal is read as, or is at
fault there. -/
theorem declaration_of_literal (file : String) (table : Operator.Table) (literal : Literal) :
    Program.ofSource file (declarationText literal) table
      = ⟨match dimension? literal.number with
          | some n => .ok [.expression ⟨.anonymous, .array "a" [n]⟩]
          | none => .error ⟨.invalidDimension literal.text, ⟨6, file⟩⟩, table⟩ := by
  obtain ⟨word, name, opening, number, closing, mark, htokens, hword, hname, hspelled, hopening,
    hnumber, htext, hstart, hclosing, hmark⟩ := tokenize_declaration file literal
  have hvalue : ofText? number.text = some literal.number := by
    rw [htext]
    exact literal.ofText?_text
  have hchoice : Choice.standard (lead [word, name, opening, number, closing, mark])
      = some .array := by
    show Choice.standard word.kind = some .array
    rw [hword]
    rfl
  have hsolid : (place file table [mark]).cursor.kind ≠ .symbol :=
    kind_ne_of_first hmark (by decide)
  rw [ofSource_of_tokenize htokens]
  cases haccept : dimension? literal.number with
  | some n =>
      have harray : Gives array (place file table [word, name, opening, number, closing, mark])
          (.array name.text [n]) (place file table [mark]) :=
        gives_array_of_number hname hopening hnumber hclosing hmark hvalue haccept
      rw [hspelled] at harray
      refine ofTokens_of_gives (t := place file table [mark]) ?_ rfl hmark
      unfold Gives
      rw [run_expressionForm hchoice]
      refine Gives.bind harray (Gives.bind ?_ (gives_pure.2 ⟨rfl, rfl⟩))
      exact gives_climb_of_kind 0 _ hsolid
  | none =>
      have harray : Fails array (place file table [word, name, opening, number, closing, mark])
          ⟨.invalidDimension number.text, ⟨number.start, file⟩⟩
          (place file table [number, closing, mark]) :=
        fails_array_of_number hname hopening hnumber hvalue haccept
      rw [htext, hstart] at harray
      refine ofTokens_of_fails (t := place file table [number, closing, mark]) ?_
      unfold Fails
      rw [run_expressionForm hchoice]
      exact fails_bind.2 (.inl harray)

end Declaration

/-! ## §4. An operator with a precedence. -/

section Operator

variable {word tilde number opening first comma second closing body next : Token}

/-- The text of an operator whose precedence is the given literal. -/
def operatorText (literal : Literal) : String := "func binary ~ " ++ literal.text ++ "(a, b) a"

/-- What stands before the precedence. -/
theorem yields_operatorFront (file : String) (rest : List Char) :
    ∃ func word tilde : Token,
      Yields ⟨file, 0, "func binary ~ ".toList ++ rest⟩ [func, word, tilde] ⟨file, 14, rest⟩
        ∧ func.kind = .funcWord ∧ word.kind = .binaryWord
        ∧ ∀ more, Cursor.operator? ⟨file, tilde :: more⟩ = some ⟨"~", 1⟩ := by
  have hfunc := yields_token (show split? ("func binary ~ ".toList ++ rest)
    = some (⟨some .funcWord, ['f', 'u', 'n', 'c']⟩, " binary ~ ".toList ++ rest) from rfl) file 0
  have hword := yields_token (show split? ("binary ~ ".toList ++ rest)
    = some (⟨some .binaryWord, ['b', 'i', 'n', 'a', 'r', 'y']⟩, " ~ ".toList ++ rest) from rfl)
    file 5
  have htilde := yields_token (show split? ("~ ".toList ++ rest)
    = some (⟨some .symbol, ['~']⟩, ' ' :: rest) from rfl) file 12
  have hall := hfunc.trans ((yields_blank file 4 _).trans (hword.trans
    ((yields_blank file 11 _).trans (htilde.trans (yields_blank file 13 _)))))
  refine ⟨_, _, _, hall, rfl, rfl, fun more => ?_⟩
  -- the blank behind the character is no second one of it
  rw [operator?_symbol ⟨rfl, String.singleton_eq_ofList.symm⟩]
  show some (OperatorReading.mk (String.singleton '~') 1) = some (OperatorReading.mk "~" 1)
  decide

/-- What stands behind it: two parameters, and the first of them for the body. -/
theorem yields_operatorBack (file : String) (offset : Nat) :
    ∃ opening first comma second closing body : Token,
      Yields ⟨file, offset, "(a, b) a".toList⟩ [opening, first, comma, second, closing, body]
          ⟨file, offset + 8, []⟩
        ∧ opening.kind = .openParen ∧ first.kind = .identifier ∧ first.text = "a"
        ∧ comma.kind = .comma ∧ second.kind = .identifier ∧ second.text = "b"
        ∧ closing.kind = .closeParen ∧ body.kind = .identifier ∧ body.text = "a" := by
  have hopening := yields_token (show split? ['(', 'a', ',', ' ', 'b', ')', ' ', 'a']
    = some (⟨some .openParen, ['(']⟩, ['a', ',', ' ', 'b', ')', ' ', 'a']) from rfl) file offset
  have hfirst := yields_token (show split? ['a', ',', ' ', 'b', ')', ' ', 'a']
    = some (⟨some .identifier, ['a']⟩, [',', ' ', 'b', ')', ' ', 'a']) from rfl) file (offset + 1)
  have hcomma := yields_token (show split? [',', ' ', 'b', ')', ' ', 'a']
    = some (⟨some .comma, [',']⟩, [' ', 'b', ')', ' ', 'a']) from rfl) file (offset + 2)
  have hsecond := yields_token (show split? ['b', ')', ' ', 'a']
    = some (⟨some .identifier, ['b']⟩, [')', ' ', 'a']) from rfl) file (offset + 4)
  have hclosing := yields_token (show split? [')', ' ', 'a']
    = some (⟨some .closeParen, [')']⟩, [' ', 'a']) from rfl) file (offset + 5)
  have hbody := yields_token (show split? ['a'] = some (⟨some .identifier, ['a']⟩, []) from rfl)
    file (offset + 7)
  have hparams := hopening.trans (hfirst.trans (hcomma.trans
    ((yields_blank file (offset + 3) _).trans (hsecond.trans hclosing))))
  have hall := hparams.trans ((yields_blank file (offset + 6) _).trans hbody)
  exact ⟨_, _, _, _, _, _, hall, rfl, rfl, rfl, rfl, rfl, rfl, rfl, rfl, rfl⟩

theorem tokenize_operator (file : String) (literal : Literal) :
    ∃ func word tilde number opening first comma second closing body mark : Token,
      tokenize file (operatorText literal)
          = .ok [func, word, tilde, number, opening, first, comma, second, closing, body, mark]
        ∧ (func.kind = .funcWord ∧ word.kind = .binaryWord
          ∧ ∀ more, Cursor.operator? ⟨file, tilde :: more⟩ = some ⟨"~", 1⟩)
        ∧ (number.kind = .number ∧ number.text = literal.text ∧ number.start = 14)
        ∧ (opening.kind = .openParen ∧ first.kind = .identifier ∧ first.text = "a"
          ∧ comma.kind = .comma ∧ second.kind = .identifier ∧ second.text = "b"
          ∧ closing.kind = .closeParen ∧ body.kind = .identifier ∧ body.text = "a")
        ∧ mark.kind = .eof := by
  have htext : (operatorText literal).toList
      = "func binary ~ ".toList ++ (literal.chars ++ "(a, b) a".toList) := by
    simp [operatorText, Literal.text]
  obtain ⟨func, word, tilde, hfront, hkinds⟩ :=
    yields_operatorFront file (literal.chars ++ "(a, b) a".toList)
  have hnumber := yields_token
    (literal.split?_chars '(' (by decide) (by decide) "a, b) a".toList) file 14
  obtain ⟨opening, first, comma, second, closing, body, hback, hkinds'⟩ :=
    yields_operatorBack file (14 + byteLength literal.chars)
  have hall := hfront.trans (hnumber.trans hback)
  rw [← htext] at hall
  obtain ⟨mark, hmark, htokens⟩ := Scanner.Yields.tokenize hall
  exact ⟨_, _, _, _, _, _, _, _, _, _, mark, htokens, hkinds, ⟨rfl, rfl, rfl⟩, hkinds', hmark⟩

/-- **An operator with two operands** is read from its precedence on. -/
theorem run_subject {spelling : String} (hword : word.kind = .binaryWord)
    (htilde : Cursor.operator? ⟨file, tilde :: number :: rest⟩ = some ⟨spelling, 1⟩)
    (hnumber : number.kind = .number) :
    subject.run (place file table (word :: tilde :: number :: rest))
      = (do
          let precedence ← numberWith precedence? .invalidPrecedence
          declare spelling precedence
          return .binary spelling precedence : Read Subject).run
          (place file table (number :: rest)) := by
  have hkind : Gives Read.kind (place file table (word :: tilde :: number :: rest)) .binaryWord
      (place file table (word :: tilde :: number :: rest)) := gives_kind.2 ⟨hword.symm, rfl⟩
  have hadvance : Gives advance (place file table (word :: tilde :: number :: rest)) ()
      (place file table (tilde :: number :: rest)) := gives_advance.2 rfl
  have hpast : Gives (advanceBy 1) (place file table (tilde :: number :: rest)) ()
      (place file table (number :: rest)) := gives_advanceBy.2 rfl
  have hsome : Gives Read.kind (place file table (number :: rest)) .number
      (place file table (number :: rest)) := gives_kind.2 ⟨hnumber.symm, rfl⟩
  unfold subject
  rw [run_past hkind]
  dsimp only
  unfold binarySubject
  rw [run_past hadvance, run_past (gives_cursor.2 ⟨rfl, rfl⟩), htilde]
  dsimp only
  rw [run_past hpast]
  simp only [declaredPrecedence, bind_assoc]
  rw [run_past hsome, if_pos rfl]

/-- An operator whose precedence is accepted enters the table. -/
theorem gives_subject_of_number {spelling : String} {value : Number} {n : UInt32}
    (hword : word.kind = .binaryWord)
    (htilde : ∀ more, Cursor.operator? ⟨file, tilde :: more⟩ = some ⟨spelling, 1⟩)
    (hnumber : number.kind = .number) (hvalue : ofText? number.text = some value)
    (haccept : precedence? value = some n) :
    Gives subject (place file table (word :: tilde :: number :: next :: rest))
      (.binary spelling n) (place file (table.declare spelling n) (next :: rest)) := by
  have hdeclare : Gives (declare spelling n) (place file table (next :: rest)) ()
      (place file (table.declare spelling n) (next :: rest)) := gives_declare.2 rfl
  unfold Gives
  rw [run_subject hword (htilde _) hnumber]
  refine Gives.bind (gives_numberWith_of_text hnumber hvalue haccept) ?_
  exact Gives.bind hdeclare (gives_pure.2 ⟨rfl, rfl⟩)

/-- One whose precedence is not accepted is at fault there and does not. -/
theorem fails_subject_of_number {spelling : String} {value : Number}
    (hword : word.kind = .binaryWord)
    (htilde : ∀ more, Cursor.operator? ⟨file, tilde :: more⟩ = some ⟨spelling, 1⟩)
    (hnumber : number.kind = .number) (hvalue : ofText? number.text = some value)
    (haccept : precedence? value = none) :
    Fails subject (place file table (word :: tilde :: number :: rest))
      ⟨.invalidPrecedence number.text, ⟨number.start, file⟩⟩
      (place file table (number :: rest)) := by
  unfold Fails
  rw [run_subject hword (htilde _) hnumber]
  exact fails_bind.2 (.inl (fails_numberWith_of_text hnumber hvalue haccept))

/-- Two names with a comma between them are two parameters. -/
theorem gives_two_params (hfirst : first.kind = .identifier) (hcomma : comma.kind = .comma)
    (hsecond : second.kind = .identifier) (hclosing : closing.kind = .closeParen) :
    Gives params (place file table (first :: comma :: second :: closing :: next :: rest))
      [first.text, second.text] (place file table (next :: rest)) := by
  have hslot : ∀ {token after : Token} {more : List Token}, token.kind = .identifier →
      Gives slot (place file table (token :: after :: more)) (some token.text)
        (place file table (after :: more)) := by
    intro token after more hkind
    have hsolid : (place file table (token :: after :: more)).cursor.kind ≠ .eof :=
      kind_ne_of_first hkind (by decide)
    have hname : (place file table (token :: after :: more)).cursor.identifier?
        = some token.text := by
      simp [Cursor.identifier?, currentOf?_cons, hkind]
    refine Gives.bind (gives_kind.2 ⟨rfl, rfl⟩) (gives_ite.2 (.inr ⟨hsolid, ?_⟩))
    refine Gives.bind (gives_cursor.2 ⟨rfl, rfl⟩) (Gives.bind (a := ()) (gives_advance.2 rfl) ?_)
    exact gives_pure.2 ⟨hname.symm, rfl⟩
  have hopen : (place file table
      (first :: comma :: second :: closing :: next :: rest)).cursor.kind ≠ .closeParen :=
    kind_ne_of_first hfirst (by decide)
  have hlast : ∀ bound, Gives (separatedUpTo slot .expectedParamOrParen (bound + 1))
      (place file table (second :: closing :: next :: rest)) [some second.text]
      (place file table (next :: rest)) := fun bound =>
    gives_separatedUpTo_succ.2 ⟨_, _, hslot hsecond, .inl ⟨hclosing, rfl, rfl⟩⟩
  have hslots : Gives (separated slot .expectedParamOrParen)
      (place file table (first :: comma :: second :: closing :: next :: rest))
      [some first.text, some second.text] (place file table (next :: rest)) :=
    gives_separated.2 (.inr ⟨hopen, gives_separatedUpTo_succ.2
      ⟨_, _, hslot hfirst, .inr ⟨hcomma, _, rfl, hlast _⟩⟩⟩)
  exact Gives.bind hslots (gives_pure.2 ⟨rfl, rfl⟩)

/-- A head of an operator between two names goes to the end of its list. -/
theorem gives_binary_heading {spelling : String} {precedence : UInt32}
    (hsubject : Gives subject s (.binary spelling precedence)
      (place file table (opening :: first :: comma :: second :: closing :: next :: rest)))
    (hopening : opening.kind = .openParen) (hfirst : first.kind = .identifier)
    (hcomma : comma.kind = .comma) (hsecond : second.kind = .identifier)
    (hclosing : closing.kind = .closeParen) :
    Gives heading s ((Subject.binary spelling precedence).prototype [first.text, second.text])
      (place file table (next :: rest)) := by
  have htake : Gives (take .openParen "(")
      (place file table (opening :: first :: comma :: second :: closing :: next :: rest)) ()
      (place file table (first :: comma :: second :: closing :: next :: rest)) :=
    gives_take.2 ⟨hopening, rfl⟩
  have hparams : Gives params
      (place file table (first :: comma :: second :: closing :: next :: rest))
      [first.text, second.text] (place file table (next :: rest)) :=
    gives_two_params hfirst hcomma hsecond hclosing
  refine Gives.bind hsubject (Gives.bind htake (Gives.bind hparams ?_))
  exact gives_ite.2 (.inl ⟨rfl, gives_pure.2 ⟨rfl, rfl⟩⟩)

/-- A variable at the end of the tokens is a body. -/
theorem gives_scalar_body {mark : Token} (file : String) (table : Operator.Table)
    (hbody : body.kind = .identifier) (hmark : mark.kind = .eof) :
    Gives (read .standard .block) (place file table [body, mark]) (.scalar body.text)
      (place file table [mark]) := by
  have hchoice : Choice.standard (place file table [body, mark]).cursor.kind
      = some .identifier := by
    show Choice.standard body.kind = some .identifier
    rw [hbody]
    rfl
  have hend : Gives Read.kind (place file table [mark]) .eof (place file table [mark]) :=
    gives_kind.2 ⟨hmark.symm, rfl⟩
  have hsolid : (place file table [mark]).cursor.kind ≠ .symbol :=
    kind_ne_of_first hmark (by decide)
  have hnamed : ∀ level, Gives (named level) (place file table [body, mark]) (.scalar body.text)
      (place file table [mark]) := fun level =>
    Gives.bind (gives_identifier_of_kind hbody) (Gives.bind hend (gives_pure.2 ⟨rfl, rfl⟩))
  unfold Gives
  rw [run_body hchoice]
  exact Gives.bind (hnamed _) (gives_climb_of_kind 0 _ hsolid)

/-- **An operator** with a literal for its precedence takes what the literal is read as, or is at
fault there and does not enter the table. -/
theorem operator_of_literal (file : String) (table : Operator.Table) (literal : Literal) :
    Program.ofSource file (operatorText literal) table
      = match precedence? literal.number with
        | some n => ⟨.ok [.definition ⟨⟨"binary~", ["a", "b"], true, n⟩, .scalar "a"⟩],
            table.declare "~" n⟩
        | none => ⟨.error ⟨.invalidPrecedence literal.text, ⟨14, file⟩⟩, table⟩ := by
  obtain ⟨func, word, tilde, number, opening, first, comma, second, closing, body, mark, htokens,
    ⟨hfunc, hword, htilde⟩, ⟨hnumber, htext, hstart⟩,
    ⟨hopening, hfirst, hfirstText, hcomma, hsecond, hsecondText, hclosing, hbody, hbodyText⟩,
    hmark⟩ := tokenize_operator file literal
  have hvalue : ofText? number.text = some literal.number := by
    rw [htext]
    exact literal.ofText?_text
  rw [ofSource_of_tokenize htokens]
  cases haccept : precedence? literal.number with
  | some n =>
      have hsubject : Gives subject
          (place file table
            [word, tilde, number, opening, first, comma, second, closing, body, mark])
          (.binary "~" n)
          (place file (table.declare "~" n)
            [opening, first, comma, second, closing, body, mark]) :=
        gives_subject_of_number hword htilde hnumber hvalue haccept
      have hheading := gives_binary_heading hsubject hopening hfirst hcomma hsecond hclosing
      have hname : Prototype.binaryWord ++ "~" = "binary~" := by decide
      have hprototype : (Subject.binary "~" n).prototype [first.text, second.text]
          = ⟨"binary~", ["a", "b"], true, n⟩ := by
        rw [hfirstText, hsecondText]
        show Prototype.mk (Prototype.binaryWord ++ "~") ["a", "b"] true n = _
        rw [hname]
      have hread := gives_scalar_body file (table.declare "~" n) hbody hmark
      rw [hprototype] at hheading
      rw [hbodyText] at hread
      refine ofTokens_of_gives (t := place file (table.declare "~" n) [mark]) ?_ rfl hmark
      unfold Gives
      rw [run_definitionForm hfunc _ (List.cons_ne_nil _ _)]
      exact Gives.bind hheading (Gives.bind hread (gives_pure.2 ⟨rfl, rfl⟩))
  | none =>
      have hsubject : Fails subject
          (place file table
            [word, tilde, number, opening, first, comma, second, closing, body, mark])
          ⟨.invalidPrecedence number.text, ⟨number.start, file⟩⟩
          (place file table [number, opening, first, comma, second, closing, body, mark]) :=
        fails_subject_of_number hword htilde hnumber hvalue haccept
      rw [htext, hstart] at hsubject
      refine ofTokens_of_fails
        (t := place file table [number, opening, first, comma, second, closing, body, mark]) ?_
      unfold Fails
      rw [run_definitionForm hfunc _ (List.cons_ne_nil _ _)]
      exact fails_bind.2 (.inl (fails_bind.2 (.inl hsubject)))

end Operator

/-! ## §5. Literals in range. -/

/-- **Which literals are taken.**  A literal is the dimension `n` exactly if what it denotes rounds
to `n`, and at fault if that holds of no dimension; a literal is the precedence `n` exactly if it
rounds to `n` and that is from 1 to 18, and at fault otherwise, with the table as it was.  What
denotes a whole number is taken for no other. -/
theorem literal_decides (file : String) (table : Operator.Table) (literal : Literal) :
    (∀ n, Program.ofSource file (declarationText literal) table
          = ⟨.ok [.expression ⟨.anonymous, .array "a" [n]⟩], table⟩
        ↔ 1 ≤ n.toNat ∧ RoundsTo literal.value n.toNat)
    ∧ (Program.ofSource file (declarationText literal) table
          = ⟨.error ⟨.invalidDimension literal.text, ⟨6, file⟩⟩, table⟩
        ↔ ∀ n : UInt32, 1 ≤ n.toNat → ¬ RoundsTo literal.value n.toNat)
    ∧ (∀ n, Program.ofSource file (operatorText literal) table
          = ⟨.ok [.definition ⟨⟨"binary~", ["a", "b"], true, n⟩, .scalar "a"⟩], table.declare "~" n⟩
        ↔ (1 ≤ n.toNat ∧ n.toNat ≤ 18) ∧ RoundsTo literal.value n.toNat)
    ∧ (Program.ofSource file (operatorText literal) table
          = ⟨.error ⟨.invalidPrecedence literal.text, ⟨14, file⟩⟩, table⟩
        ↔ ∀ n : UInt32, 1 ≤ n.toNat → n.toNat ≤ 18 → ¬ RoundsTo literal.value n.toNat)
    ∧ (∀ whole : Nat, literal.value = whole →
        ∀ n : UInt32, 1 ≤ n.toNat → (RoundsTo literal.value n.toNat ↔ n.toNat = whole)) := by
  rw [declaration_of_literal, operator_of_literal]
  refine ⟨?_, ?_, ?_, ?_, ?_⟩
  · intro n
    rw [← dimension?_number_iff]
    cases dimension? literal.number <;> simp
  · rw [← dimension?_number_eq_none_iff]
    cases dimension? literal.number <;> simp
  · intro n
    rw [← precedence?_number_iff]
    cases precedence? literal.number with
    | none => simp
    | some found =>
        constructor
        · intro h
          simpa using congrArg Outcome.result h
        · intro h
          cases h
          rfl
  · rw [← precedence?_number_eq_none_iff]
    cases precedence? literal.number <;> simp
  · intro whole hwhole n hpos
    rw [hwhole]
    exact roundsTo_natCast_iff hpos n.toNat_lt

/-- Twenty nines behind the point: less than one, and the dimension one. -/
def nearlyOne : Literal where
  whole := ['0']
  fraction := List.replicate 20 '9'
  whole_ne_nil := by decide
  isDigits_whole := by
    intro c hmem
    rw [List.mem_singleton.1 hmem]
    rfl
  isDigits_fraction := by
    intro c hmem
    rw [List.eq_of_mem_replicate hmem]
    rfl

theorem nearlyOne_is_dimension :
    nearlyOne.value < 1
    ∧ declarationText nearlyOne = "arr a[0.99999999999999999999]"
    ∧ Program.ofSource "sel" "arr a[0.99999999999999999999]" .standard
      = ⟨.ok [.expression ⟨.anonymous, .array "a" [1]⟩], .standard⟩ := by
  have hdigits : digitsValue (nearlyOne.whole ++ nearlyOne.fraction) = 99999999999999999999 := by
    decide
  have hvalue : nearlyOne.value = 99999999999999999999 / 10 ^ 20 := by
    unfold Literal.value
    rw [hdigits]
    norm_num [nearlyOne]
  have htext : declarationText nearlyOne = "arr a[0.99999999999999999999]" := by decide
  have hrounds : RoundsTo nearlyOne.value (1 : UInt32).toNat := by
    have hone : (1 : UInt32).toNat = twoTo 0 := rfl
    have hlog : (twoTo 0).log2 = 0 := by decide
    rw [hvalue, hone, RoundsTo, gapBelow, gapAbove, hlog, if_pos rfl]
    norm_num [twoTo]
  refine ⟨?_, htext, ?_⟩
  · rw [hvalue]
    norm_num
  · rw [← htext]
    exact ((literal_decides "sel" .standard nearlyOne).1 1).2 ⟨by decide, hrounds⟩

end Language
end Fixity
