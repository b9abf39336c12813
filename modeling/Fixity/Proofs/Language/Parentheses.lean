/-
  Fixity.Proofs.Language.Parentheses
  ────────────────────────────────
  **PARENTHESES ARE TRANSPARENT.**

  A text that is read as one expression is read as the same one in parentheses, however
  many there are, and that is one operand:

      ((if a then b + c // all of it
      )) * (d = e
      )

  What stands before a parenthesis that closes is over there just as it is over at the end
  of a text: an operator chain, a body or an index goes on over neither.  So the operators
  inside have no say in how those outside are grouped.

  Main results: `primary_of_enclosed` (an expression in parentheses) and
  `parentheses_transparent`.
-/
import Fixity.Proofs.Language.Joining
import Fixity.Proofs.Language.Vocabulary
import Fixity.Proofs.Language.Views
import Fixity.Proofs.Scanning.Enclosing

namespace Fixity

open Operator (isOperatorChar)
open Text (byteLength isBlank)

/-! ## §1. An operator between blanks. -/

/-- What can be an operator between operands, with a blank on both sides, yields the tokens of
that operator, if no symbol follows. -/
theorem Scanner.yields_spelling {spelling : String} (h : isInfix spelling = true) (file : String)
    (offset : Nat) (rest : List Char) :
    ∃ symbols, (∀ more, Language.lead more ≠ .symbol →
          Language.Spelled (symbols ++ more) spelling more)
      ∧ Yields ⟨file, offset, ' ' :: (spelling.toList ++ ' ' :: rest)⟩ symbols
          ⟨file, offset + byteLength (' ' :: (spelling.toList ++ [' '])), rest⟩ := by
  have hblank (after : List Char) : Gap [' '] after := .blank isBlank_space .nil
  -- the blanks yield nothing, so the operator itself is what is left to find
  suffices hspelling : ∃ symbols, Yields
      ⟨file, offset + byteLength [' '], spelling.toList ++ ' ' :: rest⟩ symbols
        ⟨file, offset + byteLength [' '] + byteLength spelling.toList, ' ' :: rest⟩
      ∧ ∀ more, Language.lead more ≠ .symbol →
          Language.Spelled (symbols ++ more) spelling more by
    obtain ⟨symbols, hyields, hspelled⟩ := hspelling
    have hall := ((yields_gap (hblank _) file offset).trans hyields).trans
      (yields_gap (hblank rest) file _)
    rw [List.nil_append, List.append_nil, Nat.add_assoc, Nat.add_assoc, ← Text.byteLength_append,
      ← Text.byteLength_append] at hall
    exact ⟨symbols, hspelled, hall⟩
  rcases cases_of_isInfix h with ⟨c, rfl, hword⟩ | ⟨c, d, rfl, hpair⟩
  · unfold IsWord at hword
    have hsplit := @split?_append _ _ rest _ _ _ isBlank_space hword
    refine ⟨_, yields_token hsplit file _, fun more hmore => .single ⟨rfl, ?_⟩ ?_⟩
    · exact String.ofList_toList
    · -- no symbol follows that the character could go together with
      intro next d hnext hsymbol
      obtain ⟨other, rfl⟩ := List.head?_eq_some_iff.1 hnext
      exact absurd hsymbol.1 hmore
  · obtain ⟨c', d', hsame, hc, hd, plain⟩ := hpair
    cases String.ofList_inj.1 hsame
    rw [String.toList_ofList]
    have hfirst : split? (c :: d :: ' ' :: rest)
        = some (⟨some .symbol, [c]⟩, d :: ' ' :: rest) :=
      split?_operator hc (by rw [startsComment_two]; exact plain)
    have hsecond : split? (d :: ' ' :: rest) = some (⟨some .symbol, [d]⟩, ' ' :: rest) :=
      split?_operator hd (by simp [startsComment])
    have hboth := (yields_token hfirst file (offset + byteLength [' '])).trans
      (yields_token hsecond file _)
    rw [Nat.add_assoc _ (byteLength [c]), ← Text.byteLength_append] at hboth
    refine ⟨_, hboth, fun more _ => .pair ⟨rfl, ?_⟩ ⟨rfl, ?_⟩ rfl hc hd⟩
    · exact String.singleton_eq_ofList.symm
    · exact String.singleton_eq_ofList.symm

namespace Language

open Grammar Read

variable {file source : String} {table : Operator.Table} {input next after rest tokens : List Token}
  {e : Expr}

/-! ## §2. A text that is one expression. -/

/-- A text is read as one expression up to its end. -/
def ReadsWhole (file source : String) (table : Operator.Table) (e : Expr) : Prop :=
  ∃ tokens t, tokenize file source = .ok tokens
    ∧ Gives (read .standard .expression) (place file table tokens) e t ∧ t.cursor.kind = .eof

/-- The expression stands in the tokens of the text, wherever they stand. -/
theorem ReadsWhole.derives (h : ReadsWhole file source table e) :
    ∃ tokens, tokenize file source = .ok tokens
      ∧ ∀ distance, distance + byteLength source.toList < 4294967296 →
          ∃ mark, Derives table (.expression e) (tokens.map (Token.later distance)) [mark] := by
  obtain ⟨tokens, t, htokens, hgives, hend⟩ := h
  refine ⟨tokens, htokens, fun distance bound => ?_⟩
  have cut := cut_later htokens bound
  -- reading does not see how far on the tokens stand
  have hbeside : Beside file tokens (tokens.map (Token.later distance))
      (place file table tokens) (place file table (tokens.map (Token.later distance))) := by
    refine ⟨rfl, ⟨rfl, rfl⟩, ⟨[], [], rfl, rfl, rfl⟩, ?_, Scanner.tokens?_ne_nil htokens⟩
    rw [List.map_map]
    rfl
  have hstep := (alike_views _ _ _).read_inStep .standard .expression hbeside
  rw [show (read .standard .expression).run (place file table tokens) = .ok e t from hgives] at hstep
  obtain ⟨t', hmoved, hbeside'⟩ := hstep.of_ok
  have asked : Asked (.read .expression) (tokens.map (Token.later distance)) := .inr (by decide)
  obtain ⟨left, hmeets, cutLeft, rfl⟩ := (gives_achieve_place cut asked).1 hmoved
  obtain ⟨mark, more, rfl⟩ := List.exists_cons_of_ne_nil cutLeft.ne_nil
  -- nothing is left but the end mark
  have hmark : mark.kind = .eof := ((alike_views _ _ _).kind hbeside').symm.trans hend
  cases cutLeft.eq_nil_of_eof hmark
  exact ⟨mark, hmeets⟩

/-- A program that is one expression. -/
theorem ofSource_of_expression {mark : Token} (htokens : tokenize file source = .ok tokens)
    (bound : byteLength source.toList < 4294967296) (hmark : mark.kind = .eof)
    (h : Derives table (.expression e) tokens [mark]) :
    Program.ofSource file source table = ⟨.ok [.expression ⟨.anonymous, e⟩], table⟩ := by
  rw [ofSource_of_tokenize htokens, ofTokens_ok_iff (cut_of_tokenize htokens bound)]
  exact ⟨mark, hmark, .expression (.plain h) .nil⟩

/-! ## §3. An expression in parentheses. -/

theorem lead_ne_symbol {kind : Kind} {token : Token} (h : token.kind = kind) (hkind : kind ≠ .symbol)
    (rest : List Token) : lead (token :: rest) ≠ .symbol := by
  show token.kind ≠ .symbol
  rwa [h]

/-- An operand that no operator follows is an expression. -/
theorem Derives.expression (h : Derives table (.operand e) input rest)
    (hlead : lead rest ≠ .symbol) : Derives table (.expression e) input rest :=
  .chain h .noLink (ends_of_lead hlead) (.operand e)

/-- An expression in parentheses, which may be several pairs of them. -/
theorem primary_of_parens (count : Nat) :
    ∀ {opens closes inner rest : List Token}, Copies .openParen (count + 1) opens →
      Copies .closeParen (count + 1) closes →
      Derives table (.expression e) inner (closes ++ rest) →
      Derives table (.primary e) (opens ++ inner) rest := by
  induction count with
  | zero =>
      intro opens closes inner rest hopens hcloses h
      obtain ⟨first, rfl, hfirst⟩ := hopens.exists_single
      obtain ⟨last, rfl, hlast⟩ := hcloses.exists_single
      exact .paren ⟨first, hfirst, rfl⟩ h ⟨last, hlast, rfl⟩
  | succ count ih =>
      intro opens closes inner rest hopens hcloses h
      obtain ⟨first, others, rfl, hfirst, hothers⟩ := hopens.exists_cons
      obtain ⟨front, last, rfl, hlast, hfront⟩ := hcloses.exists_concat
      -- the pairs inside the outermost one are a primary, which its parenthesis ends
      rw [List.append_assoc] at h
      have hinside := ih hothers hfront h
      have hlead : lead ([last] ++ rest) ≠ .symbol := lead_ne_symbol hlast (by decide) rest
      exact .paren ⟨first, hfirst, rfl⟩ (.expression (.unsigned hinside) hlead) ⟨last, hlast, rfl⟩

/-- **A text in parentheses.**  Where it is an expression, its parentheses and its tokens
are a primary, whatever follows them. -/
theorem primary_of_enclosed {count distance : Nat} {found : List Token} {mark : Token}
    (hcount : 0 < count) (h : Enclosed .openParen .closeParen count distance tokens found)
    (hinside : Derives table (.expression e) (tokens.map (Token.later distance)) [mark])
    (rest : List Token) : Derives table (.primary e) (found ++ rest) rest := by
  obtain ⟨opens, inner, closes, rfl, hopens, hcloses, hseam⟩ := h
  obtain ⟨count, rfl⟩ := Nat.exists_eq_add_one.2 hcount
  have hlead : lead (closes ++ rest) ∉ continuing := by
    obtain ⟨first, others, rfl, hfirst, -⟩ := hcloses.exists_cons
    show first.kind ∉ continuing
    rw [hfirst]
    decide
  -- the first parenthesis that closes stands where the end mark stood
  obtain ⟨left, hinner, hleft⟩ := hinside.seam hlead (hseam (closes ++ rest))
  rw [hleft.eq_more] at hinner
  rw [List.append_assoc, List.append_assoc]
  exact primary_of_parens count hopens hcloses hinner

/-- Parentheses come first. -/
theorem lead_of_enclosed {count distance : Nat} {found : List Token} {opening closing : Kind}
    (hcount : 0 < count) (h : Enclosed opening closing count distance tokens found)
    (rest : List Token) : lead (found ++ rest) = opening := by
  obtain ⟨opens, inner, closes, rfl, hopens, -, -⟩ := h
  obtain ⟨count, rfl⟩ := Nat.exists_eq_add_one.2 hcount
  obtain ⟨first, others, rfl, hfirst, -⟩ := hopens.exists_cons
  exact hfirst

/-- A text that is an expression, in parentheses at some place of another text: its tokens
are a primary there, and the scanner goes on behind it. -/
theorem ReadsWhole.yields {count : Nat} (h : ReadsWhole file source table e) (hcount : 0 < count)
    (offset : Nat) (after : List Char)
    (bound : offset + byteLength (between count '(' ')' source).toList < 4294967296) :
    ∃ found, (∀ rest, lead (found ++ rest) = .openParen
          ∧ Derives table (.primary e) (found ++ rest) rest)
      ∧ Scanner.Yields ⟨file, offset, (between count '(' ')' source).toList ++ after⟩ found
          ⟨file, offset + byteLength (between count '(' ')' source).toList, after⟩ := by
  obtain ⟨tokens, htokens, hderives⟩ := h.derives
  obtain ⟨found, henclosed, hyields⟩ :=
    Scanner.yields_between htokens (show Kind.ofPunctuation '(' ≠ .symbol by decide)
      (show Kind.ofPunctuation ')' ≠ .symbol by decide) count offset after
  have hinside : offset + byteLength (List.replicate count '(') + byteLength source.toList
      < 4294967296 := by
    simp only [toList_between, Text.byteLength_append] at bound
    omega
  obtain ⟨mark, hexpression⟩ := hderives _ hinside
  exact ⟨found, fun rest => ⟨lead_of_enclosed hcount henclosed rest,
    primary_of_enclosed hcount henclosed hexpression rest⟩, hyields⟩

/-! ## §4. Parentheses are transparent. -/

variable {first second : String} {left right : Expr} {n m : Nat}

/-- A text in parentheses is the expression that the text is. -/
theorem ofSource_parens (h : ReadsWhole file first table left) (hn : 0 < n)
    (bound : byteLength (between n '(' ')' first).toList < 4294967296) :
    Program.ofSource file (between n '(' ')' first) table
      = ⟨.ok [.expression ⟨.anonymous, left⟩], table⟩ := by
  obtain ⟨found, hfound, hyields⟩ := h.yields hn 0 [] (by omega)
  rw [List.append_nil] at hyields
  obtain ⟨mark, hmark, htokens⟩ := hyields.tokenize
  have hend : lead [mark] ≠ .symbol := lead_ne_symbol hmark (by decide) []
  obtain ⟨-, hprimary⟩ := hfound [mark]
  exact ofSource_of_expression htokens bound hmark (hprimary.unsigned.expression hend)

/-- An operator character before the parentheses is a prefix operator on all of it. -/
theorem ofSource_signed_parens {c : Char} (h : ReadsWhole file first table left) (hn : 0 < n)
    (hc : isOperatorChar c = true)
    (bound : byteLength (String.singleton c ++ between n '(' ')' first).toList < 4294967296) :
    Program.ofSource file (String.singleton c ++ between n '(' ')' first) table
      = ⟨.ok [.expression ⟨.anonymous, .unary c left⟩], table⟩ := by
  have hletters : (String.singleton c ++ between n '(' ')' first).toList
      = c :: ((between n '(' ')' first).toList ++ []) := by
    rw [String.toList_append, String.toList_singleton, List.append_nil, List.singleton_append]
  have hbytes := bound
  rw [hletters, List.append_nil, Text.byteLength_cons] at hbytes
  obtain ⟨found, hfound, hyields⟩ := h.yields hn (0 + byteLength [c]) [] (by simpa using hbytes)
  -- the parenthesis right behind the character starts no comment
  have hplain : startsComment (c :: ((between n '(' ')' first).toList ++ [])) = false := by
    obtain ⟨count, rfl⟩ := Nat.exists_eq_add_one.2 hn
    rw [toList_between, List.replicate_succ, List.cons_append, List.cons_append, startsComment_two]
    simp [startsComment]
  have hsign := Scanner.yields_token (split?_operator hc hplain) file 0
  have hall := hsign.trans hyields
  rw [← hletters] at hall
  obtain ⟨mark, hmark, htokens⟩ := Scanner.Yields.tokenize hall
  have hend : lead [mark] ≠ .symbol := lead_ne_symbol hmark (by decide) []
  obtain ⟨-, hprimary⟩ := hfound [mark]
  rw [List.append_assoc] at htokens
  refine ofSource_of_expression htokens bound hmark
    (Derives.expression (.signed ⟨_, ?_, rfl⟩ hc hprimary.unsigned) hend)
  exact ⟨rfl, String.singleton_eq_ofList.symm⟩

/-- Two texts in parentheses with an operator between them are that operator on both. -/
theorem ofSource_binary_parens {operator : String} {precedence : UInt32}
    (h : ReadsWhole file first table left) (h' : ReadsWhole file second table right)
    (hn : 0 < n) (hm : 0 < m) (hoperator : isInfix operator = true)
    (hlookup : table.lookup operator = some precedence)
    (bound : byteLength (between n '(' ')' first ++ " " ++ operator ++ " "
      ++ between m '(' ')' second).toList < 4294967296) :
    Program.ofSource file (between n '(' ')' first ++ " " ++ operator ++ " "
        ++ between m '(' ')' second) table
      = ⟨.ok [.expression ⟨.anonymous, .binary operator left right⟩], table⟩ := by
  have hletters : (between n '(' ')' first ++ " " ++ operator ++ " "
      ++ between m '(' ')' second).toList
      = (between n '(' ')' first).toList
          ++ ' ' :: (operator.toList ++ ' ' :: ((between m '(' ')' second).toList ++ [])) := by
    simp
  have hbytes := bound
  rw [hletters] at hbytes
  simp only [Text.byteLength_append, Text.byteLength_cons, Text.byteLength_nil] at hbytes
  obtain ⟨found, hfound, hyields⟩ := h.yields hn 0
    (' ' :: (operator.toList ++ ' ' :: ((between m '(' ')' second).toList ++ []))) (by omega)
  obtain ⟨symbols, hspelled, hsymbols⟩ := Scanner.yields_spelling hoperator file
    (0 + byteLength (between n '(' ')' first).toList) ((between m '(' ')' second).toList ++ [])
  obtain ⟨found', hfound', hyields'⟩ := h'.yields hm
    (0 + byteLength (between n '(' ')' first).toList
      + byteLength (' ' :: (operator.toList ++ [' ']))) [] (by
    simp only [Text.byteLength_append, Text.byteLength_cons, Text.byteLength_nil]
    omega)
  have hall := hyields.trans (hsymbols.trans hyields')
  rw [← hletters] at hall
  obtain ⟨mark, hmark, htokens⟩ := Scanner.Yields.tokenize hall
  have hend : lead [mark] ≠ .symbol := lead_ne_symbol hmark (by decide) []
  -- what follows the operator is a parenthesis, so no symbol
  obtain ⟨hopening, hright⟩ := hfound' [mark]
  have hlink := hspelled (found' ++ [mark]) (by rw [hopening]; decide)
  obtain ⟨-, hleft⟩ := hfound (symbols ++ (found' ++ [mark]))
  rw [List.append_assoc, List.append_assoc] at htokens
  exact ofSource_of_expression htokens bound hmark
    (.chain hleft.unsigned (.link hlink hlookup hright.unsigned .noLink) (ends_of_lead hend)
      (.single left right operator precedence))

/-- **Parentheses are transparent and keep what is inside apart.**  Let two texts be read each
as one expression.  In any number of parentheses each is the same expression; with an operator
of the table between the two they are that operator on both, whatever operators are inside; and
an operator character right before the parentheses is a prefix operator on all of it. -/
theorem parentheses_transparent (h : ReadsWhole file first table left)
    (h' : ReadsWhole file second table right) (hn : 0 < n) (hm : 0 < m) :
    (∀ operator precedence, isInfix operator = true → table.lookup operator = some precedence →
        byteLength (between n '(' ')' first ++ " " ++ operator ++ " "
          ++ between m '(' ')' second).toList < 4294967296 →
        Program.ofSource file (between n '(' ')' first ++ " " ++ operator ++ " "
            ++ between m '(' ')' second) table
          = ⟨.ok [.expression ⟨.anonymous, .binary operator left right⟩], table⟩)
    ∧ (byteLength (between n '(' ')' first).toList < 4294967296 →
        Program.ofSource file (between n '(' ')' first) table
          = ⟨.ok [.expression ⟨.anonymous, left⟩], table⟩)
    ∧ ∀ c, isOperatorChar c = true →
        byteLength (String.singleton c ++ between n '(' ')' first).toList < 4294967296 →
        Program.ofSource file (String.singleton c ++ between n '(' ')' first) table
          = ⟨.ok [.expression ⟨.anonymous, .unary c left⟩], table⟩ := by
  refine ⟨?between, ofSource_parens h hn, fun c => ofSource_signed_parens h hn⟩
  case between =>
    intro operator precedence hoperator hlookup bound
    exact ofSource_binary_parens h h' hn hm hoperator hlookup bound

/-- A body goes on over a sum but not over the parenthesis behind it, and the comment inside
ends with its line. -/
theorem parentheses_around_choice :
    let choice : Expr := .branch (.scalar "a") (.binary "+" (.scalar "b") (.scalar "c")) none
    let setting : Expr := .binary "=" (.scalar "d") (.scalar "e")
    ReadsWhole "sel" "if a then b + c // all" .standard choice
      ∧ ReadsWhole "sel" "d = e" .standard setting
      ∧ isInfix "*" = true ∧ Operator.Table.standard.lookup "*" = some 13
      ∧ between 2 '(' ')' "if a then b + c // all" ++ " " ++ "*" ++ " " ++ between 1 '(' ')' "d = e"
          = "((if a then b + c // all\n)) * (d = e\n)"
      ∧ Program.ofSource "sel" "((if a then b + c // all\n)) * (d = e\n)" .standard
          = ⟨.ok [.expression ⟨.anonymous, .binary "*" choice setting⟩], .standard⟩
      ∧ Program.ofSource "sel" (String.singleton '-' ++ "((if a then b + c // all\n))") .standard
          = ⟨.ok [.expression ⟨.anonymous, .unary '-' choice⟩], .standard⟩ := by
  intro choice setting
  let tokens : List Token := [⟨.ifWord, "if", 0, 2, some ' '⟩, ⟨.identifier, "a", 3, 4, some ' '⟩,
    ⟨.thenWord, "then", 5, 9, some ' '⟩, ⟨.identifier, "b", 10, 11, some ' '⟩,
    ⟨.symbol, "+", 12, 13, some ' '⟩, ⟨.identifier, "c", 14, 15, some ' '⟩,
    ⟨.eof, "EOF", 22, 22, none⟩]
  let others : List Token := [⟨.identifier, "d", 0, 1, some ' '⟩, ⟨.symbol, "=", 2, 3, some ' '⟩,
    ⟨.identifier, "e", 4, 5, none⟩, ⟨.eof, "EOF", 5, 5, none⟩]
  have hchoice : ReadsWhole "sel" "if a then b + c // all" .standard choice := by
    refine ⟨tokens, place "sel" .standard (tokens.drop 6), by decide +kernel, ?_, rfl⟩
    unfold Gives
    rfl
  have hsetting : ReadsWhole "sel" "d = e" .standard setting := by
    refine ⟨others, place "sel" .standard (others.drop 3), by decide +kernel, ?_, rfl⟩
    unfold Gives
    rfl
  obtain ⟨hbetween, -, hsigned⟩ :=
    parentheses_transparent hchoice hsetting (show 0 < 2 by decide) (show 0 < 1 by decide)
  have htext : between 2 '(' ')' "if a then b + c // all" ++ " " ++ "*" ++ " "
      ++ between 1 '(' ')' "d = e" = "((if a then b + c // all\n)) * (d = e\n)" := by decide
  have hprogram := hbetween "*" 13 (by decide) (by decide) (by rw [htext]; decide)
  rw [htext] at hprogram
  exact ⟨hchoice, hsetting, by decide, by decide, htext, hprogram,
    hsigned '-' (by decide) (by decide)⟩

end Language
end Fixity
