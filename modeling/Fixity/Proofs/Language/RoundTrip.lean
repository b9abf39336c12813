/-
  Fixity.Proofs.Language.RoundTrip
  ────────────────────────────────
  **READING UNDOES WRITING.**

  A program that fits a table, written out and read from that table, gives its forms
  again and leaves the table with their declarations.

  The proof follows the trees.  The words of an expression are read as that
  expression whatever other words come after it, as long as those start with one that
  closes it: a closing parenthesis or brace, a semicolon or the end.  Such a word
  continues no operand, no call, no index and no choice.  Everything that stands
  inside of an expression is closed by its own parenthesis or is a block, which its
  brace closes.

  Main result: `ofSource_written`.
-/
import Fixity.Proofs.Language.Vocabulary

namespace Fixity.Language

open Fixity.Expr (Standing)
open Operator (isOperatorChar)

variable {table : Operator.Table} {e : Expr} {more : List String} {input : List Token}

/-! ## §1. Words that are read as a phrase. -/

/-- A phrase stands at the start of the tokens, and these words are laid out after it. -/
def Passes (table : Operator.Table) (phrase : Phrase) (more : List String) (input : List Token) :
    Prop :=
  ∃ rest, Derives table phrase input rest ∧ Laid more rest

/-- Words that close an expression which stands without parentheses. -/
def Closes (more : List String) : Prop :=
  leadOf more ∈ [Kind.eof, .closeParen, .closeBlock, .semicolon]

/-- A word that closes an expression continues nothing. -/
theorem Closes.lead (h : Closes more) : leadOf more ≠ .symbol ∧ leadOf more ≠ .openBracket
    ∧ leadOf more ≠ .openParen ∧ leadOf more ≠ .elseWord := by
  unfold Closes at h
  simp only [List.mem_cons, List.not_mem_nil, or_false] at h
  rcases h with h | h | h | h <;> simp [h]

theorem closes_of_isWord {kind : Kind} {word : String} (h : IsWord kind word)
    (hkind : kind ∈ [Kind.eof, .closeParen, .closeBlock, .semicolon]) : Closes (word :: more) := by
  unfold Closes
  rw [leadOf_of_isWord h]
  exact hkind

/-- No operator starts with a word that is no symbol. -/
theorem leadOf_ne_symbol {kind : Kind} {word : String} (h : IsWord kind word)
    (hkind : kind ≠ .symbol) (words : List String) : leadOf (word :: words) ≠ .symbol := by
  rw [leadOf_of_isWord h]
  exact hkind

/-- A body starts with a parenthesis or a brace. -/
theorem leadOf_enclosed (e : Expr) (words : List String) :
    leadOf (e.enclosed e.words ++ words) ≠ .symbol := by
  -- only a block stands without parentheses around it
  cases e with
  | block statements =>
      show leadOf (Expr.words (.block statements) ++ words) ≠ .symbol
      rw [Expr.words, List.append_assoc, List.cons_append]
      exact leadOf_ne_symbol isWord_openBlock nofun _
  | _ => exact leadOf_ne_symbol isWord_openParen nofun _

/-- An operand alone is an expression where no operator follows. -/
theorem Passes.expression_of_operand (h : Passes table (.operand e) more input)
    (hlead : leadOf more ≠ .symbol) : Passes table (.expression e) more input := by
  obtain ⟨rest, hoperand, hlaid⟩ := h
  rw [← hlaid.lead] at hlead
  exact ⟨rest, .chain hoperand .noLink (ends_of_lead hlead) (.operand e), hlaid⟩

theorem Passes.expression (h : Passes table (.primary e) more input)
    (hlead : leadOf more ≠ .symbol) : Passes table (.expression e) more input := by
  obtain ⟨rest, hprimary, hlaid⟩ := h
  exact expression_of_operand ⟨rest, .unsigned hprimary, hlaid⟩ hlead

/-- The words of an expression are read as it: closed by what follows, or by its own
brace if it is a block. -/
structure Reads (table : Operator.Table) (e : Expr) : Prop where
  /-- What is no block is an expression. -/
  expression : e.isBlock = false → ∀ more input, Closes more → Laid (e.words ++ more) input →
    Passes table (.expression e) more input
  /-- A block is a body. -/
  block : e.isBlock = true → ∀ more input, Laid (e.words ++ more) input →
    Passes table (.body e) more input

namespace Reads

/-- A primary expression that is closed by what follows. -/
theorem of_primary (plain : e.isBlock = false)
    (h : ∀ more input, Closes more → Laid (e.words ++ more) input →
      Passes table (.primary e) more input) : Reads table e where
  expression := fun _ more input closes hlaid =>
    (h more input closes hlaid).expression closes.lead.1
  block := fun hblock => absurd hblock (by simp [plain])

/-- In parentheses it is a primary expression. -/
theorem paren (h : Reads table e) (plain : e.isBlock = false)
    (hlaid : Laid ("(" :: (e.words ++ ")" :: more)) input) :
    Passes table (.primary e) more input := by
  obtain ⟨inner, hopen, hlaid⟩ := hlaid.mark isWord_openParen
  have closes : Closes (")" :: more) := closes_of_isWord isWord_closeParen (by decide)
  obtain ⟨after, he, hlaid⟩ := h.expression plain _ _ closes hlaid
  obtain ⟨rest, hclose, hlaid⟩ := hlaid.mark isWord_closeParen
  exact ⟨rest, .paren hopen he hclose, hlaid⟩

/-- A body is a block or stands in parentheses. -/
theorem body (h : Reads table e) (hlead : leadOf more ≠ .symbol)
    (hlaid : Laid (e.enclosed e.words ++ more) input) : Passes table (.body e) more input := by
  unfold Expr.enclosed at hlaid
  cases hblock : e.isBlock with
  | true =>
      rw [if_pos hblock] at hlaid
      exact h.block hblock _ _ hlaid
  | false =>
      rw [if_neg (by simp [hblock]), parenthesised_append] at hlaid
      obtain ⟨rest, he, hlaid⟩ := (h.paren hblock hlaid).expression hlead
      exact ⟨rest, .plain he, hlaid⟩

/-- A statement or a form needs no parentheses. -/
theorem statement (h : Reads table e) (closes : Closes more)
    (hlaid : Laid (e.words ++ more) input) : Passes table (.body e) more input := by
  cases hblock : e.isBlock with
  | true => exact h.block hblock _ _ hlaid
  | false =>
      obtain ⟨rest, he, hlaid⟩ := h.expression hblock _ _ closes hlaid
      exact ⟨rest, .plain he, hlaid⟩

end Reads

/-! ## §2. Lists. -/

/-- The members of a list are operands that are read. -/
def AllRead (table : Operator.Table) (trees : List Expr) : Prop :=
  ∀ e ∈ trees, Reads table e ∧ e.isBlock = false

/-- Indices, each in brackets. -/
theorem indices_read {trees : List Expr} (h : AllRead table trees)
    (hlaid : Laid ((trees.map Expr.words).flatMap subscript ++ more) input) :
    Passes table (.indices trees) more input := by
  induction trees generalizing input with
  | nil => exact ⟨input, .noIndex, hlaid⟩
  | cons e rest ih =>
      obtain ⟨hreads, plain⟩ := h e List.mem_cons_self
      rw [List.map_cons, List.flatMap_cons, List.append_assoc, subscript_append] at hlaid
      obtain ⟨inner, hopen, hlaid⟩ := hlaid.mark isWord_openBracket
      have hlead := leadOf_ne_symbol isWord_closeBracket nofun
      -- an index stands in parentheses inside its brackets, so the bracket ends it
      obtain ⟨after, he, hlaid⟩ := (hreads.paren plain hlaid).expression (hlead _)
      obtain ⟨next, hclose, hlaid⟩ := hlaid.mark isWord_closeBracket
      obtain ⟨last, hindices, hlaid⟩ :=
        ih (fun other hmem => h other (List.mem_cons_of_mem _ hmem)) hlaid
      exact ⟨last, .index hopen he hclose hindices, hlaid⟩

/-- Arguments, with commas between them. -/
theorem arguments_read {trees : List Expr} (h : AllRead table (e :: trees))
    (hlaid : Laid ([","].intercalate (((e :: trees).map Expr.words).map parenthesised)
      ++ ")" :: more) input) :
    Passes table (.arguments (e :: trees)) more input := by
  induction trees generalizing e input with
  | nil =>
      obtain ⟨hreads, plain⟩ := h e List.mem_cons_self
      simp only [List.map_cons, List.map_nil, List.intercalate_singleton,
        parenthesised_append] at hlaid
      have hlead := leadOf_ne_symbol isWord_closeParen nofun
      obtain ⟨after, he, hlaid⟩ := (hreads.paren plain hlaid).expression (hlead _)
      obtain ⟨last, hclose, hlaid⟩ := hlaid.mark isWord_closeParen
      exact ⟨last, .lastArgument he hclose, hlaid⟩
  | cons next trees ih =>
      obtain ⟨hreads, plain⟩ := h e List.mem_cons_self
      rw [List.map_cons, List.map_cons, List.map_cons, List.map_cons, List.intercalate_cons_cons,
        List.append_assoc, List.append_assoc, parenthesised_append, List.singleton_append] at hlaid
      have hlead := leadOf_ne_symbol isWord_comma nofun
      obtain ⟨after, he, hlaid⟩ := (hreads.paren plain hlaid).expression (hlead _)
      obtain ⟨inner, hcomma, hlaid⟩ := hlaid.mark isWord_comma
      obtain ⟨last, harguments, hlaid⟩ :=
        ih (fun other hmem => h other (List.mem_cons_of_mem _ hmem)) hlaid
      exact ⟨last, .argument he hcomma harguments, hlaid⟩

/-- Statements, with semicolons between them, up to the closing brace. -/
theorem statements_read {trees : List Expr} (h : ∀ e ∈ trees, Reads table e)
    (hlaid : Laid ([";"].intercalate (trees.map Expr.words) ++ "\x7d" :: more) input) :
    Passes table (.statements trees) more input := by
  induction trees generalizing input with
  | nil =>
      obtain ⟨rest, hclose, hlaid⟩ := hlaid.mark isWord_closeBlock
      exact ⟨rest, .closed hclose, hlaid⟩
  | cons e trees ih =>
      have hreads := h e List.mem_cons_self
      cases trees with
      | nil =>
          rw [List.map_cons, List.map_nil, List.intercalate_singleton] at hlaid
          have closes : Closes ("\x7d" :: more) := closes_of_isWord isWord_closeBlock (by decide)
          obtain ⟨after, he, hlaid⟩ := hreads.statement closes hlaid
          obtain ⟨rest, hclose, hlaid⟩ := hlaid.mark isWord_closeBlock
          exact ⟨rest, .statement he (.closed hclose), hlaid⟩
      | cons next trees =>
          rw [List.map_cons, List.map_cons, List.intercalate_cons_cons, List.append_assoc,
            List.append_assoc, List.singleton_append] at hlaid
          have closes : ∀ words, Closes (";" :: words) := fun _ =>
            closes_of_isWord isWord_semicolon (by decide)
          obtain ⟨after, he, hlaid⟩ := hreads.statement (closes _) hlaid
          obtain ⟨inner, hsemicolon, hlaid⟩ := hlaid.mark isWord_semicolon
          obtain ⟨rest, hstatements, hlaid⟩ :=
            ih (fun other hmem => h other (List.mem_cons_of_mem _ hmem)) hlaid
          exact ⟨rest, .separated he hsemicolon hstatements, hlaid⟩

/-- Dimensions, each in brackets. -/
theorem dimensions_read {dimensions : List UInt32} (h : ∀ n ∈ dimensions, 0 < n)
    (hlaid : Laid (dimensions.flatMap (fun n => ["[", toString n, "]"]) ++ more) input) :
    ∃ rest, Dimensions input dimensions rest ∧ Laid more rest := by
  induction dimensions generalizing input with
  | nil => exact ⟨input, .nil, hlaid⟩
  | cons n dimensions ih =>
      simp only [List.flatMap_cons, List.cons_append, List.nil_append] at hlaid
      have hpos : 1 ≤ n.toNat := UInt32.lt_iff_toNat_lt.1 (h n List.mem_cons_self)
      have hbound : n.toNat ≤ 4294967295 := Nat.le_of_lt_succ n.toNat_lt
      obtain ⟨inner, hopen, hlaid⟩ := hlaid.mark isWord_openBracket
      obtain ⟨after, hwhole, hlaid⟩ := hlaid.whole hpos hbound
      obtain ⟨next, hclose, hlaid⟩ := hlaid.mark isWord_closeBracket
      obtain ⟨rest, hdimensions, hlaid⟩ :=
        ih (fun other hmem => h other (List.mem_cons_of_mem _ hmem)) hlaid
      exact ⟨rest, .cons hopen hwhole hclose hdimensions, hlaid⟩

/-! ## §3. One expression of each kind. -/

theorem number_reads {value : Number} (h : value.isPlain = true) :
    Reads table (.number value) := by
  refine .of_primary rfl fun more input _ hlaid => ?_
  obtain ⟨rest, hnumeral, hlaid⟩ := hlaid.numeral (spells_of_isPlain h)
  exact ⟨rest, .number hnumeral, hlaid⟩

theorem var_reads {name : String} {indices : List Expr} (hname : isName name = true)
    (h : AllRead table indices) : Reads table (.var name indices) := by
  refine .of_primary rfl fun more input closes hlaid => ?_
  obtain ⟨-, hbracket, hparen, -⟩ := closes.lead
  rw [Expr.words, Expr.wordLists_eq, List.cons_append] at hlaid
  obtain ⟨next, hnamed, hlaid⟩ := hlaid.name hname
  cases indices with
  | nil =>
      have hlead := hlaid.lead
      -- what closes the expression is neither a bracket nor a parenthesis that opens
      refine ⟨next, .scalar hnamed ?_ ?_, hlaid⟩
      · rw [hlead]
        exact hbracket
      · rw [hlead]
        exact hparen
  | cons index indices =>
      obtain ⟨rest, hindices, hlaid⟩ := indices_read h hlaid
      refine ⟨rest, .element hnamed hindices ?_, hlaid⟩
      rw [hlaid.lead]
      exact hbracket

theorem call_reads {callee : String} {arguments : List Expr} (hname : isName callee = true)
    (h : AllRead table arguments) : Reads table (.call callee arguments) := by
  refine .of_primary rfl fun more input _ hlaid => ?_
  rw [Expr.words, Expr.wordLists_eq, List.cons_append, parenthesised_append] at hlaid
  obtain ⟨next, hnamed, hlaid⟩ := hlaid.name hname
  obtain ⟨inner, hopen, hlaid⟩ := hlaid.mark isWord_openParen
  cases arguments with
  | nil =>
      obtain ⟨rest, hclose, hlaid⟩ := hlaid.mark isWord_closeParen
      exact ⟨rest, .emptyCall hnamed hopen hclose, hlaid⟩
  | cons argument arguments =>
      obtain ⟨rest, harguments, hlaid⟩ := arguments_read h hlaid
      exact ⟨rest, .call hnamed hopen harguments, hlaid⟩

theorem unary_reads {c : Char} (hc : isOperatorChar c = true) (h : Reads table e)
    (plain : e.isBlock = false) : Reads table (.unary c e) where
  block := nofun
  expression := by
    intro _ more input closes hlaid
    rw [Expr.words, List.cons_append, parenthesised_append] at hlaid
    obtain ⟨next, hsign, hlaid⟩ := hlaid.sign hc
    obtain ⟨rest, hprimary, hlaid⟩ := h.paren plain hlaid
    exact Passes.expression_of_operand ⟨rest, .signed hsign hc (.unsigned hprimary), hlaid⟩
      closes.lead.1

theorem binary_reads {spelling : String} {left right : Expr} (hoperator : isInfix spelling = true)
    (hlookup : (table.lookup spelling).isSome = true)
    (hleft : Reads table left) (plainLeft : left.isBlock = false)
    (hright : Reads table right) (plainRight : right.isBlock = false) :
    Reads table (.binary spelling left right) where
  block := nofun
  expression := by
    intro _ more input closes hlaid
    rw [Expr.words, List.append_assoc, List.cons_append, parenthesised_append,
      parenthesised_append] at hlaid
    obtain ⟨precedence, hprecedence⟩ := Option.isSome_iff_exists.1 hlookup
    obtain ⟨after, hfirst, hlaid⟩ := hleft.paren plainLeft hlaid
    obtain ⟨next, hspelled, hlaid⟩ := hlaid.spelled hoperator
    obtain ⟨rest, hsecond, hlaid⟩ := hright.paren plainRight hlaid
    have hends : Ends table rest := ends_of_lead (by rw [hlaid.lead]; exact closes.lead.1)
    -- the chain has one link, so there is one way to group it
    have hlinks : Derives table (.links [⟨spelling, precedence, right⟩]) after rest :=
      .link hspelled hprecedence (.unsigned hsecond) .noLink
    exact ⟨rest, .chain (.unsigned hfirst) hlinks hends (.single left right spelling precedence),
      hlaid⟩

theorem array_reads {name : String} {dimensions : List UInt32} (hname : isName name = true)
    (hne : dimensions ≠ []) (h : ∀ n ∈ dimensions, 0 < n) :
    Reads table (.array name dimensions) := by
  obtain ⟨n, dimensions, rfl⟩ := List.exists_cons_of_ne_nil hne
  refine .of_primary rfl fun more input closes hlaid => ?_
  rw [Expr.words, List.cons_append, List.cons_append] at hlaid
  obtain ⟨named, hword, hlaid⟩ := hlaid.mark (show IsWord .arrWord "arr" by decide)
  obtain ⟨next, hnamed, hlaid⟩ := hlaid.name hname
  obtain ⟨rest, hdimensions, hlaid⟩ := dimensions_read h hlaid
  refine ⟨rest, .array hword hnamed hdimensions ?_, hlaid⟩
  rw [hlaid.lead]
  exact closes.lead.2.1

theorem block_reads {statements : List Expr} (h : ∀ e ∈ statements, Reads table e) :
    Reads table (.block statements) where
  expression := nofun
  block := by
    intro _ more input hlaid
    rw [Expr.words, Expr.wordLists_eq, List.append_assoc, List.cons_append] at hlaid
    obtain ⟨inner, hopen, hlaid⟩ := hlaid.mark isWord_openBlock
    obtain ⟨rest, hstatements, hlaid⟩ := statements_read h hlaid
    exact ⟨rest, .block hopen hstatements, hlaid⟩

theorem branch_reads {c e : Expr} {alternative : Option Expr} (hc : Reads table c)
    (plain : c.isBlock = false) (he : Reads table e) (h : ∀ e' ∈ alternative, Reads table e') :
    Reads table (.branch c e alternative) := by
  refine .of_primary rfl fun more input closes hlaid => ?_
  obtain ⟨hsymbol, -, -, helse⟩ := closes.lead
  rw [Expr.words, List.append_assoc, List.append_assoc, List.cons_append, List.cons_append,
    parenthesised_append] at hlaid
  obtain ⟨inner, hword, hlaid⟩ := hlaid.mark (show IsWord .ifWord "if" by decide)
  have hthen : IsWord .thenWord "then" := by decide
  obtain ⟨after, hcondition, hlaid⟩ :=
    (hc.paren plain hlaid).expression (leadOf_ne_symbol hthen nofun _)
  obtain ⟨next, hmark, hlaid⟩ := hlaid.mark hthen
  cases alternative with
  | none =>
      obtain ⟨rest, hbody, hlaid⟩ := he.body hsymbol hlaid
      refine ⟨rest, .branch hword hcondition hmark hbody ?_, hlaid⟩
      rw [hlaid.lead]
      exact helse
  | some e' =>
      have helse' : IsWord .elseWord "else" := by decide
      rw [Expr.alternativeWords, List.cons_append] at hlaid
      obtain ⟨other, hbody, hlaid⟩ := he.body (leadOf_ne_symbol helse' nofun _) hlaid
      obtain ⟨last, hmark', hlaid⟩ := hlaid.mark helse'
      obtain ⟨rest, hbody', hlaid⟩ := (h e' rfl).body hsymbol hlaid
      exact ⟨rest, .branchElse hword hcondition hmark hbody hmark' hbody', hlaid⟩

theorem countLoop_reads {name : String} {a b e : Expr} {step : Option Expr}
    (hname : isName name = true) (ha : Reads table a) (plainA : a.isBlock = false)
    (hb : Reads table b) (plainB : b.isBlock = false)
    (hstep : ∀ d ∈ step, Reads table d ∧ d.isBlock = false) (he : Reads table e) :
    Reads table (.countLoop name a b step e) := by
  refine .of_primary rfl fun more input closes hlaid => ?_
  have hsymbol := closes.lead.1
  simp only [Expr.words, List.append_assoc, List.cons_append, parenthesised_append] at hlaid
  obtain ⟨named, hword, hlaid⟩ := hlaid.mark (show IsWord .forWord "for" by decide)
  obtain ⟨sign, hnamed, hlaid⟩ := hlaid.name hname
  obtain ⟨inner, hsign, hlaid⟩ := hlaid.equals
  have hlead := leadOf_ne_symbol isWord_comma nofun
  obtain ⟨after, hfirst, hlaid⟩ := (ha.paren plainA hlaid).expression (hlead _)
  obtain ⟨next, hcomma, hlaid⟩ := hlaid.mark isWord_comma
  cases step with
  | none =>
      obtain ⟨last, hlast, hlaid⟩ := (hb.paren plainB hlaid).expression (leadOf_enclosed e more)
      obtain ⟨rest, hbody, hlaid⟩ := he.body hsymbol hlaid
      exact ⟨rest, .countLoop hword hnamed hsign hfirst hcomma hlast hbody, hlaid⟩
  | some d =>
      obtain ⟨hd, plainD⟩ := hstep d rfl
      rw [Expr.stepWords, List.cons_append, parenthesised_append] at hlaid
      obtain ⟨last, hlast, hlaid⟩ := (hb.paren plainB hlaid).expression (hlead _)
      obtain ⟨step, hcomma', hlaid⟩ := hlaid.mark isWord_comma
      obtain ⟨body, hd', hlaid⟩ := (hd.paren plainD hlaid).expression (leadOf_enclosed e more)
      obtain ⟨rest, hbody, hlaid⟩ := he.body hsymbol hlaid
      exact ⟨rest, .countLoopStep hword hnamed hsign hfirst hcomma hlast hcomma' hd' hbody, hlaid⟩

theorem whileLoop_reads {c e : Expr} (hc : Reads table c) (plain : c.isBlock = false)
    (he : Reads table e) : Reads table (.whileLoop c e) := by
  refine .of_primary rfl fun more input closes hlaid => ?_
  rw [Expr.words, List.append_assoc, List.cons_append, parenthesised_append] at hlaid
  obtain ⟨inner, hword, hlaid⟩ := hlaid.mark (show IsWord .whileWord "while" by decide)
  obtain ⟨after, hcondition, hlaid⟩ :=
    (hc.paren plain hlaid).expression (leadOf_enclosed e more)
  obtain ⟨rest, hbody, hlaid⟩ := he.body closes.lead.1 hlaid
  exact ⟨rest, .whileLoop hword hcondition hbody, hlaid⟩

theorem repeatLoop_reads {c e : Expr} (hc : Reads table c) (plain : c.isBlock = false)
    (he : Reads table e) : Reads table (.repeatLoop c e) := by
  refine .of_primary rfl fun more input closes hlaid => ?_
  rw [Expr.words, List.append_assoc, List.cons_append, parenthesised_append] at hlaid
  obtain ⟨next, hword, hlaid⟩ := hlaid.mark (show IsWord .reptWord "rept" by decide)
  -- the parentheses are those of the loop itself, not of a primary expression
  obtain ⟨inner, hopen, hlaid⟩ := hlaid.mark isWord_openParen
  have hclose : Closes (")" :: (e.enclosed e.words ++ more)) :=
    closes_of_isWord isWord_closeParen (by decide)
  obtain ⟨after, htimes, hlaid⟩ := hc.expression plain _ _ hclose hlaid
  obtain ⟨last, hmark, hlaid⟩ := hlaid.mark isWord_closeParen
  obtain ⟨rest, hbody, hlaid⟩ := he.body closes.lead.1 hlaid
  exact ⟨rest, .repeatLoop hword hopen htimes hmark hbody, hlaid⟩

/-! ## §4. Every expression that fits. -/

mutual

/-- The words of an expression that fits are read as it. -/
theorem reads_of_fits (table : Operator.Table) : ∀ (e : Expr) (standing : Standing),
    e.fits table standing = true → Reads table e
  | .number value, _, h => number_reads h
  | .var name indices, _, h => by
      simp only [Expr.fits, Bool.and_eq_true] at h
      exact var_reads h.1 fun e hmem =>
        ⟨readsAll_of_fits table indices _ h.2 e hmem, Expr.not_isBlock_of_allFit table h.2 e hmem⟩
  | .call callee arguments, _, h => by
      simp only [Expr.fits, Bool.and_eq_true] at h
      exact call_reads h.1 fun e hmem =>
        ⟨readsAll_of_fits table arguments _ h.2 e hmem, Expr.not_isBlock_of_allFit table h.2 e hmem⟩
  | .unary c operand, _, h => by
      simp only [Expr.fits, Bool.and_eq_true] at h
      exact unary_reads h.1 (reads_of_fits table operand _ h.2) (Expr.not_isBlock_of_fits table h.2)
  | .binary spelling left right, _, h => by
      simp only [Expr.fits, Bool.and_eq_true] at h
      obtain ⟨⟨⟨hoperator, hlookup⟩, hleft⟩, hright⟩ := h
      exact binary_reads hoperator hlookup
        (reads_of_fits table left _ hleft) (Expr.not_isBlock_of_fits table hleft)
        (reads_of_fits table right _ hright) (Expr.not_isBlock_of_fits table hright)
  | .branch c e alternative, _, h => by
      simp only [Expr.fits, Bool.and_eq_true] at h
      obtain ⟨⟨hc, he⟩, halternative⟩ := h
      exact branch_reads (reads_of_fits table c _ hc) (Expr.not_isBlock_of_fits table hc)
        (reads_of_fits table e _ he) (readsOption_of_fits table alternative _ halternative)
  | .countLoop counter a b step e, _, h => by
      simp only [Expr.fits, Bool.and_eq_true] at h
      obtain ⟨⟨⟨⟨hcounter, ha⟩, hb⟩, hstep⟩, he⟩ := h
      have hstep' : ∀ d ∈ step, Reads table d ∧ d.isBlock = false := by
        intro d hd
        subst hd
        exact ⟨readsOption_of_fits table (some d) _ hstep d rfl,
          Expr.not_isBlock_of_fits table hstep⟩
      exact countLoop_reads hcounter
        (reads_of_fits table a _ ha) (Expr.not_isBlock_of_fits table ha)
        (reads_of_fits table b _ hb) (Expr.not_isBlock_of_fits table hb)
        hstep' (reads_of_fits table e _ he)
  | .whileLoop c e, _, h => by
      simp only [Expr.fits, Bool.and_eq_true] at h
      exact whileLoop_reads (reads_of_fits table c _ h.1) (Expr.not_isBlock_of_fits table h.1)
        (reads_of_fits table e _ h.2)
  | .repeatLoop c e, _, h => by
      simp only [Expr.fits, Bool.and_eq_true] at h
      exact repeatLoop_reads (reads_of_fits table c _ h.1) (Expr.not_isBlock_of_fits table h.1)
        (reads_of_fits table e _ h.2)
  | .array name dimensions, _, h => by
      simp only [Expr.fits, Bool.and_eq_true, Bool.not_eq_true', List.isEmpty_eq_false_iff,
        List.all_eq_true, decide_eq_true_eq] at h
      exact array_reads h.1.1 h.1.2 h.2
  | .block statements, _, h => by
      simp only [Expr.fits, Bool.and_eq_true] at h
      exact block_reads (readsAll_of_fits table statements _ h.2)

theorem readsAll_of_fits (table : Operator.Table) : ∀ (trees : List Expr) (standing : Standing),
    Expr.allFit table trees standing = true → ∀ e ∈ trees, Reads table e
  | [], _, _ => fun _ hmem => absurd hmem List.not_mem_nil
  | tree :: rest, standing, h => by
      simp only [Expr.allFit, Bool.and_eq_true] at h
      exact List.forall_mem_cons.2 ⟨reads_of_fits table tree standing h.1,
        readsAll_of_fits table rest standing h.2⟩

theorem readsOption_of_fits (table : Operator.Table) :
    ∀ (tree : Option Expr) (standing : Standing), Expr.optionFits table tree standing = true →
      ∀ e ∈ tree, Reads table e
  | none, _, _ => nofun
  | some tree, standing, h => by
      intro e he
      rw [← Option.some.inj he]
      exact reads_of_fits table tree standing h

end

/-! ## §5. Headings. -/

/-- A slot with a name gives that name. -/
theorem slotName_of_name {slot : Token} {name : String}
    (h : slot.kind = .identifier ∧ slot.text = name) : slotName slot = [name] := by
  rw [slotName, slotParam?, if_pos h.1, h.2, Option.toList_some]

/-- Parameters, with commas between them, up to the closing parenthesis. -/
theorem slots_read {param : String} {params : List String}
    (h : ∀ other ∈ param :: params, isName other = true)
    (hlaid : Laid ([","].intercalate ((param :: params).map fun param => [param])
      ++ ")" :: more) input) :
    ∃ rest, Slots input (param :: params) rest ∧ Laid more rest := by
  induction params generalizing param input with
  | nil =>
      obtain ⟨next, ⟨slot, hname, hinput⟩, hlaid⟩ := hlaid.name (h param List.mem_cons_self)
      obtain ⟨rest, hclose, hlaid⟩ := hlaid.mark isWord_closeParen
      -- the grammar takes any token as a slot, and only a name gives the slot one
      have hlast := Slots.last (show slot.kind ≠ .eof by simp [hname.1]) hclose
      rw [slotName_of_name hname] at hlast
      exact ⟨rest, hinput ▸ hlast, hlaid⟩
  | cons other params ih =>
      rw [List.map_cons, List.map_cons, List.intercalate_cons_cons, List.append_assoc,
        List.append_assoc, List.singleton_append, List.singleton_append] at hlaid
      obtain ⟨next, ⟨slot, hname, hinput⟩, hlaid⟩ := hlaid.name (h param List.mem_cons_self)
      obtain ⟨inner, hcomma, hlaid⟩ := hlaid.mark isWord_comma
      obtain ⟨rest, hslots, hlaid⟩ :=
        ih (fun name hmem => h name (List.mem_cons_of_mem _ hmem)) hlaid
      have hmore := Slots.more (show slot.kind ≠ .eof by simp [hname.1]) hcomma hslots
      rw [slotName_of_name hname] at hmore
      exact ⟨rest, hinput ▸ hmore, hlaid⟩

/-- A parameter list. -/
theorem params_read {params : List String} (h : ∀ param ∈ params, isName param = true)
    (hlaid : Laid (Prototype.paramWords params ++ more) input) :
    ∃ rest, Params input params rest ∧ Laid more rest := by
  rw [Prototype.paramWords, parenthesised_append] at hlaid
  obtain ⟨inner, hopen, hlaid⟩ := hlaid.mark isWord_openParen
  cases params with
  | nil =>
      obtain ⟨rest, hclose, hlaid⟩ := hlaid.mark isWord_closeParen
      exact ⟨rest, .none hopen hclose, hlaid⟩
  | cons param params =>
      have hword := isWord_of_isName (h param List.mem_cons_self)
      have hlead : lead inner ≠ .closeParen := by
        rw [hlaid.lead]
        cases params with
        | nil => exact leadOf_of_isWord hword ▸ nofun
        | cons other params => exact leadOf_of_isWord hword ▸ nofun
      obtain ⟨rest, hslots, hlaid⟩ := slots_read h hlaid
      exact ⟨rest, .some hopen hlead hslots, hlaid⟩

/-- The head of a definition. -/
theorem heading_read {prototype : Prototype} (h : prototype.Fits)
    (hlaid : Laid (prototype.words ++ more) input) :
    ∃ rest, Heading table input prototype (table.declareAll prototype.entries) rest
      ∧ Laid more rest := by
  cases h with
  | function hname hparams =>
      rw [Prototype.words_function, List.cons_append] at hlaid
      rw [Prototype.entries_function]
      obtain ⟨next, hnamed, hlaid⟩ := hlaid.name hname
      obtain ⟨rest, hparams, hlaid⟩ := params_read hparams hlaid
      exact ⟨rest, .function hnamed hparams, hlaid⟩
  | @unary c param hc hparam =>
      rw [Prototype.words_unary, List.cons_append, List.cons_append] at hlaid
      rw [Prototype.entries_unary]
      obtain ⟨sign, hword, hlaid⟩ :=
        hlaid.mark (show IsWord .unaryWord Prototype.unaryWord by decide)
      obtain ⟨next, hsign, hlaid⟩ := hlaid.sign hc
      obtain ⟨rest, hparams, hlaid⟩ := params_read (by simpa using hparam) hlaid
      exact ⟨rest, .unary hword hsign hc hparams, hlaid⟩
  | @binary spelling left right precedence hoperator hleft hright hprecedence =>
      rw [Prototype.words_binary, List.cons_append, List.cons_append, List.cons_append] at hlaid
      rw [Prototype.entries_binary]
      simp only [Operator.isValidPrecedence, Bool.and_eq_true, decide_eq_true_eq,
        UInt32.le_iff_toNat_le] at hprecedence
      obtain ⟨sign, hword, hlaid⟩ :=
        hlaid.mark (show IsWord .binaryWord Prototype.binaryWord by decide)
      obtain ⟨after, hspelled, hlaid⟩ := hlaid.spelled hoperator
      obtain ⟨next, hwhole, hlaid⟩ := hlaid.whole hprecedence.1 hprecedence.2
      obtain ⟨rest, hparams, hlaid⟩ := params_read (by simp [hleft, hright]) hlaid
      exact ⟨rest, .binary hword hspelled (.given hwhole) hparams, hlaid⟩

/-! ## §6. Programs. -/

/-- What stands after a form: the forms after it, each behind a semicolon. -/
def afterForm (forms : List Form) : List String :=
  match forms with
  | [] => []
  | forms => ";" :: [";"].intercalate (forms.map Form.words)

/-- A row of forms is its first form and what stands after it. -/
theorem intercalate_forms (form : Form) (forms : List Form) :
    [";"].intercalate ((form :: forms).map Form.words) = form.words ++ afterForm forms := by
  cases forms with
  | nil => simp [afterForm]
  | cons next forms => simp [afterForm]

/-- The end closes a form, and so does a semicolon. -/
theorem closes_afterForm (forms : List Form) : Closes (afterForm forms) := by
  cases forms with
  | nil => exact List.mem_cons_self
  | cons form forms => exact closes_of_isWord isWord_semicolon (by decide)

/-- Semicolons before forms are passed over. -/
theorem accepts_afterForm {last : Operator.Table} {forms : List Form}
    (h : ∀ input, Laid ([";"].intercalate (forms.map Form.words)) input →
      Accepts table input forms last)
    (hlaid : Laid (afterForm forms) input) : Accepts table input forms last := by
  cases forms with
  | nil => exact h input hlaid
  | cons form forms =>
      obtain ⟨rest, hsemicolon, hlaid⟩ := hlaid.mark isWord_semicolon
      obtain ⟨mark, hmark, hforms⟩ := h rest hlaid
      exact ⟨mark, hmark, .skip hsemicolon hforms⟩

/-- The words of forms that fit are read as these forms. -/
theorem accepts_of_fits {forms : List Form} (h : Program.Fits table forms)
    (hlaid : Laid ([";"].intercalate (forms.map Form.words)) input) :
    Accepts table input forms (table.declareAll (Program.entries forms)) := by
  induction h generalizing input with
  | nil =>
      cases hlaid with
      | @last mark hmark => exact ⟨mark, hmark, .nil⟩
  | @definition table prototype e forms hprototype he _ ih =>
      rw [intercalate_forms, Form.words, List.append_assoc, List.cons_append] at hlaid
      obtain ⟨next, hword, hlaid⟩ := hlaid.mark (show IsWord .funcWord "func" by decide)
      obtain ⟨after, hheading, hlaid⟩ := heading_read hprototype hlaid
      have closes := closes_afterForm forms
      obtain ⟨rest, hbody, hlaid⟩ := (reads_of_fits _ e _ he).body closes.lead.1 hlaid
      obtain ⟨mark, hmark, hforms⟩ := accepts_afterForm (fun _ => ih) hlaid
      rw [← Operator.Table.declareAll_append] at hforms
      exact ⟨mark, hmark, .definition hword hheading hbody hforms⟩
  | @expression table e forms he _ ih =>
      rw [intercalate_forms, Form.words] at hlaid
      obtain ⟨rest, hbody, hlaid⟩ :=
        (reads_of_fits table e _ he).statement (closes_afterForm forms) hlaid
      obtain ⟨mark, hmark, hforms⟩ := accepts_afterForm (fun _ => ih) hlaid
      exact ⟨mark, hmark, .expression hbody hforms⟩

/-- A program that fits a table, written out and read from that table, gives its forms
again, and the table with what they declare. -/
theorem ofSource_written (file : String) {table : Operator.Table} {forms : List Form}
    (h : Program.Fits table forms) :
    Program.ofSource file (Program.written forms) table
      = ⟨.ok forms, table.declareAll (Program.entries forms)⟩ := by
  obtain ⟨tokens, htokens, hlaid, cut⟩ := tokenize_words file (cuttable_formWords h)
  rw [Program.written, ofSource_of_tokenize htokens]
  exact (ofTokens_ok_iff cut).2 (accepts_of_fits h hlaid)

/-- An operator that is declared and then used, and a choice in a block that a second
branch follows. -/
def nestedChoice : List Form :=
  [.definition ⟨⟨"binary" ++ "<>", ["a", "b"], true, 2⟩,
      .binary "-" (.scalar "a") (.unary '-' (.scalar "b"))⟩,
    .expression ⟨Prototype.anonymous,
      .branch (.binary "<>" (.scalar "x") (.number (.finite false (3 * Number.unitsPerOne))))
        (.block [.branch (.scalar "y") (.scalar "z") none]) (some (.call "f" [.scalar "x"]))⟩]

theorem nestedChoice_read_back :
    Program.written nestedChoice
        = "func binary <> 2 ( a , b ) ( ( a ) - ( - ( b ) ) ) ; "
          ++ "if ( ( x ) <> ( 3 ) ) then \x7b if ( y ) then ( z ) \x7d else ( f ( ( x ) ) )"
      ∧ Program.ofSource defaultFile (Program.written nestedChoice) .standard
        = ⟨.ok nestedChoice, Operator.Table.standard.declareAll [("<>", 2)]⟩ := by
  have hprototype : Prototype.Fits ⟨"binary" ++ "<>", ["a", "b"], true, 2⟩ :=
    .binary (by decide) (by decide) (by decide) (by decide)
  refine ⟨by decide +kernel, ?_⟩
  exact ofSource_written defaultFile
    (.definition hprototype (by decide +kernel) (.expression (by decide +kernel) .nil))

end Fixity.Language
