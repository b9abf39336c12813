/-
  Fixity.Proofs.Printing.Lines
  ────────────────────────────────
  **WHAT IS PRINTED TELLS THE PROGRAM.**

  Each form of a program is shown on one line:

      def name(p, ... p) = e
      def binary+(p, p) [precedence n] = e
      expr e

  A line says all that its form holds.  A name of a function is a word that is not
  reserved, so it is neither `unary` nor `binary` with an operator behind it, and of
  two operators the keyword and the spelling tell which is which.  A tree holds no
  line end, so a line ends where its tree does.

  A number that is too large for a binary64 value is read as infinite and printed as
  `inf`, like a variable of that name.  So all this is said of programs whose numbers
  are finite.

  Main results: `prototype_inj` (a head), `line_inj` (a form) and `forms_eq_of_lines`
  (programs that are printed alike are equal).
-/
import Fixity.CommandLine
import Fixity.Proofs.Printing.Shapes

namespace Fixity

namespace Printing

open Operator (isOperatorChar)

variable {rest more : List Char}

/-! ## §1. Heads. -/

/-- Names with commas between them. -/
def listed : List String → List Char
  | [] => []
  | first :: names => first.toList ++ names.flatMap fun name => ',' :: (' ' :: name.toList)

/-- The precedence that a prototype is printed with, if it has two operands. -/
def precedenceText (prototype : Prototype) : String :=
  if prototype.isBinary then " [precedence " ++ toString prototype.precedence ++ "]" else ""

theorem intercalate_eq_listed (names : List String) :
    [',', ' '].intercalate (names.map String.toList) = listed names := by
  cases names with
  | nil => rfl
  | cons first names =>
      simp only [listed]
      induction names generalizing first with
      | nil => simp
      | cons second names ih =>
          rw [List.map_cons, List.map_cons, List.intercalate_cons_cons, ← List.map_cons, ih]
          simp

/-- The characters of a prototype. -/
theorem toList_prototype (prototype : Prototype) :
    prototype.text.toList
      = prototype.name.toList
        ++ '(' :: (listed prototype.params ++ ')' :: (precedenceText prototype).toList) := by
  simp [Prototype.text, precedenceText, intercalate_eq_listed]

/-- The name and the parameters of a prototype are words. -/
theorem solid_of_fits {prototype : Prototype} (h : prototype.Fits) :
    Solid prototype.name.toList ∧ ∀ param ∈ prototype.params, Solid param.toList := by
  cases h with
  | function hname hparams =>
      exact ⟨solid_of_isName hname, fun param hmem => solid_of_isName (hparams param hmem)⟩
  | unary hc hparam =>
      refine ⟨?_, List.forall_mem_singleton.2 (solid_of_isName hparam)⟩
      rw [String.toList_append]
      exact Solid.append (by decide) (solid_of_isInfix (isInfix_singleton hc))
  | binary hspelling hleft hright _ =>
      refine ⟨?_, List.forall_mem_cons.2 ⟨solid_of_isName hleft,
        List.forall_mem_singleton.2 (solid_of_isName hright)⟩⟩
      rw [String.toList_append]
      exact Solid.append (by decide) (solid_of_isInfix hspelling)

/-- Words with commas between them, up to the closing parenthesis. -/
theorem listed_inj {names others : List String} (h : ∀ name ∈ names, Solid name.toList)
    (h' : ∀ name ∈ others, Solid name.toList)
    (heq : listed names ++ ')' :: rest = listed others ++ ')' :: more) :
    names = others ∧ rest = more := by
  have breaks (names : List String) (rest : List Char) :
      Breaks (names.flatMap (fun name => ',' :: (' ' :: name.toList)) ++ ')' :: rest) :=
    follows_row Breaks _ (fun _ => breaks_cons (by decide)) (breaks_cons (by decide)) names
  match names, others with
  | [], [] => exact ⟨rfl, (List.cons.inj heq).2⟩
  | [], first' :: names' =>
      simp only [listed, List.append_assoc] at heq
      exact absurd (congrArg List.head? heq).symm
        ((h' first' List.mem_cons_self).head?_ne (by decide))
  | first :: names, [] =>
      simp only [listed, List.append_assoc] at heq
      exact absurd (congrArg List.head? heq) ((h first List.mem_cons_self).head?_ne (by decide))
  | first :: names, first' :: names' =>
      simp only [listed, List.append_assoc] at heq
      obtain ⟨hfirst, hnames⟩ := append_inj (h first List.mem_cons_self)
        (h' first' List.mem_cons_self) (breaks names rest) (breaks names' more) heq
      have unique : ∀ a ∈ names, ∀ b ∈ names', ∀ s t, Breaks s → Breaks t →
          ' ' :: a.toList ++ s = ' ' :: b.toList ++ t → a = b ∧ s = t := by
        intro a ha b hb s t hs ht heq
        obtain ⟨hletters, hrest⟩ := append_inj (h a (List.mem_cons_of_mem _ ha))
          (h' b (List.mem_cons_of_mem _ hb)) hs ht (List.cons.inj heq).2
        exact ⟨String.toList_inj.1 hletters, hrest⟩
      obtain ⟨rfl, hrest⟩ := row_inj Breaks _ (fun s => breaks_cons (by decide)) unique
        (breaks_cons (by decide)) (breaks_cons (by decide)) (by simp) (by simp) hnames
      rw [String.toList_inj.1 hfirst]
      exact ⟨rfl, (List.cons.inj hrest).2⟩

/-- A prototype is that of an operator just if its name is none. -/
theorem isOperator_eq {prototype : Prototype} (h : prototype.Fits) :
    prototype.isOperator = !isName prototype.name := by
  cases h with
  | function hname _ =>
      rw [hname]
      rfl
  | unary hc _ =>
      rw [not_isName_append _ (isInfix_singleton hc)]
      rfl
  | binary hspelling _ _ _ =>
      rw [not_isName_append _ hspelling]
      rfl

/-- Only the precedence of an operator with two operands can be other than the tightest. -/
theorem precedence_eq {prototype : Prototype} (h : prototype.Fits)
    (hbinary : prototype.isBinary = false) : prototype.precedence = Operator.tightest := by
  cases h with
  | function _ _ => rfl
  | unary _ _ => rfl
  | binary _ _ _ _ => exact absurd hbinary nofun

/-- Prototypes of one name with the same parameters are told apart by their precedences. -/
theorem precedenceText_inj {prototype other : Prototype} (h : prototype.Fits) (h' : other.Fits)
    (same : prototype.isBinary = other.isBinary)
    (heq : (precedenceText prototype).toList ++ rest = (precedenceText other).toList ++ more) :
    prototype.precedence = other.precedence ∧ rest = more := by
  unfold precedenceText at heq
  rw [← same] at heq
  cases hbinary : prototype.isBinary with
  | false =>
      rw [hbinary] at heq same
      rw [precedence_eq h hbinary, precedence_eq h' same.symm]
      exact ⟨rfl, heq⟩
  | true =>
      rw [hbinary, if_pos rfl, if_pos rfl] at heq
      simp only [String.toList_append, List.append_assoc] at heq
      obtain ⟨hdigits, hrest⟩ := append_inj (solid_of_numeral (spells_word _).1)
        (solid_of_numeral (spells_word _).1) (breaks_cons (by decide)) (breaks_cons (by decide))
        (List.append_cancel_left heq)
      exact ⟨toString_inj (String.toList_inj.1 hdigits), (List.cons.inj hrest).2⟩

/-- **A head is told from every other one by its text.** -/
theorem prototype_inj {prototype other : Prototype} (h : prototype.Fits) (h' : other.Fits)
    (heq : prototype.text.toList ++ rest = other.text.toList ++ more) :
    prototype = other ∧ rest = more := by
  obtain ⟨hname, hparams⟩ := solid_of_fits h
  obtain ⟨hname', hparams'⟩ := solid_of_fits h'
  simp only [toList_prototype, List.append_assoc, List.cons_append] at heq
  obtain ⟨hletters, heq⟩ := append_inj hname hname' (breaks_cons (by decide))
    (breaks_cons (by decide)) heq
  obtain ⟨hsame, heq⟩ := listed_inj hparams hparams' (List.cons.inj heq).2
  have hnames := String.toList_inj.1 hletters
  -- the name says whether it is an operator, and the parameters with how many operands
  have hoperator : prototype.isOperator = other.isOperator := by
    rw [isOperator_eq h, isOperator_eq h', hnames]
  have hbinary : prototype.isBinary = other.isBinary := by
    rw [Prototype.isBinary, Prototype.isBinary, hoperator, hsame]
  obtain ⟨hprecedence, hrest⟩ := precedenceText_inj h h' hbinary heq
  obtain ⟨name, params, isOperator, precedence⟩ := prototype
  cases hnames
  cases hsame
  cases hoperator
  cases hprecedence
  exact ⟨rfl, hrest⟩

/-! ## §2. Forms. -/

/-- A form that can be written with some table. -/
inductive PrintableForm : Form → Prop
  /-- A definition. -/
  | definition {prototype : Prototype} {e : Expr} :
      prototype.Fits → Printable e → PrintableForm (.definition ⟨prototype, e⟩)
  /-- An expression. -/
  | expression {e : Expr} : Printable e → PrintableForm (.expression ⟨Prototype.anonymous, e⟩)

theorem printable_of_fits {table : Operator.Table} {forms : List Form}
    (h : Program.Fits table forms) : ∀ form ∈ forms, PrintableForm form := by
  induction h with
  | nil => exact nofun
  | definition hprototype hbody _ ih =>
      exact List.forall_mem_cons.2 ⟨.definition hprototype ⟨_, hbody⟩, ih⟩
  | expression hbody _ ih => exact List.forall_mem_cons.2 ⟨.expression ⟨_, hbody⟩, ih⟩

/-- **A form is told from every other one by its line.** -/
theorem line_inj {form other : Form} (h : PrintableForm form) (h' : PrintableForm other)
    (heq : form.line.toList ++ '\n' :: rest = other.line.toList ++ '\n' :: more) :
    form = other ∧ rest = more := by
  have stops (s : List Char) : Stops ('\n' :: s) := stops_cons (by decide) (by decide)
  cases h with
  | definition hprototype hbody =>
      cases h' with
      | definition hprototype' hbody' =>
          simp only [Form.line, Function.text, String.toList_append, List.append_assoc] at heq
          obtain ⟨rfl, hbodies⟩ :=
            prototype_inj hprototype hprototype' (List.append_cancel_left heq)
          obtain ⟨rfl, hrest⟩ := eq_of_text hbody hbody' (stops rest) (stops more)
            (List.append_cancel_left hbodies)
          exact ⟨rfl, (List.cons.inj hrest).2⟩
      | expression _ =>
          have hhead := congrArg List.head? heq
          simp [Form.line] at hhead
  | expression hbody =>
      cases h' with
      | definition _ _ =>
          have hhead := congrArg List.head? heq
          simp [Form.line] at hhead
      | expression hbody' =>
          simp only [Form.line, String.toList_append, List.append_assoc] at heq
          obtain ⟨rfl, hrest⟩ := eq_of_text hbody hbody' (stops rest) (stops more)
            (List.append_cancel_left heq)
          exact ⟨rfl, (List.cons.inj hrest).2⟩

/-! ## §3. Programs. -/

/-- The lines of a program, one for each form. -/
theorem toList_lines (forms : List Form) :
    (CommandLine.Written.lines (forms.map Form.line)).out.toList
      = forms.flatMap fun form => form.line.toList ++ ['\n'] := by
  simp [CommandLine.Written.lines, String.toList_join, List.flatMap_map]

/-- Programs that can be written are told apart by their lines. -/
theorem lines_inj {forms others : List Form} (h : ∀ form ∈ forms, PrintableForm form)
    (h' : ∀ form ∈ others, PrintableForm form)
    (heq : forms.flatMap (fun form => form.line.toList ++ ['\n'])
      = others.flatMap fun form => form.line.toList ++ ['\n']) : forms = others := by
  induction forms generalizing others with
  | nil =>
      cases others with
      | nil => rfl
      | cons other others => simp at heq
  | cons form forms ih =>
      cases others with
      | nil => simp at heq
      | cons other others =>
          simp only [List.flatMap_cons, List.append_assoc, List.singleton_append] at heq
          obtain ⟨rfl, hrest⟩ := line_inj (h form List.mem_cons_self)
            (h' other List.mem_cons_self) heq
          rw [ih (fun form hmem => h form (List.mem_cons_of_mem _ hmem))
            (fun other hmem => h' other (List.mem_cons_of_mem _ hmem)) hrest]

open Fixity.Language in
/-- **What is printed tells the program.**  Two programs whose numbers are finite, read from
any texts with any tables, are the same forms if the lines that show them are the same
text. -/
theorem forms_eq_of_lines {file file' source source' : String} {table table' : Operator.Table}
    {forms others : List Form} (h : (Program.ofSource file source table).result = .ok forms)
    (h' : (Program.ofSource file' source' table').result = .ok others)
    (finite : ∀ form ∈ forms, form.function.body.isFinite = true)
    (finite' : ∀ form ∈ others, form.function.body.isFinite = true)
    (printed : (CommandLine.Written.lines (forms.map Form.line)).out
      = (CommandLine.Written.lines (others.map Form.line)).out) : forms = others := by
  have hlines := congrArg String.toList printed
  rw [toList_lines, toList_lines] at hlines
  exact lines_inj (printable_of_fits (fits_of_ofSource h finite))
    (printable_of_fits (fits_of_ofSource h' finite')) hlines

/-- A function may have the name that every call is printed with, and an operator character
may stand in front of an operand and between two: the lines still tell one program. -/
theorem call_of_call : ∃ forms others,
    (Program.ofSource "sel" "func call(x) -x - 1; call(call[2])" .standard).result = .ok forms
      ∧ (Program.ofSource "sel" "func call (x) ((-x) - 1) // spaced\n(call((call[2])))"
          (Operator.Table.standard.declare "~" 7)).result = .ok others
      ∧ forms = [.definition ⟨.function "call" ["x"],
          .binary "-" (.unary '-' (.scalar "x")) (.number (.finite false Number.unitsPerOne))⟩,
        .expression ⟨.anonymous,
          .call "call" [.var "call" [.number (.finite false (2 * Number.unitsPerOne))]]⟩]
      ∧ others = [.definition ⟨.function "call" ["x"],
          .binary "-" (.unary '-' (.scalar "x")) (.number (.finite false Number.unitsPerOne))⟩,
        .expression ⟨.anonymous,
          .call "call" [.var "call" [.number (.finite false (2 * Number.unitsPerOne))]]⟩]
      ∧ (CommandLine.Written.lines (forms.map Form.line)).out
        = (CommandLine.Written.lines (others.map Form.line)).out
      ∧ forms = others := by
  let program : List Form := [.definition ⟨.function "call" ["x"],
      .binary "-" (.unary '-' (.scalar "x")) (.number (.finite false Number.unitsPerOne))⟩,
    .expression ⟨.anonymous,
      .call "call" [.var "call" [.number (.finite false (2 * Number.unitsPerOne))]]⟩]
  have hforms : (Program.ofSource "sel" "func call(x) -x - 1; call(call[2])" .standard).result
      = .ok program := by decide +kernel
  have hothers : (Program.ofSource "sel" "func call (x) ((-x) - 1) // spaced\n(call((call[2])))"
      (Operator.Table.standard.declare "~" 7)).result = .ok program := by decide +kernel
  have finite : ∀ form ∈ program, form.function.body.isFinite = true := by decide
  exact ⟨program, program, hforms, hothers, rfl, rfl, rfl,
    forms_eq_of_lines hforms hothers finite finite rfl⟩

end Printing
end Fixity
