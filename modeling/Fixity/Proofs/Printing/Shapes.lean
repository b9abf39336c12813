/-
  Fixity.Proofs.Printing.Shapes
  ────────────────────────────────
  **A PRINTED TREE IS ONE TREE.**

  A tree is printed in one of four shapes: a word with indices after it, a head and
  members in parentheses, an array in parentheses, or statements in braces.  The
  members of a shape are trees again, and each is printed shorter than the whole.

      number, variable        w[e]...[e]
      call                    (call name e ... e)
      operators               (op e)  (op e e)
      choice, loops           (if c e e?)  (for name e e e? e)  (while c e)  (rept c e)
      array                   (arr name[n]...[n])
      block                   {e ... e}

  The first character tells words, parentheses and braces apart, a word tells its end
  by the delimiter after it, and the members are told apart by induction on the length.
  Heads, members and how many there are then tell which tree it is: no operator is
  spelled like a keyword of the printed form, and a variable stands for the name that a
  call or a counting loop starts with.

  Main results: `toList_text` (every tree is printed in its shape), `tree?_shape` (the
  shape gives back the tree) and `eq_of_text` (so does the text, whatever follows it).
-/
import Fixity.Proofs.Language.Proper
import Fixity.Proofs.Printing.Delimiters

namespace Fixity

namespace Printing

open Fixity.Expr
open Operator (isOperatorChar)

/-! ## §1. Shapes. -/

/-- How a tree is printed. -/
inductive Shape where
  /-- A word with indices after it, each in brackets. -/
  | word (letters : List Char) (indices : List Expr)
  /-- A head and members, in parentheses. -/
  | group (head : List Char) (members : List Expr)
  /-- A name with dimensions after it, in parentheses behind a word of its own. -/
  | array (name : List Char) (dimensions : List UInt32)
  /-- Statements in braces. -/
  | braces (statements : List Expr)

/-- Trees, each with a blank before it. -/
def blanked (trees : List Expr) : List Char := trees.flatMap fun tree => ' ' :: tree.text.toList

/-- Trees, each in brackets. -/
def indexed (trees : List Expr) : List Char :=
  trees.flatMap fun tree => '[' :: (tree.text.toList ++ [']'])

/-- Numbers, each in brackets. -/
def sized (dimensions : List UInt32) : List Char :=
  dimensions.flatMap fun dimension => '[' :: ((toString dimension).toList ++ [']'])

namespace Shape

/-- The characters of a shape. -/
def chars : Shape → List Char
  | word letters indices => letters ++ indexed indices
  | group head members => '(' :: (head ++ (blanked members ++ [')']))
  | array name dimensions => '(' :: ("arr".toList ++ ' ' :: (name ++ (sized dimensions ++ [')'])))
  | braces [] => ['\x7b', '\x7d']
  | braces (first :: rest) => '\x7b' :: (first.text.toList ++ (blanked rest ++ ['\x7d']))

/-- The trees in a shape. -/
def members : Shape → List Expr
  | word _ trees | group _ trees | braces trees => trees
  | array _ _ => []

end Shape

/-- The shape of a tree. -/
def shape : Expr → Shape
  | number value => .word value.text.toList []
  | var name indices => .word name.toList indices
  | call callee arguments => .group "call".toList (scalar callee :: arguments)
  | unary operator operand => .group [operator] [operand]
  | binary operator left right => .group operator.toList [left, right]
  | branch condition consequent alternative =>
    .group "if".toList (condition :: consequent :: alternative.toList)
  | countLoop counter first last step body =>
    .group "for".toList (scalar counter :: first :: last :: (step.toList ++ [body]))
  | whileLoop condition body => .group "while".toList [condition, body]
  | repeatLoop times body => .group "rept".toList [times, body]
  | .array name dimensions => .array name.toList dimensions
  | block statements => .braces statements

/-! ## §2. Trees are printed in their shapes. -/

theorem toList_spaced (trees : List Expr) : (spaced trees).toList = blanked trees := by
  induction trees with
  | nil => simp [blanked]
  | cons tree rest ih => simp [spaced_cons, blanked, ih]

theorem toList_bracketed (trees : List Expr) : (bracketed trees).toList = indexed trees := by
  induction trees with
  | nil => simp [bracketed, indexed]
  | cons tree rest ih => simp [bracketed, indexed, ih]

theorem toList_spacedOption (tree : Option Expr) :
    (spacedOption tree).toList = blanked tree.toList := by
  cases tree <;> simp [spacedOption, blanked]

theorem toList_dimensionsText (dimensions : List UInt32) :
    (dimensionsText dimensions).toList = sized dimensions := by
  simp [dimensionsText, sized, String.toList_join, List.flatMap_map]

/-- **Every tree is printed in its shape.** -/
theorem toList_text (e : Expr) : e.text.toList = (shape e).chars := by
  cases e with
  | block statements => cases statements <;> simp [text, shape, Shape.chars, toList_spaced]
  | _ =>
      simp [text, shape, Shape.chars, toList_spaced, toList_bracketed, toList_spacedOption,
        toList_dimensionsText, blanked, bracketed, indexed]

/-! ## §3. Shapes of trees that can be written. -/

/-- A tree that can be written with some table. -/
def Printable (e : Expr) : Prop := ∃ table, e.fits table .body = true

theorem printable_of_operand {table : Operator.Table} {e : Expr}
    (h : e.fits table .operand = true) : Printable e := ⟨table, fits_body h⟩

theorem printable_of_allFit {table : Operator.Table} {standing : Standing} {trees : List Expr}
    (h : allFit table trees standing = true) : ∀ e ∈ trees, Printable e := by
  rw [allFit_eq, List.all_eq_true] at h
  intro e hmem
  cases standing with
  | operand => exact printable_of_operand (h e hmem)
  | body => exact ⟨table, h e hmem⟩

theorem printable_of_optionFits {table : Operator.Table} {standing : Standing} {tree : Option Expr}
    (h : optionFits table tree standing = true) : ∀ e ∈ tree.toList, Printable e := by
  cases tree with
  | none => exact nofun
  | some tree =>
      have hall : allFit table [tree] standing = true := by simpa [allFit, optionFits] using h
      exact printable_of_allFit hall

theorem printable_scalar {name : String} (h : isName name = true) : Printable (scalar name) :=
  ⟨.empty, by simp [fits, allFit, h]⟩

/-- An operator is no keyword of the printed form. -/
theorem toList_ne_of_isInfix {spelling : String} (h : isInfix spelling = true) (keyword : String)
    (hkeyword : isInfix keyword = false) : spelling.toList ≠ keyword.toList := by
  intro heq
  rw [String.toList_inj.1 heq, hkeyword] at h
  exact absurd h nofun

/-- A character of the operator alphabet is an operator. -/
theorem isInfix_singleton {c : Char} (h : isOperatorChar c = true) :
    isInfix (String.singleton c) = true := by
  have halphabet : Operator.alphabet.all (fun d =>
      isPunctuation d && !isWordStart d && Kind.ofPunctuation d == .symbol) = true := by decide
  unfold isInfix
  rw [String.toList_singleton]
  exact List.all_eq_true.1 halphabet c (List.contains_iff_mem.1 h)

namespace Shape

/-- A shape whose words are words and whose members can be written. -/
structure Proper (shape : Shape) : Prop where
  /-- The members can be written. -/
  members : ∀ e ∈ shape.members, Printable e
  /-- The words are words, and no head looks like that of an array. -/
  words : match shape with
    | word letters _ | array letters _ => Solid letters
    | group head _ => Solid head ∧ head ≠ "arr".toList
    | braces _ => True

/-- The operation of an operator on members. -/
def operation? (head : List Char) : List Expr → Option Expr
  | [operand] => head.head?.map fun operator => .unary operator operand
  | [left, right] => some (.binary (String.ofList head) left right)
  | _ => none

/-- The construct of a keyword. -/
def construct? : String → List Expr → Option Expr
  | "call", .var callee [] :: arguments => some (.call callee arguments)
  | "if", [condition, consequent] => some (.branch condition consequent none)
  | "if", [condition, consequent, alternative] =>
    some (.branch condition consequent (some alternative))
  | "for", [.var counter [], first, last, body] => some (.countLoop counter first last none body)
  | "for", [.var counter [], first, last, step, body] =>
    some (.countLoop counter first last (some step) body)
  | "while", [condition, body] => some (.whileLoop condition body)
  | "rept", [times, body] => some (.repeatLoop times body)
  | _, _ => none

/-- The tree of a shape. -/
def tree? : Shape → Option Expr
  | word letters indices =>
    if letters.head?.any Char.isDigit then (Number.ofText? (String.ofList letters)).map .number
    else some (.var (String.ofList letters) indices)
  | group head members =>
    if isInfix (String.ofList head) then operation? head members
    else construct? (String.ofList head) members
  | array name dimensions => some (.array (String.ofList name) dimensions)
  | braces statements => some (.block statements)

end Shape

/-- The shape of a tree that can be written is a proper one. -/
theorem proper_shape {e : Expr} (h : Printable e) : (shape e).Proper := by
  obtain ⟨table, h⟩ := h
  cases e with
  | number value => exact ⟨nofun, solid_of_numeral (spells_of_isPlain h).1⟩
  | var name indices =>
      simp only [fits, Bool.and_eq_true] at h
      exact ⟨printable_of_allFit h.2, solid_of_isName h.1⟩
  | call callee arguments =>
      simp only [fits, Bool.and_eq_true] at h
      refine ⟨?_, by decide, by decide⟩
      exact List.forall_mem_cons.2 ⟨printable_scalar h.1, printable_of_allFit h.2⟩
  | unary operator operand =>
      simp only [fits, Bool.and_eq_true] at h
      have hinfix := isInfix_singleton h.1
      have hwords := solid_of_isInfix hinfix
      have hne := toList_ne_of_isInfix hinfix "arr" (by decide)
      rw [String.toList_singleton] at hwords hne
      exact ⟨List.forall_mem_singleton.2 (printable_of_operand h.2), hwords, hne⟩
  | binary operator left right =>
      simp only [fits, Bool.and_eq_true] at h
      refine ⟨?_, solid_of_isInfix h.1.1.1, toList_ne_of_isInfix h.1.1.1 "arr" (by decide)⟩
      exact List.forall_mem_cons.2 ⟨printable_of_operand h.1.2,
        List.forall_mem_singleton.2 (printable_of_operand h.2)⟩
  | branch condition consequent alternative =>
      simp only [fits, Bool.and_eq_true] at h
      refine ⟨?_, by decide, by decide⟩
      exact List.forall_mem_cons.2 ⟨printable_of_operand h.1.1,
        List.forall_mem_cons.2 ⟨⟨table, h.1.2⟩, printable_of_optionFits h.2⟩⟩
  | countLoop counter first last step body =>
      simp only [fits, Bool.and_eq_true] at h
      obtain ⟨⟨⟨⟨hcounter, hfirst⟩, hlast⟩, hstep⟩, hbody⟩ := h
      refine ⟨?_, by decide, by decide⟩
      refine List.forall_mem_cons.2 ⟨printable_scalar hcounter, List.forall_mem_cons.2
        ⟨printable_of_operand hfirst, List.forall_mem_cons.2 ⟨printable_of_operand hlast, ?_⟩⟩⟩
      exact List.forall_mem_append.2 ⟨printable_of_optionFits hstep,
        List.forall_mem_singleton.2 ⟨table, hbody⟩⟩
  | whileLoop condition body =>
      simp only [fits, Bool.and_eq_true] at h
      refine ⟨?_, by decide, by decide⟩
      exact List.forall_mem_cons.2 ⟨printable_of_operand h.1,
        List.forall_mem_singleton.2 ⟨table, h.2⟩⟩
  | repeatLoop times body =>
      simp only [fits, Bool.and_eq_true] at h
      refine ⟨?_, by decide, by decide⟩
      exact List.forall_mem_cons.2 ⟨printable_of_operand h.1,
        List.forall_mem_singleton.2 ⟨table, h.2⟩⟩
  | array name dimensions =>
      simp only [fits, Bool.and_eq_true] at h
      exact ⟨nofun, solid_of_isName h.1.1⟩
  | block statements =>
      simp only [fits, Bool.and_eq_true] at h
      exact ⟨printable_of_allFit h.2, trivial⟩

/-- **The shape of a tree gives back the tree.** -/
theorem tree?_shape {e : Expr} (h : Printable e) : (shape e).tree? = some e := by
  obtain ⟨table, h⟩ := h
  cases e with
  | number value =>
      have hspells := spells_of_isPlain h
      simp [shape, Shape.tree?, digit_of_numeral hspells.1, hspells.2]
  | var name indices =>
      simp only [fits, Bool.and_eq_true] at h
      simp [shape, Shape.tree?, not_digit_of_isName h.1]
  | unary operator operand =>
      simp only [fits, Bool.and_eq_true] at h
      have hinfix := isInfix_singleton h.1
      simp [shape, Shape.tree?, hinfix, Shape.operation?]
  | binary operator left right =>
      simp only [fits, Bool.and_eq_true] at h
      simp [shape, Shape.tree?, h.1.1.1, Shape.operation?]
  | call callee arguments =>
      have hkeyword : isInfix "call" = false := by decide
      simp [shape, Shape.tree?, hkeyword, Shape.construct?]
  | branch condition consequent alternative =>
      have hkeyword : isInfix "if" = false := by decide
      cases alternative <;> simp [shape, Shape.tree?, hkeyword, Shape.construct?]
  | countLoop counter first last step body =>
      have hkeyword : isInfix "for" = false := by decide
      cases step <;> simp [shape, Shape.tree?, hkeyword, Shape.construct?]
  | whileLoop condition body =>
      have hkeyword : isInfix "while" = false := by decide
      simp [shape, Shape.tree?, hkeyword, Shape.construct?]
  | repeatLoop times body =>
      have hkeyword : isInfix "rept" = false := by decide
      simp [shape, Shape.tree?, hkeyword, Shape.construct?]
  | array name dimensions => simp [shape, Shape.tree?]
  | block statements => rfl

/-- Trees that can be written are equal if their shapes are. -/
theorem shape_inj {a b : Expr} (h : Printable a) (h' : Printable b) (heq : shape a = shape b) :
    a = b := by
  have htree := tree?_shape h
  rw [heq, tree?_shape h'] at htree
  exact (Option.some.inj htree).symm

/-! ## §4. Texts of trees that can be written. -/

/-- A tree that its text tells from every other one, and from what follows. -/
def Unique (a : Expr) : Prop :=
  ∀ {b : Expr} {rest more : List Char}, Printable b → Stops rest → Stops more →
    a.text.toList ++ rest = b.text.toList ++ more → a = b ∧ rest = more

variable {rest more : List Char} {trees others : List Expr}

/-- Trees with blanks before them, up to a closing bracket. -/
theorem blanked_inj {close : Char} (unique : ∀ a ∈ trees, Unique a)
    (printable : ∀ b ∈ others, Printable b) (hclose : close = ')' ∨ close = '\x7d')
    (heq : blanked trees ++ close :: rest = blanked others ++ close :: more) :
    trees = others ∧ rest = more := by
  have hends (s : List Char) : Stops (close :: s) ∧ (close :: s).head? ≠ some ' ' := by
    obtain rfl | rfl := hclose
    · exact ⟨stops_cons (by decide) (by decide), by simp⟩
    · exact ⟨stops_cons (by decide) (by decide), by simp⟩
  obtain ⟨htrees, hrest⟩ := row_inj Stops (fun tree : Expr => tree.text.toList)
    (fun s => stops_cons (by decide) (by decide))
    (fun a ha b hb s t hs ht heq => unique a ha (printable b hb) hs ht heq)
    (hends rest).1 (hends more).1 (hends rest).2 (hends more).2 heq
  exact ⟨htrees, (List.cons.inj hrest).2⟩

theorem breaks_indexed (trees : List Expr) (stops : Stops rest) :
    Breaks (indexed trees ++ rest) :=
  follows_row Breaks _ (fun _ => breaks_cons (by decide)) stops.1 trees

theorem breaks_sized (ns : List UInt32) (stops : Stops rest) : Breaks (sized ns ++ rest) :=
  follows_row Breaks _ (fun _ => breaks_cons (by decide)) stops.1 ns

theorem stops_blanked (trees : List Expr) (stops : Stops rest) : Stops (blanked trees ++ rest) :=
  follows_row Stops _ (fun _ => stops_cons (by decide) (by decide)) stops trees

/-- Trees in brackets, up to what is no bracket. -/
theorem indexed_inj (unique : ∀ a ∈ trees, Unique a) (printable : ∀ b ∈ others, Printable b)
    (stops : Stops rest) (stops' : Stops more)
    (heq : indexed trees ++ rest = indexed others ++ more) : trees = others ∧ rest = more := by
  refine row_inj (fun _ => True) (fun tree : Expr => tree.text.toList ++ [']'])
    (fun _ => trivial) (fun a ha b hb s t _ _ heq => ?_) trivial trivial stops.2 stops'.2 heq
  simp only [List.append_assoc, List.singleton_append] at heq
  obtain ⟨hab, hrest⟩ := unique a ha (printable b hb)
    (stops_cons (by decide) (by decide)) (stops_cons (by decide) (by decide)) heq
  exact ⟨hab, (List.cons.inj hrest).2⟩

/-- A number is told by its digits. -/
theorem toString_inj {n m : UInt32} (h : toString n = toString m) : n = m := by
  have hdigits : Nat.toDigits 10 n.toNat = Nat.toDigits 10 m.toNat := String.ofList_injective h
  have hvalue := congrArg Number.digitsValue hdigits
  rw [Number.digitsValue_toDigits, Number.digitsValue_toDigits] at hvalue
  exact UInt32.toNat_inj.1 hvalue

/-- Numbers in brackets, up to what is no bracket. -/
theorem sized_inj {ns ms : List UInt32} (stops : Stops rest) (stops' : Stops more)
    (heq : sized ns ++ rest = sized ms ++ more) : ns = ms ∧ rest = more := by
  refine row_inj (fun _ => True) (fun n : UInt32 => (toString n).toList ++ [']'])
    (fun _ => trivial) (fun n _ m _ s t _ _ heq => ?_) trivial trivial stops.2 stops'.2 heq
  simp only [List.append_assoc, List.singleton_append] at heq
  obtain ⟨hdigits, hrest⟩ := append_inj (solid_of_numeral (spells_word n).1)
    (solid_of_numeral (spells_word m).1) (breaks_cons (by decide)) (breaks_cons (by decide)) heq
  exact ⟨toString_inj (String.toList_inj.1 hdigits), (List.cons.inj hrest).2⟩

namespace Shape

/-- The delimiter that a shape starts with. -/
def opener : Shape → Option Char
  | word _ _ => none
  | group _ _ | array _ _ => some '('
  | braces _ => some '\x7b'

theorem opener_eq {shape : Shape} (h : shape.Proper) (rest : List Char) :
    (shape.chars ++ rest).head?.filter (· ∈ delimiters) = shape.opener := by
  match shape with
  | word letters indices =>
      have hwords : Solid letters := h.words
      obtain ⟨c, tail, rfl⟩ := List.exists_cons_of_ne_nil hwords.nonempty
      have hc := hwords.plain c List.mem_cons_self
      simp [chars, opener, hc]
  | group head members => rfl
  | array name dimensions => rfl
  | braces [] => rfl
  | braces (first :: rest) => rfl

theorem stops_closeParen (rest : List Char) : Stops (')' :: rest) :=
  stops_cons (by decide) (by decide)

theorem word_inj {letters letters' : List Char} (h : (word letters trees).Proper)
    (h' : (word letters' others).Proper) (unique : ∀ a ∈ trees, Unique a) (stops : Stops rest)
    (stops' : Stops more)
    (heq : (word letters trees).chars ++ rest = (word letters' others).chars ++ more) :
    word letters trees = word letters' others ∧ rest = more := by
  have hwords : Solid letters := h.words
  have hwords' : Solid letters' := h'.words
  simp only [chars, List.append_assoc] at heq
  obtain ⟨rfl, hindices⟩ := append_inj hwords hwords' (breaks_indexed trees stops)
    (breaks_indexed others stops') heq
  obtain ⟨rfl, hrest⟩ := indexed_inj unique h'.members stops stops' hindices
  exact ⟨rfl, hrest⟩

theorem group_inj {head head' : List Char} (h : (group head trees).Proper)
    (h' : (group head' others).Proper) (unique : ∀ a ∈ trees, Unique a)
    (heq : (group head trees).chars ++ rest = (group head' others).chars ++ more) :
    group head trees = group head' others ∧ rest = more := by
  simp only [chars, List.append_assoc, List.cons_append, List.nil_append] at heq
  obtain ⟨rfl, hmembers⟩ := append_inj h.words.1 h'.words.1
    (stops_blanked trees (stops_closeParen rest)).1
    (stops_blanked others (stops_closeParen more)).1 (List.cons.inj heq).2
  obtain ⟨rfl, hrest⟩ := blanked_inj unique h'.members (.inl rfl) hmembers
  exact ⟨rfl, hrest⟩

/-- The head of a group is not the word that an array starts with. -/
theorem group_ne_array {head name : List Char} {ns : List UInt32}
    (h : (group head trees).Proper) :
    (group head trees).chars ++ rest ≠ (array name ns).chars ++ more := by
  intro heq
  simp only [chars, List.append_assoc, List.cons_append, List.nil_append] at heq
  obtain ⟨harr, -⟩ := append_inj h.words.1 (by decide)
    (stops_blanked trees (stops_closeParen rest)).1 (breaks_cons (by decide)) (List.cons.inj heq).2
  exact h.words.2 harr

theorem array_inj {name name' : List Char} {ns ms : List UInt32} (h : (array name ns).Proper)
    (h' : (array name' ms).Proper)
    (heq : (array name ns).chars ++ rest = (array name' ms).chars ++ more) :
    array name ns = array name' ms ∧ rest = more := by
  have hwords : Solid name := h.words
  have hwords' : Solid name' := h'.words
  simp only [chars, List.append_assoc, List.cons_append, List.nil_append] at heq
  have hnames := (List.cons.inj (List.append_cancel_left (List.cons.inj heq).2)).2
  obtain ⟨rfl, hdimensions⟩ := append_inj hwords hwords'
    (breaks_sized ns (stops_closeParen rest)) (breaks_sized ms (stops_closeParen more)) hnames
  obtain ⟨rfl, hrest⟩ := sized_inj (stops_closeParen rest) (stops_closeParen more) hdimensions
  exact ⟨rfl, (List.cons.inj hrest).2⟩

/-- The brace that closes a block starts no tree. -/
theorem head?_text_ne {e : Expr} (h : Printable e) (rest : List Char) :
    (e.text.toList ++ rest).head? ≠ some '\x7d' := by
  intro hhead
  have hopener := opener_eq (proper_shape h) rest
  rw [← toList_text, hhead] at hopener
  cases hshape : shape e <;> simp [hshape, opener, delimiters] at hopener

theorem braces_inj (h : (braces trees).Proper) (h' : (braces others).Proper)
    (unique : ∀ a ∈ trees, Unique a)
    (heq : (braces trees).chars ++ rest = (braces others).chars ++ more) :
    braces trees = braces others ∧ rest = more := by
  have stops (trees : List Expr) (rest : List Char) : Stops (blanked trees ++ '\x7d' :: rest) :=
    stops_blanked trees (stops_cons (by decide) (by decide))
  match trees, others with
  | [], [] => exact ⟨rfl, (List.cons.inj (List.cons.inj heq).2).2⟩
  | [], first' :: trees' =>
      simp only [chars, List.append_assoc, List.cons_append, List.nil_append] at heq
      have hhead := congrArg List.head? (List.cons.inj heq).2
      exact absurd hhead.symm (head?_text_ne (h'.members first' List.mem_cons_self) _)
  | first :: trees, [] =>
      simp only [chars, List.append_assoc, List.cons_append, List.nil_append] at heq
      have hhead := congrArg List.head? (List.cons.inj heq).2
      exact absurd hhead (head?_text_ne (h.members first List.mem_cons_self) _)
  | first :: trees, first' :: trees' =>
      simp only [chars, List.append_assoc, List.cons_append, List.nil_append] at heq
      obtain ⟨rfl, htrees⟩ := unique first List.mem_cons_self
        (h'.members first' List.mem_cons_self) (stops trees rest) (stops trees' more)
        (List.cons.inj heq).2
      obtain ⟨rfl, hrest⟩ := blanked_inj (fun a ha => unique a (List.mem_cons_of_mem _ ha))
        (fun b hb => h'.members b (List.mem_cons_of_mem _ hb)) (.inr rfl) htrees
      exact ⟨rfl, hrest⟩

/-- **Shapes are told apart by their characters**, if their members are. -/
theorem chars_inj {s t : Shape} (h : s.Proper) (h' : t.Proper)
    (unique : ∀ a ∈ s.members, Unique a) (stops : Stops rest) (stops' : Stops more)
    (heq : s.chars ++ rest = t.chars ++ more) : s = t ∧ rest = more := by
  have hopener : s.opener = t.opener := by rw [← opener_eq h rest, heq, opener_eq h' more]
  cases s with
  | word letters indices =>
      cases t with
      | word letters' indices' => exact word_inj h h' unique stops stops' heq
      | _ => simp [opener] at hopener
  | group head members =>
      cases t with
      | group head' members' => exact group_inj h h' unique heq
      | array name dimensions => exact absurd heq (group_ne_array h)
      | _ => simp [opener] at hopener
  | array name dimensions =>
      cases t with
      | group head members => exact absurd heq.symm (group_ne_array h')
      | array name' dimensions' => exact array_inj h h' heq
      | _ => simp [opener] at hopener
  | braces statements =>
      cases t with
      | braces statements' => exact braces_inj h h' unique heq
      | _ => simp [opener] at hopener

/-- An item is shorter than a row in which it stands behind another character. -/
theorem length_lt_row {α : Type} (body : α → List Char) {mark : Char} {items : List α} {item : α}
    (h : item ∈ items) : (body item).length < (items.flatMap (mark :: body ·)).length := by
  obtain ⟨before, after, rfl⟩ := List.append_of_mem h
  simp only [List.flatMap_append, List.flatMap_cons, List.length_append, List.length_cons]
  omega

/-- **A member is printed shorter than the whole.** -/
theorem length_lt_chars {s : Shape} {e : Expr} (h : e ∈ s.members) :
    e.text.toList.length < s.chars.length := by
  have hblanked (trees : List Expr) (h : e ∈ trees) :
      e.text.toList.length < (blanked trees).length :=
    length_lt_row (fun tree : Expr => tree.text.toList) h
  cases s with
  | word letters indices =>
      have hindexed : (e.text.toList ++ [']']).length < (indexed indices).length :=
        length_lt_row (fun tree : Expr => tree.text.toList ++ [']']) h
      simp only [chars, List.length_append] at hindexed ⊢
      omega
  | group head members =>
      have hlength := hblanked members h
      simp only [chars, List.length_append, List.length_cons]
      omega
  | array name dimensions => exact absurd h List.not_mem_nil
  | braces statements =>
      cases statements with
      | nil => exact absurd h List.not_mem_nil
      | cons first rest =>
          simp only [chars, List.length_append, List.length_cons]
          obtain rfl | hmem := List.mem_cons.1 h
          · omega
          · have hlength := hblanked rest hmem
            omega

end Shape

/-- **A tree is told from every other one by its text, whatever follows it.** -/
theorem eq_of_text {a b : Expr} {rest more : List Char} (h : Printable a) (h' : Printable b)
    (stops : Stops rest) (stops' : Stops more)
    (heq : a.text.toList ++ rest = b.text.toList ++ more) : a = b ∧ rest = more := by
  -- the induction is on the length of the text, since a call holds its name as a variable
  have unique : ∀ e ∈ (shape a).members, Unique e := by
    intro e hmem _ _ _ printable hstops hstops' hequal
    have hshorter : e.text.toList.length < a.text.toList.length := by
      rw [toList_text a]
      exact Shape.length_lt_chars hmem
    exact eq_of_text ((proper_shape h).members e hmem) printable hstops hstops' hequal
  rw [toList_text, toList_text] at heq
  obtain ⟨hshape, hrest⟩ :=
    Shape.chars_inj (proper_shape h) (proper_shape h') unique stops stops' heq
  exact ⟨shape_inj h h' hshape, hrest⟩
termination_by a.text.toList.length

end Printing
end Fixity
