/-
  Fixity.Proofs.Language.Written
  ────────────────────────────────
  **PROGRAMS WRITTEN OUT.**

  A program is written as words with one blank between any two.  Every operand,
  condition, index, argument and bound stands in parentheses, and so does every
  body that is no block.  A block is its statements in braces with semicolons
  between them, and so are the forms of a program:

      number         its text
      variable       name [ ( e ) ] ...
      call           name ( ( e ) , ... )
      unary          c ( e )
      binary         ( e ) op ( e )
      choice         if ( e ) then body else body
      counting loop  for name = ( e ) , ( e ) , ( e ) body
      other loops    while ( e ) body      rept ( e ) body
      array          arr name [ n ] ...
      function       func name ( p , ... ) body
      operators      func unary c ( p ) body      func binary op n ( p , q ) body

  Not every tree can be written so.  A tree FITS a table if its names are names, its
  numbers binary64 values without a sign and its operators ones that the table knows,
  and if a block stands only where a body does.  The forms of a program are looked at
  with the table that the definitions before them leave, their own included.

  Main results: `wordLists_eq`, `allFit_eq` (what is said of a list is said of each of
  its members) and `not_isBlock_of_fits` (an operand is no block).
-/
import Fixity.Proofs.Language.Declared
import Fixity.Proofs.Number.ReadBack

namespace Fixity

open Operator (isOperatorChar)

/-! ## §1. Words of expressions. -/

/-- Words in parentheses. -/
def parenthesised (words : List String) : List String := "(" :: words ++ [")"]

/-- The words of an index. -/
def subscript (words : List String) : List String := "[" :: parenthesised words ++ ["]"]

/-- Words in parentheses, in front of others. -/
theorem parenthesised_append (words more : List String) :
    parenthesised words ++ more = "(" :: (words ++ ")" :: more) := by
  simp [parenthesised]

/-- An index, in front of other words. -/
theorem subscript_append (words more : List String) :
    subscript words ++ more = "[" :: "(" :: (words ++ ")" :: "]" :: more) := by
  simp [subscript, parenthesised]

namespace Expr

/-- Whether it is a block. -/
def isBlock : Expr → Bool
  | block _ => true
  | _ => false

/-- A body: a block stands as it is, and anything else in parentheses. -/
def enclosed (body : Expr) (words : List String) : List String :=
  if body.isBlock then words else parenthesised words

mutual

/-- The words of an expression. -/
def words : Expr → List String
  | number value => [value.text]
  | var name indices => name :: (wordLists indices).flatMap subscript
  | call callee arguments =>
    callee :: parenthesised ([","].intercalate ((wordLists arguments).map parenthesised))
  | unary operator operand => String.singleton operator :: parenthesised (words operand)
  | binary operator left right =>
    parenthesised (words left) ++ operator :: parenthesised (words right)
  | branch condition consequent alternative =>
    "if" :: parenthesised (words condition) ++ "then" :: enclosed consequent (words consequent)
      ++ alternativeWords alternative
  | countLoop counter first last step body =>
    "for" :: counter :: "=" :: parenthesised (words first) ++ "," :: parenthesised (words last)
      ++ stepWords step ++ enclosed body (words body)
  | whileLoop condition body =>
    "while" :: parenthesised (words condition) ++ enclosed body (words body)
  | repeatLoop times body => "rept" :: parenthesised (words times) ++ enclosed body (words body)
  | array name dimensions =>
    "arr" :: name :: dimensions.flatMap fun dimension => ["[", toString dimension, "]"]
  | block statements => "\x7b" :: [";"].intercalate (wordLists statements) ++ ["\x7d"]
termination_by structural tree => tree

/-- The words of each member of a list. -/
def wordLists : List Expr → List (List String)
  | [] => []
  | tree :: rest => words tree :: wordLists rest
termination_by structural trees => trees

/-- The words of a second branch. -/
def alternativeWords : Option Expr → List String
  | none => []
  | some tree => "else" :: enclosed tree (words tree)
termination_by structural tree => tree

/-- The words of a step. -/
def stepWords : Option Expr → List String
  | none => []
  | some tree => "," :: parenthesised (words tree)
termination_by structural tree => tree

end

/-- The words of a list are those of its members. -/
theorem wordLists_eq (trees : List Expr) : wordLists trees = trees.map words := by
  induction trees with
  | nil => rfl
  | cons tree rest ih => rw [wordLists, ih, List.map_cons]

end Expr

/-! ## §2. Words of programs. -/

namespace Prototype

/-- The words of a parameter list. -/
def paramWords (params : List String) : List String :=
  parenthesised ([","].intercalate (params.map fun param => [param]))

/-- The words of a prototype. -/
def words (prototype : Prototype) : List String :=
  match prototype.operatorName? with
  | none => prototype.name :: paramWords prototype.params
  | some spelling =>
    if prototype.isBinary then
      binaryWord :: spelling :: toString prototype.precedence :: paramWords prototype.params
    else unaryWord :: spelling :: paramWords prototype.params

theorem words_function (name : String) (params : List String) (precedence : UInt32) :
    words ⟨name, params, false, precedence⟩ = name :: paramWords params := rfl

theorem words_unary (spelling param : String) (precedence : UInt32) :
    words ⟨unaryWord ++ spelling, [param], true, precedence⟩
      = unaryWord :: spelling :: paramWords [param] := by
  rw [words, operatorName?_unary]
  rfl

theorem words_binary (spelling left right : String) (precedence : UInt32) :
    words ⟨binaryWord ++ spelling, [left, right], true, precedence⟩
      = binaryWord :: spelling :: toString precedence :: paramWords [left, right] := by
  rw [words, operatorName?_binary]
  rfl

end Prototype

/-- The words of a form. -/
def Form.words : Form → List String
  | .definition function =>
    "func" :: function.prototype.words ++ function.body.enclosed function.body.words
  | .expression function => function.body.words

/-- A program written out. -/
def Program.written (forms : List Form) : String :=
  " ".intercalate ([";"].intercalate (forms.map Form.words))

/-! ## §3. What can be written. -/

/-- Whether a text is a name: a word that is not reserved. -/
def isName (text : String) : Bool :=
  match text.toList with
  | [] => false
  | c :: rest => isWordStart c && rest.all isWordPart && Kind.ofWord text == .identifier

/-- Whether a text can be an operator between two operands: one symbol, or two
operator characters that do not start a comment. -/
def isInfix (spelling : String) : Bool :=
  match spelling.toList with
  | [c] => isPunctuation c && !isWordStart c && Kind.ofPunctuation c == .symbol
  | [c, d] => isOperatorChar c && isOperatorChar d && !startsComment [c, d]
  | _ => false

/-- Whether a number is a finite binary64 value without a sign. -/
def Number.isPlain : Number → Bool
  | finite false units => isBinary64 units
  | _ => false

namespace Expr

/-- Where an expression stands. -/
inductive Standing where
  /-- As a part of another expression that is no body. -/
  | operand
  /-- As a form, a statement or a body: it may be a block. -/
  | body
deriving Repr, DecidableEq

variable (table : Operator.Table)

mutual

/-- Whether an expression can be written where it stands. -/
def fits : Expr → Standing → Bool
  | number value, _ => value.isPlain
  | var name indices, _ => isName name && allFit indices .operand
  | call callee arguments, _ => isName callee && allFit arguments .operand
  | unary operator operand, _ => isOperatorChar operator && fits operand .operand
  | binary operator left right, _ =>
    isInfix operator && (table.lookup operator).isSome && fits left .operand
      && fits right .operand
  | branch condition consequent alternative, _ =>
    fits condition .operand && fits consequent .body && optionFits alternative .body
  | countLoop counter first last step body, _ =>
    isName counter && fits first .operand && fits last .operand && optionFits step .operand
      && fits body .body
  | whileLoop condition body, _ => fits condition .operand && fits body .body
  | repeatLoop times body, _ => fits times .operand && fits body .body
  | array name dimensions, _ => isName name && !dimensions.isEmpty && dimensions.all (0 < ·)
  | block statements, standing => standing == .body && allFit statements .body
termination_by structural tree => tree

/-- Whether each member of a list can be written. -/
def allFit : List Expr → Standing → Bool
  | [], _ => true
  | tree :: rest, standing => fits tree standing && allFit rest standing
termination_by structural trees => trees

/-- Whether a part that may be missing can be written. -/
def optionFits : Option Expr → Standing → Bool
  | none, _ => true
  | some tree, standing => fits tree standing
termination_by structural tree => tree

end

/-- A list can be written if each of its members can. -/
theorem allFit_eq (trees : List Expr) (standing : Standing) :
    allFit table trees standing = trees.all (fits table · standing) := by
  induction trees with
  | nil => rfl
  | cons tree rest ih => rw [allFit, ih, List.all_cons]

/-- An operand is no block. -/
theorem not_isBlock_of_fits {e : Expr} (h : fits table e .operand = true) :
    e.isBlock = false := by
  cases e with
  | block statements => simp [fits] at h
  | _ => rfl

/-- Neither is any of several operands. -/
theorem not_isBlock_of_allFit {trees : List Expr} (h : allFit table trees .operand = true) :
    ∀ e ∈ trees, e.isBlock = false := by
  rw [allFit_eq, List.all_eq_true] at h
  intro e hmem
  exact not_isBlock_of_fits table (h e hmem)

end Expr

/-- A prototype that can be written. -/
inductive Prototype.Fits : Prototype → Prop
  /-- A function with any number of parameters. -/
  | function {name : String} {params : List String} :
      isName name = true → (∀ param ∈ params, isName param = true) →
      Fits ⟨name, params, false, Operator.tightest⟩
  /-- An operator with one operand. -/
  | unary {c : Char} {param : String} :
      isOperatorChar c = true → isName param = true →
      Fits ⟨Prototype.unaryWord ++ String.singleton c, [param], true, Operator.tightest⟩
  /-- An operator with two operands. -/
  | binary {spelling left right : String} {precedence : UInt32} :
      isInfix spelling = true → isName left = true → isName right = true →
      Operator.isValidPrecedence precedence = true →
      Fits ⟨Prototype.binaryWord ++ spelling, [left, right], true, precedence⟩

/-- The forms of a program that can be written, from a table on. -/
inductive Program.Fits : Operator.Table → List Form → Prop
  /-- No form. -/
  | nil {table : Operator.Table} : Fits table []
  /-- A definition, whose own operator is known from its body on. -/
  | definition {table : Operator.Table} {prototype : Prototype} {e : Expr} {forms : List Form} :
      prototype.Fits → e.fits (table.declareAll prototype.entries) .body = true →
      Fits (table.declareAll prototype.entries) forms →
      Fits table (.definition ⟨prototype, e⟩ :: forms)
  /-- An expression. -/
  | expression {table : Operator.Table} {e : Expr} {forms : List Form} :
      e.fits table .body = true → Fits table forms →
      Fits table (.expression ⟨Prototype.anonymous, e⟩ :: forms)

/-- What the forms of a program put into a table, in order. -/
def Program.entries (forms : List Form) : List Operator.Entry :=
  forms.flatMap fun form => form.function.prototype.entries

end Fixity
