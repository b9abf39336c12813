/-
  Fixity.Proofs.Language.Rules
  ────────────────────────────────
  **THE GRAMMAR, AS RULES.**

  A rule relates the tokens from a place on, what stands at that place, and the
  tokens that are left after it.  Nothing here says in which order anything is
  tried:

      body       = expression | '{' (body ';'?)* '}'
      expression = operand (operator operand)*
      operand    = primary | operator-character operand
      primary    = number | '(' expression ')'
                 | name | name ('[' expression ']')+
                 | name '(' (expression (',' expression)*)? ')'
                 | 'arr' name ('[' number ']')+
                 | 'if' expression 'then' body ('else' body)?
                 | 'for' name '=' expression ',' expression (',' expression)? body
                 | 'while' expression body
                 | 'rept' '(' expression ')' body
      heading    = name params
                 | 'unary' operator-character params
                 | 'binary' operator number? params
      params     = '(' (slot (',' slot)*)? ')'
      forms      = (';' | 'func' heading body | body)*

  What is optional is there whenever its first token is: a repetition goes on as
  long as it can, and an `else`, an index or a call belongs to what stands right
  before it.  Such a condition on the next token is a premise of its rule.

  Two symbols of the operator alphabet are one operator when they TOUCH.  Touching
  is read off the places of the tokens; the character that a token remembers is
  not spoken of here.
-/
import Fixity.Grammar.Heading
import Fixity.Proofs.Language.Grouping
import Fixity.Proofs.Scanning.Cut

namespace Fixity

namespace Language

open Operator (isOperatorChar)

/-! ## §1. One token. -/

/-- The kind of the first token; the end if there is none. -/
def lead (tokens : List Token) : Kind := (tokens.head?.map Token.kind).getD .eof

/-- A token with a property, and what is left after it. -/
def Leads (property : Token → Prop) (input rest : List Token) : Prop :=
  ∃ token, property token ∧ input = token :: rest

/-- A token of a kind. -/
abbrev Mark (kind : Kind) (input rest : List Token) : Prop :=
  Leads (fun token => token.kind = kind) input rest

/-- An identifier. -/
abbrev Name (name : String) (input rest : List Token) : Prop :=
  Leads (fun token => token.kind = .identifier ∧ token.text = name) input rest

/-- A number. -/
abbrev Numeral (value : Number) (input rest : List Token) : Prop :=
  Leads (fun token => token.kind = .number ∧ Number.ofText? token.text = some value) input rest

/-- A number that is whole and lies between two bounds. -/
def Whole (low high : Nat) (n : UInt32) (input rest : List Token) : Prop :=
  ∃ value, Numeral value input rest ∧ value.natural? = some n.toNat
    ∧ low ≤ n.toNat ∧ n.toNat ≤ high

/-- A symbol that is one given character. -/
abbrev Sign (c : Char) (input rest : List Token) : Prop :=
  Leads (fun token => token.IsSymbol c) input rest

/-! ## §2. Operators. -/

/-- An operator: two symbols of the alphabet that touch, or any one symbol that does
not stand so. -/
inductive Spelled : List Token → String → List Token → Prop
  | pair {first second : Token} {rest : List Token} {c d : Char} :
      first.IsSymbol c → second.IsSymbol d → first.Touches second →
      isOperatorChar c = true → isOperatorChar d = true →
      Spelled (first :: second :: rest) (String.ofList [c, d]) rest
  | single {token : Token} {rest : List Token} {c : Char} :
      token.IsSymbol c →
      (∀ next d, rest.head? = some next → next.IsSymbol d → token.Touches next →
        isOperatorChar c = true → isOperatorChar d = false) →
      Spelled (token :: rest) (String.singleton c) rest

/-- No operator of the table stands next. -/
def Ends (table : Operator.Table) (rest : List Token) : Prop :=
  ∀ spelling after, Spelled rest spelling after → table.lookup spelling = none

/-! ## §3. Expressions. -/

/-- Dimensions, each in brackets. -/
inductive Dimensions : List Token → List UInt32 → List Token → Prop
  | nil {rest : List Token} : Dimensions rest [] rest
  | cons {input inner after next rest : List Token} {n : UInt32} {more : List UInt32} :
      Mark .openBracket input inner → Whole 1 4294967295 n inner after →
      Mark .closeBracket after next → Dimensions next more rest →
      Dimensions input (n :: more) rest

/-- What a piece of the tokens is, with the tree or the trees it stands for. -/
inductive Phrase where
  /-- An expression, or a block. -/
  | body (tree : Expr)
  /-- Operands with operators between them. -/
  | expression (tree : Expr)
  /-- A primary behind any number of operator characters. -/
  | operand (tree : Expr)
  /-- An operand that starts with no operator character. -/
  | primary (tree : Expr)
  /-- Operators, each with the operand after it. -/
  | links (links : List Link)
  /-- Expressions, each in brackets. -/
  | indices (trees : List Expr)
  /-- Expressions with commas between them, up to the closing parenthesis. -/
  | arguments (trees : List Expr)
  /-- The inside of a block, up to the closing brace. -/
  | statements (trees : List Expr)

/-- A phrase stands at the start of the tokens and leaves the rest. -/
inductive Derives (table : Operator.Table) : Phrase → List Token → List Token → Prop
  /- Bodies. -/
  | plain {e input rest} :
      Derives table (.expression e) input rest → Derives table (.body e) input rest
  | block {es input inner rest} :
      Mark .openBlock input inner → Derives table (.statements es) inner rest →
      Derives table (.body (.block es)) input rest
  | closed {input rest} :
      Mark .closeBlock input rest → Derives table (.statements []) input rest
  | statement {e es input after rest} :
      Derives table (.body e) input after → Derives table (.statements es) after rest →
      Derives table (.statements (e :: es)) input rest
  | separated {e es input after next rest} :
      Derives table (.body e) input after → Mark .semicolon after next →
      Derives table (.statements es) next rest →
      Derives table (.statements (e :: es)) input rest
  /- Chains. -/
  | chain {first links e input after rest} :
      Derives table (.operand first) input after → Derives table (.links links) after rest →
      Ends table rest → Grouped first links e → Derives table (.expression e) input rest
  | noLink {rest} : Derives table (.links []) rest rest
  | link {spelling precedence e links input next after rest} :
      Spelled input spelling next → table.lookup spelling = some precedence →
      Derives table (.operand e) next after → Derives table (.links links) after rest →
      Derives table (.links (⟨spelling, precedence, e⟩ :: links)) input rest
  | unsigned {e input rest} :
      Derives table (.primary e) input rest → Derives table (.operand e) input rest
  | signed {c e input next rest} :
      Sign c input next → isOperatorChar c = true → Derives table (.operand e) next rest →
      Derives table (.operand (.unary c e)) input rest
  /- Numbers, parentheses and names. -/
  | number {value input rest} :
      Numeral value input rest → Derives table (.primary (.number value)) input rest
  | paren {e input inner after rest} :
      Mark .openParen input inner → Derives table (.expression e) inner after →
      Mark .closeParen after rest → Derives table (.primary e) input rest
  | scalar {name input rest} :
      Name name input rest → lead rest ≠ .openBracket → lead rest ≠ .openParen →
      Derives table (.primary (.scalar name)) input rest
  | element {name e es input next rest} :
      Name name input next → Derives table (.indices (e :: es)) next rest →
      lead rest ≠ .openBracket → Derives table (.primary (.var name (e :: es))) input rest
  | noIndex {rest} : Derives table (.indices []) rest rest
  | index {e es input inner after next rest} :
      Mark .openBracket input inner → Derives table (.expression e) inner after →
      Mark .closeBracket after next → Derives table (.indices es) next rest →
      Derives table (.indices (e :: es)) input rest
  | emptyCall {name input next inner rest} :
      Name name input next → Mark .openParen next inner → Mark .closeParen inner rest →
      Derives table (.primary (.call name [])) input rest
  | call {name es input next inner rest} :
      Name name input next → Mark .openParen next inner →
      Derives table (.arguments es) inner rest → Derives table (.primary (.call name es)) input rest
  | lastArgument {e input after rest} :
      Derives table (.expression e) input after → Mark .closeParen after rest →
      Derives table (.arguments [e]) input rest
  | argument {e es input after next rest} :
      Derives table (.expression e) input after → Mark .comma after next →
      Derives table (.arguments es) next rest → Derives table (.arguments (e :: es)) input rest
  | array {name n ns input named next rest} :
      Mark .arrWord input named → Name name named next → Dimensions next (n :: ns) rest →
      lead rest ≠ .openBracket → Derives table (.primary (.array name (n :: ns))) input rest
  /- Choices and loops. -/
  | branch {c e input inner after next rest} :
      Mark .ifWord input inner → Derives table (.expression c) inner after →
      Mark .thenWord after next → Derives table (.body e) next rest → lead rest ≠ .elseWord →
      Derives table (.primary (.branch c e none)) input rest
  | branchElse {c e e' input inner after next other last rest} :
      Mark .ifWord input inner → Derives table (.expression c) inner after →
      Mark .thenWord after next → Derives table (.body e) next other →
      Mark .elseWord other last → Derives table (.body e') last rest →
      Derives table (.primary (.branch c e (some e'))) input rest
  | countLoop {name a b e input named sign inner after next last rest} :
      Mark .forWord input named → Name name named sign → Sign '=' sign inner →
      Derives table (.expression a) inner after → Mark .comma after next →
      Derives table (.expression b) next last → Derives table (.body e) last rest →
      Derives table (.primary (.countLoop name a b none e)) input rest
  | countLoopStep {name a b d e input named sign inner after next last step body rest} :
      Mark .forWord input named → Name name named sign → Sign '=' sign inner →
      Derives table (.expression a) inner after → Mark .comma after next →
      Derives table (.expression b) next last → Mark .comma last step →
      Derives table (.expression d) step body → Derives table (.body e) body rest →
      Derives table (.primary (.countLoop name a b (some d) e)) input rest
  | whileLoop {c e input inner after rest} :
      Mark .whileWord input inner → Derives table (.expression c) inner after →
      Derives table (.body e) after rest → Derives table (.primary (.whileLoop c e)) input rest
  | repeatLoop {c e input next inner after last rest} :
      Mark .reptWord input next → Mark .openParen next inner →
      Derives table (.expression c) inner after → Mark .closeParen after last →
      Derives table (.body e) last rest → Derives table (.primary (.repeatLoop c e)) input rest

/-! ## §4. Headings. -/

/-- The parameter that a slot gives: its text if it is an identifier. -/
def slotParam? (slot : Token) : Option String :=
  if slot.kind = .identifier then some slot.text else none

/-- The parameters that a slot gives, one or none. -/
def slotName (slot : Token) : List String := (slotParam? slot).toList

/-- Slots with commas between them, up to the closing parenthesis.  Any token but
the end fills a slot. -/
inductive Slots : List Token → List String → List Token → Prop
  | last {slot : Token} {input rest : List Token} :
      slot.kind ≠ .eof → Mark .closeParen input rest → Slots (slot :: input) (slotName slot) rest
  | more {slot : Token} {input next rest : List Token} {names : List String} :
      slot.kind ≠ .eof → Mark .comma input next → Slots next names rest →
      Slots (slot :: input) (slotName slot ++ names) rest

/-- A parameter list.  A parenthesis that closes at once leaves it empty. -/
inductive Params : List Token → List String → List Token → Prop
  | none {input inner rest : List Token} :
      Mark .openParen input inner → Mark .closeParen inner rest → Params input [] rest
  | some {input inner rest : List Token} {names : List String} :
      Mark .openParen input inner → lead inner ≠ .closeParen → Slots inner names rest →
      Params input names rest

/-- The precedence of an operator that is declared: a whole number from 1 to 18, or
the tightest if no number stands there. -/
inductive Precedence : List Token → UInt32 → List Token → Prop
  | default {rest : List Token} : Precedence rest Operator.tightest rest
  | given {n : UInt32} {input rest : List Token} :
      Whole 1 18 n input rest → Precedence input n rest

/-- The head of a definition.  A declared operator is in the table from there on. -/
inductive Heading (table : Operator.Table) :
    List Token → Prototype → Operator.Table → List Token → Prop
  | function {name params input next rest} :
      Name name input next → Params next params rest →
      Heading table input ⟨name, params, false, Operator.tightest⟩ table rest
  | unary {c param input sign next rest} :
      Mark .unaryWord input sign → Sign c sign next → isOperatorChar c = true →
      Params next [param] rest →
      Heading table input ⟨"unary" ++ String.singleton c, [param], true, Operator.tightest⟩
        table rest
  | binary {spelling precedence left right input sign after next rest} :
      Mark .binaryWord input sign → Spelled sign spelling after →
      Precedence after precedence next → Params next [left, right] rest →
      Heading table input ⟨"binary" ++ spelling, [left, right], true, precedence⟩
        (table.declare spelling precedence) rest

/-! ## §5. Programs. -/

/-- Forms one after the other, from one table to another. -/
inductive Forms : Operator.Table → List Token → List Form → Operator.Table → List Token → Prop
  | nil {table : Operator.Table} {rest : List Token} : Forms table rest [] table rest
  | skip {table last input next rest forms} :
      Mark .semicolon input next → Forms table next forms last rest →
      Forms table input forms last rest
  | definition {table inside last prototype e input next after rest' rest forms} :
      Mark .funcWord input next → Heading table next prototype inside after →
      Derives inside (.body e) after rest' → Forms inside rest' forms last rest →
      Forms table input (.definition ⟨prototype, e⟩ :: forms) last rest
  | expression {table last e input after rest forms} :
      Derives table (.body e) input after → Forms table after forms last rest →
      Forms table input (.expression ⟨Prototype.anonymous, e⟩ :: forms) last rest

/-- The tokens before the end are these forms, read from one table and leaving
another. -/
def Accepts (table : Operator.Table) (tokens : List Token) (forms : List Form)
    (last : Operator.Table) : Prop :=
  ∃ mark, mark.kind = Kind.eof ∧ Forms table tokens forms last [mark]

end Language
end Fixity
