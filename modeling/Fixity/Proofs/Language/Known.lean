/-
  Fixity.Proofs.Language.Known
  ────────────────────────────────
  **HOW FAR A TEXT IS READ DEPENDS ONLY ON WHICH OPERATORS ARE KNOWN.**

  A precedence decides how the operands of a chain are grouped, and nothing else: where
  the chain ends is decided by whether the next operator is one that the table knows.  So
  with two tables that know the same operators the same tokens make a form, whatever the
  two trees are, and both tables come out of it with the same declarations.

  Main results: `Derives.rederives` (the same tokens are a phrase of the same sort),
  `Item.transfer` (the same tokens are a form) and `UnfinishedForms.transfer` (the same
  tokens end inside a block).
-/
import Fixity.Proofs.Language.Declared
import Fixity.Proofs.Language.Written

namespace Fixity.Language

open Grammar

variable {table other : Operator.Table} {input rest : List Token}

/-! ## §1. Tables that know the same. -/

/-- Two tables that know the same operators, perhaps with different precedences. -/
def SameOperators (table other : Operator.Table) : Prop :=
  ∀ spelling, (table.lookup spelling).isSome = (other.lookup spelling).isSome

/-- What is declared with precedences above zero is known. -/
theorem isSome_lookup_declareAll {entries : List Operator.Entry}
    (pos : ∀ entry ∈ entries, 0 < entry.2) {entry : Operator.Entry} (h : entry ∈ entries) :
    ((table.declareAll entries).lookup entry.1).isSome := by
  unfold Operator.Table.lookup
  rw [Operator.Table.declared?_declareAll]
  cases hlast : Operator.Table.lastOf entry.1 entries with
  | none => exact absurd rfl (Operator.Table.lastOf_eq_none_iff.1 hlast _ h)
  | some precedence =>
      have hpos : 0 < precedence := pos _ (Operator.Table.mem_of_lastOf hlast)
      simp [Option.filter, hpos]

namespace SameOperators

theorem symm (same : SameOperators table other) : SameOperators other table :=
  fun spelling => (same spelling).symm

theorem lookup_eq_none (same : SameOperators table other) {spelling : String}
    (h : table.lookup spelling = none) : other.lookup spelling = none := by
  have hsome := same spelling
  rw [h] at hsome
  exact Option.isNone_iff_eq_none.1 (Option.isSome_eq_false_iff.1 hsome.symm)

theorem exists_lookup (same : SameOperators table other) {spelling : String} {precedence : UInt32}
    (h : table.lookup spelling = some precedence) :
    ∃ precedence', other.lookup spelling = some precedence' := by
  have hsome := same spelling
  rw [h] at hsome
  exact Option.isSome_iff_exists.1 hsome.symm

/-- No operator stands next according to the one table if none does according to the other. -/
theorem ends (same : SameOperators table other) (h : Ends table rest) : Ends other rest :=
  fun spelling after hspelled => same.lookup_eq_none (h spelling after hspelled)

/-- The same declarations keep two tables knowing the same. -/
theorem declareAll (same : SameOperators table other) (entries : List Operator.Entry) :
    SameOperators (table.declareAll entries) (other.declareAll entries) := by
  intro spelling
  have hsame := same spelling
  unfold Operator.Table.lookup at hsame ⊢
  rw [Operator.Table.declared?_declareAll, Operator.Table.declared?_declareAll]
  cases Operator.Table.lastOf spelling entries with
  | none => exact hsame
  | some precedence => rfl

/-- Operators that a table knows can be declared again, with any precedence above zero. -/
theorem of_known {entries : List Operator.Entry}
    (known : ∀ entry ∈ entries, (table.lookup entry.1).isSome)
    (pos : ∀ entry ∈ entries, 0 < entry.2) : SameOperators table (table.declareAll entries) := by
  intro spelling
  cases hlast : Operator.Table.lastOf spelling entries with
  | none =>
      unfold Operator.Table.lookup
      rw [Operator.Table.declared?_declareAll, hlast]
      rfl
  | some precedence =>
      have hmem := Operator.Table.mem_of_lastOf hlast
      rw [known _ hmem, isSome_lookup_declareAll pos hmem]

end SameOperators

/-! ## §2. Phrases. -/

/-- A phrase of the same sort as the given one stands at the start of the tokens; a list of
indices is empty if the given one is. -/
def Rederives (table : Operator.Table) : Phrase → List Token → List Token → Prop
  | .body _, input, rest => ∃ e, Derives table (.body e) input rest
  | .expression _, input, rest => ∃ e, Derives table (.expression e) input rest
  | .operand _, input, rest => ∃ e, Derives table (.operand e) input rest
  | .primary _, input, rest => ∃ e, Derives table (.primary e) input rest
  | .links _, input, rest => ∃ links, Derives table (.links links) input rest
  | .indices es, input, rest => ∃ es', es'.isEmpty = es.isEmpty
      ∧ Derives table (.indices es') input rest
  | .arguments _, input, rest => ∃ es, Derives table (.arguments es) input rest
  | .statements _, input, rest => ∃ es, Derives table (.statements es) input rest

/-- The same tokens are a phrase of the same sort for every table that knows the same
operators. -/
theorem Derives.rederives (same : SameOperators table other) {phrase : Phrase}
    (h : Derives table phrase input rest) : Rederives other phrase input rest := by
  induction h with
  | plain _ ih =>
      obtain ⟨e, he⟩ := ih
      exact ⟨e, .plain he⟩
  | block hopen _ ih =>
      obtain ⟨es, hes⟩ := ih
      exact ⟨_, .block hopen hes⟩
  | closed hclose => exact ⟨[], .closed hclose⟩
  | statement _ _ ih ih' =>
      obtain ⟨e, he⟩ := ih
      obtain ⟨es, hes⟩ := ih'
      exact ⟨_, .statement he hes⟩
  | separated _ hmark _ ih ih' =>
      obtain ⟨e, he⟩ := ih
      obtain ⟨es, hes⟩ := ih'
      exact ⟨_, .separated he hmark hes⟩
  -- the operators are the same, and whatever their precedences are they make some tree
  | chain _ _ hends _ ih ih' =>
      obtain ⟨first, hfirst⟩ := ih
      obtain ⟨links, hlinks⟩ := ih'
      obtain ⟨tree, htree⟩ := Grouped.exists_tree first links
      exact ⟨tree, .chain hfirst hlinks (same.ends hends) htree⟩
  | noLink => exact ⟨[], .noLink⟩
  | link hspelled hlookup _ _ ih ih' =>
      obtain ⟨precedence, hprecedence⟩ := same.exists_lookup hlookup
      obtain ⟨e, he⟩ := ih
      obtain ⟨links, hlinks⟩ := ih'
      exact ⟨_, .link hspelled hprecedence he hlinks⟩
  | unsigned _ ih =>
      obtain ⟨e, he⟩ := ih
      exact ⟨e, .unsigned he⟩
  | signed hsign hc _ ih =>
      obtain ⟨e, he⟩ := ih
      exact ⟨_, .signed hsign hc he⟩
  | number hnumeral => exact ⟨_, .number hnumeral⟩
  | paren hopen _ hclose ih =>
      obtain ⟨e, he⟩ := ih
      exact ⟨e, .paren hopen he hclose⟩
  | scalar hname hbracket hparen => exact ⟨_, .scalar hname hbracket hparen⟩
  | element hname _ hbracket ih =>
      obtain ⟨es, hempty, hes⟩ := ih
      cases es with
      | nil => exact absurd hempty nofun
      | cons e es => exact ⟨_, .element hname hes hbracket⟩
  | noIndex => exact ⟨[], rfl, .noIndex⟩
  | index hopen _ hclose _ ih ih' =>
      obtain ⟨e, he⟩ := ih
      obtain ⟨es, -, hes⟩ := ih'
      exact ⟨e :: es, rfl, .index hopen he hclose hes⟩
  | emptyCall hname hopen hclose => exact ⟨_, .emptyCall hname hopen hclose⟩
  | call hname hopen _ ih =>
      obtain ⟨es, hes⟩ := ih
      exact ⟨_, .call hname hopen hes⟩
  | lastArgument _ hclose ih =>
      obtain ⟨e, he⟩ := ih
      exact ⟨_, .lastArgument he hclose⟩
  | argument _ hcomma _ ih ih' =>
      obtain ⟨e, he⟩ := ih
      obtain ⟨es, hes⟩ := ih'
      exact ⟨_, .argument he hcomma hes⟩
  | array hword hname hdimensions hbracket => exact ⟨_, .array hword hname hdimensions hbracket⟩
  | branch hword _ hthen _ helse ih ih' =>
      obtain ⟨c, hc⟩ := ih
      obtain ⟨e, he⟩ := ih'
      exact ⟨_, .branch hword hc hthen he helse⟩
  | branchElse hword _ hthen _ helse _ ih ih' ih'' =>
      obtain ⟨c, hc⟩ := ih
      obtain ⟨e, he⟩ := ih'
      obtain ⟨e', he'⟩ := ih''
      exact ⟨_, .branchElse hword hc hthen he helse he'⟩
  | countLoop hword hname hsign _ hcomma _ _ ih ih' ih'' =>
      obtain ⟨a, ha⟩ := ih
      obtain ⟨b, hb⟩ := ih'
      obtain ⟨e, he⟩ := ih''
      exact ⟨_, .countLoop hword hname hsign ha hcomma hb he⟩
  | countLoopStep hword hname hsign _ hcomma _ hcomma' _ _ ih ih' ih'' ihbody =>
      obtain ⟨a, ha⟩ := ih
      obtain ⟨b, hb⟩ := ih'
      obtain ⟨d, hd⟩ := ih''
      obtain ⟨e, he⟩ := ihbody
      exact ⟨_, .countLoopStep hword hname hsign ha hcomma hb hcomma' hd he⟩
  | whileLoop hword _ _ ih ih' =>
      obtain ⟨c, hc⟩ := ih
      obtain ⟨e, he⟩ := ih'
      exact ⟨_, .whileLoop hword hc he⟩
  | repeatLoop hword hopen _ hclose _ ih ih' =>
      obtain ⟨c, hc⟩ := ih
      obtain ⟨e, he⟩ := ih'
      exact ⟨_, .repeatLoop hword hopen hc hclose he⟩

/-! ## §3. Forms. -/

/-- The head of a definition reads the same whatever the table. -/
theorem Heading.transfer {prototype : Prototype} {last : Operator.Table}
    (h : Heading table input prototype last rest) (other : Operator.Table) :
    Heading other input prototype (other.declareAll prototype.entries) rest := by
  cases h with
  | function hname hparams => exact .function hname hparams
  | unary hword hsign hc hparams => exact .unary hword hsign hc hparams
  | binary hword hspelled hprecedence hparams =>
      rw [show "binary" = Prototype.binaryWord from rfl, Prototype.entries_binary]
      exact .binary hword hspelled hprecedence hparams

/-- The same tokens are a form for every table that knows the same operators, and it
declares the same. -/
theorem Item.transfer (same : SameOperators table other) (cut : Cut input) {found : Option Form}
    {last : Operator.Table} (h : Item table input found last rest) :
    ∃ found' last', Item other input found' last' rest ∧ SameOperators last last'
      ∧ found'.isSome = found.isSome := by
  cases h with
  | finished hlead => exact ⟨none, other, .finished hlead, same, rfl⟩
  | @definition _ prototype _ _ _ _ _ hword hheading hbody =>
      have cut' := hword.cut cut (by simp)
      have hlast := (hheading.declares cut').1
      subst hlast
      have same' := same.declareAll prototype.entries
      obtain ⟨e, he⟩ := hbody.rederives same'
      exact ⟨_, _, .definition hword (hheading.transfer other) he, same', rfl⟩
  | expression hbody =>
      obtain ⟨e, he⟩ := hbody.rederives same
      exact ⟨_, _, .expression he, same, rfl⟩

/-- The same tokens are forms for every table that knows the same operators. -/
theorem Forms.transfer {forms : List Form} {last : Operator.Table}
    (h : Forms table input forms last rest) :
    ∀ {other : Operator.Table}, SameOperators table other → Cut input →
      ∃ forms' last', Forms other input forms' last' rest := by
  induction h with
  | nil => exact fun _ _ => ⟨_, _, .nil⟩
  | skip hmark _ ih =>
      intro other same cut
      obtain ⟨forms', last', hforms⟩ := ih same (hmark.cut cut (by simp))
      exact ⟨forms', last', .skip hmark hforms⟩
  | @definition table inside last prototype e input next after _ _ forms hword hheading hbody _ ih =>
      intro other same cut
      have cut' := hword.cut cut (by simp)
      have hinside := (hheading.declares cut').1
      subst hinside
      have same' := same.declareAll prototype.entries
      obtain ⟨e', he⟩ := hbody.rederives same'
      obtain ⟨forms', last', hforms⟩ := ih same' (hbody.cut (hheading.cut cut'))
      exact ⟨_, _, .definition hword (hheading.transfer other) he hforms⟩
  | expression hbody _ ih =>
      intro other same cut
      obtain ⟨e', he⟩ := hbody.rederives same
      obtain ⟨forms', last', hforms⟩ := ih same (hbody.cut cut)
      exact ⟨_, _, .expression he hforms⟩

/-! ## §4. Forms of which the last is not finished. -/

/-- The same tokens are the beginning of a phrase for every table that knows the same
operators. -/
theorem Unfinished.transfer (same : SameOperators table other) {region : Region}
    (h : Unfinished table region input) : Unfinished other region input := by
  induction h with
  | plain _ ih => exact .plain ih
  | block hopen _ ih => exact .block hopen ih
  | ends hend => exact .ends hend
  | statement _ ih => exact .statement ih
  | laterStatement hbody _ ih =>
      obtain ⟨e, he⟩ := hbody.rederives same
      exact .laterStatement he ih
  | separated hbody hmark _ ih =>
      obtain ⟨e, he⟩ := hbody.rederives same
      exact .separated he hmark ih
  | first _ ih => exact .first ih
  | chain hoperand _ ih =>
      obtain ⟨e, he⟩ := hoperand.rederives same
      exact .chain he ih
  -- an operator may have another precedence, but it is one for both tables
  | right hspelled hlookup _ ih =>
      obtain ⟨precedence, hprecedence⟩ := same.exists_lookup hlookup
      exact .right hspelled hprecedence ih
  | laterLink hspelled hlookup hoperand _ ih =>
      obtain ⟨precedence, hprecedence⟩ := same.exists_lookup hlookup
      obtain ⟨e, he⟩ := hoperand.rederives same
      exact .laterLink hspelled hprecedence he ih
  | unsigned _ ih => exact .unsigned ih
  | signed hsign hc _ ih => exact .signed hsign hc ih
  | paren hopen _ ih => exact .paren hopen ih
  | element hname _ ih => exact .element hname ih
  | index hopen _ ih => exact .index hopen ih
  | laterIndex hopen hindex hclose _ ih =>
      obtain ⟨e, he⟩ := hindex.rederives same
      exact .laterIndex hopen he hclose ih
  | call hname hopen _ ih => exact .call hname hopen ih
  | argument _ ih => exact .argument ih
  | laterArgument hargument hcomma _ ih =>
      obtain ⟨e, he⟩ := hargument.rederives same
      exact .laterArgument he hcomma ih
  | condition hword _ ih => exact .condition hword ih
  | consequent hword hc hthen _ ih =>
      obtain ⟨c, hc⟩ := hc.rederives same
      exact .consequent hword hc hthen ih
  | alternative hword hc hthen he helse _ ih =>
      obtain ⟨c, hc⟩ := hc.rederives same
      obtain ⟨e, he⟩ := he.rederives same
      exact .alternative hword hc hthen he helse ih
  | countFirst hword hname hsign _ ih => exact .countFirst hword hname hsign ih
  | countLast hword hname hsign ha hcomma _ ih =>
      obtain ⟨a, ha⟩ := ha.rederives same
      exact .countLast hword hname hsign ha hcomma ih
  | countStep hword hname hsign ha hcomma hb hcomma' _ ih =>
      obtain ⟨a, ha⟩ := ha.rederives same
      obtain ⟨b, hb⟩ := hb.rederives same
      exact .countStep hword hname hsign ha hcomma hb hcomma' ih
  | countBody hword hname hsign ha hcomma hb _ ih =>
      obtain ⟨a, ha⟩ := ha.rederives same
      obtain ⟨b, hb⟩ := hb.rederives same
      exact .countBody hword hname hsign ha hcomma hb ih
  | countStepBody hword hname hsign ha hcomma hb hcomma' hd _ ih =>
      obtain ⟨a, ha⟩ := ha.rederives same
      obtain ⟨b, hb⟩ := hb.rederives same
      obtain ⟨d, hd⟩ := hd.rederives same
      exact .countStepBody hword hname hsign ha hcomma hb hcomma' hd ih
  | whileCondition hword _ ih => exact .whileCondition hword ih
  | whileBody hword hc _ ih =>
      obtain ⟨c, hc⟩ := hc.rederives same
      exact .whileBody hword hc ih
  | times hword hopen _ ih => exact .times hword hopen ih
  | repeatBody hword hopen hc hclose _ ih =>
      obtain ⟨c, hc⟩ := hc.rederives same
      exact .repeatBody hword hopen hc hclose ih

/-- Forms of which the last is not finished are so for every table that knows the same
operators, and declare the same. -/
theorem UnfinishedForms.transfer {entries : List Operator.Entry}
    (h : UnfinishedForms table input entries) :
    ∀ {other : Operator.Table}, SameOperators table other → Cut input →
      UnfinishedForms other input entries := by
  induction h with
  | skip hmark _ ih => exact fun same cut => .skip hmark (ih same (hmark.cut cut (by simp)))
  | @definition table inside prototype e input next after _ _ hword hheading hbody _ ih =>
      intro other same cut
      have cut' := hword.cut cut (by simp)
      have hinside := (hheading.declares cut').1
      subst hinside
      have same' := same.declareAll prototype.entries
      obtain ⟨e', he⟩ := hbody.rederives same'
      exact .definition hword (hheading.transfer other) he
        (ih same' (hbody.cut (hheading.cut cut')))
  | expression hbody _ ih =>
      intro other same cut
      obtain ⟨e', he⟩ := hbody.rederives same
      exact .expression he (ih same (hbody.cut cut))
  | @lastDefinition table inside prototype input next after hword hheading hbody =>
      intro other same cut
      have hinside := (hheading.declares (hword.cut cut (by simp))).1
      subst hinside
      exact .lastDefinition hword (hheading.transfer other)
        (hbody.transfer (same.declareAll prototype.entries))
  | lastExpression hbody => exact fun same _ => .lastExpression (hbody.transfer same)

/-- An operator is declared with a precedence above zero. -/
theorem Heading.pos {prototype : Prototype} {last : Operator.Table}
    (h : Heading table input prototype last rest) : ∀ entry ∈ prototype.entries, 0 < entry.2 := by
  cases h with
  | function hname hparams => exact nofun
  | unary hword hsign hc hparams =>
      rw [Prototype.entries_unary]
      exact nofun
  | binary hword hspelled hprecedence hparams =>
      rw [show "binary" = Prototype.binaryWord from rfl, Prototype.entries_binary]
      intro entry hmem
      rw [List.mem_singleton.1 hmem]
      cases hprecedence with
      | default => exact (show 0 < Operator.tightest by decide)
      | given hwhole =>
          obtain ⟨_, -, -, hlow, -⟩ := hwhole
          exact UInt32.lt_iff_toNat_lt.2 hlow

theorem UnfinishedForms.pos {entries : List Operator.Entry}
    (h : UnfinishedForms table input entries) : ∀ entry ∈ entries, 0 < entry.2 := by
  induction h with
  | skip _ _ ih | expression _ _ ih => exact ih
  | definition _ hheading _ _ ih =>
      intro entry hmem
      exact (List.mem_append.1 hmem).elim (hheading.pos entry) (ih entry)
  | lastDefinition _ hheading _ => exact hheading.pos
  | lastExpression => exact nofun

end Fixity.Language
