/-
  Fixity.Proofs.Operators.Listing
  ────────────────────────────────
  **THE LISTING OF A TABLE.**

  A listing has every spelling of a table once, those of precedence 0 among them:

      **  14        *  13        ~  0
      %   13        +  12

  The tighter stand first, and as tight ones in the order of their bytes.  That leaves one
  listing for what a table says of its spellings, however the table keeps them and in
  whatever order they were declared.

  Main results: `Lists.unique` (there is one listing), `lists_mergeSort` (sorting finds it
  from any arrangement) and `last_declaration_wins`.
-/
import Mathlib.Data.Finset.Card
import Fixity.Proofs.Operators.Declarations
import Fixity.Proofs.Text.Encoding

namespace Fixity.Operator

variable {spelling : String} {precedence : UInt32} {entry next : Entry} {entries : List Entry}

/-! ## §1. The entries of a table. -/

/-- The spellings of some entries. -/
def spellings (entries : List Entry) : List String := entries.map Prod.fst

/-- No spelling stands twice in a list in ascending order. -/
theorem nodup_spellings (h : Ascending entries) : (spellings entries).Nodup := by
  unfold spellings List.Nodup
  rw [List.pairwise_map]
  refine h.imp fun {first second} hlt heq => ?_
  rw [heq] at hlt
  exact String.lt_irrefl _ hlt

/-- An entry of a list in ascending order is what the list says of its spelling. -/
theorem mem_iff_entryIn? (h : Ascending entries) :
    (spelling, precedence) ∈ entries ↔ entryIn? spelling entries = some precedence := by
  induction entries with
  | nil => simp [entryIn?]
  | cons first rest ih =>
      obtain ⟨name, value⟩ := first
      obtain ⟨below, ascending⟩ := List.pairwise_cons.1 h
      rw [List.mem_cons, Prod.mk.injEq, entryIn?]
      by_cases heq : name = spelling
      · -- the entries behind have larger spellings
        have hrest : (spelling, precedence) ∉ rest := by
          intro hmem
          have hlt : name < spelling := below _ hmem
          rw [heq] at hlt
          exact String.lt_irrefl _ hlt
        rw [if_pos heq, Option.some.injEq]
        constructor
        · rintro (⟨-, hvalue⟩ | hmem)
          · exact hvalue.symm
          · exact absurd hmem hrest
        · intro hvalue
          exact .inl ⟨heq.symm, hvalue.symm⟩
      · rw [if_neg heq, ← ih ascending]
        constructor
        · rintro (⟨hname, -⟩ | hmem)
          · exact absurd hname.symm heq
          · exact hmem
        · exact .inr

namespace Table

theorem mem_entries_iff (table : Table) :
    (spelling, precedence) ∈ table.entries ↔ table.declared? spelling = some precedence :=
  mem_iff_entryIn? table.ascending

/-- The spellings of a table are those that it says something of. -/
theorem mem_spellings_iff (table : Table) :
    spelling ∈ spellings table.entries ↔ (table.declared? spelling).isSome := by
  rw [Option.isSome_iff_exists]
  simp [spellings, mem_entries_iff]

/-- What counts for a spelling after some declarations: the last of them that is of it, or
else what the table said before. -/
def lastSaid (table : Table) (entries : List Entry) (spelling : String) : Option UInt32 :=
  (lastOf spelling entries).or (table.declared? spelling)

/-- After some declarations a table has the spellings of before and those declared. -/
theorem mem_spellings_declareAll (table : Table) (entries : List Entry) :
    spelling ∈ spellings (table.declareAll entries).entries
      ↔ spelling ∈ spellings (table.entries ++ entries) := by
  have hlast : (lastOf spelling entries).isSome ↔ spelling ∈ spellings entries := by
    rw [← not_iff_not, Option.not_isSome_iff_eq_none, lastOf_eq_none_iff]
    simp only [spellings, List.mem_map, not_exists, not_and, ne_eq]
  rw [mem_spellings_iff, declared?_declareAll, Option.isSome_or, Bool.or_eq_true, hlast,
    ← mem_spellings_iff, or_comm]
  simp [spellings]

/-- A table is as large as there are spellings that were ever in it. -/
theorem size_declareAll (table : Table) (entries : List Entry) :
    (table.declareAll entries).size = (spellings (table.entries ++ entries)).toFinset.card := by
  have hspellings : (spellings (table.entries ++ entries)).toFinset
      = (spellings (table.declareAll entries).entries).toFinset := by
    ext spelling
    rw [List.mem_toFinset, List.mem_toFinset, mem_spellings_declareAll]
  rw [hspellings, List.toFinset_card_of_nodup (nodup_spellings (table.declareAll entries).ascending)]
  simp [size, spellings]

/-! ## §2. The order of a listing. -/

/-- Whether an entry stands before another one: it is tighter, or as tight and smaller by
the bytes of its spelling. -/
def Earlier (entry next : Entry) : Prop :=
  next.2 < entry.2 ∨ entry.2 = next.2 ∧ Text.bytes entry.1.toList < Text.bytes next.1.toList

/-- Of two entries one at most stands before the other. -/
theorem Earlier.asymm (h : Earlier entry next) : ¬ Earlier next entry := by
  rintro (hlt | ⟨heq, hbytes⟩)
  · rcases h with hgt | ⟨heq, -⟩
    · exact UInt32.lt_asymm hlt hgt
    · exact UInt32.lt_irrefl _ (heq ▸ hlt)
  · rcases h with hgt | ⟨-, hbytes'⟩
    · exact UInt32.lt_irrefl _ (heq ▸ hgt)
    · exact List.lt_asymm hbytes hbytes'

theorem listedBefore_iff :
    listedBefore entry next = true ↔ next.2 < entry.2 ∨ entry.2 = next.2 ∧ entry.1 ≤ next.1 := by
  simp [listedBefore]

theorem listedBefore_trans (entry next last : Entry) (h : listedBefore entry next = true)
    (h' : listedBefore next last = true) : listedBefore entry last = true := by
  rw [listedBefore_iff] at h h' ⊢
  rcases h with hlt | ⟨heq, hle⟩
  · rcases h' with hlt' | ⟨heq', -⟩
    · exact .inl (UInt32.lt_trans hlt' hlt)
    · exact .inl (heq' ▸ hlt)
  · rcases h' with hlt' | ⟨heq', hle'⟩
    · exact .inl (heq ▸ hlt')
    · exact .inr ⟨heq.trans heq', String.le_trans hle hle'⟩

theorem listedBefore_total (entry next : Entry) :
    (listedBefore entry next || listedBefore next entry) = true := by
  rw [Bool.or_eq_true, listedBefore_iff, listedBefore_iff]
  by_cases heq : entry.2 = next.2
  · rcases String.le_total entry.1 next.1 with hle | hle
    · exact .inl (.inr ⟨heq, hle⟩)
    · exact .inr (.inr ⟨heq.symm, hle⟩)
  · rcases UInt32.lt_or_lt_of_ne heq with hlt | hlt
    · exact .inr (.inl hlt)
    · exact .inl (.inl hlt)

/-- Entries of different spellings are listed in the order of their bytes. -/
theorem earlier_of_listedBefore (h : listedBefore entry next = true) (hne : entry.1 ≠ next.1) :
    Earlier entry next := by
  rcases listedBefore_iff.1 h with hlt | ⟨heq, hle⟩
  · exact .inl hlt
  · have hlt : entry.1 < next.1 := lt_of_not_lt_of_ne (String.not_lt.2 hle) (Ne.symm hne)
    exact .inr ⟨heq, Text.bytes_lt_bytes_iff.2 hlt⟩

/-! ## §3. The one listing. -/

/-- A listing of what is said of spellings. -/
structure Lists (said : String → Option UInt32) (listing : List Entry) : Prop where
  /-- It has the spellings that something is said of, with that, and no others. -/
  mem_iff : ∀ spelling precedence,
    (spelling, precedence) ∈ listing ↔ said spelling = some precedence
  /-- It has no spelling twice. -/
  once : (spellings listing).Nodup
  /-- Every entry stands before those that come later. -/
  ordered : listing.Pairwise Earlier

variable {said : String → Option UInt32} {listing other arranged : List Entry} {table : Table}

/-- There is one listing at most. -/
theorem Lists.unique (h : Lists said listing) (h' : Lists said other) : listing = other := by
  have hperm : listing.Perm other := by
    rw [List.perm_ext_iff_of_nodup (List.Nodup.of_map Prod.fst h.once)
      (List.Nodup.of_map Prod.fst h'.once)]
    rintro ⟨spelling, precedence⟩
    rw [h.mem_iff, h'.mem_iff]
  exact List.Perm.eq_of_pairwise
    (fun _ _ _ _ hearlier hlater => absurd hlater hearlier.asymm) h.ordered h'.ordered hperm

/-- The entries of a table are sorted into a listing from whatever arrangement. -/
theorem lists_mergeSort (h : arranged.Perm table.entries) :
    Lists table.declared? (arranged.mergeSort listedBefore) := by
  have hperm : (arranged.mergeSort listedBefore).Perm table.entries :=
    (List.mergeSort_perm arranged listedBefore).trans h
  have honce : (spellings (arranged.mergeSort listedBefore)).Nodup :=
    (hperm.map Prod.fst).nodup_iff.2 (nodup_spellings table.ascending)
  refine ⟨fun spelling precedence => ?_, honce, ?_⟩
  · rw [hperm.mem_iff, mem_entries_iff]
  · have hsorted : (arranged.mergeSort listedBefore).Pairwise fun a b => listedBefore a b = true :=
      List.pairwise_mergeSort listedBefore_trans listedBefore_total arranged
    have hdifferent : (arranged.mergeSort listedBefore).Pairwise fun a b => a.1 ≠ b.1 :=
      List.pairwise_map.1 honce
    exact (hsorted.and hdifferent).imp fun hboth => earlier_of_listedBefore hboth.1 hboth.2

theorem lists_listing (table : Table) : Lists table.declared? table.listing :=
  lists_mergeSort (List.Perm.refl table.entries)

/-- A listing of what a table says is the listing of the table. -/
theorem lists_iff : Lists table.declared? listing ↔ listing = table.listing := by
  constructor
  · intro h
    exact h.unique (lists_listing table)
  · rintro rfl
    exact lists_listing table

/-! ## §4. After many declarations. -/

/-- After any declarations, whatever the table before them, the empty and the standard one
among others: a spelling is looked up as its last declaration has it, or the table before if
there is none, unless that is 0; there are as many entries as spellings that ever were; the
listing is the one that has what was said last, from whatever arrangement of the entries it
is sorted; and other declarations that say the same last give the same table and the same
listing. -/
theorem last_declaration_wins (table : Table) (entries : List Entry) :
    (∀ spelling, (table.declareAll entries).lookup spelling
        = (table.lastSaid entries spelling).filter (0 < ·))
      ∧ (table.declareAll entries).size = (spellings (table.entries ++ entries)).toFinset.card
      ∧ (∀ listing, Lists (table.lastSaid entries) listing
          ↔ listing = (table.declareAll entries).listing)
      ∧ (∀ arranged, List.Perm arranged (table.declareAll entries).entries →
          arranged.mergeSort listedBefore = (table.declareAll entries).listing)
      ∧ ∀ others, (∀ spelling, table.lastSaid others spelling = table.lastSaid entries spelling) →
          table.declareAll others = table.declareAll entries
            ∧ (table.declareAll others).listing = (table.declareAll entries).listing := by
  have hsaid (entries : List Entry) : (table.declareAll entries).declared? = table.lastSaid entries :=
    funext fun spelling => declared?_declareAll table entries spelling
  refine ⟨fun spelling => ?_, size_declareAll table entries, fun listing => ?_, fun arranged h => ?_,
    fun others same => ?_⟩
  · rw [lookup, hsaid]
  · rw [← hsaid]
    exact lists_iff
  · exact lists_iff.1 (lists_mergeSort h)
  · have hequal : table.declareAll others = table.declareAll entries := by
      apply eq_of_declared?
      intro spelling
      rw [hsaid, hsaid]
      exact same spelling
    exact ⟨hequal, congrArg listing hequal⟩

/-- The operators of the standard table after the sum has become looser than an assignment and
the tilde was declared with 0. -/
def looseSum : List Entry :=
  [("**", 14), ("%", 13), ("*", 13), ("/", 13), ("-", 12), ("<", 10), ("<=", 10), (">", 10),
   (">=", 10), ("!=", 9), ("==", 9), ("&&", 5), ("||", 4), ("=", 3), ("+", 2), ("~", 0)]

/-- Three declarations say the same last as two of them in another order do. -/
theorem declared_in_another_order :
    (∀ spelling, standard.lastSaid [("~", 0), ("+", 2)] spelling
        = standard.lastSaid [("+", 16), ("~", 0), ("+", 2)] spelling)
      ∧ standard.declareAll [("~", 0), ("+", 2)]
        = standard.declareAll [("+", 16), ("~", 0), ("+", 2)]
      ∧ looseSum.Perm (standard.declareAll [("+", 16), ("~", 0), ("+", 2)]).entries
      ∧ (standard.declareAll [("~", 0), ("+", 2)]).listing = looseSum
      ∧ (standard.declareAll [("+", 16), ("~", 0), ("+", 2)]).lookup "~" = none := by
  obtain ⟨hlookup, -, -, harranged, hothers⟩ :=
    last_declaration_wins standard [("+", 16), ("~", 0), ("+", 2)]
  have same : ∀ spelling, standard.lastSaid [("~", 0), ("+", 2)] spelling
      = standard.lastSaid [("+", 16), ("~", 0), ("+", 2)] spelling := by
    intro spelling
    by_cases hplus : "+" = spelling
    · simp [lastSaid, lastOf, hplus]
    · simp [lastSaid, lastOf, hplus]
  obtain ⟨htable, hlisting⟩ := hothers _ same
  have hperm : looseSum.Perm (standard.declareAll [("+", 16), ("~", 0), ("+", 2)]).entries := by
    decide +kernel
  have hsorted : looseSum.Pairwise fun a b => listedBefore a b = true := by decide +kernel
  refine ⟨same, htable, hperm, ?_, ?_⟩
  · rw [hlisting, ← harranged looseSum hperm]
    exact List.mergeSort_of_pairwise hsorted
  · rw [hlookup]
    decide +kernel

end Table
end Fixity.Operator
