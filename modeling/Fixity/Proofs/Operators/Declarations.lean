/-
  Fixity.Proofs.Operators.Declarations
  ────────────────────────────────
  **MANY DECLARATIONS, ONE AFTER THE OTHER.**

  A table is known by what it says of each spelling, since its entries are in order.
  After many declarations it says of a spelling what the last one of that spelling
  did, and what it said before if there was none.  So declaring the same once more,
  or declaring the beginning of a row of declarations before the row, makes no
  difference.

  Main results: `eq_of_declared?` (tables that say the same are equal),
  `declared?_declareAll`, `declareAll_again`, and `exists_mem_declareAll` (no entry is lost).
-/
import Fixity.Operator.Table

namespace Fixity.Operator

/-! ## §1. Tables that say the same. -/

/-- A spelling below all others is not in the list. -/
theorem entryIn?_of_below {spelling : String} {entries : List Entry}
    (h : ∀ entry ∈ entries, spelling < entry.1) : entryIn? spelling entries = none := by
  induction entries with
  | nil => rfl
  | cons first rest ih =>
      have hne : first.1 ≠ spelling := fun heq =>
        String.lt_irrefl spelling (heq ▸ h first List.mem_cons_self)
      rw [entryIn?, if_neg hne]
      exact ih fun entry hmem => h entry (List.mem_cons_of_mem _ hmem)

/-- Two lists in order that say the same start with the same spelling. -/
theorem not_lt_of_entryIn? {first second : Entry} {rest others : List Entry}
    (h : Ascending (second :: others))
    (same : entryIn? first.1 (first :: rest) = entryIn? first.1 (second :: others)) :
    ¬ first.1 < second.1 := by
  intro hlt
  have hnone : entryIn? first.1 (second :: others) = none := by
    apply entryIn?_of_below
    intro entry hmem
    obtain rfl | hmem := List.mem_cons.1 hmem
    · exact hlt
    · exact String.lt_trans hlt ((List.pairwise_cons.1 h).1 entry hmem)
  rw [hnone, entryIn?, if_pos rfl] at same
  cases same

/-- Lists in order that say the same of every spelling are equal. -/
theorem eq_of_entryIn? {entries others : List Entry} (h : Ascending entries)
    (h' : Ascending others)
    (same : ∀ spelling, entryIn? spelling entries = entryIn? spelling others) :
    entries = others := by
  induction entries generalizing others with
  | nil =>
      cases others with
      | nil => rfl
      | cons second others =>
          have hsame := same second.1
          rw [entryIn?, entryIn?, if_pos rfl] at hsame
          cases hsame
  | cons first rest ih =>
      cases others with
      | nil =>
          have hsame := same first.1
          rw [entryIn?, entryIn?, if_pos rfl] at hsame
          cases hsame
      | cons second others =>
          have hnot := not_lt_of_entryIn? h' (same first.1)
          have hnot' := not_lt_of_entryIn? h (same second.1).symm
          -- the smallest spelling of each list is in the other one too, so it is the same
          have hkey : first.1 = second.1 := by
            by_cases heq : first.1 = second.1
            · exact heq
            · exact absurd (lt_of_not_lt_of_ne hnot heq) hnot'
          have hvalue : first.2 = second.2 := by
            have hsame := same first.1
            rw [entryIn?, if_pos rfl, entryIn?, if_pos hkey.symm] at hsame
            exact Option.some.inj hsame
          obtain ⟨habove, hrest⟩ := List.pairwise_cons.1 h
          obtain ⟨habove', hothers⟩ := List.pairwise_cons.1 h'
          have htail : rest = others := by
            refine ih hrest hothers fun spelling => ?_
            by_cases heq : first.1 = spelling
            · subst heq
              rw [entryIn?_of_below habove, entryIn?_of_below (hkey ▸ habove')]
            · have hsame := same spelling
              rwa [entryIn?, if_neg heq, entryIn?, if_neg (hkey ▸ heq)] at hsame
          rw [show first = second from Prod.ext hkey hvalue, htail]

namespace Table

/-- Tables that say the same of every spelling are equal. -/
theorem eq_of_declared? {table other : Table}
    (same : ∀ spelling, table.declared? spelling = other.declared? spelling) : table = other := by
  obtain ⟨entries, ascending⟩ := table
  obtain ⟨others, ascending'⟩ := other
  have hentries : entries = others := eq_of_entryIn? ascending ascending' same
  subst hentries
  rfl

/-! ## §2. The last of many. -/

/-- What a row of declarations says of a spelling: what the last one of it does. -/
def lastOf (spelling : String) : List Entry → Option UInt32
  | [] => none
  | entry :: rest => (lastOf spelling rest).or (if entry.1 = spelling then some entry.2 else none)

theorem lastOf_append (spelling : String) (entries others : List Entry) :
    lastOf spelling (entries ++ others) = (lastOf spelling others).or (lastOf spelling entries) := by
  induction entries with
  | nil => simp [lastOf]
  | cons entry rest ih => rw [List.cons_append, lastOf, lastOf, ih, Option.or_assoc]

/-- Two rows of declarations are one. -/
theorem declareAll_append (table : Table) (entries others : List Entry) :
    table.declareAll (entries ++ others) = (table.declareAll entries).declareAll others :=
  List.foldl_append

/-- After many declarations the last one of a spelling counts. -/
theorem declared?_declareAll (table : Table) (entries : List Entry) (spelling : String) :
    (table.declareAll entries).declared? spelling
      = (lastOf spelling entries).or (table.declared? spelling) := by
  induction entries generalizing table with
  | nil => rfl
  | cons entry rest ih =>
      show ((table.declare entry.1 entry.2).declareAll rest).declared? spelling = _
      rw [ih, lastOf, Option.or_assoc]
      by_cases heq : entry.1 = spelling
      · rw [if_pos heq, ← heq, declared?_declare_self]
        rfl
      · rw [if_neg heq, declared?_declare_of_ne table entry.2 (Ne.symm heq)]
        rfl

/-- Declaring the beginning of a row before the row makes no difference. -/
theorem declareAll_again (table : Table) (entries others : List Entry) :
    (table.declareAll entries).declareAll (entries ++ others)
      = table.declareAll (entries ++ others) := by
  apply eq_of_declared?
  intro spelling
  rw [declared?_declareAll, declared?_declareAll, declared?_declareAll, lastOf_append,
    Option.or_assoc]
  -- the beginning counts only where the rest does not say the spelling, and then it counts twice
  cases lastOf spelling others with
  | some precedence => rfl
  | none =>
      cases lastOf spelling entries with
      | some precedence => rfl
      | none => rfl

/-- To declare the same twice is to declare it once. -/
theorem declare_declare (table : Table) (spelling : String) (precedence : UInt32) :
    (table.declare spelling precedence).declare spelling precedence
      = table.declare spelling precedence :=
  declareAll_again table [(spelling, precedence)] []

theorem lastOf_eq_none_iff {spelling : String} {entries : List Entry} :
    lastOf spelling entries = none ↔ ∀ entry ∈ entries, entry.1 ≠ spelling := by
  induction entries with
  | nil => simp [lastOf]
  | cons entry rest ih =>
      rw [lastOf, Option.or_eq_none_iff, ih, List.forall_mem_cons]
      by_cases heq : entry.1 = spelling
      · simp [heq]
      · simp [heq]

/-- The last declaration of a spelling is one of them. -/
theorem mem_of_lastOf {spelling : String} {precedence : UInt32} {entries : List Entry}
    (h : lastOf spelling entries = some precedence) : (spelling, precedence) ∈ entries := by
  induction entries with
  | nil => exact absurd h nofun
  | cons entry rest ih =>
      rw [lastOf, Option.or_eq_some_iff] at h
      obtain hrest | ⟨-, hfirst⟩ := h
      · exact List.mem_cons_of_mem _ (ih hrest)
      · split at hfirst
        · next heq =>
          obtain rfl := Option.some.inj hfirst
          rw [← heq]
          exact List.mem_cons_self
        · exact absurd hfirst nofun

/-- A row of declarations leaves a table as it is just when the table says them already. -/
theorem declareAll_eq_self_iff {table : Table} {entries : List Entry} :
    table.declareAll entries = table
      ↔ ∀ spelling precedence, lastOf spelling entries = some precedence →
          table.declared? spelling = some precedence := by
  constructor
  · intro h spelling precedence hlast
    rw [← h, declared?_declareAll, hlast]
    rfl
  · intro said
    apply eq_of_declared?
    intro spelling
    rw [declared?_declareAll]
    cases hlast : lastOf spelling entries with
    | none => rfl
    | some precedence => exact (said spelling precedence hlast).symm

/-- An initial part of a row, declared after the row, leaves the table as it is just when
it ends with the same precedence as the row for each of its spellings. -/
theorem declareAll_prefix_eq_self_iff {table : Table} {entries again : List Entry}
    (h : again <+: entries) :
    (table.declareAll entries).declareAll again = table.declareAll entries
      ↔ ∀ spelling precedence, lastOf spelling again = some precedence →
          lastOf spelling entries = some precedence := by
  rw [declareAll_eq_self_iff]
  refine forall_congr' fun spelling => forall_congr' fun precedence => imp_congr_right fun hlast => ?_
  -- the spelling is in the row, so the row says it and not the table before
  obtain ⟨more, rfl⟩ := h
  rw [declared?_declareAll, lastOf_append, hlast]
  cases lastOf spelling more <;> simp

/-! ## §3. The entries after many declarations. -/

/-- A spelling that has an entry keeps one. -/
theorem exists_mem_putIn {entry : Entry} {entries : List Entry} (new : Entry)
    (h : entry ∈ entries) : ∃ precedence, (entry.1, precedence) ∈ putIn new entries := by
  induction entries with
  | nil => exact absurd h nofun
  | cons first rest ih =>
      unfold putIn
      split
      · exact ⟨entry.2, List.mem_cons_of_mem _ h⟩
      · split
        · next heq =>
          obtain rfl | hrest := List.mem_cons.1 h
          · exact ⟨new.2, heq ▸ List.mem_cons_self⟩
          · exact ⟨entry.2, List.mem_cons_of_mem _ hrest⟩
        · obtain rfl | hrest := List.mem_cons.1 h
          · exact ⟨entry.2, List.mem_cons_self⟩
          · obtain ⟨precedence, hmem⟩ := ih hrest
            exact ⟨precedence, List.mem_cons_of_mem _ hmem⟩

/-- An entry was there before or is one of the declarations. -/
theorem mem_declareAll {table : Table} {entry : Entry} {entries : List Entry}
    (h : entry ∈ (table.declareAll entries).entries) : entry ∈ entries ∨ entry ∈ table.entries := by
  induction entries generalizing table with
  | nil => exact .inr h
  | cons first rest ih =>
      obtain hrest | hfirst := @ih (table.declare first.1 first.2) h
      · exact .inl (List.mem_cons_of_mem _ hrest)
      · obtain rfl | hbefore := mem_putIn hfirst
        · exact .inl List.mem_cons_self
        · exact .inr hbefore

/-- No declarations take an entry out; they may give it another precedence. -/
theorem exists_mem_declareAll {table : Table} {entry : Entry} (entries : List Entry)
    (h : entry ∈ table.entries) :
    ∃ precedence, (entry.1, precedence) ∈ (table.declareAll entries).entries := by
  induction entries generalizing table entry with
  | nil => exact ⟨entry.2, h⟩
  | cons first rest ih =>
      obtain ⟨precedence, hmem⟩ := exists_mem_putIn first h
      exact @ih (table.declare first.1 first.2) (entry.1, precedence) hmem

end Table
end Fixity.Operator
