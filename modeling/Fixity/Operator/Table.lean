/-
  Fixity.Operator.Table
  ────────────────────────────────
  **THE TABLE OF BINARY OPERATORS.**

  A table gives spellings their precedences.  The last declaration of a spelling
  wins.  The entries are kept in strictly ascending order of spelling, so that two
  tables that say the same are equal.  An entry of precedence 0 stays in the
  table and is never reported as an operator.

  Main results: `declared?_declare_self` and `declared?_declare_of_ne` (a declaration
  changes its own spelling and no other).
-/
import Fixity.Operator

namespace Fixity.Operator

/-- A spelling and its precedence. -/
abbrev Entry := String × UInt32

/-- The entry of a spelling in a list of entries. -/
def entryIn? (spelling : String) : List Entry → Option UInt32
  | [] => none
  | entry :: rest => if entry.1 = spelling then some entry.2 else entryIn? spelling rest

/-- Puts an entry into a list in ascending order of spelling, in place of the entry
of the same spelling. -/
def putIn (new : Entry) : List Entry → List Entry
  | [] => [new]
  | entry :: rest =>
    if new.1 < entry.1 then new :: entry :: rest
    else if new.1 = entry.1 then new :: rest
    else entry :: putIn new rest

/-- Strictly ascending order of spelling. -/
def Ascending (entries : List Entry) : Prop := entries.Pairwise fun a b => a.1 < b.1

/-! ## §1. Strings in order. -/

theorem lt_of_not_lt_of_ne {a b : String} (hlt : ¬ a < b) (hne : a ≠ b) : b < a := by
  rcases String.le_total a b with h | h
  · exact absurd (String.le_antisymm h (String.not_lt.1 hlt)) hne
  · exact String.not_le.1 fun hab => hne (String.le_antisymm hab h)

theorem mem_putIn {new entry : Entry} {entries : List Entry} (h : entry ∈ putIn new entries) :
    entry = new ∨ entry ∈ entries := by
  induction entries with
  | nil => simpa [putIn] using h
  | cons first rest ih =>
    unfold putIn at h
    split at h
    · simpa using h
    · split at h
      · simp only [List.mem_cons] at h ⊢
        rcases h with h | h <;> simp [h]
      · simp only [List.mem_cons] at h ⊢
        rcases h with h | h
        · simp [h]
        · rcases ih h with h | h <;> simp [h]

theorem ascending_putIn (new : Entry) {entries : List Entry} (h : Ascending entries) :
    Ascending (putIn new entries) := by
  induction entries with
  | nil => simp [Ascending, putIn]
  | cons first rest ih =>
    obtain ⟨below, ascending⟩ := List.pairwise_cons.1 h
    unfold putIn
    split
    · next hlt =>
      refine List.pairwise_cons.2 ⟨fun entry hmem => ?_, h⟩
      rcases List.mem_cons.1 hmem with rfl | hmem
      · exact hlt
      · exact String.lt_trans hlt (below entry hmem)
    · split
      · next heq =>
        exact List.pairwise_cons.2 ⟨fun entry hmem => heq ▸ below entry hmem, ascending⟩
      · next hlt hne =>
        refine List.pairwise_cons.2 ⟨fun entry hmem => ?_, ih ascending⟩
        rcases mem_putIn hmem with rfl | hmem
        · exact lt_of_not_lt_of_ne hlt hne
        · exact below entry hmem

/-! ## §2. Tables. -/

/-- A table of binary operators. -/
structure Table where
  /-- Spellings and precedences. -/
  entries : List Entry
  /-- The spellings are in strictly ascending order. -/
  ascending : Ascending entries
deriving DecidableEq

namespace Table

/-- The table without operators. -/
def empty : Table := ⟨[], List.Pairwise.nil⟩

/-- Gives a spelling a precedence, in place of any that it had. -/
def declare (table : Table) (spelling : String) (precedence : UInt32) : Table :=
  ⟨putIn (spelling, precedence) table.entries, ascending_putIn _ table.ascending⟩

/-- Gives several spellings their precedences, in order. -/
def declareAll (table : Table) (entries : List Entry) : Table :=
  entries.foldl (fun table entry => table.declare entry.1 entry.2) table

/-- What a table says of a spelling. -/
def declared? (table : Table) (spelling : String) : Option UInt32 :=
  entryIn? spelling table.entries

/-- The precedence of a spelling that is an operator. -/
def lookup (table : Table) (spelling : String) : Option UInt32 :=
  (table.declared? spelling).filter (0 < ·)

/-- The number of spellings in the table. -/
def size (table : Table) : Nat := table.entries.length

/-- Whether the table says nothing. -/
def isEmpty (table : Table) : Bool := table.entries.isEmpty

/-- The order of a listing: the tighter first, and by spelling within a precedence. -/
def listedBefore (a b : Entry) : Bool := b.2 < a.2 || (a.2 == b.2 && a.1 ≤ b.1)

/-- Every entry, the tightest first. -/
def listing (table : Table) : List Entry := table.entries.mergeSort listedBefore

/-- The operators that every program starts with. -/
def standardEntries : List Entry :=
  [("**", 14), ("*", 13), ("/", 13), ("%", 13), ("+", 12), ("-", 12), ("<", 10), (">", 10),
   ("<=", 10), (">=", 10), ("==", 9), ("!=", 9), ("&&", 5), ("||", 4), ("=", 3)]

/-- The table that every program starts with. -/
def standard : Table := empty.declareAll standardEntries

/-! ## §3. The last declaration wins. -/

theorem entryIn?_putIn_self (spelling : String) (precedence : UInt32) (entries : List Entry) :
    entryIn? spelling (putIn (spelling, precedence) entries) = some precedence := by
  induction entries with
  | nil => simp [putIn, entryIn?]
  | cons first rest ih =>
    unfold putIn
    split
    · simp [entryIn?]
    · split
      · simp [entryIn?]
      · next hne => simp [entryIn?, Ne.symm hne, ih]

theorem entryIn?_putIn_of_ne {spelling other : String} (precedence : UInt32)
    (h : other ≠ spelling) (entries : List Entry) :
    entryIn? other (putIn (spelling, precedence) entries) = entryIn? other entries := by
  induction entries with
  | nil => simp [putIn, entryIn?, h.symm]
  | cons first rest ih =>
    unfold putIn
    split
    · simp [entryIn?, h.symm]
    · split
      · next heq => simp only [entryIn?] at heq ⊢; simp [← heq, h.symm]
      · simp [entryIn?, ih]

/-- A declaration is what the table says from then on. -/
theorem declared?_declare_self (table : Table) (spelling : String) (precedence : UInt32) :
    (table.declare spelling precedence).declared? spelling = some precedence :=
  entryIn?_putIn_self spelling precedence table.entries

/-- A declaration changes nothing about other spellings. -/
theorem declared?_declare_of_ne (table : Table) {spelling other : String} (precedence : UInt32)
    (h : other ≠ spelling) :
    (table.declare spelling precedence).declared? other = table.declared? other :=
  entryIn?_putIn_of_ne precedence h table.entries

end Table
end Fixity.Operator
