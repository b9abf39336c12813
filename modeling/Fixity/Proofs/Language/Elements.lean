/-
  Fixity.Proofs.Language.Elements
  ────────────────────────────────
  **HOW MANY ELEMENTS A DECLARED ARRAY HAS.**

  The dimensions of an array are multiplied one after the other in a word of sixty four
  bits.  A dimension of a declaration that was read is never zero, so a product that leaves
  the word on the way does not come back: there is a count exactly if the whole product is
  a word, and then it is that product.

  Two dimensions always have one, since each of them is a word of thirty two bits.  Three
  need not, and nothing limits how many a program writes:

      arr a[4294967295][4294967295][4294967295]

  Main results: `foldlM_timesWord?` (multiplying step by step), `count_of_declaration` (the
  declarations of a program) and `exists_declaration_without_count`.
-/
import Mathlib.Algebra.BigOperators.Group.List.Basic
import Fixity.Proofs.Language.Proper
import Fixity.Proofs.Language.RoundTrip

namespace Fixity

namespace Expr

/-! ## §1. The product of the dimensions. -/

/-- A word of sixty four bits times a dimension, if the product is a word again. -/
def timesWord? (total : UInt64) (dimension : UInt32) : Option UInt64 :=
  if total.toNat * dimension.toNat < UInt64.size then
    some (UInt64.ofNat (total.toNat * dimension.toNat))
  else none

theorem elementTotal_cons (dimension : UInt32) (dimensions : List UInt32) :
    elementTotal (dimension :: dimensions) = dimension.toNat * elementTotal dimensions := rfl

/-- The number of elements is the product of the dimensions. -/
theorem elementTotal_eq_prod (dimensions : List UInt32) :
    elementTotal dimensions = (dimensions.map UInt32.toNat).prod := by
  induction dimensions with
  | nil => rfl
  | cons dimension dimensions ih => rw [elementTotal_cons, ih, List.map_cons, List.prod_cons]

/-- An array without a dimension of zero has an element. -/
theorem elementTotal_pos {dimensions : List UInt32}
    (hpos : ∀ dimension ∈ dimensions, 0 < dimension) : 0 < elementTotal dimensions := by
  induction dimensions with
  | nil => exact Nat.one_pos
  | cons dimension dimensions ih =>
      rw [List.forall_mem_cons] at hpos
      exact Nat.mul_pos (UInt32.lt_iff_toNat_lt.1 hpos.1) (ih hpos.2)

/-! ## §2. Words. -/

/-- **Multiplying step by step** gives the product if that is a word, and leaves the word
otherwise: no later dimension brings a product back. -/
theorem foldlM_timesWord? {dimensions : List UInt32}
    (hpos : ∀ dimension ∈ dimensions, 0 < dimension) :
    ∀ start : UInt64, dimensions.foldlM timesWord? start
      = if start.toNat * elementTotal dimensions < UInt64.size then
          some (UInt64.ofNat (start.toNat * elementTotal dimensions))
        else none := by
  induction dimensions with
  | nil =>
      intro start
      have hstart : start.toNat * elementTotal [] = start.toNat := Nat.mul_one _
      rw [hstart, if_pos start.toNat_lt_size, UInt64.ofNat_toNat]
      rfl
  | cons dimension dimensions ih =>
      intro start
      rw [List.forall_mem_cons] at hpos
      have hmore := elementTotal_pos hpos.2
      rw [List.foldlM_cons, elementTotal_cons, ← Nat.mul_assoc]
      by_cases hfits : start.toNat * dimension.toNat < UInt64.size
      · have hstep : timesWord? start dimension
            = some (UInt64.ofNat (start.toNat * dimension.toNat)) := if_pos hfits
        have hvalue : (UInt64.ofNat (start.toNat * dimension.toNat)).toNat
            = start.toNat * dimension.toNat := UInt64.toNat_ofNat_of_lt' hfits
        rw [hstep]
        show dimensions.foldlM timesWord? _ = _
        rw [ih hpos.2, hvalue]
      · have hstep : timesWord? start dimension = none := if_neg hfits
        have hover : ¬ start.toNat * dimension.toNat * elementTotal dimensions < UInt64.size := by
          have hle := Nat.le_mul_of_pos_right (start.toNat * dimension.toNat) hmore
          omega
        rw [hstep, if_neg hover]
        rfl

theorem elementCount?_eq (dimensions : List UInt32) :
    elementCount? dimensions
      = if elementTotal dimensions < UInt64.size then
          some (UInt64.ofNat (elementTotal dimensions))
        else none := rfl

/-- A count is the number of elements. -/
theorem toNat_of_elementCount? {dimensions : List UInt32} {count : UInt64}
    (h : elementCount? dimensions = some count) : count.toNat = elementTotal dimensions := by
  rw [elementCount?_eq] at h
  split at h
  · next hfits =>
      rw [← Option.some.inj h]
      exact UInt64.toNat_ofNat_of_lt' hfits
  · exact absurd h nofun

theorem elementCount?_eq_none_iff {dimensions : List UInt32} :
    elementCount? dimensions = none ↔ UInt64.size ≤ elementTotal dimensions := by
  rw [elementCount?_eq]
  by_cases hfits : elementTotal dimensions < UInt64.size
  · rw [if_pos hfits]
    exact iff_of_false (Option.some_ne_none _) (Nat.not_le.2 hfits)
  · rw [if_neg hfits]
    exact iff_of_true rfl (Nat.not_lt.1 hfits)

/-! ## §3. Short and long declarations. -/

/-- **Two dimensions have a count**, and so has one. -/
theorem exists_count_of_length_le {dimensions : List UInt32} (h : dimensions.length ≤ 2) :
    elementCount? dimensions ≠ none := by
  rw [Ne, elementCount?_eq_none_iff, Nat.not_le]
  have hsize : UInt64.size = UInt32.size * UInt32.size := by decide
  rcases dimensions with _ | ⟨first, _ | ⟨second, _ | ⟨third, rest⟩⟩⟩
  · decide
  · show first.toNat * 1 < UInt64.size
    rw [Nat.mul_one]
    exact Nat.lt_of_lt_of_le first.toNat_lt_size (by decide)
  · show first.toNat * (second.toNat * 1) < UInt64.size
    rw [Nat.mul_one, hsize]
    exact Nat.mul_lt_mul'' first.toNat_lt_size second.toNat_lt_size
  · simp only [List.length_cons] at h
    omega

/-- The largest dimension. -/
def largestDimension : UInt32 := 4294967295

/-- The largest dimension three times or more has no count. -/
theorem elementCount?_largest {count : Nat} (h : 3 ≤ count) :
    elementCount? (List.replicate count largestDimension) = none := by
  rw [elementCount?_eq_none_iff]
  obtain ⟨more, rfl⟩ := Nat.exists_eq_add_of_le' h
  have hmore : 0 < elementTotal (List.replicate more largestDimension) := by
    refine elementTotal_pos fun dimension hmem => ?_
    rw [(List.mem_replicate.1 hmem).2]
    decide
  calc UInt64.size
    _ ≤ largestDimension.toNat * largestDimension.toNat * largestDimension.toNat := by decide
    _ ≤ largestDimension.toNat * largestDimension.toNat * largestDimension.toNat
          * elementTotal (List.replicate more largestDimension) := Nat.le_mul_of_pos_right _ hmore
    _ = elementTotal (List.replicate (more + 3) largestDimension) := by
      rw [Nat.mul_assoc, Nat.mul_assoc]
      rfl

end Expr

namespace Language

open Fixity.Expr

variable {file source : String} {table : Operator.Table}

/-- A declaration with any dimensions but zero can be written, and is read from its text. -/
theorem ofSource_declaration {name : String} {dimensions : List UInt32} (file : String)
    (table : Operator.Table) (hname : isName name = true) (hne : dimensions ≠ [])
    (hpos : ∀ dimension ∈ dimensions, 0 < dimension) :
    Program.ofSource file (Program.written [.expression ⟨.anonymous, .array name dimensions⟩]) table
      = ⟨.ok [.expression ⟨.anonymous, .array name dimensions⟩], table⟩ := by
  have hfits : Program.Fits table [.expression ⟨.anonymous, .array name dimensions⟩] := by
    refine .expression ?_ .nil
    simpa [Expr.fits, hname, hne] using hpos
  obtain ⟨tokens, htokens, hlaid, cut⟩ := tokenize_words file (cuttable_formWords hfits)
  rw [Program.written, ofSource_of_tokenize htokens]
  exact (ofTokens_ok_iff cut).2 (accepts_of_fits hfits hlaid)

/-- For every number of dimensions from three on there is a text that is read as a declaration
with so many of them, whose product is no word. -/
theorem exists_declaration_without_count (file : String) (table : Operator.Table) {name : String}
    (hname : isName name = true) {count : Nat} (hcount : 3 ≤ count) :
    ∃ source dimensions, dimensions.length = count
      ∧ Program.ofSource file source table
          = ⟨.ok [.expression ⟨.anonymous, .array name dimensions⟩], table⟩
      ∧ elementCount? dimensions = none := by
  have hpos : ∀ dimension ∈ List.replicate count largestDimension, 0 < dimension := by
    intro dimension hmem
    rw [(List.mem_replicate.1 hmem).2]
    decide
  have hne : List.replicate count largestDimension ≠ [] := by
    intro hnil
    rw [List.replicate_eq_nil_iff] at hnil
    omega
  exact ⟨_, _, List.length_replicate, ofSource_declaration file table hname hne hpos,
    elementCount?_largest hcount⟩

/-- **The declarations of a program.**  Multiplying the dimensions of an array that a program
declares, anywhere in it, gives a count exactly if their product is a word of sixty four bits,
and that product; one dimension or two always have a count. -/
theorem count_of_declaration {forms : List Form} {form : Form} {name : String}
    {dimensions : List UInt32} {place : Standing}
    (h : (Program.ofSource file source table).result = .ok forms) (hform : form ∈ forms)
    (hnode : Occurs form.function.body .body (.array name dimensions) place) :
    elementCount? dimensions = dimensions.foldlM timesWord? 1
    ∧ (∀ count, elementCount? dimensions = some count →
        count.toNat = (dimensions.map UInt32.toNat).prod)
    ∧ (elementCount? dimensions = none ↔ UInt64.size ≤ (dimensions.map UInt32.toNat).prod)
    ∧ (dimensions.length ≤ 2 → elementCount? dimensions ≠ none) := by
  obtain ⟨before, after, rfl⟩ := List.append_of_mem hform
  have hwell := wellFormed_of_ofSource h before form after rfl
  have hbody : ∃ known, form.function.body.WellFormed known .body := by
    cases form with
    | definition function => exact ⟨_, hwell.2⟩
    | expression function => exact ⟨_, hwell.2⟩
  obtain ⟨known, hbody⟩ := hbody
  obtain ⟨-, -, hpos⟩ := hbody _ _ hnode
  refine ⟨?_, fun count hcount => ?_, ?_, exists_count_of_length_le⟩
  · have hone : (1 : UInt64).toNat * elementTotal dimensions = elementTotal dimensions :=
      Nat.one_mul _
    rw [foldlM_timesWord? hpos, hone]
    rfl
  · rw [toNat_of_elementCount? hcount, elementTotal_eq_prod]
  · rw [elementCount?_eq_none_iff, elementTotal_eq_prod]

/-- Three of the largest dimension: the product has ninety six bits. -/
theorem three_largest_dimensions :
    (Program.ofSource "sel" "arr a[4294967295][4294967295][4294967295]" .standard).result
      = .ok [.expression ⟨.anonymous, .array "a" [4294967295, 4294967295, 4294967295]⟩]
    ∧ ([4294967295, 4294967295, 4294967295].map UInt32.toNat).prod = 79228162458924105385300197375
    ∧ elementCount? [4294967295, 4294967295, 4294967295] = none := by
  have hread : (Program.ofSource "sel" "arr a[4294967295][4294967295][4294967295]" .standard).result
      = .ok [.expression ⟨.anonymous, .array "a" [4294967295, 4294967295, 4294967295]⟩] := by
    decide +kernel
  have hproduct : ([4294967295, 4294967295, 4294967295].map UInt32.toNat).prod
      = 79228162458924105385300197375 := by decide
  obtain ⟨-, -, hnone, -⟩ := count_of_declaration hread List.mem_cons_self .root
  exact ⟨hread, hproduct, hnone.2 (by rw [hproduct]; decide)⟩

end Language
end Fixity
