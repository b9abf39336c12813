/-
  Fixity.Proofs.Reporting.Caret
  ────────────────────────────────
  **WHERE THE CARET STANDS.**

  The last two lines of a report are the source line, without its indentation, and a caret.
  The caret's column is the number of BYTES before the place; what stands above it takes one
  column for each character:

      1 | a + )           1 | a·+ )      the dot is a blank of two bytes
        | ----^             | -----^     the caret is one column too far

  On the line of an error nothing stands before the place but ASCII and blanks: any other
  character would lie in a comment, and a comment runs up to the end of its line.  So blanks
  are all that can move the caret away from its character.

  Main results: `visited_of_ofSource` (an error stands where the scan came to), `exists_drawn`
  (what a report draws) and `caret_column`.
-/
import Fixity.Report
import Fixity.Proofs.Language.Offending
import Fixity.Proofs.Reporting.LineAt
import Fixity.Proofs.Scanning.Stray

namespace Fixity

open Text (byteLength isBlank trimEnd trimEnd_append_cons mem_of_mem_trimEnd lineAt OnLine)

/-! ## §1. Bytes and columns. -/

/-- A text has as many bytes as characters exactly if each takes one. -/
theorem byteLength_eq_length_iff (text : List Char) :
    byteLength text = text.length ↔ ∀ c ∈ text, c.utf8Size = 1 := by
  induction text with
  | nil => simp
  | cons c rest ih =>
      have hc := c.utf8Size_pos
      have hrest := Text.length_le_byteLength rest
      rw [List.forall_mem_cons, ← ih, Text.byteLength_cons, List.length_cons]
      omega

/-- A character that may stand outside of comments is a blank or takes one byte. -/
theorem one_byte_or_blank {c : Char} (h : ¬ IsForeign c) : c.utf8Size = 1 ∨ isBlank c = true := by
  by_cases hsize : c.utf8Size = 1
  · exact .inl hsize
  · have hwide : 127 < c.toNat := by
      rw [Char.utf8Size_eq_one_iff, UInt32.le_iff_toNat_le] at hsize
      exact Nat.lt_of_not_le hsize
    refine .inr ?_
    by_contra hblank
    refine h ⟨by simpa using hblank, ?_, ?_⟩
    · refine Bool.eq_false_iff.2 fun halnum => ?_
      have hrange := range_of_isWordPart (show isWordPart c = true by simp [isWordPart, halnum])
      omega
    · refine Bool.eq_false_iff.2 fun hpunctuation => ?_
      simp only [isPunctuation, punctuationRanges, List.any_cons, List.any_nil, Bool.or_eq_true,
        Bool.and_eq_true, decide_eq_true_eq, Bool.or_false] at hpunctuation
      omega

/-- The indentation takes one byte for each character. -/
theorem utf8Size_of_isIndent {c : Char} (h : isIndent c = true) : c.utf8Size = 1 := by
  unfold isIndent at h
  rcases Bool.or_eq_true_iff.1 h with hc | hc
  · rw [eq_of_beq hc]
    decide
  · rw [eq_of_beq hc]
    decide

/-- What is no blank is not part of the indentation. -/
theorem isIndent_of_solid {c : Char} (h : isBlank c = false) : isIndent c = false := by
  unfold isIndent
  rw [Bool.or_eq_false_iff, beq_eq_false_iff_ne, beq_eq_false_iff_ne]
  constructor
  · rintro rfl
    exact absurd h (by decide)
  · rintro rfl
    exact absurd h (by decide)

/-! ## §2. The line of an error. -/

/-- No token starts with a blank. -/
theorem solid_of_split? {text piece left : List Char} {kind : Kind}
    (h : split? text = some (⟨some kind, piece⟩, left)) :
    ∃ c rest, text = c :: rest ∧ isBlank c = false := by
  obtain ⟨c, rest, rfl, ⟨hword, -⟩ | ⟨-, hdigit, -⟩ | ⟨-, hmark, -⟩⟩ := cases_of_split? h
  · refine ⟨c, rest, rfl, Bool.eq_false_iff.2 fun hblank => ?_⟩
    rw [(class_of_not_isWordPart (stops_of_isBlank hblank).1).1] at hword
    cases hword
  · refine ⟨c, rest, rfl, Bool.eq_false_iff.2 fun hblank => ?_⟩
    rw [(stops_of_isBlank hblank).2.1] at hdigit
    cases hdigit
  · exact ⟨c, rest, rfl, (class_of_isPunctuation hmark).2.1⟩

variable {file source : String} {table : Operator.Table} {error : Error}

/-- An error stands at a place that the scan of the text came to: its end, or a character that
is no blank. -/
theorem visited_of_ofSource (h : (Program.ofSource file source table).result = .error error) :
    ∃ place, (Scanner.start file source).Visits place
      ∧ error.position.offset = UInt32.ofNat place.offset
      ∧ (place.rest = [] ∨ ∃ c after, place.rest = c :: after ∧ isBlank c = false) := by
  cases htokens : tokenize file source with
  | ok tokens =>
      rw [Program.ofSource, htokens] at h
      obtain ⟨token, hmem, hposition, -⟩ := points_of_ofTokens (Scanner.tokens?_ne_nil htokens) h
      obtain ⟨place, hvisits, ⟨hnil, rfl⟩ | ⟨kind, piece, left, taken, rfl⟩⟩ :=
        Scanner.taken_of_mem htokens hmem
      · exact ⟨place, hvisits, by rw [hposition]; rfl, .inl hnil⟩
      · exact ⟨place, hvisits, by rw [hposition]; rfl, .inr (solid_of_split? taken)⟩
  | error found =>
      have hfound : found = error := by
        rw [Program.ofSource, htokens] at h
        exact Except.error.inj h
      subst hfound
      obtain ⟨place, c, after, hvisits, hplace, hnone, rfl⟩ := Scanner.visits_of_error htokens
      rw [hplace] at hnone
      exact ⟨place, hvisits, rfl, .inr ⟨c, after, hplace, ((split?_eq_none_iff c after).1 hnone).solid⟩⟩

/-- An error inside a text stands at a character that is no blank, and nothing but ASCII and
blanks stand before it on its line. -/
theorem exists_onLine (bound : byteLength source.toList < 4294967296)
    (h : (Program.ofSource file source table).result = .error error)
    (inside : error.position.offset.toNat < byteLength source.toList) :
    ∃ front lead c after, OnLine source.toList front lead c after
      ∧ byteLength (front ++ lead) = error.position.offset.toNat ∧ isBlank c = false
      ∧ ∀ d ∈ lead, d.utf8Size = 1 ∨ isBlank d = true := by
  obtain ⟨place, hvisits, hoffset, hplace⟩ := visited_of_ofSource h
  obtain ⟨before, hsource, hbefore, hclear, hswept⟩ := hvisits.swept
  have hlength : byteLength before ≤ byteLength source.toList := by
    rw [hsource, Text.byteLength_append]
    exact Nat.le_add_right _ _
  have hat : error.position.offset.toNat = byteLength before := by
    rw [hoffset, hbefore]
    exact UInt32.toNat_ofNat_of_lt' (Nat.lt_of_le_of_lt hlength bound)
  rcases hplace with hend | ⟨c, after, hrest, hsolid⟩
  · rw [hsource, hend, List.append_nil, hat] at inside
    exact absurd inside (Nat.lt_irrefl _)
  · rw [hrest] at hsource hclear hswept
    obtain ⟨front, lead, rfl, hends, hlead⟩ := Text.exists_lead before
    have hc : c ≠ '\n' := by
      rintro rfl
      exact absurd hsolid (by decide)
    refine ⟨front, lead, c, after, ⟨?_, hends, hlead⟩, hat.symm, hsolid, fun d hmem => ?_⟩
    · rw [hsource, List.append_assoc]
    · exact one_byte_or_blank (hswept.not_isForeign hclear hc rfl hlead d hmem)

/-! ## §3. What a report draws. -/

/-- The number of a line and the bar behind it. -/
def gutter (number : Nat) : String := toString number ++ " | "

/-- The last two lines of a report, drawn for a character and the lead before it. -/
structure Drawn (report : String) (number : Nat) (lead : List Char) (c : Char)
    (shown caret : String) : Prop where
  /-- They come last. -/
  last : ∃ head, report = head ++ "\n" ++ shown ++ "\n" ++ caret
  /-- Each is one line. -/
  single : '\n' ∉ shown.toList ∧ '\n' ∉ caret.toList
  /-- The first of them starts with the number of the line. -/
  numbered : (gutter number).toList <+: shown.toList
  /-- Then there is the lead without its indentation, and the character in the column after it. -/
  character : shown.toList[(gutter number).length + (lead.dropWhile isIndent).length]? = some c
  /-- The other one has a caret in the column that the bytes of the same lead lead to. -/
  caret : '^' ∈ caret.toList
    ∧ caret.toList.idxOf '^' = (gutter number).length + byteLength (lead.dropWhile isIndent)

section

variable {front lead after : List Char} {c : Char}

/-- What is shown of a line: the lead without its indentation, the character, and the rest
without the blanks at the end. -/
theorem shownLine_eq (hsolid : isBlank c = false) (rest : List Char) :
    shownLine (lead ++ c :: rest) = lead.dropWhile isIndent ++ c :: trimEnd rest := by
  rw [shownLine, dropWhile_append_stop (isIndent_of_solid hsolid), trimEnd_append_cons _ hsolid]

/-- There is a dash for each byte of the lead behind the indentation. -/
theorem dashes_eq (hsolid : isBlank c = false) (number : Nat) (rest : List Char) :
    dashes ⟨number, lead ++ c :: rest, byteLength lead⟩ = byteLength (lead.dropWhile isIndent) := by
  have htaken : byteLength (lead.takeWhile isIndent) = (lead.takeWhile isIndent).length :=
    (byteLength_eq_length_iff _).2 fun d hd => utf8Size_of_isIndent (List.mem_takeWhile_imp hd)
  have hlead : byteLength lead
      = (lead.takeWhile isIndent).length + byteLength (lead.dropWhile isIndent) := by
    rw [← htaken, ← Text.byteLength_append, List.takeWhile_append_dropWhile]
  rw [dashes, takeWhile_append_stop (isIndent_of_solid hsolid), hlead, Nat.add_sub_cancel_left]

/-- No digit of a line number ends a line. -/
theorem newline_not_mem_gutter (number : Nat) : '\n' ∉ (gutter number).toList := by
  intro hmem
  rw [gutter, String.toList_append] at hmem
  rcases List.mem_append.1 hmem with hdigit | hbar
  · have hdigits : (toString number).toList = Nat.toDigits 10 number := String.toList_ofList
    rw [hdigits] at hdigit
    exact absurd (Number.isDigits_toDigits number _ hdigit) (by decide)
  · exact absurd hbar (by decide)

/-- The last two lines of a report, as they are put together. -/
theorem report_eq (error : Error) (source : String) :
    ∃ head, error.report source
      = head ++ "\n"
        ++ (gutter (lineAt source.toList error.position.offset.toNat).number
          ++ String.ofList (shownLine (lineAt source.toList error.position.offset.toNat).text))
        ++ "\n"
        ++ (margin (lineAt source.toList error.position.offset.toNat).number ++ " "
          ++ repeated (dashes (lineAt source.toList error.position.offset.toNat)) '-' ++ "^") :=
  ⟨_, rfl⟩

/-- The source line is shown without a newline. -/
theorem newline_not_mem_shown (hlead : '\n' ∉ lead) (hsolid : isBlank c = false)
    {tail ending : List Char} (htail : '\n' ∉ tail) (hending : ending = [] ∨ ending = ['\n']) :
    '\n' ∉ lead.dropWhile isIndent ++ c :: trimEnd (tail ++ ending) := by
  intro hmem
  rcases List.mem_append.1 hmem with hmem | hmem
  · exact hlead ((List.dropWhile_suffix isIndent).subset hmem)
  · rcases List.mem_cons.1 hmem with rfl | hmem
    · exact absurd hsolid (by decide)
    · -- the newline of the line is a blank at its end
      rcases hending with rfl | rfl
      · rw [List.append_nil] at hmem
        exact htail (mem_of_mem_trimEnd hmem)
      · rw [Text.trimEnd_append_blank tail (by decide)] at hmem
        exact htail (mem_of_mem_trimEnd hmem)

/-- The line of the caret: a margin as wide as the gutter, then the dashes, then the caret. -/
theorem caret_line (number count : Nat) :
    ∃ dashed, (margin number ++ " " ++ repeated count '-' ++ "^").toList = dashed ++ ['^']
      ∧ dashed.length = (gutter number).length + count ∧ '^' ∉ dashed ∧ '\n' ∉ dashed := by
  have hbar : " | ".length = 3 := by decide
  refine ⟨List.replicate ((toString number).length + 1) ' ' ++ ['|', ' '] ++ List.replicate count '-',
    ?_, ?_, ?_, ?_⟩
  · simp [margin, repeated]
  · rw [gutter, String.length_append, hbar]
    simp
    omega
  · simp [List.mem_replicate]
  · simp [List.mem_replicate]

/-- A report draws a character that is no blank and the lead before it. -/
theorem exists_drawn (h : OnLine source.toList front lead c after) (hsolid : isBlank c = false)
    (hplace : byteLength (front ++ lead) = error.position.offset.toNat) :
    ∃ shown caret, Drawn (error.report source) ((front ++ lead).count '\n' + 1) lead c shown caret := by
  have hc : c ≠ '\n' := by
    rintro rfl
    exact absurd hsolid (by decide)
  obtain ⟨tail, ending, htail, hending, hline⟩ := h.lineAt hc
  generalize (front ++ lead).count '\n' + 1 = number at hline ⊢
  obtain ⟨head, hreport⟩ := report_eq error source
  rw [← hplace, hline, shownLine_eq hsolid, dashes_eq hsolid] at hreport
  obtain ⟨dashed, hcaret, hlength, hnone, hplain⟩ :=
    caret_line number (byteLength (lead.dropWhile isIndent))
  refine ⟨_, _, ⟨head, hreport⟩, ⟨?single, ?single'⟩, ?numbered, ?character, ?caret⟩
  case single =>
    rw [String.toList_append, String.toList_ofList]
    exact fun hmem => (List.mem_append.1 hmem).elim (newline_not_mem_gutter number)
      (newline_not_mem_shown h.single hsolid htail hending)
  case single' =>
    rw [hcaret]
    simp [hplain]
  case numbered =>
    rw [String.toList_append]
    exact List.prefix_append _ _
  case character =>
    rw [String.toList_append, String.toList_ofList, ← String.length_toList,
      List.getElem?_append_right (Nat.le_add_right _ _), Nat.add_sub_cancel_left,
      List.getElem?_append_right (Nat.le_refl _), Nat.sub_self]
    rfl
  case caret =>
    rw [hcaret, List.idxOf_append, if_neg hnone, hlength]
    simp

end

/-! ## §4. Where the caret stands. -/

/-- Behind the indentation there are as many bytes as columns exactly if no blank takes several
bytes. -/
theorem byteLength_lead_iff {lead : List Char}
    (hlead : ∀ d ∈ lead, d.utf8Size = 1 ∨ isBlank d = true) :
    byteLength (lead.dropWhile isIndent) = (lead.dropWhile isIndent).length
      ↔ ∀ d ∈ lead, isBlank d = true → d.utf8Size = 1 := by
  rw [byteLength_eq_length_iff]
  constructor
  · intro h d hmem _
    rw [← @List.takeWhile_append_dropWhile _ isIndent lead] at hmem
    rcases List.mem_append.1 hmem with hindent | hbehind
    · exact utf8Size_of_isIndent (List.mem_takeWhile_imp hindent)
    · exact h d hbehind
  · intro h d hmem
    have hin : d ∈ lead := (List.dropWhile_suffix isIndent).subset hmem
    exact (hlead d hin).elim id (h d hin)

/-- **Where the caret stands.**  An error inside a text stands at a character, on the line whose
number is one more than the newlines before it.  The report shows that line and the character
in it; the caret below stands in the column that the bytes of the lead lead to.  That is the
column of the character exactly if no blank before it on its line takes several bytes. -/
theorem caret_column (bound : byteLength source.toList < 4294967296)
    (h : (Program.ofSource file source table).result = .error error)
    (inside : error.position.offset.toNat < byteLength source.toList) :
    ∃ front lead c after shown caret, OnLine source.toList front lead c after
      ∧ byteLength (front ++ lead) = error.position.offset.toNat
      ∧ Drawn (error.report source) ((front ++ lead).count '\n' + 1) lead c shown caret
      ∧ (∀ d ∈ lead, d.utf8Size = 1 ∨ isBlank d = true)
      ∧ (caret.toList.idxOf '^' = (gutter ((front ++ lead).count '\n' + 1)).length
            + (lead.dropWhile isIndent).length
          ↔ ∀ d ∈ lead, isBlank d = true → d.utf8Size = 1)
      ∧ ((∀ d ∈ lead, isBlank d = true → d.utf8Size = 1) →
          shown.toList[caret.toList.idxOf '^']? = some c) := by
  obtain ⟨front, lead, c, after, honLine, hplace, hsolid, hlead⟩ := exists_onLine bound h inside
  obtain ⟨shown, caret, hdrawn⟩ := exists_drawn honLine hsolid hplace
  have hcolumn : caret.toList.idxOf '^' = (gutter ((front ++ lead).count '\n' + 1)).length
      + (lead.dropWhile isIndent).length ↔ ∀ d ∈ lead, isBlank d = true → d.utf8Size = 1 := by
    rw [← byteLength_lead_iff hlead, hdrawn.caret.2, Nat.add_left_cancel_iff]
  refine ⟨front, lead, c, after, shown, caret, honLine, hplace, hdrawn, hlead, hcolumn, ?_⟩
  intro hnarrow
  rw [hcolumn.2 hnarrow]
  exact hdrawn.character

/-- Behind a blank of two bytes the caret stands one column too far to the right, where the line
that is shown is over. -/
theorem caret_behind_wide_blank :
    let error : Error := ⟨.unexpectedToken ")", ⟨5, "sel"⟩⟩
    byteLength "a\u00a0+ )".toList < 4294967296
      ∧ (Program.ofSource "sel" "a\u00a0+ )" .standard).result = .error error
      ∧ error.position.offset.toNat < byteLength "a\u00a0+ )".toList
      ∧ error.report "a\u00a0+ )"
          = "Error: UnexpectedToken (Unexpected token: `)` when expecting an expression)\n"
            ++ "-> sel\n  |\n1 | a\u00a0+ )\n  | -----^"
      ∧ "1 | a\u00a0+ )".toList[8]? = some ')' ∧ "  | -----^".toList.idxOf '^' = 9
      ∧ ∃ front lead c after shown caret, OnLine "a\u00a0+ )".toList front lead c after
          ∧ byteLength (front ++ lead) = 5
          ∧ Drawn (error.report "a\u00a0+ )") ((front ++ lead).count '\n' + 1) lead c shown caret := by
  intro error
  have bound : byteLength "a\u00a0+ )".toList < 4294967296 := by decide
  have h : (Program.ofSource "sel" "a\u00a0+ )" .standard).result = .error error := by decide +kernel
  have inside : error.position.offset.toNat < byteLength "a\u00a0+ )".toList := by decide
  obtain ⟨front, lead, c, after, shown, caret, honLine, hplace, hdrawn, -⟩ :=
    caret_column bound h inside
  exact ⟨bound, h, inside, by decide +kernel, by decide, by decide, front, lead, c, after, shown,
    caret, honLine, hplace, hdrawn⟩

end Fixity
