/-
  Fixity.Proofs.Reporting.Lookup
  ────────────────────────────────
  **FINDING A LINE IS EXACT.**

  A text is ROWED when it is cut behind each newline: every row is a line with the newline
  that ends it, and the last row may be without one, if something is left for it:

      a⏎⏎bc    =    a⏎ │ ⏎ │ bc          a⏎⏎    =    a⏎ │ ⏎

  There is one way to do that, and no row is empty.  Every byte of the text stands on one
  row, behind as many newlines as there are rows before it; a place past the end is shown
  behind what the last row has before its newline.

  Places count the bytes of UTF-8, in which a newline is one byte and no other character
  has that byte.

  Main results: `rowed_iff` (the lines of a text are its only rows) and `lineAt_exact` (what
  is found for a place).
-/
import Fixity.Proofs.Reporting.LineAt
import Fixity.Proofs.Text.Encoding

namespace Fixity.Text

/-! ## §1. Rows. -/

/-- A text cut behind each of its newlines. -/
inductive Rowed : List Char → List (List Char) → Prop
  /-- An empty text has no row. -/
  | nil : Rowed [] []
  /-- What no newline ends is the last row, if there is something of it. -/
  | last {body : List Char} : body ≠ [] → '\n' ∉ body → Rowed body [body]
  /-- A row ends with its newline. -/
  | row {body rest : List Char} {rows : List (List Char)} :
      '\n' ∉ body → Rowed rest rows → Rowed (body ++ '\n' :: rest) ((body ++ ['\n']) :: rows)

variable {text row : List Char} {rows before after : List (List Char)} {offset : Nat}

/-- The lines of a text are its rows. -/
theorem rowed_lines (text : List Char) : Rowed text (lines text) := by
  induction text with
  | nil => exact .nil
  | cons c rest ih =>
      by_cases hc : c = '\n'
      · subst hc
        rw [lines_newline]
        exact .row List.not_mem_nil ih
      · rw [lines, if_neg hc]
        -- a character that is no newline goes to the first row behind it, if there is one
        generalize lines rest = rows at ih
        cases ih with
        | nil => exact .last (List.cons_ne_nil c []) (by simpa using Ne.symm hc)
        | last hne hbody =>
            exact .last (List.cons_ne_nil c rest)
              (List.not_mem_cons_of_ne_of_not_mem (Ne.symm hc) hbody)
        | row hbody hrest =>
            exact .row (List.not_mem_cons_of_ne_of_not_mem (Ne.symm hc) hbody) hrest

theorem Rowed.eq_lines (h : Rowed text rows) : rows = lines text := by
  induction h with
  | nil => rfl
  | last hne hbody => exact (lines_last hbody hne).symm
  | row hbody _ ih => rw [lines_line hbody, ih]

/-- **The lines of a text are its only rows.** -/
theorem rowed_iff : Rowed text rows ↔ rows = lines text := by
  constructor
  · exact Rowed.eq_lines
  · rintro rfl
    exact rowed_lines text

/-- Each row before another one has one newline; the other one has at most one, at its end. -/
theorem Rowed.split (h : Rowed text (before ++ row :: after)) :
    before.flatten.count '\n' = before.length
      ∧ ∃ body ending, '\n' ∉ body ∧ (ending = [] ∨ ending = ['\n']) ∧ row = body ++ ending := by
  induction before generalizing text with
  | nil =>
      refine ⟨rfl, ?_⟩
      cases h with
      | last _ hbody => exact ⟨row, [], hbody, .inl rfl, (List.append_nil row).symm⟩
      | row hbody _ => exact ⟨_, ['\n'], hbody, .inr rfl, rfl⟩
  | cons first before ih =>
      generalize hrows : (first :: before) ++ row :: after = rows at h
      cases h with
      | nil => exact absurd hrows (by simp)
      | last _ _ => exact absurd hrows (by simp)
      | row hbody hrest =>
          obtain ⟨rfl, rfl⟩ := List.cons.inj hrows
          obtain ⟨hcount, hlast⟩ := ih hrest
          refine ⟨?_, hlast⟩
          rw [List.flatten_cons, List.count_append, List.count_append, List.count_eq_zero.2 hbody,
            hcount, List.length_cons]
          show 0 + 1 + before.length = before.length + 1
          omega

/-- Behind a newline at the end of a text there is no row. -/
theorem Rowed.length_of_newline (h : Rowed text rows) (hend : text.getLast? = some '\n') :
    rows.length = text.count '\n' := by
  rw [h.eq_lines]
  refine length_lines fun c hc => ?_
  rw [hend] at hc
  exact (Option.some.inj hc).symm

/-! ## §2. Walking over the rows. -/

/-- A place within the rows of a text is on one of them. -/
theorem exists_row (rows : List (List Char)) (h : offset < byteLength rows.flatten) :
    ∃ before row after, rows = before ++ row :: after
      ∧ byteLength before.flatten ≤ offset
      ∧ offset < byteLength before.flatten + byteLength row := by
  induction rows generalizing offset with
  | nil => exact absurd h (Nat.not_lt_zero offset)
  | cons first rows ih =>
      rw [List.flatten_cons, byteLength_append] at h
      by_cases hfirst : offset < byteLength first
      · refine ⟨[], first, rows, rfl, Nat.zero_le offset, ?_⟩
        simpa using hfirst
      · obtain ⟨before, row, after, rfl, hlow, hhigh⟩ := @ih (offset - byteLength first) (by omega)
        refine ⟨first :: before, row, after, rfl, ?_, ?_⟩
        · rw [List.flatten_cons, byteLength_append]
          omega
        · rw [List.flatten_cons, byteLength_append]
          omega

/-- Walking past all rows ends behind what the last one has before its newline. -/
theorem locate_past (before : List (List Char)) :
    ∀ {number offset : Nat} {first : List Char} {rest : List (List Char)},
      first :: rest = before ++ [row] → byteLength (first :: rest).flatten ≤ offset →
      locate number first rest offset
        = ⟨number + before.length, row, byteLength (row.takeWhile (· ≠ '\n'))⟩ := by
  induction before with
  | nil =>
      intro number offset first rest hsplit hpast
      obtain ⟨rfl, rfl⟩ := List.cons.inj hsplit
      have hout : ¬ offset < byteLength first := by simpa using hpast
      rw [locate, if_neg hout]
      rfl
  | cons head before ih =>
      intro number offset first rest hsplit hpast
      obtain ⟨rfl, rfl⟩ := List.cons.inj hsplit
      rw [List.flatten_cons, byteLength_append] at hpast
      change byteLength first + byteLength (before ++ [row]).flatten ≤ offset at hpast
      obtain ⟨next, more, hnext⟩ :=
        List.exists_cons_of_ne_nil (List.append_ne_nil_of_right_ne_nil before
          (List.cons_ne_nil row []))
      rw [hnext] at hpast
      have hmore := @ih (number + 1) (offset - byteLength first) _ _ hnext.symm (by omega)
      show locate number first (before ++ [row]) offset = _
      rw [hnext, locate, if_neg (by omega), hmore, List.length_cons]
      congr 1
      omega

/-- **Past the end of a text** its last line is found. -/
theorem lineAt_past (h : lines text = before ++ [row]) (hpast : byteLength text ≤ offset) :
    lineAt text offset = ⟨before.length + 1, row, byteLength (row.takeWhile (· ≠ '\n'))⟩ := by
  obtain ⟨first, rest, hfirst⟩ :=
    List.exists_cons_of_ne_nil (List.append_ne_nil_of_right_ne_nil before (List.cons_ne_nil row []))
  have hall : byteLength (first :: rest).flatten ≤ offset := by
    rw [← hfirst, ← h, lines_flatten]
    exact hpast
  rw [lineAt, h, hfirst]
  show locate 1 first rest offset = _
  rw [locate_past before hfirst.symm hall, Nat.add_comm]

/-- What stands before the newline of a row. -/
theorem takeWhile_body {body ending : List Char} (hbody : '\n' ∉ body)
    (hending : ending = [] ∨ ending = ['\n']) :
    (body ++ ending).takeWhile (· ≠ '\n') = body := by
  have hall : ∀ c ∈ body, decide (c ≠ '\n') = true := by
    intro c hc
    exact decide_eq_true fun heq => hbody (heq ▸ hc)
  rw [List.takeWhile_append_of_pos hall]
  rcases hending with rfl | rfl
  · simp
  · simp

/-- The newlines before a place on a row are those of the rows before it. -/
theorem count_take_bytes {rest : List Char} (h : Rowed text (before ++ row :: after))
    (htext : text = before.flatten ++ (row ++ rest)) (hlow : byteLength before.flatten ≤ offset)
    (hhigh : offset < byteLength before.flatten + byteLength row) :
    ((bytes text).take offset).count newlineByte = before.length := by
  obtain ⟨hcount, body, ending, hbody, hending, rfl⟩ := h.split
  have hlength := length_bytes before.flatten
  have hwhole : (bytes before.flatten).take offset = bytes before.flatten :=
    List.take_of_length_le (by omega)
  -- the byte of the newline is the last one of the row, and the place is not behind it
  have hbefore : ((bytes (body ++ ending ++ rest)).take
      (offset - (bytes before.flatten).length)).count newlineByte = 0 := by
    have hrow : offset - (bytes before.flatten).length ≤ (bytes body).length := by
      rw [length_bytes, length_bytes]
      rw [byteLength_append] at hhigh
      rcases hending with rfl | rfl
      · rw [byteLength_nil] at hhigh
        omega
      · have hone : byteLength ['\n'] = 1 := rfl
        omega
    rw [List.append_assoc, bytes_append, List.take_append_of_le_length hrow]
    refine List.count_eq_zero.2 fun hmem => ?_
    exact newlineByte_not_mem_bytes hbody (List.mem_of_mem_take hmem)
  rw [htext, bytes_append, List.take_append, hwhole, List.count_append, hbefore, count_bytes,
    hcount]
  rfl

/-! ## §3. What is found for a place. -/

/-- **Finding a line is exact.**  The lines are the rows of the text.  A byte of the text is
found on the row that holds it, whose number is one more than the newlines before that byte;
a place past the end is found behind the last row without its newline, and an empty text has
an empty first line.  A newline at the end has no row behind it. -/
theorem lineAt_exact (content : List Char) (offset : Nat) :
    ∃ rows, (∀ others, Rowed content others ↔ others = rows)
      ∧ (offset < (bytes content).length →
          ∃ before row after, rows = before ++ row :: after
            ∧ (lineAt content offset).text = row
            ∧ (lineAt content offset).number = before.length + 1
            ∧ byteLength before.flatten + (lineAt content offset).offset = offset
            ∧ (lineAt content offset).offset < byteLength row
            ∧ (lineAt content offset).number
                = ((bytes content).take offset).count newlineByte + 1)
      ∧ ((bytes content).length ≤ offset → content ≠ [] →
          ∃ before row body ending, rows = before ++ [row]
            ∧ '\n' ∉ body ∧ (ending = [] ∨ ending = ['\n']) ∧ row = body ++ ending
            ∧ lineAt content offset = ⟨rows.length, row, byteLength body⟩)
      ∧ (content = [] → lineAt content offset = ⟨1, [], 0⟩)
      ∧ [] ∉ rows
      ∧ (content.getLast? = some '\n' → rows.length = content.count '\n') := by
  have hrowed := rowed_lines content
  refine ⟨lines content, fun others => rowed_iff, ?_, ?_, ?_, ?_, ?_⟩
  · intro hin
    rw [length_bytes, ← lines_flatten content] at hin
    obtain ⟨before, row, after, hlines, hlow, hhigh⟩ := exists_row (lines content) hin
    have htext : content = before.flatten ++ (row ++ after.flatten) := by
      rw [← lines_flatten content, hlines, List.flatten_append, List.flatten_cons]
    rw [hlines] at hrowed
    have hcount := count_take_bytes hrowed htext hlow hhigh
    have hfound := lineAt_of_lines hlines hlow hhigh
    refine ⟨before, row, after, hlines, ?_⟩
    rw [hfound, hcount]
    refine ⟨rfl, rfl, ?_, ?_, rfl⟩
    · show byteLength before.flatten + (offset - byteLength before.flatten) = offset
      omega
    · show offset - byteLength before.flatten < byteLength row
      omega
  · intro hpast hne
    rw [length_bytes] at hpast
    obtain ⟨first, others, hsome⟩ := exists_lines hne
    obtain ⟨before, row, hlines⟩ : ∃ before row, lines content = before ++ [row] :=
      ⟨_, _, (List.dropLast_concat_getLast (by rw [hsome]; exact List.cons_ne_nil _ _)).symm⟩
    rw [hlines] at hrowed
    obtain ⟨-, body, ending, hbody, hending, hrow⟩ := hrowed.split
    refine ⟨before, row, body, ending, hlines, hbody, hending, hrow, ?_⟩
    rw [lineAt_past hlines hpast, hlines, List.length_append, List.length_singleton]
    rw [hrow, takeWhile_body hbody hending]
  · rintro rfl
    rfl
  · intro hmem
    exact lines_ne_nil content [] hmem rfl
  · exact hrowed.length_of_newline

/-- A letter of two bytes, an empty line and a newline at the end: byte 4 starts the third line,
and the end of the text is behind what that line has before its newline. -/
theorem lineAt_behind_empty_line :
    (4 < (bytes ['\u00e9', '\n', '\n', 'x', '\n']).length
      ∧ lineAt ['\u00e9', '\n', '\n', 'x', '\n'] 4 = ⟨3, ['x', '\n'], 0⟩
      ∧ ((bytes ['\u00e9', '\n', '\n', 'x', '\n']).take 4).count newlineByte = 2)
    ∧ (bytes ['\u00e9', '\n', '\n', 'x', '\n']).length ≤ 6
      ∧ lineAt ['\u00e9', '\n', '\n', 'x', '\n'] 6 = ⟨3, ['x', '\n'], 1⟩ := by
  have hin : 4 < (bytes ['\u00e9', '\n', '\n', 'x', '\n']).length := by decide
  have hpast : (bytes ['\u00e9', '\n', '\n', 'x', '\n']).length ≤ 6 := by decide
  have hfound : lineAt ['\u00e9', '\n', '\n', 'x', '\n'] 4 = ⟨3, ['x', '\n'], 0⟩ := by decide
  refine ⟨⟨hin, hfound, ?_⟩, hpast, ?_⟩
  · obtain ⟨rows, -, hrow, -⟩ := lineAt_exact ['\u00e9', '\n', '\n', 'x', '\n'] 4
    obtain ⟨before, row, after, -, -, -, -, -, hnumber⟩ := hrow hin
    rw [hfound] at hnumber
    exact (Nat.succ.inj hnumber).symm
  · obtain ⟨rows, hrows, -, hlast, -⟩ := lineAt_exact ['\u00e9', '\n', '\n', 'x', '\n'] 6
    obtain ⟨before, row, body, ending, hsplit, hbody, hending, rfl, hfound'⟩ :=
      hlast hpast (by decide)
    have hlines : before ++ [body ++ ending] = [['\u00e9', '\n'], ['\n']] ++ [['x', '\n']] := by
      rw [← hsplit]
      exact ((hrows _).1 (rowed_lines _)).symm
    obtain ⟨rfl, hrow⟩ := List.append_inj' hlines rfl
    have hrow' : body ++ ending = ['x', '\n'] := (List.cons.inj hrow).1
    have hshown : body = ['x'] := by
      rw [← takeWhile_body hbody hending, hrow']
      decide
    rw [hfound', hsplit, hrow', hshown]
    decide

end Fixity.Text
