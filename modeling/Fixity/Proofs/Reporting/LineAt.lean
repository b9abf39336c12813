/-
  Fixity.Proofs.Reporting.LineAt
  ────────────────────────────────
  **THE LINE THAT HOLDS A BYTE.**

  A byte of a text stands on one line.  What is before it falls into the lines that are over
  and a LEAD, the part of its own line up to it, which has no newline:

      a = 1;⏎b = (a + 2;⏎      at the last semicolon:  a = 1;⏎ │ b = (a + 2 │ ;⏎

  The number of the line is one more than the newlines before the byte, and its place on the
  line is the length of the lead in bytes.

  Main results: `lineAt_of_lines` (the line that holds a byte is found) and `OnLine.lineAt`
  (it is the lead and the rest of the line).
-/
import Fixity.Text.Line

namespace Fixity.Text

/-! ## §1. Lines in front of others. -/

/-- A text at whose end no line has begun: it is empty, or a newline is its last character. -/
def EndsLine (text : List Char) : Prop := ∀ c ∈ text.getLast?, c = '\n'

theorem lines_newline (rest : List Char) : lines ('\n' :: rest) = ['\n'] :: lines rest := by
  rw [lines, if_pos rfl]

/-- A character in front of a line belongs to it, if it is no newline. -/
theorem lines_cons {c : Char} {rest line : List Char} {others : List (List Char)} (hc : c ≠ '\n')
    (h : lines rest = line :: others) : lines (c :: rest) = (c :: line) :: others := by
  rw [lines, if_neg hc, h]

/-- Only an empty text has no line. -/
theorem exists_lines {text : List Char} (h : text ≠ []) :
    ∃ line others, lines text = line :: others := by
  refine List.exists_cons_of_ne_nil fun hnil => h ?_
  rw [← lines_flatten text, hnil]
  rfl

/-- The first character of such a text is a newline, or another line begins there and goes on. -/
theorem EndsLine.cases {c : Char} {front : List Char} (h : EndsLine (c :: front)) :
    EndsLine front
      ∧ (c = '\n' ∨ c ≠ '\n' ∧ ∃ line others, lines front = line :: others) := by
  constructor
  · intro d hd
    refine h d ?_
    cases front with
    | nil => cases hd
    | cons e more => rwa [List.getLast?_cons_cons]
  · by_cases hc : c = '\n'
    · exact .inl hc
    · refine .inr ⟨hc, exists_lines ?_⟩
      rintro rfl
      exact hc (h c rfl)

/-- Lines that are over stay as they are before a text. -/
theorem lines_append {front : List Char} (h : EndsLine front) (rest : List Char) :
    lines (front ++ rest) = lines front ++ lines rest := by
  induction front with
  | nil => rfl
  | cons c front ih =>
      obtain ⟨hfront, rfl | ⟨hc, line, others, hlines⟩⟩ := h.cases
      · rw [List.cons_append, lines_newline, lines_newline, ih hfront, List.cons_append]
      · have hmore := ih hfront
        rw [hlines, List.cons_append] at hmore
        rw [List.cons_append, lines_cons hc hlines, lines_cons hc hmore, List.cons_append]

/-- Lines that are over are as many as the newlines. -/
theorem length_lines {front : List Char} (h : EndsLine front) :
    (lines front).length = front.count '\n' := by
  induction front with
  | nil => rfl
  | cons c front ih =>
      obtain ⟨hfront, rfl | ⟨hc, line, others, hlines⟩⟩ := h.cases
      · rw [lines_newline, List.length_cons, ih hfront, List.count_cons_self]
      · have hmore := ih hfront
        rw [hlines, List.length_cons] at hmore
        rw [lines_cons hc hlines, List.length_cons, List.count_cons_of_ne (by simpa using hc), hmore]

/-- A line up to its newline. -/
theorem lines_line {line : List Char} (h : '\n' ∉ line) (rest : List Char) :
    lines (line ++ '\n' :: rest) = (line ++ ['\n']) :: lines rest := by
  induction line with
  | nil => exact lines_newline rest
  | cons c line ih =>
      have hc : c ≠ '\n' := (List.ne_of_not_mem_cons h).symm
      exact lines_cons hc (ih (List.not_mem_of_not_mem_cons h))

/-- A last line without a newline. -/
theorem lines_last {line : List Char} (h : '\n' ∉ line) (hne : line ≠ []) : lines line = [line] := by
  induction line with
  | nil => exact absurd rfl hne
  | cons c line ih =>
      have hc : c ≠ '\n' := (List.ne_of_not_mem_cons h).symm
      cases line with
      | nil => rw [lines, if_neg hc]; rfl
      | cons d more =>
          exact lines_cons hc (ih (List.not_mem_of_not_mem_cons h) (List.cons_ne_nil d more))

/-! ## §2. The line that holds a byte. -/

/-- Walking from line to line ends at the line that holds the byte. -/
theorem locate_eq {line : List Char} {others : List (List Char)} (before : List (List Char)) :
    ∀ {number offset : Nat} {first : List Char} {rest : List (List Char)},
      first :: rest = before ++ line :: others → byteLength before.flatten ≤ offset →
      offset < byteLength before.flatten + byteLength line →
      locate number first rest offset
        = ⟨number + before.length, line, offset - byteLength before.flatten⟩ := by
  induction before with
  | nil =>
      intro number offset first rest hsplit _ hhigh
      obtain ⟨rfl, rfl⟩ := List.cons.inj hsplit
      have hin : offset < byteLength first := by simpa using hhigh
      cases rest with
      | nil => rw [locate, if_pos hin]; rfl
      | cons next rest => rw [locate, if_pos hin]; rfl
  | cons head before ih =>
      intro number offset first rest hsplit hlow hhigh
      obtain ⟨rfl, rfl⟩ := List.cons.inj hsplit
      rw [List.flatten_cons, byteLength_append] at hlow hhigh ⊢
      obtain ⟨next, more, hnext⟩ :=
        List.exists_cons_of_ne_nil (List.append_ne_nil_of_right_ne_nil before
          (List.cons_ne_nil line others))
      have hmore := @ih (number + 1) (offset - byteLength first) _ _ hnext.symm (by omega) (by omega)
      show locate number first (before ++ line :: others) offset = _
      rw [hnext, locate, if_neg (by omega), hmore, List.length_cons]
      congr 1 <;> omega

/-- **The line that holds a byte.**  A byte behind some lines of a text and within the next one
is found on that, which has the next number. -/
theorem lineAt_of_lines {text line : List Char} {before others : List (List Char)} {offset : Nat}
    (h : lines text = before ++ line :: others) (hlow : byteLength before.flatten ≤ offset)
    (hhigh : offset < byteLength before.flatten + byteLength line) :
    lineAt text offset = ⟨before.length + 1, line, offset - byteLength before.flatten⟩ := by
  obtain ⟨first, rest, hfirst⟩ :=
    List.exists_cons_of_ne_nil (List.append_ne_nil_of_right_ne_nil before
      (List.cons_ne_nil line others))
  rw [lineAt, h, hfirst]
  show locate 1 first rest offset = _
  rw [locate_eq before hfirst.symm hlow hhigh, Nat.add_comm]

/-! ## §3. A character on its line. -/

/-- A character of a text with the lines before its own and the part of its line before it. -/
structure OnLine (source front lead : List Char) (c : Char) (after : List Char) : Prop where
  /-- Together they are the text. -/
  split : source = front ++ (lead ++ c :: after)
  /-- The lines before are over. -/
  ends : EndsLine front
  /-- What stands before the character is on its line. -/
  single : '\n' ∉ lead

/-- What is before a character falls into lines that are over and the lead. -/
theorem exists_lead (before : List Char) :
    ∃ front lead, before = front ++ lead ∧ EndsLine front ∧ '\n' ∉ lead := by
  induction before with
  | nil => exact ⟨[], [], rfl, nofun, List.not_mem_nil⟩
  | cons c before ih =>
      obtain ⟨front, lead, rfl, hends, hlead⟩ := ih
      cases front with
      | cons d front =>
          refine ⟨c :: d :: front, lead, rfl, ?_, hlead⟩
          intro e he
          rw [List.getLast?_cons_cons] at he
          exact hends e he
      | nil =>
          -- no line was over behind the character, so one is only if it is a newline
          by_cases hc : c = '\n'
          · refine ⟨[c], lead, rfl, ?_, hlead⟩
            intro e he
            rw [← Option.some.inj he]
            exact hc
          · exact ⟨[], c :: lead, rfl, nofun, List.not_mem_cons_of_ne_of_not_mem (Ne.symm hc) hlead⟩

/-- A text falls into the rest of its first line and the newline with what follows. -/
theorem exists_tail (after : List Char) :
    ∃ tail more, after = tail ++ more ∧ '\n' ∉ tail ∧ (more = [] ∨ ∃ rest, more = '\n' :: rest) := by
  induction after with
  | nil => exact ⟨[], [], rfl, List.not_mem_nil, .inl rfl⟩
  | cons c after ih =>
      by_cases hc : c = '\n'
      · exact ⟨[], c :: after, rfl, List.not_mem_nil, .inr ⟨after, hc ▸ rfl⟩⟩
      · obtain ⟨tail, more, rfl, htail, hmore⟩ := ih
        exact ⟨c :: tail, more, rfl, List.not_mem_cons_of_ne_of_not_mem (Ne.symm hc) htail, hmore⟩

variable {source front lead after : List Char} {c : Char}

/-- The line of a character that is no newline: the lead, the character, and the rest of the
line, with its newline if there is one. -/
theorem OnLine.lineAt (h : OnLine source front lead c after) (hc : c ≠ '\n') :
    ∃ tail ending, '\n' ∉ tail ∧ (ending = [] ∨ ending = ['\n'])
      ∧ lineAt source (byteLength (front ++ lead))
          = ⟨(front ++ lead).count '\n' + 1, lead ++ c :: (tail ++ ending), byteLength lead⟩ := by
  obtain ⟨tail, more, rfl, htail, hmore⟩ := exists_tail after
  have hline : '\n' ∉ lead ++ c :: tail := by
    simp [h.single, htail, Ne.symm hc]
  obtain ⟨ending, others, hending, hlines⟩ : ∃ ending others, (ending = [] ∨ ending = ['\n'])
      ∧ lines (lead ++ c :: (tail ++ more)) = (lead ++ c :: (tail ++ ending)) :: others := by
    rcases hmore with rfl | ⟨rest, rfl⟩
    · refine ⟨[], [], .inl rfl, ?_⟩
      rw [List.append_nil]
      exact lines_last hline (by simp)
    · refine ⟨['\n'], lines rest, .inr rfl, ?_⟩
      have hfirst := lines_line hline rest
      simpa using hfirst
  refine ⟨tail, ending, htail, hending, ?_⟩
  have hall : lines source = lines front ++ (lead ++ c :: (tail ++ ending)) :: others := by
    rw [h.split, lines_append h.ends, hlines]
  have hpos := c.utf8Size_pos
  rw [lineAt_of_lines hall (by rw [lines_flatten, byteLength_append]; omega)
    (by simp only [lines_flatten, byteLength_append, byteLength_cons]; omega),
    lines_flatten, length_lines h.ends, byteLength_append, List.count_append,
    List.count_eq_zero.2 h.single, Nat.add_sub_cancel_left, Nat.add_zero]

end Fixity.Text
