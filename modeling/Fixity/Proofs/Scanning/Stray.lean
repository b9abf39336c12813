/-
  Fixity.Proofs.Scanning.Stray
  ────────────────────────────────
  **THE FIRST CHARACTER THAT STARTS NO TOKEN.**

  Some characters can stand nowhere but in a comment: those that are neither blank nor
  ASCII letters, digits or punctuation.  A comment runs from the first two slashes of a
  line to the end of that line, whatever stands before it:

      a + §        the section sign is stray
      a + // §     it lies in a comment
      1.// §       so it does here: the point is a token, and no part of the number

  A text is cut into tokens exactly if it has no stray character, and the error of a text
  that has some is about the first of them.

  A scan looks for comments only where a token could start.  That it finds them all is
  the invariant of its steps: no comment covers the place that it stands at, and every
  foreign character behind that place lies in a comment.

  Main results: `Scanner.Visits.swept` (the invariant) and `stray_decides`.
-/
import Fixity.Proofs.Scanning.Segmentation

namespace Fixity

open Text (byteLength isBlank)

/-! ## §1. Characters that can stand in comments only. -/

/-- A character that no token holds and that is no blank. -/
structure IsForeign (c : Char) : Prop where
  /-- It has not the property White_Space. -/
  solid : isBlank c = false
  /-- It is no ASCII letter and no ASCII digit. -/
  notAlphanum : c.isAlphanum = false
  /-- It is no ASCII punctuation. -/
  notPunctuation : isPunctuation c = false

/-- A place in a comment: two slashes stand on its line, there or further left.  Lines end
at newlines only. -/
def Dead (before rest : List Char) : Prop :=
  ∃ front more, before = front ++ more ∧ '\n' ∉ more ∧ ['/', '/'] <+: more ++ rest

/-- A foreign character of a text that lies in no comment. -/
structure Stray (source before : List Char) (c : Char) (after : List Char) : Prop where
  /-- The character and what stands around it. -/
  place : source = before ++ c :: after
  /-- No token holds it. -/
  foreign : IsForeign c
  /-- It lies in no comment. -/
  live : ¬ Dead before (c :: after)

/-- The first stray character of a text. -/
structure FirstStray (source before : List Char) (c : Char) (after : List Char) : Prop
    extends Stray source before c after where
  /-- No other one stands further left. -/
  first : ∀ before' c' after', Stray source before' c' after' → before.length ≤ before'.length

/-- There is one first stray character at most. -/
theorem FirstStray.unique {source before before' after after' : List Char} {c c' : Char}
    (h : FirstStray source before c after) (h' : FirstStray source before' c' after') :
    before = before' ∧ c = c' := by
  have hlength : before.length = before'.length :=
    Nat.le_antisymm (h.first _ _ _ h'.toStray) (h'.first _ _ _ h.toStray)
  obtain ⟨hbefore, hrest⟩ := List.append_inj (h.place.symm.trans h'.place) hlength
  exact ⟨hbefore, (List.cons.inj hrest).1⟩

namespace IsForeign

variable {c : Char}

theorem ne_newline (h : IsForeign c) : c ≠ '\n' := by
  rintro rfl
  exact absurd h.solid (by decide)

theorem ne_slash (h : IsForeign c) : c ≠ '/' := by
  rintro rfl
  exact absurd h.notPunctuation (by decide)

/-- No word holds a foreign character. -/
theorem not_isWordPart (h : IsForeign c) : isWordPart c = false := by
  have hunderscore : c ≠ '_' := by
    rintro rfl
    exact absurd h.notPunctuation (by decide)
  unfold isWordPart
  simpa [h.notAlphanum] using hunderscore

end IsForeign

/-- A text has no leading lexeme exactly if its first character is foreign. -/
theorem split?_eq_none_iff (c : Char) (rest : List Char) :
    split? (c :: rest) = none ↔ IsForeign c := by
  constructor
  · intro h
    simp only [split?] at h
    split at h
    · cases h
    · next word =>
      split at h
      · cases h
      · next digit =>
        split at h
        · cases h
        · next blank =>
          split at h
          · cases h
          · split at h
            · cases h
            · next punctuation =>
              have halpha : c.isAlpha = false := by
                unfold isWordStart at word
                simp only [Bool.or_eq_true, not_or, Bool.not_eq_true] at word
                exact word.1
              refine ⟨by simpa using blank, ?_, by simpa using punctuation⟩
              unfold Char.isAlphanum
              simpa [halpha] using digit
  · intro h
    obtain ⟨word, digit⟩ := class_of_not_isWordPart h.not_isWordPart
    have plain := startsComment_of_ne h.ne_slash rest
    simp [split?, word, digit, h.solid, plain, h.notPunctuation]

/-- No token holds a foreign character. -/
theorem Stands.not_isForeign {kind : Kind} {text after : List Char} (h : Stands kind text after) :
    ∀ c ∈ text, ¬ IsForeign c := by
  have hpart : ∀ {c : Char}, isWordPart c = true → ¬ IsForeign c := by
    intro c hc foreign
    rw [foreign.not_isWordPart] at hc
    cases hc
  have hdigit : ∀ {c : Char}, c.isDigit = true → ¬ IsForeign c := by
    intro c hc foreign
    rw [(class_of_not_isWordPart foreign.not_isWordPart).2] at hc
    cases hc
  intro c hc foreign
  cases h with
  | word hstart hrest =>
      rcases List.mem_cons.1 hc with rfl | hmem
      · rw [(class_of_not_isWordPart foreign.not_isWordPart).1] at hstart
        cases hstart
      · exact hpart (hrest c hmem) foreign
  | numeral numeral =>
      obtain ⟨digits, -, hdigits, rfl | ⟨fraction, -, hfraction, rfl⟩⟩ := numeral
      · exact hdigit (hdigits c hc) foreign
      · rcases List.mem_append.1 hc with hmem | hmem
        · exact hdigit (hdigits c hmem) foreign
        · rcases List.mem_cons.1 hmem with rfl | hmem
          · exact absurd foreign.notPunctuation (by decide)
          · exact hdigit (hfraction c hmem) foreign
  | mark punctuation =>
      have hnot := foreign.notPunctuation
      rw [List.mem_singleton.1 hc, punctuation] at hnot
      cases hnot

/-! ## §2. What a scan has swept. -/

/-- Every foreign character behind a place lies in a comment. -/
def Swept (before rest : List Char) : Prop :=
  ∀ front c more, before = front ++ c :: more → IsForeign c → Dead front (c :: (more ++ rest))

namespace Swept

variable {before piece rest : List Char}

theorem start (rest : List Char) : Swept [] rest := by
  intro front c more h
  simp at h

/-- After a piece it is enough to look at the characters of the piece. -/
theorem append (h : Swept before (piece ++ rest))
    (hpiece : ∀ front c more, piece = front ++ c :: more → IsForeign c →
      Dead (before ++ front) (c :: (more ++ rest))) : Swept (before ++ piece) rest := by
  intro front c more hbefore foreign
  rcases place_cases hbefore with ⟨within, rfl, hwithin, hmore⟩ | ⟨within, rfl, hsecond⟩
  · -- the character stands before the piece
    obtain ⟨d, beyond, rfl⟩ := List.exists_cons_of_ne_nil hwithin
    obtain ⟨rfl, rfl⟩ := List.cons.inj hmore
    have hdead := h front c beyond rfl foreign
    rwa [← List.append_assoc] at hdead
  · exact hpiece within c more hsecond foreign

/-- A piece without foreign characters. -/
theorem plain (h : Swept before (piece ++ rest)) (hpiece : ∀ c ∈ piece, ¬ IsForeign c) :
    Swept (before ++ piece) rest := by
  refine h.append fun front c more hsplit foreign => ?_
  have hmem : c ∈ piece := by simp [hsplit]
  exact absurd foreign (hpiece c hmem)

/-- A comment: whatever stands in it is dead. -/
theorem comment (h : Swept before (piece ++ rest)) (hpiece : IsComment piece rest) :
    Swept (before ++ piece) rest := by
  refine h.append fun front c more hsplit foreign => ?_
  obtain ⟨body, rfl, hbody, -⟩ := hpiece
  refine ⟨before, front, rfl, ?_, ?_⟩
  · intro hmem
    have hin : '\n' ∈ '/' :: '/' :: body := by
      rw [hsplit]
      simp [hmem]
    exact hbody (by simpa using hin)
  · have htext : front ++ c :: (more ++ rest) = '/' :: '/' :: (body ++ rest) := by
      rw [← List.cons_append, ← List.append_assoc, ← hsplit]
      rfl
    rw [htext]
    exact ⟨body ++ rest, rfl⟩

/-- A gap. -/
theorem gap {piece : List Char} (h : Swept before (piece ++ rest))
    (hpiece : (∀ c ∈ piece, isBlank c = true) ∨ IsComment piece rest) :
    Swept (before ++ piece) rest := by
  rcases hpiece with blank | hcomment
  · refine h.plain fun c hc foreign => ?_
    have hblank := blank c hc
    rw [foreign.solid] at hblank
    cases hblank
  · exact h.comment hcomment

end Swept

/-- Where no comment reaches over a place that has a line of its own left, none starts on that
line before the place. -/
theorem Clear.startsComment_eq {before after front more : List Char} {c : Char}
    (h : Clear before (c :: after)) (hc : c ≠ '\n') (hbefore : before = front ++ more)
    (hne : more ≠ []) (hline : '\n' ∉ more) : startsComment (more ++ c :: after) = false := by
  refine Bool.eq_false_iff.2 fun hstarts => ?_
  -- the comment would have to end before the place
  obtain ⟨comment, left, htext, hcomment⟩ := exists_comment hstarts
  obtain ⟨beyond, hbeyond⟩ := h front more comment left hbefore hne htext hcomment
  have hleft : left = beyond ++ c :: after := by
    rw [hbeyond, List.append_assoc] at htext
    exact (List.append_cancel_left htext).symm
  obtain ⟨-, -, -, hends⟩ := hcomment
  cases beyond with
  | nil => exact hc (hends c (by simp [hleft]))
  | cons e beyond =>
      have hnewline : e = '\n' := hends e (by simp [hleft])
      apply hline
      rw [hbeyond, hnewline]
      simp

/-- Where no comment reaches over a place, a foreign character there lies in none. -/
theorem Clear.not_dead {before after : List Char} {c : Char} (h : Clear before (c :: after))
    (foreign : IsForeign c) : ¬ Dead before (c :: after) := by
  intro hdead
  obtain ⟨front, more, hbefore, hline, slashes⟩ := hdead
  cases more with
  | nil =>
      obtain ⟨rest, hrest⟩ := slashes
      exact foreign.ne_slash (List.cons.inj hrest).1.symm
  | cons d more =>
      have hplain := h.startsComment_eq foreign.ne_newline hbefore (List.cons_ne_nil d more) hline
      obtain ⟨rest, hrest⟩ := slashes
      rw [← hrest] at hplain
      cases hplain

/-- No foreign character stands on a line before a place that no comment reaches over. -/
theorem Swept.not_isForeign {before after front lead : List Char} {c : Char}
    (hswept : Swept before (c :: after)) (hclear : Clear before (c :: after)) (hc : c ≠ '\n')
    (hbefore : before = front ++ lead) (hline : '\n' ∉ lead) : ∀ d ∈ lead, ¬ IsForeign d := by
  intro d hmem foreign
  obtain ⟨first, second, rfl⟩ := List.append_of_mem hmem
  -- the comment that it lies in would reach over the place
  obtain ⟨start, more, hstart, hmore, slashes⟩ :=
    hswept (front ++ first) d second (by rw [hbefore, List.append_assoc]) foreign
  have hsplit : before = start ++ (more ++ d :: second) := by
    rw [hbefore, ← List.append_assoc, hstart, List.append_assoc]
  have hsingle : '\n' ∉ more ++ d :: second := by
    intro hnewline
    rcases List.mem_append.1 hnewline with hin | hin
    · exact hmore hin
    · exact hline (List.mem_append_right first hin)
  have hplain := hclear.startsComment_eq hc hsplit (by simp) hsingle
  obtain ⟨rest, hrest⟩ := slashes
  rw [List.append_assoc, List.cons_append, ← hrest] at hplain
  cases hplain

namespace Scanner

variable {scanner place : Scanner}

/-- Wherever a scan comes to, no comment reaches over the place, and every foreign character
behind it lies in a comment. -/
theorem Visits.swept {file source : String} (h : (Scanner.start file source).Visits place) :
    ∃ before, source.toList = before ++ place.rest ∧ place.offset = byteLength before
      ∧ Clear before place.rest ∧ Swept before place.rest := by
  induction h with
  | start => exact ⟨[], rfl, rfl, .start _, .start _⟩
  | @step place next _ hstep ih =>
      obtain ⟨before, hsource, hoffset, hclear, hswept⟩ := ih
      obtain ⟨⟨kind?, piece⟩, left, taken, rfl⟩ := hstep
      have hrest : piece ++ left = place.rest := append_of_split? taken
      rw [← hrest] at hclear hswept
      refine ⟨before ++ piece, ?_, ?_, ?_⟩
      · rw [hsource, ← hrest, List.append_assoc]
        rfl
      · rw [Text.byteLength_append, ← hoffset]
        rfl
      · cases kind? with
        | none => exact ⟨hclear.gap (Gap.of_split? taken), hswept.gap (gap_shape taken)⟩
        | some kind =>
            obtain ⟨stands, plain⟩ := stands_of_split? taken
            exact ⟨hclear.plain (stands.plain plain), hswept.plain stands.not_isForeign⟩

/-- A scan that succeeds comes to the end of its text. -/
theorem visits_of_ok {tokens : List Token} (h : scanner.tokens? = .ok tokens) :
    ∃ place, scanner.Visits place ∧ place.rest = [] := by
  induction h using scan_induction with
  | last scanner hnil => exact ⟨scanner, .start, hnil⟩
  | gap scanner piece left tokens taken _ _ ih =>
      obtain ⟨place, hvisits, hplace⟩ := ih
      exact ⟨place, .head ⟨_, left, taken, rfl⟩ hvisits, hplace⟩
  | token scanner kind piece left tokens taken _ _ ih =>
      obtain ⟨place, hvisits, hplace⟩ := ih
      exact ⟨place, .head ⟨_, left, taken, rfl⟩ hvisits, hplace⟩

end Scanner

/-! ## §3. Which texts are cut into tokens. -/

variable {file source : String}

/-- A text that is cut into tokens has no stray character. -/
theorem not_stray_of_ok {tokens : List Token} (h : tokenize file source = .ok tokens)
    {before after : List Char} {c : Char} : ¬ Stray source.toList before c after := by
  intro stray
  obtain ⟨place, hvisits, hplace⟩ := Scanner.visits_of_ok h
  obtain ⟨behind, hsource, -, -, hswept⟩ := hvisits.swept
  rw [hplace, List.append_nil] at hsource
  rw [hplace] at hswept
  have hdead := hswept before c after (hsource.symm.trans stray.place) stray.foreign
  rw [List.append_nil] at hdead
  exact stray.live hdead

/-- The error of a text that is not cut into tokens is about its first stray character. -/
theorem firstStray_of_error {error : Error} (h : tokenize file source = .error error) :
    ∃ before c after, FirstStray source.toList before c after
      ∧ error = ⟨.unrecognisedToken (String.singleton c),
          ⟨UInt32.ofNat (byteLength before), file⟩⟩ := by
  obtain ⟨place, c, after, hvisits, hplace, hnone, rfl⟩ := Scanner.visits_of_error h
  have hfile : place.file = file := hvisits.file
  obtain ⟨before, hsource, hoffset, hclear, hswept⟩ := hvisits.swept
  rw [hplace] at hsource hnone hclear hswept
  have foreign : IsForeign c := (split?_eq_none_iff c after).1 hnone
  refine ⟨before, c, after, ⟨⟨hsource, foreign, hclear.not_dead foreign⟩, ?_⟩, ?_⟩
  · intro before' c' after' stray
    apply Nat.le_of_not_lt
    intro hlt
    -- what stands further left was swept, so it is not stray
    have hsame := hsource.symm.trans stray.place
    rcases place_cases hsame with ⟨within, rfl, hwithin, hmore⟩ | ⟨within, rfl, -⟩
    · obtain ⟨d, beyond, rfl⟩ := List.exists_cons_of_ne_nil hwithin
      obtain ⟨rfl, rfl⟩ := List.cons.inj hmore
      exact stray.live (hswept before' c' beyond rfl stray.foreign)
    · rw [List.length_append] at hlt
      omega
  · unfold Scanner.unrecognised Scanner.head Scanner.position
    rw [hplace, hoffset, hfile]
    rfl

/-- **A text fails to be cut exactly at its first stray character.**  There is an error if
and only if the text has a stray character; the error names the first one, its byte and the
file. -/
theorem stray_decides (file : String) (bound : byteLength source.toList < 4294967296) :
    ((∃ error, tokenize file source = .error error)
      ↔ ∃ before c after, Stray source.toList before c after)
    ∧ ∀ error, tokenize file source = .error error
        ↔ ∃ before c after, FirstStray source.toList before c after
            ∧ error.fault = .unrecognisedToken (String.singleton c)
            ∧ error.position.file = file
            ∧ error.position.offset.toNat = byteLength before := by
  have hfails : (∃ before c after, Stray source.toList before c after) →
      ∃ error, tokenize file source = .error error := by
    intro hstray
    obtain ⟨before, c, after, stray⟩ := hstray
    cases htokens : tokenize file source with
    | ok tokens => exact absurd stray (not_stray_of_ok htokens)
    | error error => exact ⟨error, rfl⟩
  have hoffset {before after : List Char} {c : Char} (h : Stray source.toList before c after) :
      (UInt32.ofNat (byteLength before)).toNat = byteLength before := by
    have hlength := congrArg byteLength h.place
    rw [Text.byteLength_append] at hlength
    apply UInt32.toNat_ofNat_of_lt'
    show byteLength before < 4294967296
    omega
  refine ⟨⟨fun h => ?_, hfails⟩, fun error => ⟨fun h => ?_, fun h => ?_⟩⟩
  · obtain ⟨error, herror⟩ := h
    obtain ⟨before, c, after, first, -⟩ := firstStray_of_error herror
    exact ⟨before, c, after, first.toStray⟩
  · obtain ⟨before, c, after, first, rfl⟩ := firstStray_of_error h
    exact ⟨before, c, after, first, rfl, rfl, hoffset first.toStray⟩
  · obtain ⟨before, c, after, first, hfault, hfile, hplace⟩ := h
    obtain ⟨found, hfound⟩ := hfails ⟨before, c, after, first.toStray⟩
    obtain ⟨before', c', after', first', rfl⟩ := firstStray_of_error hfound
    obtain ⟨rfl, rfl⟩ := first.unique first'
    obtain ⟨fault, ⟨offset, name⟩⟩ := error
    cases hfault
    cases hfile
    rw [hfound]
    congr 3
    apply UInt32.toNat_inj.1
    rw [hoffset first.toStray]
    exact hplace.symm

/-- A section sign in a comment that touches a number, and a euro sign on the next line. -/
theorem euro_behind_comment :
    byteLength "1.// §\n/ /€§".toList < 4294967296
      ∧ tokenize "sel" "1.// §\n/ /€§" = .error ⟨.unrecognisedToken "€", ⟨11, "sel"⟩⟩
      ∧ ∃ before c after, FirstStray "1.// §\n/ /€§".toList before c after
          ∧ Fault.unrecognisedToken "€" = .unrecognisedToken (String.singleton c)
          ∧ "sel" = "sel" ∧ UInt32.toNat 11 = byteLength before := by
  have bound : byteLength "1.// §\n/ /€§".toList < 4294967296 := by decide
  have h : tokenize "sel" "1.// §\n/ /€§"
      = .error ⟨.unrecognisedToken "€", ⟨11, "sel"⟩⟩ := by decide +kernel
  exact ⟨bound, h, ((stray_decides "sel" bound).2 _).1 h⟩

end Fixity
