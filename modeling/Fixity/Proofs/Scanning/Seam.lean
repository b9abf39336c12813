/-
  Fixity.Proofs.Scanning.Seam
  ────────────────────────────────
  **TOKENS ON BOTH SIDES OF A NEWLINE.**

  A newline ends every token and every comment.  So the tokens of two texts with a
  newline between them are those of the first, without the end mark, and then those
  of the second, further on.  Only the character that the last token of the first
  text remembers is not the same, and it is no operator character in either case.

  Main results: `tokens?_newline` and `tokens?_seam` (what stands before a newline),
  `tokens?_later` (what stands further on) and `tokenize_joined` (two texts with a semicolon
  between them).
-/
import Fixity.Scanner
import Fixity.Proofs.Scanning.Pieces
import Fixity.Proofs.Scanning.Cut

namespace Fixity

open Text (byteLength isBlank)

/-! ## §1. Tokens that differ in what follows them. -/

namespace Token

/-- One token, up to the character that it remembers. -/
structure Same (token other : Token) : Prop where
  /-- The kind. -/
  kind : other.kind = token.kind
  /-- The text. -/
  text : other.text = token.text
  /-- The place. -/
  start : other.start = token.start
  /-- The end. -/
  stop : other.stop = token.stop

/-- The token so many bytes further on. -/
def later (distance : Nat) (token : Token) : Token :=
  { token with
    start := token.start + UInt32.ofNat distance
    stop := token.stop + UInt32.ofNat distance }

end Token

/-- The error so many bytes further on. -/
def Error.later (distance : Nat) (error : Error) : Error :=
  ⟨error.fault, error.position.offset + UInt32.ofNat distance, error.position.file⟩

/-- The tokens of a text, with others in place of the end mark. -/
inductive Seam (more : List Token) : List Token → List Token → Prop
  /-- The end mark gives way to the others. -/
  | stop {mark : Token} : mark.kind = .eof → Seam more [mark] more
  /-- Every other token stays. -/
  | step {token other : Token} {rest rest' : List Token} :
      token.Same other → Seam more rest rest' → Seam more (token :: rest) (other :: rest')

namespace Seam

theorem ne_nil {more tokens joined : List Token} (h : Seam more tokens joined) : tokens ≠ [] := by
  cases h <;> simp

/-- The tokens before the end mark may be the same ones. -/
theorem of_front {mark : Token} (hmark : mark.kind = .eof) (front more : List Token) :
    Seam more (front ++ [mark]) (front ++ more) := by
  induction front with
  | nil => exact .stop hmark
  | cons token front ih => exact .step ⟨rfl, rfl, rfl, rfl⟩ ih

end Seam

/-- The tokens of a text that stops at a byte, up to the end mark, as they are where a newline
follows the text: a last one that stops there as well remembers the newline. -/
inductive BeforeNewline (stop : Nat) : List Token → List Token → Prop
  /-- The end mark goes. -/
  | mark {mark : Token} : mark.kind = .eof → BeforeNewline stop [mark] []
  /-- The newline stands right after the last token. -/
  | touching {last mark : Token} : last.stop = UInt32.ofNat stop → mark.kind = .eof →
      BeforeNewline stop [last, mark] [{ last with trailing := some '\n' }]
  /-- A token that stops before the end of the text stays as it is. -/
  | apart {token : Token} {rest front : List Token} {place : Nat} :
      token.stop = UInt32.ofNat place → place < stop → BeforeNewline stop rest front →
      BeforeNewline stop (token :: rest) (token :: front)

namespace BeforeNewline

theorem ne_nil {stop : Nat} {tokens front : List Token} (h : BeforeNewline stop tokens front) :
    tokens ≠ [] := by
  cases h <;> simp

/-- Nothing stands before an end mark that is alone. -/
theorem eq_nil_of_mark {stop : Nat} {mark : Token} {front : List Token}
    (h : BeforeNewline stop [mark] front) : front = [] := by
  cases h with
  | mark => rfl
  | apart _ _ hrest => exact absurd rfl hrest.ne_nil

/-- What comes after the newline comes in place of the end mark. -/
theorem seam {stop : Nat} {tokens front : List Token} (h : BeforeNewline stop tokens front)
    (next : List Token) : Seam next tokens (front ++ next) := by
  induction h with
  | mark hmark => exact .stop hmark
  | touching _ hmark => exact .step ⟨rfl, rfl, rfl, rfl⟩ (.stop hmark)
  | apart _ _ _ ih => exact .step ⟨rfl, rfl, rfl, rfl⟩ ih

end BeforeNewline

/-! ## §2. Before a newline. -/

/-- A gap that a text starts with is blank, or it is a comment, which the newline ends. -/
theorem gap_cases {text piece left : List Char} (h : split? text = some (⟨none, piece⟩, left)) :
    (∀ c ∈ piece, isBlank c = true)
      ∨ ∀ more, split? (text ++ '\n' :: more) = some (⟨none, piece⟩, left ++ '\n' :: more) := by
  have hstop : decide ('\n' ≠ '\n') = false := by decide
  obtain ⟨c, rest, rfl, word, digit, ⟨blank, rfl, -⟩ | ⟨blank, comment, rfl, rfl⟩⟩ := cases_of_gap h
  · -- a run of blanks grows if more of them follow, so only its characters are kept
    refine .inl fun d hd => ?_
    rcases List.mem_cons.1 hd with rfl | hd
    · exact blank
    · exact List.mem_takeWhile_imp hd
  · -- a comment runs up to the newline, and would run on without one
    refine .inr fun more => ?_
    have hcomment : startsComment (c :: (rest ++ '\n' :: more)) = true := by
      rw [startsComment_append (by decide)]
      exact comment
    have htake := takeWhile_append_stop (p := fun c => decide (c ≠ '\n')) hstop rest more
    have hdrop := dropWhile_append_stop (p := fun c => decide (c ≠ '\n')) hstop rest more
    simp only [List.cons_append, split?, word, digit, blank, hcomment, htake, hdrop,
      Bool.false_eq_true, if_false, if_true]

/-- A character that starts no token starts none before a newline either. -/
theorem split?_none_append {text : List Char} (h : split? text = none) (hne : text ≠ [])
    (more : List Char) : split? (text ++ '\n' :: more) = none := by
  cases text with
  | nil => exact absurd rfl hne
  | cons c rest =>
      simp only [split?] at h
      simp only [List.cons_append, split?, startsComment_append (show '\n' ≠ '/' by decide)]
      split at h
      · simp at h
      · next word =>
        split at h
        · simp at h
        · next digit =>
          split at h
          · simp at h
          · next blank =>
            split at h
            · simp at h
            · next comment =>
              split at h
              · simp at h
              · next punctuation => simp [word, digit, blank, comment, punctuation]

namespace Scanner

/-- Blanks are passed over, however many there are. -/
theorem tokens?_blanks (scanner : Scanner) :
    scanner.tokens?
      = (scanner.past (scanner.rest.takeWhile isBlank) (scanner.rest.dropWhile isBlank)).tokens? := by
  obtain ⟨file, offset, rest⟩ := scanner
  cases rest with
  | nil => rfl
  | cons c rest =>
      cases blank : isBlank c with
      | false => simp [past, blank]
      | true =>
          have hsplit : split? (c :: rest)
              = some (⟨none, c :: rest.takeWhile isBlank⟩, rest.dropWhile isBlank) := by
            obtain ⟨part, digit, -, -⟩ := stops_of_isBlank blank
            have word : isWordStart c = false := (class_of_not_isWordPart part).1
            simp [split?, word, digit, blank]
          rw [tokens?_gap hsplit]
          simp [blank]

/-- A blank piece of a text is passed over, whatever follows it. -/
theorem tokens?_blank_append {file : String} {offset : Nat} {piece : List Char}
    (h : ∀ c ∈ piece, isBlank c = true) (text : List Char) :
    (Scanner.mk file offset (piece ++ text)).tokens?
      = (Scanner.mk file (offset + byteLength piece) text).tokens? := by
  rw [tokens?_blanks, tokens?_blanks (Scanner.mk file (offset + byteLength piece) text)]
  simp only [past, List.takeWhile_append_of_pos h, List.dropWhile_append_of_pos h,
    Text.byteLength_append, Nat.add_assoc]

theorem blank_newline : ∀ c ∈ ['\n'], isBlank c = true := by
  intro c hmem
  rw [List.mem_singleton.1 hmem]
  rfl

/-- What follows a token does not depend on what stands after a newline. -/
theorem trailing_append (text more : List Char) :
    trailing (text ++ '\n' :: more) = trailing (text ++ ['\n']) := by
  unfold trailing
  cases text with
  | nil => rfl
  | cons c rest =>
      rw [List.cons_append, List.cons_append, startsComment_append (by decide),
        startsComment_append (by decide)]
      rfl

/-- Inside a text a newline after the text changes nothing. -/
theorem trailing_newline {text : List Char} (h : text ≠ []) :
    trailing (text ++ ['\n']) = trailing text := by
  obtain ⟨c, rest, rfl⟩ := List.exists_cons_of_ne_nil h
  unfold trailing
  rw [List.cons_append, startsComment_append (by decide)]
  rfl

/-- A first token before the others: it touches the newline if nothing of the text is left. -/
theorem beforeNewline_token {scanner : Scanner} {kind : Kind} {piece left : List Char}
    {rest front : List Token} {stop : Nat}
    (hstop : scanner.offset + (byteLength piece + byteLength left) = stop)
    (hrest : (scanner.past piece left).tokens? = .ok rest) (hbefore : BeforeNewline stop rest front) :
    BeforeNewline stop (scanner.token kind piece left :: rest)
      (scanner.token kind piece (left ++ ['\n']) :: front) := by
  subst hstop
  by_cases hleft : left = []
  · subst hleft
    have hmark : rest = [(scanner.past piece []).endToken] := by
      rw [tokens?] at hrest
      exact (Except.ok.inj hrest).symm
    subst hmark
    cases hbefore.eq_nil_of_mark
    exact .touching rfl rfl
  · have htoken : scanner.token kind piece (left ++ ['\n']) = scanner.token kind piece left := by
      unfold token
      rw [trailing_newline hleft]
    have hpos := List.length_pos_iff.2 hleft
    have hbytes := Text.length_le_byteLength left
    rw [htoken]
    exact .apart rfl (Nat.add_lt_add_left (by omega) scanner.offset) hbefore

/-- A newline leaves the tokens before it as they are, but for a last one that it touches, and
those after it as well: whatever stands after it, the tokens of that come after the same ones. -/
theorem tokens?_newline {scanner : Scanner} {tokens : List Token}
    (h : scanner.tokens? = .ok tokens) :
    ∃ front : List Token, BeforeNewline (scanner.offset + byteLength scanner.rest) tokens front
      ∧ ∀ more, (Scanner.mk scanner.file scanner.offset (scanner.rest ++ '\n' :: more)).tokens?
        = (Scanner.mk scanner.file (scanner.offset + byteLength scanner.rest)
            ('\n' :: more)).tokens?.map (front ++ ·) := by
  -- the induction follows the scan; the tokens so far are put in front of what the rest of
  -- the text is joined to
  induction h using scan_induction with
  | last scanner hnil =>
      refine ⟨[], .mark rfl, fun more => ?_⟩
      rw [hnil]
      show (Scanner.mk scanner.file scanner.offset ('\n' :: more)).tokens?
        = (Scanner.mk scanner.file scanner.offset ('\n' :: more)).tokens?.map id
      cases (Scanner.mk scanner.file scanner.offset ('\n' :: more)).tokens? <;> rfl
  | gap scanner piece left tokens taken _ _ ih =>
      have happend := append_of_split? taken
      have hlength := congrArg byteLength happend
      simp only [Text.byteLength_append] at hlength
      obtain ⟨front, hbefore, hfront⟩ := ih
      simp only [past, Nat.add_assoc, hlength] at hbefore hfront
      refine ⟨front, hbefore, fun more => ?_⟩
      rw [← hfront more]
      -- blanks may merge with the newline, a comment may not
      rcases gap_cases taken with hblank | hcomment
      · rw [← happend, List.append_assoc, tokens?_blank_append hblank]
      · rw [tokens?_gap (hcomment more)]
        rfl
  | token scanner kind piece left tokens taken hmore _ ih =>
      have hlength := congrArg byteLength (append_of_split? taken)
      simp only [Text.byteLength_append] at hlength
      obtain ⟨front, hbefore, hfront⟩ := ih
      simp only [past, Nat.add_assoc, hlength] at hbefore hfront
      refine ⟨_, beforeNewline_token (by rw [hlength]) hmore hbefore, fun more => ?_⟩
      have htoken : scanner.token kind piece (left ++ '\n' :: more)
          = scanner.token kind piece (left ++ ['\n']) := by
        unfold Scanner.token
        rw [trailing_append]
      rw [tokens?_token (split?_append (by decide) taken)]
      show Except.map (scanner.token kind piece (left ++ '\n' :: more) :: ·)
        (Scanner.mk scanner.file (scanner.offset + byteLength piece)
          (left ++ '\n' :: more)).tokens? = _
      rw [hfront more, htoken]
      cases (Scanner.mk scanner.file (scanner.offset + byteLength scanner.rest)
        ('\n' :: more)).tokens? <;> rfl

/-- A newline leaves the tokens before it as they are, up to the character that the last one
remembers, and those after it come in place of the end mark. -/
theorem tokens?_seam {scanner : Scanner} {tokens : List Token} (h : scanner.tokens? = .ok tokens) :
    ∃ front : List Token, (∀ next, Seam next tokens (front ++ next))
      ∧ ∀ more, (Scanner.mk scanner.file scanner.offset (scanner.rest ++ '\n' :: more)).tokens?
        = (Scanner.mk scanner.file (scanner.offset + byteLength scanner.rest)
            ('\n' :: more)).tokens?.map (front ++ ·) := by
  obtain ⟨front, hbefore, hfront⟩ := tokens?_newline h
  exact ⟨front, hbefore.seam, hfront⟩

/-- An error before a newline stays whatever comes after it. -/
theorem tokens?_error_append {scanner : Scanner} {error : Error}
    (h : scanner.tokens? = .error error) (more : List Char) :
    (Scanner.mk scanner.file scanner.offset (scanner.rest ++ '\n' :: more)).tokens?
      = .error error := by
  fun_induction tokens? scanner with
  | case1 => cases h
  | case2 scanner hnone hend =>
      cases h
      obtain ⟨file, offset, rest⟩ := scanner
      -- the character that starts no token is the first one, so the error is the same
      cases rest with
      | nil => exact absurd rfl hend
      | cons c rest =>
          rw [tokens?]
          split
          · rfl
          · next hsome =>
            have hsplit : split? (c :: rest ++ '\n' :: more) = none :=
              split?_none_append hnone (List.cons_ne_nil c rest) more
            cases hsplit.symm.trans hsome
  | case3 scanner lexeme left taken _ hkind ih =>
      obtain ⟨kind?, piece⟩ := lexeme
      cases hkind
      rcases gap_cases taken with hblank | hcomment
      · rw [← append_of_split? taken, List.append_assoc, tokens?_blank_append hblank]
        exact ih h
      · rw [tokens?_gap (hcomment more)]
        exact ih h
  | case4 scanner lexeme left taken _ kind hkind ih =>
      obtain ⟨kind?, piece⟩ := lexeme
      cases hkind
      rw [tokens?_token (split?_append (by decide) taken)]
      cases hrest : (scanner.past piece left).tokens? with
      | ok rest =>
          rw [hrest] at h
          cases h
      | error e =>
          rw [hrest] at h
          cases h
          show Except.map _ (Scanner.mk scanner.file (scanner.offset + byteLength piece)
            (left ++ '\n' :: more)).tokens? = _
          rw [show (Scanner.mk scanner.file (scanner.offset + byteLength piece)
            (left ++ '\n' :: more)).tokens? = _ from ih hrest]
          rfl

/-! ## §3. Further on. -/

/-- The scanner so many bytes further on. -/
def later (distance : Nat) (scanner : Scanner) : Scanner :=
  { scanner with offset := scanner.offset + distance }

theorem past_later (distance : Nat) (scanner : Scanner) (piece left : List Char) :
    (scanner.later distance).past piece left = (scanner.past piece left).later distance := by
  simp only [past, later, Nat.add_right_comm]

/-- A text that stands further on has the same tokens further on, or the same error. -/
theorem tokens?_later (distance : Nat) (scanner : Scanner) :
    (scanner.later distance).tokens?
      = match scanner.tokens? with
        | .ok tokens => .ok (tokens.map (Token.later distance))
        | .error error => .error (error.later distance) := by
  have hadd (n : Nat) : UInt32.ofNat (n + distance) = UInt32.ofNat n + UInt32.ofNat distance :=
    UInt32.ofNat_add n distance
  fun_induction tokens? scanner with
  | case1 scanner hnone hend =>
      rw [tokens?]
      split
      · rw [if_pos (show (later distance scanner).atEnd = true from hend)]
        simp [endToken, later, Token.later, hadd]
      · next hsome => cases hnone.symm.trans hsome
  | case2 scanner hnone hend =>
      rw [tokens?]
      split
      · rw [if_neg (show ¬ (later distance scanner).atEnd = true from hend)]
        simp [unrecognised, head, position, later, Error.later, hadd]
      · next hsome => cases hnone.symm.trans hsome
  | case3 scanner lexeme left taken _ hkind ih =>
      obtain ⟨kind?, piece⟩ := lexeme
      cases hkind
      rw [tokens?_gap (show split? (scanner.later distance).rest = _ from taken), past_later, ih]
  | case4 scanner lexeme left taken _ kind hkind ih =>
      obtain ⟨kind?, piece⟩ := lexeme
      cases hkind
      rw [tokens?_token (show split? (scanner.later distance).rest = _ from taken), past_later, ih]
      cases (scanner.past piece left).tokens? with
      | error error => rfl
      | ok tokens =>
          simp only [Except.map, token, later, Token.later, List.map_cons, hadd,
            Nat.add_right_comm scanner.offset distance]

end Scanner

/-- The tokens of a text, where it stands so many bytes further on. -/
theorem tokens?_of_tokenize {file source : String} {tokens : List Token}
    (h : tokenize file source = .ok tokens) (distance : Nat) :
    (Scanner.mk file distance source.toList).tokens?
      = .ok (tokens.map (Token.later distance)) := by
  have hlater := Scanner.tokens?_later distance (Scanner.start file source)
  rw [show (Scanner.start file source).tokens? = .ok tokens from h] at hlater
  simpa [Scanner.start, Scanner.later] using hlater

/-- The token of a semicolon between two newlines after so many bytes. -/
def semicolonAfter (offset : Nat) : Token where
  kind := .semicolon
  text := ";"
  start := UInt32.ofNat (offset + 1)
  stop := UInt32.ofNat (offset + 2)
  trailing := some '\n'

/-- Two texts with a semicolon between them have the tokens of the first, the semicolon
and the tokens of the second further on. -/
theorem tokenize_joined {file first second : String} {tokens others : List Token}
    (h : tokenize file first = .ok tokens) (h' : tokenize file second = .ok others) :
    ∃ joined, tokenize file (first ++ "\n;\n" ++ second) = .ok joined
      ∧ Seam (semicolonAfter (byteLength first.toList)
          :: others.map (Token.later (byteLength first.toList + 3))) tokens joined := by
  have hothers : (Scanner.mk file (byteLength first.toList + 3) second.toList).tokens?
      = .ok (others.map (Token.later (byteLength first.toList + 3))) :=
    tokens?_of_tokenize h' _
  have hsemicolon : (Scanner.mk file (byteLength first.toList)
      ('\n' :: ';' :: '\n' :: second.toList)).tokens?
      = .ok (semicolonAfter (byteLength first.toList)
          :: others.map (Token.later (byteLength first.toList + 3))) := by
    have hsplit : split? (';' :: '\n' :: second.toList)
        = some (⟨some .semicolon, [';']⟩, '\n' :: second.toList) := rfl
    -- newline, semicolon and newline take one byte each
    have hlast : (Scanner.mk file (byteLength first.toList + 1 + 1) (['\n'] ++ second.toList)).tokens?
        = .ok (others.map (Token.later (byteLength first.toList + 3))) := by
      rw [Scanner.tokens?_blank_append Scanner.blank_newline]
      exact hothers
    show (Scanner.mk file (byteLength first.toList)
      (['\n'] ++ ';' :: '\n' :: second.toList)).tokens? = _
    rw [Scanner.tokens?_blank_append Scanner.blank_newline, Scanner.tokens?_token hsplit]
    show Except.map _ (Scanner.mk file (byteLength first.toList + 1 + 1)
      (['\n'] ++ second.toList)).tokens? = _
    rw [hlast]
    rfl
  obtain ⟨front, hseam, hfront⟩ := Scanner.tokens?_seam h
  have hjoined := hfront (';' :: '\n' :: second.toList)
  refine ⟨_, ?_, hseam _⟩
  simp only [Scanner.start, Nat.zero_add, hsemicolon, Except.map] at hjoined
  simpa [tokenize, Scanner.start] using hjoined

/-- More text after a newline leaves the tokens before it as they are: its own come after
them, in place of the end mark. -/
theorem tokenize_further {file source : String} {tokens : List Token}
    (closed : source.toList.getLast? = some '\n') (h : tokenize file source = .ok tokens) :
    ∃ front mark, tokens = front ++ [mark] ∧ mark.kind = .eof
      ∧ ∀ more, tokenize file (source ++ more)
        = (Scanner.mk file (byteLength source.toList) more.toList).tokens?.map (front ++ ·) := by
  obtain ⟨before, hbefore⟩ := List.getLast?_eq_some_iff.1 closed
  cases hrun : (Scanner.mk file 0 before).tokens? with
  | error error =>
      have hsource : tokenize file source = (Scanner.mk file 0 (before ++ '\n' :: [])).tokens? := by
        rw [tokenize, Scanner.start, hbefore]
      rw [hsource, Scanner.tokens?_error_append hrun []] at h
      cases h
  | ok first =>
      obtain ⟨front, -, hfront⟩ := Scanner.tokens?_seam hrun
      have hlength : 0 + byteLength before + byteLength ['\n'] = byteLength source.toList := by
        rw [hbefore, Text.byteLength_append, Nat.zero_add]
      -- the newline itself is passed over
      have hmore (more : List Char) : (Scanner.mk file 0 (before ++ '\n' :: more)).tokens?
          = (Scanner.mk file (byteLength source.toList) more).tokens?.map (front ++ ·) := by
        have hnewline := @Scanner.tokens?_blank_append file (0 + byteLength before) _
          Scanner.blank_newline more
        rw [hlength] at hnewline
        rw [← hnewline]
        exact hfront more
      have hend : (Scanner.mk file (byteLength source.toList) []).tokens?
          = .ok [(Scanner.mk file (byteLength source.toList) []).endToken] := by
        unfold Scanner.tokens?
        rfl
      refine ⟨front, (Scanner.mk file (byteLength source.toList) []).endToken, ?_, rfl,
        fun more => ?_⟩
      · have hsource := hmore []
        rw [hend, ← hbefore] at hsource
        exact Except.ok.inj (h.symm.trans hsource)
      · rw [← hmore, tokenize, Scanner.start, String.toList_append, hbefore, List.append_assoc]
        rfl

theorem tokenize_extended {file source more : String} {tokens extended : List Token}
    (closed : source.toList.getLast? = some '\n') (h : tokenize file source = .ok tokens)
    (h' : tokenize file (source ++ more) = .ok extended) :
    ∃ next, Seam next tokens extended := by
  obtain ⟨front, mark, rfl, hmark, hfront⟩ := tokenize_further closed h
  rw [hfront] at h'
  cases hnext : (Scanner.mk file (byteLength source.toList) more.toList).tokens? with
  | error error =>
      rw [hnext] at h'
      cases h'
  | ok next =>
      rw [hnext] at h'
      cases h'
      exact ⟨next, .of_front hmark front next⟩

end Fixity
