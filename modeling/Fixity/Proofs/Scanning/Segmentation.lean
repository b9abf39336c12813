/-
  Fixity.Proofs.Scanning.Segmentation
  ────────────────────────────────
  **THE TOKENS OF A TEXT ARE ITS ONE SEGMENTATION.**

  A segmentation of a text is a row of tokens that stand in it, in order and apart, with
  no more than blanks and comments before, between and after them, none of them in a
  comment, and an end mark behind them.  A text has one segmentation at most.  A text
  whose scan succeeds has one, and the tokens are it.

  The scan itself goes from one boundary between characters to a later one.

  Both directions pass through `Scanned`, where the text is taken apart from the left.
  That no token lies in a comment is known there only of the comment that would start
  at the token; the comments that start further left are told by `Clear`, which every
  step of the scan keeps.

  Main results: `segmentation_iff` (a text is segmented just as its tokens say) and
  `only_segmentation` (so there is no other way), with `Scanner.Visits.onBoundary` and
  `Scanner.taken_of_mem` (where the tokens of a text are taken).
-/
import Fixity.Program
import Fixity.Proofs.Scanning.Segments
import Fixity.Proofs.Scanning.Words

namespace Fixity

open Text (byteLength)

/-! ## §1. Parts of a text and their places. -/

/-- A part that stands between two bytes of a text, where another text follows it.  Both
bytes lie between characters. -/
def PartOf (source : List Char) (start stop : Nat) (part after : List Char) : Prop :=
  ∃ before, source = before ++ (part ++ after) ∧ byteLength before = start
    ∧ start + byteLength part = stop

/-- The bytes of one text name one place in it. -/
theorem append_inj_of_byteLength {first second first' second' : List Char}
    (h : first ++ second = first' ++ second') (hlength : byteLength first = byteLength first') :
    first = first' ∧ second = second' := by
  have hsecond : second = second' := by
    rw [← Text.dropBytes_byteLength_append first second, h, hlength,
      Text.dropBytes_byteLength_append]
  subst hsecond
  exact ⟨List.append_cancel_right h, rfl⟩

/-- A part that starts where the rest of a text starts. -/
theorem PartOf.rest_eq {before rest part after : List Char} {stop : Nat}
    (h : PartOf (before ++ rest) (byteLength before) stop part after) :
    rest = part ++ after ∧ stop = byteLength (before ++ part) := by
  obtain ⟨front, hsource, hstart, hstop⟩ := h
  obtain ⟨rfl, hrest⟩ := append_inj_of_byteLength hsource hstart.symm
  exact ⟨hrest, by rw [Text.byteLength_append, hstop]⟩

theorem byteLength_pos {text : List Char} (h : text ≠ []) : 0 < byteLength text := by
  have hchars := List.length_pos_iff.2 h
  have hbytes := Text.length_le_byteLength text
  omega

/-! ## §2. Segmentations. -/

/-- A token with its place, as numbers. -/
structure Segment where
  /-- What it is. -/
  kind : Kind
  /-- The characters it was cut from. -/
  text : String
  /-- Bytes before it. -/
  start : Nat
  /-- Bytes before its end. -/
  stop : Nat
deriving Repr, DecidableEq

/-- The place, kind and text of a token. -/
def Token.segment (token : Token) : Segment :=
  ⟨token.kind, token.text, token.start.toNat, token.stop.toNat⟩

/-- The mark at the end of a text, which has no width. -/
def Segment.endMark (source : List Char) : Segment :=
  ⟨.eof, Token.eofText, byteLength source, byteLength source⟩

/-- A segment that is cut from a text: its text stands at its place, and can be a token
of its kind there. -/
def Segment.StandsIn (source : List Char) (segment : Segment) : Prop :=
  ∃ text after, PartOf source segment.start segment.stop text after
    ∧ segment.text = String.ofList text ∧ Stands segment.kind text after

/-- No more than blanks and comments between two bytes of a text. -/
def GapBetween (source : List Char) (start stop : Nat) : Prop :=
  ∃ gap after, PartOf source start stop gap after ∧ Gap gap after

/-- A comment between two bytes of a text, up to the end of its line. -/
def CommentBetween (source : List Char) (start stop : Nat) : Prop :=
  ∃ text after, PartOf source start stop text after ∧ IsComment text after

/-- A segmentation of a text from a byte on. -/
structure Segmentation (source : List Char) (origin : Nat) (segments : List Segment) : Prop where
  /-- One end mark comes last; before it stand tokens of the text, none of them empty. -/
  tokens : ∃ front, segments = front ++ [.endMark source]
    ∧ ∀ segment ∈ front, segment.StandsIn source ∧ segment.start < segment.stop
  /-- The segments come in order and do not overlap. -/
  ordered : segments.Pairwise fun segment next => segment.stop ≤ next.start
  /-- A gap stands before the first one. -/
  leading : ∀ segment ∈ segments.head?, GapBetween source origin segment.start
  /-- A gap stands before every other one, the end mark included. -/
  between : ∀ front segment next more, segments = front ++ segment :: next :: more →
    GapBetween source segment.stop next.start
  /-- None of them lies in a comment. -/
  clear : ∀ segment ∈ segments, ∀ start stop, CommentBetween source start stop →
    segment.stop ≤ start ∨ stop ≤ segment.start

/-! ## §3. A text taken apart from the left. -/

/-- What is left of a text, taken apart into gaps and tokens.  The first text is the part
that lies behind. -/
inductive Scanned : List Char → List Char → List Segment → Prop
  /-- A last gap. -/
  | last {before gap : List Char} : Gap gap [] → Scanned before gap [.endMark (before ++ gap)]
  /-- A gap and a token. -/
  | token {before gap text after : List Char} {kind : Kind} {segments : List Segment} :
      Gap gap (text ++ after) → Stands kind text after → startsComment (text ++ after) = false →
      Scanned (before ++ gap ++ text) after segments →
      Scanned before (gap ++ (text ++ after))
        (⟨kind, String.ofList text, byteLength (before ++ gap),
          byteLength (before ++ gap ++ text)⟩ :: segments)

/-- A gap in front of what is taken apart. -/
theorem Scanned.gap {before piece rest : List Char} {segments : List Segment}
    (hgap : Gap piece rest) (h : Scanned (before ++ piece) rest segments) :
    Scanned before (piece ++ rest) segments := by
  generalize hbehind : before ++ piece = behind at h
  cases h with
  | @last behind rest hlast =>
      subst hbehind
      have hpiece : Gap piece (rest ++ []) := by rwa [List.append_nil]
      rw [List.append_assoc]
      exact .last (hpiece.append hlast)
  | @token behind gap text after kind segments hnext hstands plain hrest =>
      subst hbehind
      have hmore : Scanned (before ++ (piece ++ gap) ++ text) after segments := by
        simpa only [List.append_assoc] using hrest
      have hscanned := Scanned.token (hgap.append hnext) hstands plain hmore
      simpa only [List.append_assoc] using hscanned

/-! ## §4. A scan takes a text apart. -/

namespace Scanner

/-- The tokens of a text take it apart. -/
theorem scanned_of_tokens? {scanner : Scanner} {tokens : List Token} {before : List Char}
    (h : scanner.tokens? = .ok tokens) (hoffset : scanner.offset = byteLength before)
    (bound : byteLength before + byteLength scanner.rest < 4294967296) :
    Scanned before scanner.rest (tokens.map Token.segment) := by
  have toNat_ofNat {n : Nat} (hn : n < 4294967296) : (UInt32.ofNat n).toNat = n :=
    UInt32.toNat_ofNat_of_lt' hn
  induction h using scan_induction generalizing before with
  | last scanner hnil =>
      have hlast : Scanned before [] [.endMark (before ++ [])] := .last .nil
      have hmark : scanner.endToken.segment = .endMark (before ++ []) := by
        simp only [Token.segment, endToken, Segment.endMark, hoffset, List.append_nil]
        rw [toNat_ofNat (by omega)]
      rw [hnil, List.map_singleton, hmark]
      exact hlast
  | gap scanner piece left tokens taken _ _ ih =>
      have hrest : piece ++ left = scanner.rest := append_of_split? taken
      have hlength := congrArg byteLength hrest
      rw [Text.byteLength_append] at hlength
      have hscanned : Scanned (before ++ piece) left (tokens.map Token.segment) :=
        ih (by simp [past, hoffset]) (by simp only [past, Text.byteLength_append]; omega)
      rw [← hrest]
      exact hscanned.gap (Gap.of_split? taken)
  | token scanner kind piece left tokens taken _ _ ih =>
      have hrest : piece ++ left = scanner.rest := append_of_split? taken
      have hlength := congrArg byteLength hrest
      rw [Text.byteLength_append] at hlength
      obtain ⟨stands, plain⟩ := stands_of_split? taken
      have hscanned : Scanned (before ++ [] ++ piece) left (tokens.map Token.segment) :=
        ih (by simp [past, hoffset])
          (by simp only [past, Text.byteLength_append, List.append_nil]; omega)
      have htoken := Scanned.token .nil stands plain hscanned
      have hsegment : (scanner.token kind piece left).segment
          = ⟨kind, String.ofList piece, byteLength (before ++ []),
            byteLength (before ++ [] ++ piece)⟩ := by
        simp only [Token.segment, Scanner.token, hoffset, List.append_nil, Text.byteLength_append]
        rw [toNat_ofNat (by omega), toNat_ofNat (by omega)]
      rw [← hrest, List.map_cons, hsegment]
      exact htoken

end Scanner

/-- What a text is taken apart into is what a scan finds. -/
theorem Scanned.tokens? {before rest : List Char} {segments : List Segment}
    (h : Scanned before rest segments) (file : String)
    (bound : byteLength before + byteLength rest < 4294967296) :
    ∃ tokens, (Scanner.mk file (byteLength before) rest).tokens? = .ok tokens
      ∧ tokens.map Token.segment = segments := by
  have toNat_ofNat {n : Nat} (hn : n < 4294967296) : (UInt32.ofNat n).toNat = n :=
    UInt32.toNat_ofNat_of_lt' hn
  induction h with
  | @last before gap hgap =>
      have hpass := hgap.tokens? file (byteLength before)
      rw [List.append_nil] at hpass
      refine ⟨_, hpass.trans (Scanner.tokens?_nil file _), ?_⟩
      simp only [List.map_singleton, Token.segment, Scanner.endToken, Segment.endMark,
        Text.byteLength_append]
      rw [toNat_ofNat bound]
  | @token before gap text after kind segments hgap hstands plain _ ih =>
      simp only [Text.byteLength_append] at bound ih
      obtain ⟨tokens, htokens, hsegments⟩ := ih (by omega)
      have hsplit := split?_of_stands hstands plain
      let scanner : Scanner := ⟨file, byteLength before + byteLength gap, text ++ after⟩
      refine ⟨scanner.token kind text after :: tokens, ?_, ?_⟩
      · rw [hgap.tokens? file, Scanner.tokens?_token hsplit]
        simp only [Scanner.past]
        rw [htokens]
        rfl
      · simp only [List.map_cons, hsegments, Token.segment, Scanner.token, Text.byteLength_append]
        rw [toNat_ofNat (show scanner.offset < 4294967296 by simp only [scanner]; omega),
          toNat_ofNat (show scanner.offset + _ < 4294967296 by simp only [scanner]; omega)]

/-! ## §5. Comments to the left of a place. -/

/-- Every comment that starts before a place ends before it. -/
def Clear (before rest : List Char) : Prop :=
  ∀ front more text after, before = front ++ more → more ≠ [] → more ++ rest = text ++ after →
    IsComment text after → ∃ beyond, more = text ++ beyond

/-- A place in a text that consists of two parts lies within the first or in the second. -/
theorem place_cases {before piece front more : List Char} (h : before ++ piece = front ++ more) :
    (∃ within, before = front ++ within ∧ within ≠ [] ∧ more = within ++ piece)
      ∨ ∃ within, front = before ++ within ∧ piece = within ++ more := by
  rcases List.append_eq_append_iff.1 h with ⟨within, hfront, hpiece⟩ | ⟨within, hbefore, hmore⟩
  · exact .inr ⟨within, hfront, hpiece⟩
  · by_cases hne : within = []
    · subst hne
      exact .inr ⟨[], by simpa using hbefore.symm, by simpa using hmore.symm⟩
    · exact .inl ⟨within, hbefore, hne, hmore⟩

/-- A comment that starts before the end of a line ends there at the latest. -/
theorem IsComment.within {text after more rest : List Char} (h : IsComment text after)
    (hmore : more ++ rest = text ++ after) (hrest : ∀ c ∈ rest.head?, c = '\n') :
    ∃ beyond, more = text ++ beyond := by
  rcases List.append_eq_append_iff.1 hmore with ⟨surplus, htext, hsurplus⟩ | ⟨beyond, hbeyond, -⟩
  · cases surplus with
    | nil => exact ⟨[], by simpa using htext.symm⟩
    | cons c surplus =>
        -- the comment would run over the newline
        obtain ⟨body, rfl, hbody, -⟩ := h
        have hc : c = '\n' := hrest c (by simp [hsurplus])
        have hmem : '\n' ∈ '/' :: '/' :: body := by
          rw [htext, hc]
          simp
        exact absurd (by simpa using hmem) hbody
  · exact ⟨beyond, hbeyond⟩

namespace Clear

variable {before rest : List Char}

theorem start (rest : List Char) : Clear [] rest := by
  intro front more text after hbefore hne _ _
  exact absurd (List.append_eq_nil_iff.1 hbefore.symm).2 hne

/-- After a piece it is enough to look at the comments that start in the piece. -/
theorem append {piece : List Char} (h : Clear before (piece ++ rest))
    (hpiece : ∀ first second text after, piece = first ++ second → second ≠ [] →
      second ++ rest = text ++ after → IsComment text after → ∃ beyond, second = text ++ beyond) :
    Clear (before ++ piece) rest := by
  intro front more text after hbefore hne hmore hcomment
  rcases place_cases hbefore with ⟨within, hfront, hwithin, rfl⟩ | ⟨within, -, hsecond⟩
  · rw [List.append_assoc] at hmore
    obtain ⟨beyond, rfl⟩ := h front within text after hfront hwithin hmore hcomment
    exact ⟨beyond ++ piece, List.append_assoc _ _ _⟩
  · exact hpiece within more text after hsecond hne hmore hcomment

/-- A piece in which no comment starts. -/
theorem plain {piece : List Char} (h : Clear before (piece ++ rest))
    (hplain : ∀ first second, piece = first ++ second → second ≠ [] →
      startsComment (second ++ rest) = false) : Clear (before ++ piece) rest := by
  refine h.append fun first second text after hpiece hne hsecond hcomment => ?_
  have hstarts := hcomment.starts
  rw [← hsecond, hplain first second hpiece hne] at hstarts
  cases hstarts

/-- A comment. -/
theorem comment {piece : List Char} (h : Clear before (piece ++ rest))
    (hpiece : IsComment piece rest) : Clear (before ++ piece) rest := by
  obtain ⟨-, -, -, hrest⟩ := hpiece
  exact h.append fun _ _ _ _ _ _ hsecond hcomment => hcomment.within hsecond hrest

/-- A gap. -/
theorem gap {gap : List Char} (hgap : Gap gap rest) (h : Clear before (gap ++ rest)) :
    Clear (before ++ gap) rest := by
  induction hgap generalizing before with
  | nil => simpa using h
  | @blank c gap rest hc _ ih =>
      have hone : Clear (before ++ [c]) (gap ++ rest) := by
        refine plain h fun first second hpiece hne => ?_
        obtain ⟨d, more, rfl⟩ := List.exists_cons_of_ne_nil hne
        have hd : d = c := by
          have hmem : d ∈ [c] := by simp [hpiece]
          exact List.mem_singleton.1 hmem
        rw [hd]
        exact startsComment_of_ne (stops_of_isBlank hc).2.2.2 _
      have hmore := ih hone
      rwa [List.append_assoc, List.singleton_append] at hmore
  | @comment text gap rest hcomment _ ih =>
      rw [List.append_assoc] at h
      have hmore := ih (h.comment hcomment)
      rwa [List.append_assoc] at hmore

/-- A token, which none of the comments of the text covers. -/
theorem covers {kind : Kind} {text after : List Char} {start stop : Nat}
    (h : Clear before (text ++ after)) (hstands : Stands kind text after)
    (plain : startsComment (text ++ after) = false)
    (hcomment : CommentBetween (before ++ (text ++ after)) start stop) :
    byteLength (before ++ text) ≤ start ∨ stop ≤ byteLength before := by
  obtain ⟨comment, left, ⟨front, hsource, rfl, rfl⟩, hcomment⟩ := hcomment
  rcases place_cases hsource with ⟨within, rfl, hwithin, hmore⟩ | ⟨within, rfl, hmore⟩
  · obtain ⟨beyond, rfl⟩ := h front within comment left rfl hwithin hmore.symm hcomment
    refine .inr ?_
    simp only [Text.byteLength_append]
    omega
  · rcases place_cases hmore with ⟨inside, rfl, hinside, hrest⟩ | ⟨inside, rfl, -⟩
    · -- the comment would start inside the token
      have hstarts := hcomment.starts
      rw [hrest, hstands.plain plain within inside rfl hinside] at hstarts
      cases hstarts
    · refine .inl ?_
      simp only [Text.byteLength_append]
      omega

end Clear

/-! ## §6. What is taken apart is a segmentation. -/

namespace Scanned

variable {before rest : List Char} {segments : List Segment}

/-- Nothing stands further left than the place. -/
theorem le_start (h : Scanned before rest segments) :
    ∀ segment ∈ segments, byteLength before ≤ segment.start := by
  induction h with
  | @last before gap _ =>
      intro segment hmem
      rw [List.mem_singleton.1 hmem]
      simp [Segment.endMark]
  | @token before gap text after kind segments _ _ _ _ ih =>
      intro segment hmem
      rcases List.mem_cons.1 hmem with rfl | hmem
      · simp
      · have hle := ih segment hmem
        simp only [Text.byteLength_append] at hle
        omega

/-- A text taken apart is segmented. -/
theorem segmentation (h : Scanned before rest segments) (hclear : Clear before rest) :
    Segmentation (before ++ rest) (byteLength before) segments := by
  induction h with
  | @last before gap hgap =>
      have hpart : PartOf (before ++ gap) (byteLength before) (byteLength (before ++ gap)) gap [] :=
        ⟨before, by simp, rfl, by simp⟩
      refine ⟨⟨[], rfl, by simp⟩, by simp, ?_, ?_, ?_⟩
      · intro segment hsegment
        cases hsegment
        exact ⟨gap, [], hpart, hgap⟩
      · intro front segment next more hsegments
        have hlength := congrArg List.length hsegments
        simp only [List.length_cons, List.length_nil, List.length_append] at hlength
        omega
      · intro segment hmem start stop hcomment
        obtain ⟨comment, after, ⟨front, hsource, rfl, rfl⟩, -⟩ := hcomment
        rw [List.mem_singleton.1 hmem]
        refine .inr ?_
        simp only [Segment.endMark, hsource, Text.byteLength_append]
        omega
  | @token before gap text after kind segments hgap hstands plain hrest ih =>
      have hbefore : Clear (before ++ gap) (text ++ after) := hclear.gap hgap
      have hbehind : Clear (before ++ gap ++ text) after := hbefore.plain (hstands.plain plain)
      have hmore := ih hbehind
      have hsource : before ++ gap ++ text ++ after = before ++ (gap ++ (text ++ after)) := by
        simp only [List.append_assoc]
      rw [hsource] at hmore
      obtain ⟨front, hfront, hall⟩ := hmore.tokens
      have hpos := byteLength_pos hstands.ne_nil
      refine ⟨⟨_ :: front, by rw [hfront]; rfl, ?_⟩, ?_, ?_, ?_, ?_⟩
      · intro segment hmem
        rcases List.mem_cons.1 hmem with rfl | hmem
        · refine ⟨⟨text, after, ⟨before ++ gap, ?_, rfl, ?_⟩, rfl, hstands⟩, ?_⟩
          · simp only [List.append_assoc]
          · simp only [Text.byteLength_append]
          · simp only [Text.byteLength_append]
            omega
        · exact hall segment hmem
      · exact List.pairwise_cons.2 ⟨hrest.le_start, hmore.ordered⟩
      · intro segment hsegment
        cases hsegment
        exact ⟨gap, text ++ after, ⟨before, rfl, rfl, by simp⟩, hgap⟩
      · intro ahead segment next more hsegments
        cases ahead with
        | nil =>
            -- the token and the first of the others
            obtain ⟨rfl, hnext⟩ := List.cons.inj hsegments
            exact hmore.leading next (by simp [hnext])
        | cons first ahead =>
            exact hmore.between ahead segment next more (List.cons.inj hsegments).2
      · intro segment hmem start stop hcomment
        rcases List.mem_cons.1 hmem with rfl | hmem
        · rw [← List.append_assoc] at hcomment
          exact hbefore.covers hstands plain hcomment
        · exact hmore.clear segment hmem start stop hcomment

end Scanned

namespace Segmentation

/-- No comment starts where a token of a segmentation does. -/
theorem startsNoComment {source before text after : List Char} {origin : Nat}
    {segments : List Segment} {segment : Segment} (h : Segmentation source origin segments)
    (hmem : segment ∈ segments) (hsource : source = before ++ (text ++ after))
    (hstart : segment.start = byteLength before) (hlt : segment.start < segment.stop) :
    startsComment (text ++ after) = false := by
  cases hstarts : startsComment (text ++ after) with
  | false => rfl
  | true =>
      -- the comment runs to the end of the line, and the token lies in it
      obtain ⟨comment, left, hrest, hcomment⟩ := exists_comment hstarts
      have hbetween : CommentBetween source segment.start (segment.start + byteLength comment) :=
        ⟨comment, left, ⟨before, by rw [hsource, hrest], hstart.symm, rfl⟩, hcomment⟩
      obtain ⟨body, rfl, -, -⟩ := hcomment
      have hpos : 0 < byteLength ('/' :: '/' :: body) := byteLength_pos (by simp)
      rcases h.clear segment hmem _ _ hbetween with hstop | hstop
      · omega
      · omega

/-- A segmentation goes on behind its first token. -/
theorem tail {source : List Char} {origin : Nat} {segment : Segment} {segments : List Segment}
    (h : Segmentation source origin (segment :: segments)) (hne : segments ≠ []) :
    Segmentation source segment.stop segments := by
  refine ⟨?_, (List.pairwise_cons.1 h.ordered).2, ?_, ?_, ?_⟩
  · obtain ⟨front, hfront, hall⟩ := h.tokens
    cases front with
    | nil => exact absurd (List.cons.inj hfront).2 hne
    | cons first front =>
        exact ⟨front, (List.cons.inj hfront).2, fun other hmem => hall other (by simp [hmem])⟩
  · intro next hnext
    obtain ⟨more, hmore⟩ := List.head?_eq_some_iff.1 hnext
    exact h.between [] segment next more (by rw [hmore]; rfl)
  · intro front other next more hsegments
    exact h.between (segment :: front) other next more (by rw [hsegments]; rfl)
  · exact fun other hmem => h.clear other (by simp [hmem])

/-- What a text is segmented into takes it apart. -/
theorem scanned {before rest : List Char} {segments : List Segment}
    (h : Segmentation (before ++ rest) (byteLength before) segments) :
    Scanned before rest segments := by
  -- the induction is on the segments, with the part of the text that lies behind
  induction segments generalizing before rest with
  | nil =>
      obtain ⟨front, hfront, -⟩ := h.tokens
      exact absurd hfront (by simp)
  | cons segment segments ih =>
      obtain ⟨gap, left, hgap, hisgap⟩ := h.leading segment rfl
      obtain ⟨rfl, hstart⟩ := hgap.rest_eq
      obtain ⟨front, hfront, hall⟩ := h.tokens
      cases front with
      | nil =>
          obtain ⟨rfl, rfl⟩ := List.cons.inj hfront
          have hleft : left = [] := by
            have hlength : byteLength left = 0 := by
              simp only [Segment.endMark, Text.byteLength_append] at hstart
              omega
            have hchars := Text.length_le_byteLength left
            exact List.length_eq_zero_iff.1 (by omega)
          subst hleft
          rw [List.append_nil]
          exact .last hisgap
      | cons first front =>
          obtain ⟨rfl, hsegments⟩ := List.cons.inj hfront
          obtain ⟨⟨text, after, hpart, htext, hstands⟩, hlt⟩ := hall segment (by simp)
          rw [hstart, ← List.append_assoc] at hpart
          obtain ⟨rfl, hstop⟩ := hpart.rest_eq
          have plain := h.startsNoComment List.mem_cons_self
            (show _ = before ++ gap ++ (text ++ after) by rw [List.append_assoc]) hstart hlt
          have hmore : Segmentation (before ++ gap ++ text ++ after)
              (byteLength (before ++ gap ++ text)) segments := by
            have htail := h.tail (by simp [hsegments])
            rw [hstop] at htail
            simpa only [List.append_assoc] using htail
          have hscanned := Scanned.token hisgap hstands plain (ih hmore)
          obtain ⟨kind, shown, start, stop⟩ := segment
          simp only at htext hstart hstop
          rw [htext, hstart, hstop]
          exact hscanned

end Segmentation

/-! ## §7. The one segmentation of a text. -/

/-- A text is segmented just as its tokens say. -/
theorem segmentation_iff {source : String} {segments : List Segment} (file : String)
    (bound : byteLength source.toList < 4294967296) :
    Segmentation source.toList 0 segments
      ↔ ∃ tokens, tokenize file source = .ok tokens ∧ tokens.map Token.segment = segments := by
  constructor
  · intro h
    have hscanned : Scanned [] source.toList segments := Segmentation.scanned h
    exact hscanned.tokens? file (by simpa using bound)
  · intro h
    obtain ⟨tokens, htokens, rfl⟩ := h
    have hscanned : Scanned [] source.toList (tokens.map Token.segment) :=
      Scanner.scanned_of_tokens? htokens rfl (by simpa [Scanner.start] using bound)
    exact hscanned.segmentation (.start _)

/-! ## §8. The steps of a scan. -/

namespace Scanner

/-- One step of a scan: a lexeme is taken. -/
def StepsTo (scanner next : Scanner) : Prop :=
  ∃ lexeme left, split? scanner.rest = some (lexeme, left) ∧ next = scanner.past lexeme.text left

/-- The places that a scan comes to. -/
inductive Visits (scanner : Scanner) : Scanner → Prop
  /-- The place where it starts. -/
  | start : Visits scanner scanner
  /-- The place that a step leads to. -/
  | step {place next : Scanner} : Visits scanner place → place.StepsTo next → Visits scanner next

/-- A scanner that stands between two characters of a text. -/
def OnBoundary (source : List Char) (scanner : Scanner) : Prop :=
  ∃ before, source = before ++ scanner.rest ∧ scanner.offset = byteLength before

variable {scanner place next : Scanner}

/-- A step leads further on. -/
theorem StepsTo.lt (h : scanner.StepsTo next) : scanner.offset < next.offset := by
  obtain ⟨lexeme, left, taken, rfl⟩ := h
  have hpos := byteLength_pos (text_ne_nil_of_split? taken)
  simp only [past]
  omega

/-- A step leads from between two characters to between two characters. -/
theorem StepsTo.onBoundary {source : List Char} (h : scanner.StepsTo next)
    (hscanner : scanner.OnBoundary source) : next.OnBoundary source := by
  obtain ⟨lexeme, left, taken, rfl⟩ := h
  obtain ⟨before, hsource, hoffset⟩ := hscanner
  refine ⟨before ++ lexeme.text, ?_, ?_⟩
  · rw [hsource, ← append_of_split? taken]
    simp only [past, List.append_assoc]
  · simp only [past, hoffset, Text.byteLength_append]

/-- A first step leads to where others go on. -/
theorem Visits.head (h : scanner.StepsTo next) (h' : next.Visits place) :
    scanner.Visits place := by
  induction h' with
  | start => exact .step .start h
  | step _ hstep ih => exact .step ih hstep

theorem Visits.file (h : scanner.Visits place) : place.file = scanner.file := by
  induction h with
  | start => rfl
  | step _ hstep ih =>
      obtain ⟨lexeme, left, -, rfl⟩ := hstep
      exact ih

/-- A scan of a text always stands between two characters. -/
theorem Visits.onBoundary {file source : String} (h : (Scanner.start file source).Visits place) :
    place.OnBoundary source.toList := by
  induction h with
  | start => exact ⟨[], rfl, rfl⟩
  | step _ hstep ih => exact hstep.onBoundary ih

/-- A scan fails at a place that it comes to, where a character starts no token. -/
theorem visits_of_error {error : Error} (h : scanner.tokens? = .error error) :
    ∃ place c rest, scanner.Visits place ∧ place.rest = c :: rest ∧ split? place.rest = none
      ∧ error = place.unrecognised := by
  fun_induction tokens? scanner generalizing error with
  | case1 => cases h
  | case2 scanner hnone hend =>
      cases h
      cases hrest : scanner.rest with
      | nil => exact absurd (by simp [atEnd, hrest]) hend
      | cons c rest => exact ⟨scanner, c, rest, .start, hrest, hrest ▸ hnone, rfl⟩
  | case3 scanner lexeme left taken _ _ ih =>
      obtain ⟨place, c, rest, hvisits, hplace⟩ := ih h
      exact ⟨place, c, rest, .head ⟨lexeme, left, taken, rfl⟩ hvisits, hplace⟩
  | case4 scanner lexeme left taken _ kind _ ih =>
      cases hmore : (scanner.past lexeme.text left).tokens? with
      | ok more =>
          rw [hmore] at h
          cases h
      | error found =>
          rw [hmore] at h
          cases h
          obtain ⟨place, c, rest, hvisits, hplace⟩ := ih hmore
          exact ⟨place, c, rest, .head ⟨lexeme, left, taken, rfl⟩ hvisits, hplace⟩

/-- A token marks the end of the text, or it is taken at a place that the scan comes to. -/
theorem taken_of_mem {tokens : List Token} {token : Token} (h : scanner.tokens? = .ok tokens)
    (hmem : token ∈ tokens) :
    ∃ place, scanner.Visits place
      ∧ ((place.rest = [] ∧ token = place.endToken)
        ∨ ∃ kind piece left, split? place.rest = some (⟨some kind, piece⟩, left)
            ∧ token = place.token kind piece left) := by
  induction h using scan_induction with
  | last scanner hnil => exact ⟨scanner, .start, .inl ⟨hnil, List.mem_singleton.1 hmem⟩⟩
  | gap scanner piece left tokens taken _ _ ih =>
      obtain ⟨place, hvisits, hplace⟩ := ih hmem
      exact ⟨place, .head ⟨_, left, taken, rfl⟩ hvisits, hplace⟩
  | token scanner kind piece left tokens taken _ _ ih =>
      rcases List.mem_cons.1 hmem with rfl | hmem
      · exact ⟨scanner, .start, .inr ⟨kind, piece, left, taken, rfl⟩⟩
      · obtain ⟨place, hvisits, hplace⟩ := ih hmem
        exact ⟨place, .head ⟨_, left, taken, rfl⟩ hvisits, hplace⟩

end Scanner

/-- The tokens of a text are its one segmentation, and the scan that finds them goes from
one boundary between characters to a later one. -/
theorem only_segmentation {file source : String} {tokens : List Token}
    (bound : byteLength source.toList < 4294967296) (h : tokenize file source = .ok tokens) :
    (∀ segments, Segmentation source.toList 0 segments ↔ segments = tokens.map Token.segment)
    ∧ ∀ place, (Scanner.start file source).Visits place →
        place.OnBoundary source.toList ∧ ∀ next, place.StepsTo next → place.offset < next.offset := by
  refine ⟨fun segments => ?_, fun place hvisits => ⟨hvisits.onBoundary, fun _ => Scanner.StepsTo.lt⟩⟩
  rw [segmentation_iff file bound]
  constructor
  · intro hsegments
    obtain ⟨others, hothers, rfl⟩ := hsegments
    rw [h] at hothers
    cases hothers
    rfl
  · intro hsegments
    exact ⟨tokens, h, hsegments.symm⟩

/-- A second point ends a numeral, and a comment that touches a token is none. -/
theorem segmentation_of_numerals :
    (tokenize "sel" "if 1.5.2// x\n_a").isOk = true
      ∧ ∀ segments, Segmentation "if 1.5.2// x\n_a".toList 0 segments
          ↔ segments = [⟨.ifWord, "if", 0, 2⟩, ⟨.number, "1.5", 3, 6⟩, ⟨.symbol, ".", 6, 7⟩,
              ⟨.number, "2", 7, 8⟩, ⟨.identifier, "_a", 13, 15⟩, ⟨.eof, "EOF", 15, 15⟩] := by
  have h : tokenize "sel" "if 1.5.2// x\n_a" = .ok
      [⟨.ifWord, "if", 0, 2, some ' '⟩, ⟨.number, "1.5", 3, 6, some '.'⟩,
        ⟨.symbol, ".", 6, 7, some '2'⟩, ⟨.number, "2", 7, 8, none⟩,
        ⟨.identifier, "_a", 13, 15, none⟩, ⟨.eof, "EOF", 15, 15, none⟩] := by decide +kernel
  exact ⟨by rw [h]; rfl, (only_segmentation (by decide) h).1⟩

end Fixity
