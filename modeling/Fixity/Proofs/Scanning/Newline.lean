/-
  Fixity.Proofs.Scanning.Newline
  ────────────────────────────────
  **CUTTING INTO TOKENS DISTRIBUTES OVER A NEWLINE.**

  Two texts with a newline between them are cut as each of them is cut alone:

      a <⏎= b    gives    a   <        =   b

  The tokens of the first text come without their end mark, those of the second one stand
  as many bytes further on as the first text and the newline take.  A first text that fails
  fails alike, and so does a second one, further on.  Only one thing is new: a last token
  that touches the newline remembers it, where it remembered nothing before.

  So a text that grows by whole lines keeps the tokens that it had.

  Main results: `tokenize_newline` and `newline_distributes`.
-/
import Mathlib.Data.List.Forall2
import Fixity.Proofs.Scanning.Segmentation

namespace Fixity

open Text (byteLength)

/-! ## §1. Further on. -/

/-- One token, so many bytes further on. -/
structure Token.MovedBy (distance : Nat) (token moved : Token) : Prop where
  /-- The kind. -/
  kind : moved.kind = token.kind
  /-- The text. -/
  text : moved.text = token.text
  /-- The place. -/
  start : moved.start.toNat = token.start.toNat + distance
  /-- The end. -/
  stop : moved.stop.toNat = token.stop.toNat + distance
  /-- The character that it remembers. -/
  trailing : moved.trailing = token.trailing

/-- One error, so many bytes further on. -/
structure Error.MovedBy (distance : Nat) (error moved : Error) : Prop where
  /-- The cause. -/
  fault : moved.fault = error.fault
  /-- The file. -/
  file : moved.position.file = error.position.file
  /-- The place. -/
  offset : moved.position.offset.toNat = error.position.offset.toNat + distance

/-- A place is moved without going round. -/
theorem toNat_add_distance {place : UInt32} {distance : Nat}
    (h : place.toNat + distance < 4294967296) :
    (place + UInt32.ofNat distance).toNat = place.toNat + distance := by
  have hdistance : (UInt32.ofNat distance).toNat = distance :=
    UInt32.toNat_ofNat_of_lt' (by simp only [UInt32.size]; omega)
  rw [UInt32.toNat_add, hdistance, Nat.mod_eq_of_lt (by omega)]

theorem Token.movedBy_later {token : Token} {distance : Nat}
    (hstart : token.start.toNat + distance < 4294967296)
    (hstop : token.stop.toNat + distance < 4294967296) :
    token.MovedBy distance (token.later distance) :=
  ⟨rfl, rfl, toNat_add_distance hstart, toNat_add_distance hstop, rfl⟩

theorem Error.movedBy_later {error : Error} {distance : Nat}
    (h : error.position.offset.toNat + distance < 4294967296) :
    error.MovedBy distance (error.later distance) :=
  ⟨rfl, rfl, toNat_add_distance h⟩

/-! ## §2. Places in a text. -/

variable {file first second source : String} {tokens : List Token} {error : Error}

/-- No token starts or stops beyond the end of its text. -/
theorem places_le_of_tokenize (bound : byteLength source.toList < 4294967296)
    (h : tokenize file source = .ok tokens) :
    ∀ token ∈ tokens, token.start.toNat ≤ byteLength source.toList
      ∧ token.stop.toNat ≤ byteLength source.toList := by
  intro token hmem
  have hsegments : Segmentation source.toList 0 (tokens.map Token.segment) :=
    (segmentation_iff file bound).2 ⟨tokens, h, rfl⟩
  obtain ⟨front, hfront, hstands⟩ := hsegments.tokens
  have hsegment : token.segment ∈ front ++ [.endMark source.toList] :=
    hfront ▸ List.mem_map_of_mem hmem
  have hplaces : token.segment.start ≤ byteLength source.toList
      ∧ token.segment.stop ≤ byteLength source.toList := by
    rcases List.mem_append.1 hsegment with hin | hlast
    · obtain ⟨⟨text, after, ⟨before, hsource, hstart, hstop⟩, -, -⟩, -⟩ := hstands _ hin
      rw [hsource, Text.byteLength_append, Text.byteLength_append]
      omega
    · rw [List.mem_singleton.1 hlast]
      exact ⟨Nat.le_refl _, Nat.le_refl _⟩
  exact hplaces

/-- No error points beyond the end of its text. -/
theorem offset_le_of_tokenize (h : tokenize file source = .error error) :
    error.position.offset.toNat ≤ byteLength source.toList := by
  obtain ⟨place, c, rest, hvisits, -, -, rfl⟩ := Scanner.visits_of_error h
  obtain ⟨before, hsource, hoffset⟩ := hvisits.onBoundary
  show (UInt32.ofNat place.offset).toNat ≤ _
  rw [UInt32.toNat_ofNat', hsource, hoffset, Text.byteLength_append]
  exact Nat.le_trans (Nat.mod_le _ _) (Nat.le_add_right _ _)

/-! ## §3. Two texts with a newline between them. -/

/-- A text that fails before a newline fails as it does alone. -/
theorem tokenize_newline_of_error (second : String) (h : tokenize file first = .error error) :
    tokenize file (first ++ "\n" ++ second) = .error error := by
  have hjoined := Scanner.tokens?_error_append h second.toList
  simpa [tokenize, Scanner.start] using hjoined

/-- Behind the tokens of a first text come those of the second one further on, or its error. -/
theorem tokenize_newline (second : String) (h : tokenize file first = .ok tokens) :
    ∃ front, BeforeNewline (byteLength first.toList) tokens front
      ∧ tokenize file (first ++ "\n" ++ second)
        = ((tokenize file second).mapError (Error.later (byteLength first.toList + 1))).map
            fun others => front ++ others.map (Token.later (byteLength first.toList + 1)) := by
  obtain ⟨front, hbefore, hfront⟩ := Scanner.tokens?_newline h
  simp only [Scanner.start, Nat.zero_add] at hbefore hfront
  refine ⟨front, hbefore, ?_⟩
  have hjoined : tokenize file (first ++ "\n" ++ second)
      = (Scanner.mk file (byteLength first.toList) ('\n' :: second.toList)).tokens?.map
          (front ++ ·) := by
    rw [← hfront second.toList]
    simp [tokenize, Scanner.start]
  -- the newline is passed over, and the second text stands right after it
  have hsecond : (Scanner.mk file (byteLength first.toList) ('\n' :: second.toList)).tokens?
      = ((Scanner.start file second).later (byteLength first.toList + 1)).tokens? := by
    have hone : byteLength ['\n'] = 1 := rfl
    rw [← List.singleton_append, Scanner.tokens?_blank_append Scanner.blank_newline, hone]
    simp only [Scanner.later, Scanner.start, Nat.zero_add]
  rw [hjoined, hsecond, Scanner.tokens?_later]
  unfold tokenize
  cases (Scanner.start file second).tokens? <;> rfl

/-! ## §4. What the last token remembers. -/

/-- The tokens of a text that stops at a byte, where a newline follows the text: a last one
that stops there as well remembers the newline. -/
def rememberNewline (stop : Nat) : List Token → List Token
  | [] => []
  | [last] => [if last.stop.toNat = stop then { last with trailing := some '\n' } else last]
  | token :: next :: rest => token :: rememberNewline stop (next :: rest)

/-- A token that stops before the newline stays in front of what the others remember. -/
theorem rememberNewline_cons {stop : Nat} {token : Token} (h : token.stop.toNat ≠ stop)
    (rest : List Token) :
    rememberNewline stop (token :: rest) = token :: rememberNewline stop rest := by
  cases rest with
  | nil => simp [rememberNewline, h]
  | cons next rest => rfl

/-- Up to the end mark the tokens are the same, but for what the last one remembers. -/
theorem BeforeNewline.eq_rememberNewline {stop : Nat} {front : List Token}
    (h : BeforeNewline stop tokens front) (bound : stop < 4294967296) :
    ∃ before mark, tokens = before ++ [mark] ∧ mark.kind = .eof
      ∧ front = rememberNewline stop before := by
  have htoNat {place : Nat} (hplace : place ≤ stop) : (UInt32.ofNat place).toNat = place :=
    UInt32.toNat_ofNat_of_lt' (by simp only [UInt32.size]; omega)
  induction h with
  | @mark mark hmark => exact ⟨[], mark, rfl, hmark, rfl⟩
  | @touching last mark hstop hmark =>
      refine ⟨[last], mark, rfl, hmark, ?_⟩
      have htouches : last.stop.toNat = stop := by rw [hstop, htoNat (Nat.le_refl stop)]
      rw [rememberNewline, if_pos htouches]
  | @apart token rest front place hstop hplace _ ih =>
      obtain ⟨before, mark, rfl, hmark, rfl⟩ := ih
      have happart : token.stop.toNat ≠ stop := by
        rw [hstop, htoNat (Nat.le_of_lt hplace)]
        exact Nat.ne_of_lt hplace
      exact ⟨token :: before, mark, rfl, hmark, (rememberNewline_cons happart before).symm⟩

/-! ## §5. The whole law. -/

/-- A text that ends with a newline keeps its tokens when it grows, the end mark aside. -/
theorem dropLast_prefix_of_newline {buffered joined : List Token}
    (h : tokenize file (first ++ "\n") = .ok buffered)
    (h' : tokenize file (first ++ "\n" ++ second) = .ok joined) : buffered.dropLast <+: joined := by
  have hclosed : (first ++ "\n").toList.getLast? = some '\n' := by simp
  obtain ⟨front, mark, rfl, -, hfront⟩ := tokenize_further hclosed h
  rw [hfront] at h'
  rw [List.dropLast_concat]
  cases hmore : (Scanner.mk file (byteLength (first ++ "\n").toList) second.toList).tokens? with
  | error error =>
      rw [hmore] at h'
      cases h'
  | ok more =>
      rw [hmore] at h'
      cases h'
      exact List.prefix_append front more

/-- Cutting into tokens distributes over a newline: the error of the first text comes first,
then that of the second one further on; without an error the tokens of the first text come
without their end mark, the last of them with the newline if it touches it, and then those of
the second one further on.  A text that grows after a newline keeps the tokens that it had. -/
theorem newline_distributes (file first second : String)
    (bound : byteLength first.toList + 1 + byteLength second.toList < 4294967296) :
    (∀ error, tokenize file first = .error error →
        tokenize file (first ++ "\n" ++ second) = .error error)
      ∧ (∀ tokens error, tokenize file first = .ok tokens → tokenize file second = .error error →
          ∃ moved, tokenize file (first ++ "\n" ++ second) = .error moved
            ∧ error.MovedBy (byteLength first.toList + 1) moved)
      ∧ (∀ tokens others, tokenize file first = .ok tokens → tokenize file second = .ok others →
          ∃ front mark moved, tokens = front ++ [mark] ∧ mark.kind = .eof
            ∧ List.Forall₂ (Token.MovedBy (byteLength first.toList + 1)) others moved
            ∧ tokenize file (first ++ "\n" ++ second)
              = .ok (rememberNewline (byteLength first.toList) front ++ moved))
      ∧ ∀ buffered joined, tokenize file (first ++ "\n") = .ok buffered →
          tokenize file (first ++ "\n" ++ second) = .ok joined → buffered.dropLast <+: joined := by
  refine ⟨fun error h => tokenize_newline_of_error second h, fun tokens error h h' => ?_,
    fun tokens others h h' => ?_, fun buffered joined => dropLast_prefix_of_newline⟩
  · obtain ⟨front, -, hjoined⟩ := tokenize_newline second h
    rw [h'] at hjoined
    have hoffset := offset_le_of_tokenize h'
    exact ⟨_, hjoined, Error.movedBy_later (by omega)⟩
  · obtain ⟨front, hbefore, hjoined⟩ := tokenize_newline second h
    rw [h'] at hjoined
    obtain ⟨before, mark, htokens, hmark, rfl⟩ := hbefore.eq_rememberNewline (by omega)
    refine ⟨before, mark, _, htokens, hmark, ?_, hjoined⟩
    rw [List.forall₂_map_right_iff, List.forall₂_same]
    intro token hmem
    obtain ⟨hstart, hstop⟩ := places_le_of_tokenize (by omega) h' token hmem
    exact Token.movedBy_later (by omega) (by omega)

/-- A point at the end of a line is no part of a numeral that starts the next one, and remembers
the newline.  A euro sign fails on either line. -/
theorem newline_behind_point :
    byteLength "1.".toList + 1 + byteLength "5 <".toList < 4294967296
      ∧ tokenize "sel" "1." = .ok
          [⟨.number, "1", 0, 1, some '.'⟩, ⟨.symbol, ".", 1, 2, none⟩, ⟨.eof, "EOF", 2, 2, none⟩]
      ∧ (∃ moved, List.Forall₂ (Token.MovedBy 3)
          [⟨.number, "5", 0, 1, some ' '⟩, ⟨.symbol, "<", 2, 3, none⟩, ⟨.eof, "EOF", 3, 3, none⟩] moved
          ∧ tokenize "sel" "1.\n5 <" = .ok
              ([⟨.number, "1", 0, 1, some '.'⟩, ⟨.symbol, ".", 1, 2, some '\n'⟩] ++ moved))
      ∧ (∃ moved, tokenize "sel" "1.\n€" = .error moved
          ∧ Error.MovedBy 3 ⟨.unrecognisedToken "€", ⟨0, "sel"⟩⟩ moved)
      ∧ tokenize "sel" "€\n1." = .error ⟨.unrecognisedToken "€", ⟨0, "sel"⟩⟩ := by
  have bound : byteLength "1.".toList + 1 + byteLength "5 <".toList < 4294967296 := by decide
  have hpoint : tokenize "sel" "1." = .ok
      [⟨.number, "1", 0, 1, some '.'⟩, ⟨.symbol, ".", 1, 2, none⟩, ⟨.eof, "EOF", 2, 2, none⟩] := by
    decide +kernel
  have hfive : tokenize "sel" "5 <" = .ok
      [⟨.number, "5", 0, 1, some ' '⟩, ⟨.symbol, "<", 2, 3, none⟩, ⟨.eof, "EOF", 3, 3, none⟩] := by
    decide +kernel
  have heuro : tokenize "sel" "€" = .error ⟨.unrecognisedToken "€", ⟨0, "sel"⟩⟩ := by
    decide +kernel
  refine ⟨bound, hpoint, ?_, (newline_distributes "sel" "1." "€" (by decide)).2.1 _ _ hpoint heuro,
    (newline_distributes "sel" "€" "1." (by decide)).1 _ heuro⟩
  obtain ⟨front, mark, moved, htokens, -, hmoved, hjoined⟩ :=
    (newline_distributes "sel" "1." "5 <" bound).2.2.1 _ _ hpoint hfive
  have hfront := congrArg List.dropLast htokens
  rw [List.dropLast_concat] at hfront
  subst hfront
  exact ⟨moved, hmoved, hjoined⟩

end Fixity
