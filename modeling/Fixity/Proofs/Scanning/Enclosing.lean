/-
  Fixity.Proofs.Scanning.Enclosing
  ────────────────────────────────
  **A TEXT BETWEEN BRACKETS.**

  A text is put between brackets like this, with a newline behind it that ends a comment
  of its own:

      ((a + b // sum
      ))

  The tokens of the whole are the brackets in front, the tokens of the text, so many bytes
  further on and up to its end mark, and the brackets behind.

  A scanner is followed piece by piece: it YIELDS some tokens on its way to another place,
  and what two ways yield one after the other, the way over both yields.

  Main results: `yields_copies` (brackets in a row), `yields_text` (a text before a newline)
  and `yields_between` (a text between brackets).
-/
import Fixity.Report
import Fixity.Proofs.Scanning.Segments
import Fixity.Proofs.Scanning.Words

namespace Fixity

open Text (byteLength isBlank)

/-! ## §1. The way of a scanner. -/

namespace Scanner

/-- The tokens of one scanner are the given ones and then those of another. -/
def Yields (scanner : Scanner) (found : List Token) (other : Scanner) : Prop :=
  scanner.tokens? = other.tokens?.map (found ++ ·)

namespace Yields

variable {scanner other last : Scanner} {found more tokens : List Token}

/-- Two ways, one after the other. -/
theorem trans (h : Yields scanner found other) (h' : Yields other more last) :
    Yields scanner (found ++ more) last := by
  unfold Yields at h h' ⊢
  rw [h, h']
  cases last.tokens? with
  | error error => rfl
  | ok tokens => exact congrArg Except.ok (List.append_assoc found more tokens).symm

/-- The tokens at the end of the way come last. -/
theorem tokens? (h : Yields scanner found other) (h' : other.tokens? = .ok tokens) :
    scanner.tokens? = .ok (found ++ tokens) := by
  unfold Yields at h
  rw [h, h']
  rfl

end Yields

theorem yields_nil (scanner : Scanner) : Yields scanner [] scanner := by
  unfold Yields
  cases scanner.tokens? <;> rfl

/-- A gap yields nothing. -/
theorem yields_gap {gap after : List Char} (h : Gap gap after) (file : String) (offset : Nat) :
    Yields ⟨file, offset, gap ++ after⟩ [] ⟨file, offset + byteLength gap, after⟩ := by
  unfold Yields
  rw [h.tokens?]
  exact yields_nil _

/-- A token yields itself. -/
theorem yields_token {kind : Kind} {piece left : List Char} {text : List Char}
    (h : split? text = some (⟨some kind, piece⟩, left)) (file : String) (offset : Nat) :
    Yields ⟨file, offset, text⟩ [(Scanner.mk file offset text).token kind piece left]
      ⟨file, offset + byteLength piece, left⟩ := by
  unfold Yields
  rw [tokens?_token (show split? (Scanner.mk file offset text).rest = _ from h)]
  rfl

end Scanner

/-- The way over a whole text yields its tokens, before the end mark. -/
theorem Scanner.Yields.tokenize {file source : String} {found : List Token} {offset : Nat}
    (h : Yields (start file source) found ⟨file, offset, []⟩) :
    ∃ mark, mark.kind = .eof ∧ Fixity.tokenize file source = .ok (found ++ [mark]) :=
  ⟨_, rfl, h.tokens? (tokens?_nil file offset)⟩

/-! ## §2. Brackets in a row. -/

/-- So many tokens of one kind. -/
def Copies (kind : Kind) (count : Nat) (tokens : List Token) : Prop :=
  tokens.map Token.kind = List.replicate count kind

namespace Copies

variable {kind : Kind} {count : Nat} {token : Token} {tokens : List Token}

theorem nil : Copies kind 0 [] := rfl

/-- One more. -/
theorem cons (hkind : token.kind = kind) (h : Copies kind count tokens) :
    Copies kind (count + 1) (token :: tokens) := by
  unfold Copies at h ⊢
  rw [List.map_cons, hkind, h, List.replicate_succ]

/-- The first one of several. -/
theorem exists_cons (h : Copies kind (count + 1) tokens) :
    ∃ first rest, tokens = first :: rest ∧ first.kind = kind ∧ Copies kind count rest := by
  unfold Copies at h
  rw [List.replicate_succ, List.map_eq_cons_iff] at h
  exact h

/-- A single one. -/
theorem exists_single (h : Copies kind 1 tokens) : ∃ token, tokens = [token] ∧ token.kind = kind := by
  obtain ⟨token, none, rfl, hkind, hnone⟩ := h.exists_cons
  cases List.map_eq_nil_iff.1 hnone
  exact ⟨token, rfl, hkind⟩

/-- The last one of several. -/
theorem exists_concat (h : Copies kind (count + 1) tokens) :
    ∃ front last, tokens = front ++ [last] ∧ last.kind = kind ∧ Copies kind count front := by
  unfold Copies at h
  rw [List.replicate_succ', List.map_eq_append_iff] at h
  obtain ⟨front, back, rfl, hfront, hback⟩ := h
  obtain ⟨last, none, rfl, hlast, hnone⟩ := List.map_eq_cons_iff.1 hback
  cases List.map_eq_nil_iff.1 hnone
  exact ⟨front, last, rfl, hlast, hfront⟩

end Copies

/-- A bracket, a comma or a semicolon is a token, whatever follows it. -/
theorem split?_bracket {c : Char} (h : Kind.ofPunctuation c ≠ .symbol) (rest : List Char) :
    split? (c :: rest) = some (⟨some (Kind.ofPunctuation c), [c]⟩, rest) := by
  unfold Kind.ofPunctuation at h ⊢
  split
  case h_9 => simp at h
  all_goals rfl

/-- Brackets in a row are as many tokens. -/
theorem Scanner.yields_copies {c : Char} (h : Kind.ofPunctuation c ≠ .symbol) (file : String)
    (rest : List Char) (count : Nat) :
    ∀ offset, ∃ marks, Copies (Kind.ofPunctuation c) count marks
      ∧ Yields ⟨file, offset, List.replicate count c ++ rest⟩ marks
          ⟨file, offset + byteLength (List.replicate count c), rest⟩ := by
  induction count with
  | zero => exact fun offset => ⟨[], .nil, yields_nil _⟩
  | succ count ih =>
      intro offset
      obtain ⟨marks, hmarks, hyields⟩ := ih (offset + byteLength [c])
      have hfirst := yields_token (split?_bracket h (List.replicate count c ++ rest)) file offset
      have hboth := hfirst.trans hyields
      rw [Nat.add_assoc, ← Text.byteLength_append] at hboth
      refine ⟨_, ?_, hboth⟩
      exact hmarks.cons rfl

/-! ## §3. A text between brackets. -/

/-- At an end mark the others follow. -/
theorem Seam.eq_more {more joined : List Token} {mark : Token} (h : Seam more [mark] joined) :
    joined = more := by
  cases h with
  | stop => rfl
  | step _ h => exact absurd rfl h.ne_nil

/-- A text and a newline between so many copies of one character and as many of another. -/
def between (count : Nat) (opening closing : Char) (source : String) : String :=
  repeated count opening ++ source ++ "\n" ++ repeated count closing

theorem toList_between (count : Nat) (opening closing : Char) (source : String) :
    (between count opening closing source).toList
      = List.replicate count opening
          ++ (source.toList ++ '\n' :: List.replicate count closing) := by
  simp [between, repeated]

/-- A text that stands further on, before a newline, yields its tokens up to the end mark. -/
theorem Scanner.yields_text {file source : String} {tokens : List Token}
    (h : tokenize file source = .ok tokens) (offset : Nat) (rest : List Char) :
    ∃ inner, (∀ more, Seam more (tokens.map (Token.later offset)) (inner ++ more))
      ∧ Yields ⟨file, offset, source.toList ++ '\n' :: rest⟩ inner
          ⟨file, offset + byteLength (source.toList ++ ['\n']), rest⟩ := by
  obtain ⟨inner, hseam, hinner⟩ := tokens?_seam (tokens?_of_tokenize h offset)
  refine ⟨inner, hseam, ?_⟩
  have hnewline := @tokens?_blank_append file (offset + byteLength source.toList) _ blank_newline rest
  unfold Yields
  rw [hinner rest, ← List.singleton_append, hnewline, Nat.add_assoc, Text.byteLength_append]

/-- The tokens of a text between brackets: the brackets, and those of the text, so many bytes
further on, before the closing ones. -/
def Enclosed (opening closing : Kind) (count distance : Nat) (tokens found : List Token) : Prop :=
  ∃ opens inner closes, found = opens ++ (inner ++ closes) ∧ Copies opening count opens
    ∧ Copies closing count closes
    ∧ ∀ more, Seam more (tokens.map (Token.later distance)) (inner ++ more)

/-- A text between brackets yields the brackets and its own tokens. -/
theorem Scanner.yields_between {file source : String} {tokens : List Token} {opening closing : Char}
    (h : tokenize file source = .ok tokens) (hopening : Kind.ofPunctuation opening ≠ .symbol)
    (hclosing : Kind.ofPunctuation closing ≠ .symbol) (count offset : Nat) (rest : List Char) :
    ∃ found, Enclosed (Kind.ofPunctuation opening) (Kind.ofPunctuation closing) count
        (offset + byteLength (List.replicate count opening)) tokens found
      ∧ Yields ⟨file, offset, (between count opening closing source).toList ++ rest⟩ found
          ⟨file, offset + byteLength (between count opening closing source).toList, rest⟩ := by
  obtain ⟨closes, hcloses, hback⟩ := yields_copies hclosing file rest count
    (offset + byteLength (List.replicate count opening) + byteLength (source.toList ++ ['\n']))
  obtain ⟨inner, hseam, htext⟩ := yields_text h
    (offset + byteLength (List.replicate count opening)) (List.replicate count closing ++ rest)
  obtain ⟨opens, hopens, hfront⟩ := yields_copies hopening file
    (source.toList ++ '\n' :: (List.replicate count closing ++ rest)) count offset
  refine ⟨_, ⟨opens, inner, closes, rfl, hopens, hcloses, hseam⟩, ?_⟩
  have hall := hfront.trans (htext.trans hback)
  rw [toList_between]
  simpa [Text.byteLength_append, Nat.add_assoc] using hall

/-- The tokens of a text that stands further on are cut from a text as well. -/
theorem cut_later {file source : String} {tokens : List Token} {distance : Nat}
    (h : tokenize file source = .ok tokens)
    (bound : distance + byteLength source.toList < 4294967296) :
    Cut (tokens.map (Token.later distance)) :=
  Scanner.cut_of_tokens? (tokens?_of_tokenize h distance) bound

end Fixity
