/-
  Fixity.Proofs.Text.Encoding
  ────────────────────────────────
  **THE BYTES OF A TEXT.**

  In UTF-8 a newline is one byte, and no other character has that byte.  And texts compare
  by their bytes as they do by their characters: the first byte of a character tells how
  many there are, more of them for the larger characters, and of as many bytes the first
  ones are the larger digits.

  Main results: `count_bytes` (newlines are counted by their byte) and `bytes_lt_bytes_iff`
  (the order of the bytes is the order of the characters).
-/
import Fixity.Text.Bytes

namespace Fixity.Text

/-! ## §1. The bytes of a text. -/

/-- The bytes of a text in UTF-8. -/
def bytes (text : List Char) : List UInt8 := text.flatMap String.utf8EncodeChar

@[simp] theorem bytes_append (first second : List Char) :
    bytes (first ++ second) = bytes first ++ bytes second := List.flatMap_append

theorem length_bytes (text : List Char) : (bytes text).length = byteLength text := by
  induction text with
  | nil => rfl
  | cons c rest ih =>
      show (String.utf8EncodeChar c ++ bytes rest).length = _
      rw [List.length_append, String.length_utf8EncodeChar, ih, byteLength_cons]

/-! ## §2. The byte of a newline. -/

/-- The byte of a newline. -/
def newlineByte : UInt8 := 10

/-- Only the newline has the byte of a newline. -/
theorem newlineByte_not_mem {c : Char} (h : c ≠ '\n') :
    newlineByte ∉ String.utf8EncodeChar c := by
  have hval : c.val.toNat ≠ 10 := by
    intro heq
    exact h (Char.ext (UInt32.toNat_inj.1 heq))
  have hbyte (n : Nat) (hn : n % 256 ≠ 10) : newlineByte ≠ UInt8.ofNat n := by
    intro heq
    have hnat := congrArg UInt8.toNat heq
    rw [UInt8.toNat_ofNat'] at hnat
    exact hn hnat.symm
  -- a character of several bytes has only bytes from 128 on
  unfold String.utf8EncodeChar
  simp only
  split
  · simp only [List.mem_singleton]
    exact hbyte _ (by omega)
  · split
    · simp only [List.mem_cons, List.not_mem_nil, or_false, not_or]
      exact ⟨hbyte _ (by omega), hbyte _ (by omega)⟩
    · split
      · simp only [List.mem_cons, List.not_mem_nil, or_false, not_or]
        exact ⟨hbyte _ (by omega), hbyte _ (by omega), hbyte _ (by omega)⟩
      · simp only [List.mem_cons, List.not_mem_nil, or_false, not_or]
        exact ⟨hbyte _ (by omega), hbyte _ (by omega), hbyte _ (by omega), hbyte _ (by omega)⟩

theorem newlineByte_not_mem_bytes {text : List Char} (h : '\n' ∉ text) :
    newlineByte ∉ bytes text := by
  intro hmem
  obtain ⟨c, hc, hbyte⟩ := List.mem_flatMap.1 hmem
  by_cases heq : c = '\n'
  · exact h (heq ▸ hc)
  · exact newlineByte_not_mem heq hbyte

/-- Newlines are counted by their byte. -/
theorem count_bytes (text : List Char) : (bytes text).count newlineByte = text.count '\n' := by
  induction text with
  | nil => rfl
  | cons c rest ih =>
      show (String.utf8EncodeChar c ++ bytes rest).count newlineByte = _
      rw [List.count_append, ih]
      by_cases hc : c = '\n'
      · subst hc
        rw [List.count_cons_self, Nat.add_comm]
        rfl
      · rw [List.count_eq_zero.2 (newlineByte_not_mem hc),
          List.count_cons_of_ne (by simpa using hc),
          Nat.zero_add]

/-! ## §3. The order of bytes. -/

section Order

variable {rest others : List UInt8} {m n : Nat}

/-- Rows that start with different bytes compare by those. -/
theorem byte_lt (h : m < n) (hn : n < 256) : UInt8.ofNat m :: rest < UInt8.ofNat n :: others :=
  List.cons_lt_cons_iff.2 (.inl ((UInt8.ofNat_lt_iff_lt (Nat.lt_trans h hn) hn).2 h))

/-- Where the first bytes may be the same, the others decide. -/
theorem byte_le (h : m ≤ n) (hn : n < 256) (hrest : m = n → rest < others) :
    UInt8.ofNat m :: rest < UInt8.ofNat n :: others := by
  rcases Nat.lt_or_eq_of_le h with hlt | heq
  · exact byte_lt hlt hn
  · exact List.cons_lt_cons_iff.2 (.inr ⟨congrArg UInt8.ofNat heq, hrest heq⟩)

/-- The bytes of the smaller character come first, whatever follows them. -/
theorem encode_append_lt {c d : Char} (h : c < d) (rest others : List UInt8) :
    String.utf8EncodeChar c ++ rest < String.utf8EncodeChar d ++ others := by
  have hlt : c.val.toNat < d.val.toNat := h
  have hmax : d.val.toNat < 1114112 := by
    rcases d.valid with hlow | hhigh
    · exact Nat.lt_trans hlow (by decide)
    · exact hhigh.2
  unfold String.utf8EncodeChar
  simp only
  generalize c.val.toNat = v at hlt ⊢
  generalize d.val.toNat = w at hlt hmax ⊢
  -- the larger character has more bytes and a larger first one, or it has as many and is
  -- larger in the first digit that is not the same
  split
  · split
    · exact byte_lt hlt (by omega)
    · split
      · exact byte_lt (by omega) (by omega)
      · split <;> exact byte_lt (by omega) (by omega)
  · rw [if_neg (show ¬ w ≤ 127 by omega)]
    split
    · split
      · exact byte_le (by omega) (by omega) fun _ => byte_lt (by omega) (by omega)
      · split <;> exact byte_lt (by omega) (by omega)
    · rw [if_neg (show ¬ w ≤ 2047 by omega)]
      split
      · split
        · exact byte_le (by omega) (by omega) fun _ => byte_le (by omega) (by omega) fun _ =>
            byte_lt (by omega) (by omega)
        · exact byte_lt (by omega) (by omega)
      · rw [if_neg (show ¬ w ≤ 65535 by omega)]
        exact byte_le (by omega) (by omega) fun _ => byte_le (by omega) (by omega) fun _ =>
          byte_le (by omega) (by omega) fun _ => byte_lt (by omega) (by omega)

end Order

variable {first second : List Char}

/-- The bytes of the smaller text come first. -/
theorem bytes_lt_bytes (h : first < second) : bytes first < bytes second := by
  induction first generalizing second with
  | nil =>
      cases second with
      | nil => exact absurd h (List.lt_irrefl [])
      | cons d rest =>
          have hlength := length_bytes (d :: rest)
          have hbytes := length_le_byteLength (d :: rest)
          rw [List.length_cons] at hbytes
          obtain ⟨byte, more, hmore⟩ : ∃ byte more, bytes (d :: rest) = byte :: more :=
            List.exists_cons_of_length_pos (by omega)
          rw [hmore]
          exact List.nil_lt_cons byte more
  | cons c rest ih =>
      cases second with
      | nil => exact absurd h (List.not_lt_nil _)
      | cons d others =>
          show String.utf8EncodeChar c ++ bytes rest < String.utf8EncodeChar d ++ bytes others
          rcases List.cons_lt_cons_iff.1 h with hlt | ⟨rfl, hrest⟩
          · exact encode_append_lt hlt _ _
          · exact List.append_left_lt (ih hrest)

/-- **Texts compare by their bytes as they do by their characters.** -/
theorem bytes_lt_bytes_iff : bytes first < bytes second ↔ first < second := by
  refine ⟨fun h => ?_, bytes_lt_bytes⟩
  rcases List.le_total first second with hle | hge
  · rcases List.le_iff_lt_or_eq.1 hle with hlt | rfl
    · exact hlt
    · exact absurd h (List.lt_irrefl _)
  · rcases List.le_iff_lt_or_eq.1 hge with hgt | rfl
    · exact absurd h (List.lt_asymm (bytes_lt_bytes hgt))
    · exact absurd h (List.lt_irrefl _)

end Fixity.Text
