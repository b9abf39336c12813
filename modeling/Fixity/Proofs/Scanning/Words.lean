/-
  Fixity.Proofs.Scanning.Words
  ────────────────────────────────
  **WORDS WITH BLANKS BETWEEN THEM.**

  A text is made of words with one blank between any two.  A word is the text of one
  token, or two characters of the operator alphabet that do not start a comment.
  Such a text is cut into exactly these words: a blank keeps two tokens apart, and
  the two characters of a pair touch.

  No bound on the length is used here, though places are words of thirty two
  bits.  A token and the next one lie one byte apart, and the two places differ
  even if they wrap around.  What a token remembers is taken from the text behind
  it and from no place.

  Main results: `tokenize_words` (the tokens of a text that is made of words) and
  `tokenize_words_after` (words on the line after another text).
-/
import Fixity.Proofs.Scanning.Seam

namespace Fixity

open Text (byteLength isBlank)
open Operator (isOperatorChar)

/-! ## §1. Words. -/

/-- A text that is one token of a kind. -/
def IsWord (kind : Kind) (word : String) : Prop :=
  split? word.toList = some (⟨some kind, word.toList⟩, [])

/-- Two operator characters that start no comment. -/
def IsPair (word : String) : Prop :=
  ∃ c d, word = String.ofList [c, d] ∧ isOperatorChar c = true ∧ isOperatorChar d = true
    ∧ startsComment [c, d] = false

/-- A word that a text can be made of. -/
def Cuttable (word : String) : Prop := (∃ kind, IsWord kind word) ∨ IsPair word

/-- A token that no symbol touches from behind. -/
def Token.Apart (token next : Token) : Prop := ∀ d, next.IsSymbol d → ¬ token.Touches next

/-- Words in a row, as the tokens of a text. -/
inductive Laid : List String → List Token → Prop
  /-- The end mark. -/
  | last {mark : Token} : mark.kind = .eof → Laid [] [mark]
  /-- A word that is one token. -/
  | word {word : String} {words : List String} {token next : Token} {rest : List Token} :
      IsWord token.kind word → token.text = word → token.Apart next →
      Laid words (next :: rest) → Laid (word :: words) (token :: next :: rest)
  /-- A word that is two symbols. -/
  | pair {c d : Char} {words : List String} {first second next : Token} {rest : List Token} :
      isOperatorChar c = true → isOperatorChar d = true → startsComment [c, d] = false →
      first.IsSymbol c → second.IsSymbol d → first.Touches second → second.Apart next →
      Laid words (next :: rest) →
      Laid (String.ofList [c, d] :: words) (first :: second :: next :: rest)

/-! ## §2. What is laid out. -/

/-- Two characters decide whether a comment starts. -/
theorem startsComment_two (c d : Char) (rest : List Char) :
    startsComment (c :: d :: rest) = startsComment [c, d] := by
  by_cases hc : c = '/'
  · by_cases hd : d = '/'
    · simp [startsComment, hc, hd]
    · simp [startsComment, hc, hd]
  · simp [startsComment, hc]

/-- A pair is no single token. -/
theorem not_isWord_of_isPair {kind : Kind} {word : String} (h : IsPair word) :
    ¬ IsWord kind word := by
  obtain ⟨c, d, rfl, hc, -, plain⟩ := h
  intro hword
  unfold IsWord at hword
  rw [String.toList_ofList, split?_operator hc plain] at hword
  exact absurd hword (by simp)

namespace Laid

variable {word : String} {words : List String} {input : List Token}

/-- A word that is one token is the first token. -/
theorem token {kind : Kind} (h : Laid (word :: words) input) (hword : IsWord kind word) :
    ∃ token next rest, input = token :: next :: rest ∧ token.kind = kind ∧ token.text = word
      ∧ token.Apart next ∧ Laid words (next :: rest) := by
  cases h with
  | @word _ _ token next rest hlex htext apart hrest =>
      unfold IsWord at hword hlex
      rw [hword] at hlex
      have hkind : kind = token.kind := by simpa using hlex
      exact ⟨token, next, rest, rfl, hkind.symm, htext, apart, hrest⟩
  | pair hc hd plain =>
      exact absurd hword (not_isWord_of_isPair ⟨_, _, rfl, hc, hd, plain⟩)

/-- A pair is two symbols that touch. -/
theorem symbols {c d : Char} (h : Laid (String.ofList [c, d] :: words) input)
    (hpair : IsPair (String.ofList [c, d])) :
    ∃ first second rest, input = first :: second :: rest ∧ first.IsSymbol c ∧ second.IsSymbol d
      ∧ first.Touches second ∧ Laid words rest := by
  generalize hspelling : String.ofList [c, d] = spelling at h
  cases h with
  | word hlex =>
      rw [← hspelling] at hlex
      exact absurd hlex (not_isWord_of_isPair hpair)
  | pair _ _ _ hfirst hsecond touches _ hrest =>
      rw [String.ofList_inj] at hspelling
      cases hspelling
      exact ⟨_, _, _, rfl, hfirst, hsecond, touches, hrest⟩

end Laid

/-! ## §3. Cutting words. -/

/-- What stands behind a word: the words after it, each behind a blank. -/
def behind (words : List String) : List Char :=
  match words with
  | [] => []
  | words => ' ' :: (" ".intercalate words).toList

/-- A row of words is its first word and what stands behind it. -/
theorem toList_intercalate_cons (word : String) (words : List String) :
    (" ".intercalate (word :: words)).toList = word.toList ++ behind words := by
  cases words with
  | nil => simp [behind]
  | cons next words => simp [behind]

/-- Nothing stands behind a word, or a blank does. -/
theorem behind_cases (words : List String) :
    behind words = [] ∨ ∃ more, behind words = ' ' :: more := by
  cases words with
  | nil => exact .inl rfl
  | cons word words => exact .inr ⟨_, rfl⟩

theorem isBlank_space : isBlank ' ' = true := rfl

/-- What stands behind a word keeps out of it. -/
theorem split?_behind {kind : Kind} {word : String} (h : IsWord kind word) (words : List String) :
    split? (word.toList ++ behind words) = some (⟨some kind, word.toList⟩, behind words) := by
  unfold IsWord at h
  rcases behind_cases words with hnil | ⟨more, hmore⟩
  · rw [hnil, List.append_nil]
    exact h
  · rw [hmore]
    exact split?_append isBlank_space h

/-- What stands behind an operator character is neither a comment nor an operator. -/
theorem trailing_behind (c : Char) (words : List String) :
    startsComment (c :: behind words) = false
      ∧ ∀ d, isOperatorChar d = true → Scanner.trailing (behind words) ≠ some d := by
  rcases behind_cases words with hnil | ⟨more, hmore⟩
  · rw [hnil]
    refine ⟨by simp [startsComment], fun d _ => ?_⟩
    simp [Scanner.trailing, startsComment]
  · rw [hmore]
    refine ⟨by simp [startsComment], fun d hd => ?_⟩
    simp only [Scanner.trailing, startsComment, List.head?_cons]
    intro heq
    rw [← Option.some.inj heq] at hd
    exact absurd hd (by decide)

/-! ## §4. The tokens of a row of words. -/

/-- Nothing is cut into the end mark. -/
theorem Scanner.tokens?_nil (file : String) (offset : Nat) :
    (Scanner.mk file offset []).tokens? = .ok [(Scanner.mk file offset []).endToken] := by
  rw [tokens?]
  rfl

/-- A token that is one lexeme by itself. -/
theorem Scanner.isLexeme_token (scanner : Scanner) {kind : Kind} {piece : List Char}
    (h : split? piece = some (⟨some kind, piece⟩, [])) (left : List Char) :
    (scanner.token kind piece left).IsLexeme := by
  simpa [Token.IsLexeme, Scanner.token] using h

/-- Words that stand behind a byte are cut into tokens that are laid out, and no symbol
starts at that byte. -/
def Follow (file : String) (words : List String) (offset : Nat) : Prop :=
  ∃ next rest, (Scanner.mk file offset (behind words)).tokens? = .ok (next :: rest)
    ∧ Laid words (next :: rest) ∧ Cut (next :: rest)
    ∧ ∀ d, next.IsSymbol d → UInt32.ofNat offset ≠ next.start

/-- A word and others behind it are cut into tokens that are laid out, the first of
which starts where the word does. -/
def Starts (file word : String) (words : List String) (offset : Nat) : Prop :=
  ∃ next rest, (Scanner.mk file offset (word.toList ++ behind words)).tokens? = .ok (next :: rest)
    ∧ Laid (word :: words) (next :: rest) ∧ Cut (next :: rest)
    ∧ next.start = UInt32.ofNat offset

variable {file word : String} {words : List String}

/-- A word that is one token, in front of others. -/
theorem tokens?_isWord {kind : Kind} (hword : IsWord kind word)
    (follow : ∀ offset, Follow file words offset) (offset : Nat) :
    Starts file word words offset := by
  obtain ⟨next, rest, htokens, hlaid, hcut, hstart⟩ := follow (offset + byteLength word.toList)
  let scanner : Scanner := ⟨file, offset, word.toList ++ behind words⟩
  let token := scanner.token kind word.toList (behind words)
  have htext : token.text = word := String.ofList_toList
  have hlex : token.IsLexeme := scanner.isLexeme_token hword (behind words)
  have apart : token.Apart next := fun d hsymbol touches => hstart d hsymbol touches
  have joins : token.Joins next := by
    intro c hc
    constructor
    · intro htrailing
      exact absurd htrailing ((trailing_behind c words).2 c hc)
    · intro h
      exact absurd h.1 (apart c h.2)
  refine ⟨token, next :: rest, ?_, .word hword htext apart hlaid, .cons hlex joins hcut, rfl⟩
  rw [Scanner.tokens?_token (split?_behind hword words)]
  show ((Scanner.mk file (offset + byteLength word.toList) (behind words)).tokens?).map _ = _
  rw [htokens]
  rfl

/-- A pair, in front of other words. -/
theorem tokens?_isPair (hword : IsPair word) (follow : ∀ offset, Follow file words offset)
    (offset : Nat) : Starts file word words offset := by
  obtain ⟨c, d, rfl, hc, hd, plain⟩ := hword
  unfold Starts
  rw [String.toList_ofList]
  obtain ⟨next, rest, htokens, hlaid, hcut, hstart⟩ :=
    follow (offset + byteLength [c] + byteLength [d])
  obtain ⟨hcomment, htrailing⟩ := trailing_behind d words
  let scanner : Scanner := ⟨file, offset, c :: d :: behind words⟩
  let first := scanner.token .symbol [c] (d :: behind words)
  let second := (scanner.past [c] (d :: behind words)).token .symbol [d] (behind words)
  have hfirst : split? (c :: d :: behind words)
      = some (⟨some .symbol, [c]⟩, d :: behind words) :=
    split?_operator hc (by rw [startsComment_two]; exact plain)
  have hsecond : split? (d :: behind words) = some (⟨some .symbol, [d]⟩, behind words) :=
    split?_operator hd hcomment
  have symbol : first.IsSymbol c := ⟨rfl, String.singleton_eq_ofList.symm⟩
  have symbol' : second.IsSymbol d := ⟨rfl, String.singleton_eq_ofList.symm⟩
  have touches : first.Touches second := rfl
  have apart : second.Apart next := fun e hsymbol htouches => hstart e hsymbol htouches
  -- the first symbol remembers the second one, and the second one no operator
  have joins : first.Joins second := by
    intro e _
    have hremembers : first.trailing = some d := by
      show Scanner.trailing (d :: behind words) = some d
      rw [Scanner.trailing, hcomment]
      rfl
    rw [hremembers]
    constructor
    · intro heq
      rw [← Option.some.inj heq]
      exact ⟨touches, symbol'⟩
    · intro h
      have heq := symbol'.2.symm.trans h.2.2
      rw [String.singleton_inj.1 heq]
  have joins' : second.Joins next := by
    intro e he
    constructor
    · intro heq
      exact absurd heq (htrailing e he)
    · intro h
      exact absurd h.1 (apart e h.2)
  have hlex : first.IsLexeme := Scanner.isLexeme_token _ (split?_self hfirst) _
  have hlex' : second.IsLexeme := Scanner.isLexeme_token _ (split?_self hsecond) _
  refine ⟨first, second :: next :: rest, ?_,
    .pair hc hd plain symbol symbol' touches apart hlaid,
    .cons hlex joins (.cons hlex' joins' hcut), rfl⟩
  rw [Scanner.tokens?_token hfirst, Scanner.tokens?_token hsecond]
  show (((Scanner.mk file (offset + byteLength [c] + byteLength [d]) (behind words)).tokens?).map
    _).map _ = _
  rw [htokens]
  rfl

/-- One token or two, in front of other words. -/
theorem tokens?_word (hword : Cuttable word)
    (follow : ∀ offset, Follow file words offset) (offset : Nat) :
    Starts file word words offset := by
  rcases hword with ⟨kind, hword⟩ | hword
  · exact tokens?_isWord hword follow offset
  · exact tokens?_isPair hword follow offset

/-- Two places one byte apart differ. -/
theorem ofNat_ne_succ (offset : Nat) : UInt32.ofNat offset ≠ UInt32.ofNat (offset + 1) := by
  intro heq
  have hnat := congrArg UInt32.toNat heq
  simp only [UInt32.toNat_ofNat'] at hnat
  omega

/-- Words behind a byte. -/
theorem follow_words (h : ∀ word ∈ words, Cuttable word)
    (offset : Nat) : Follow file words offset := by
  induction words generalizing offset with
  | nil =>
      refine ⟨_, [], Scanner.tokens?_nil file offset, .last rfl, .last rfl, ?_⟩
      intro d hsymbol
      exact absurd hsymbol.1 nofun
  | cons word words ih =>
      have follow : ∀ offset, Follow file words offset := fun offset =>
        ih (fun other hmem => h other (List.mem_cons_of_mem _ hmem)) offset
      obtain ⟨next, rest, htokens, hlaid, hcut, hstart⟩ :=
        tokens?_word (h word List.mem_cons_self) follow (offset + 1)
      refine ⟨next, rest, ?_, hlaid, hcut, ?_⟩
      · show (Scanner.mk file offset
          ([' '] ++ (" ".intercalate (word :: words)).toList)).tokens? = _
        rw [Scanner.tokens?_blank_append (by intro c hmem; rw [List.mem_singleton.1 hmem]; rfl),
          toList_intercalate_cons]
        exact htokens
      · intro d _
        rw [hstart]
        exact ofNat_ne_succ offset

/-- A text that is made of words is cut into these words, wherever it stands. -/
theorem tokens?_words (file : String) (h : ∀ word ∈ words, Cuttable word) (offset : Nat) :
    ∃ tokens, (Scanner.mk file offset (" ".intercalate words).toList).tokens? = .ok tokens
      ∧ Laid words tokens ∧ Cut tokens := by
  cases words with
  | nil => exact ⟨_, Scanner.tokens?_nil file offset, .last rfl, .last rfl⟩
  | cons word words =>
      have follow : ∀ offset, Follow file words offset := fun offset =>
        follow_words (fun other hmem => h other (List.mem_cons_of_mem word hmem)) offset
      obtain ⟨next, rest, htokens, hlaid, hcut, -⟩ :=
        tokens?_word (h word List.mem_cons_self) follow offset
      refine ⟨next :: rest, ?_, hlaid, hcut⟩
      rw [toList_intercalate_cons]
      exact htokens

/-- The tokens of a text that is made of words. -/
theorem tokenize_words (file : String) (h : ∀ word ∈ words, Cuttable word) :
    ∃ tokens, tokenize file (" ".intercalate words) = .ok tokens ∧ Laid words tokens
      ∧ Cut tokens :=
  tokens?_words file h 0

/-! ## §5. Words on the line after a text. -/

/-- Every token but the end mark takes a byte. -/
theorem Scanner.length_tokens?_le {scanner : Scanner} {tokens : List Token}
    (h : scanner.tokens? = .ok tokens) : tokens.length ≤ byteLength scanner.rest + 1 := by
  induction h using scan_induction with
  | last => simp
  | gap scanner piece left tokens taken _ _ ih =>
      have hlength := congrArg byteLength (append_of_split? taken)
      rw [Text.byteLength_append] at hlength
      simp only [past] at ih
      omega
  | token scanner kind piece left tokens taken _ _ ih =>
      have happend : piece ++ left = scanner.rest := append_of_split? taken
      have hlt := length_lt_of_split? taken
      have hpiece := Text.length_le_byteLength piece
      rw [← happend, List.length_append] at hlt
      rw [← happend, Text.byteLength_append]
      simp only [past] at ih
      rw [List.length_cons]
      omega

/-- Words on the line after a text come in place of its end mark. -/
theorem tokenize_words_after {source : String} {tokens : List Token}
    (h : ∀ word ∈ words, Cuttable word) (tokenizes : tokenize file source = .ok tokens) :
    ∃ more joined, tokenize file (source ++ "\n" ++ " ".intercalate words) = .ok joined
      ∧ Seam more tokens joined ∧ Laid words more := by
  obtain ⟨front, hseam, hfront⟩ := Scanner.tokens?_seam tokenizes
  obtain ⟨more, hmore, hlaid, -⟩ :=
    tokens?_words file h (byteLength source.toList + byteLength ['\n'])
  refine ⟨more, front ++ more, ?_, hseam more, hlaid⟩
  -- the newline is passed over, and the words stand right after it
  have hwords : (Scanner.mk file (byteLength source.toList)
      ('\n' :: (" ".intercalate words).toList)).tokens? = .ok more := by
    rw [← hmore, ← Scanner.tokens?_blank_append Scanner.blank_newline]
    rfl
  have hjoined := hfront (" ".intercalate words).toList
  simp only [Scanner.start, Nat.zero_add, hwords, Except.map] at hjoined
  simpa [tokenize, Scanner.start] using hjoined

/-- What stands behind some words and then behind others. -/
theorem behind_append (words others : List String) :
    behind (words ++ others) = behind words ++ behind others := by
  induction words with
  | nil => rfl
  | cons word words ih =>
      show ' ' :: (" ".intercalate (word :: (words ++ others))).toList
        = ' ' :: (" ".intercalate (word :: words)).toList ++ behind others
      rw [toList_intercalate_cons, toList_intercalate_cons, ih]
      simp

/-- The blanks between words take no more bytes than one in front of each. -/
theorem byteLength_words_le (words : List String) :
    byteLength (" ".intercalate words).toList ≤ byteLength (behind words) := by
  cases words with
  | nil => exact Nat.le_refl 0
  | cons word words =>
      show _ ≤ byteLength (' ' :: (" ".intercalate (word :: words)).toList)
      rw [Text.byteLength_cons]
      exact Nat.le_add_left _ _

end Fixity
