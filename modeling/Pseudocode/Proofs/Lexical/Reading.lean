import Pseudocode.Proofs.Lexical.Grammar

/-!
# Tokens and the lexical grammar

The token at the front of a text is read as the grammar has it. For each class of lexemes one law
says that what is read belongs to the class and could not be longer, and another that what belongs
to the class and could not be longer is read.

## Main definitions

* `Fits` — a lexeme of a kind that could not be longer.

## Main statements

* `read_cases` — what an item can be.
* `fits_of_read` — a token that is read fits.
* `read_of_fits` — a lexeme that fits is read.
-/
namespace Pseudocode

open Item

/-- A lexeme of a kind that could not be longer in front of `rest`. -/
structure Fits (k : Kind) (lexeme rest : List Char) : Prop where
  isLexeme : IsLexeme k lexeme
  longest : Longest lexeme rest

theorem isAlpha_eq (c : Char) :
    c.isAlpha = (decide (65 ≤ c.val ∧ c.val ≤ 90) ||
      decide (97 ≤ c.val) && decide (c.val ≤ 122)) := rfl

/-- The characters of words lie in a short range of codes. -/
theorem toNat_of_isWordChar {c : Char} (h : Item.isWordChar c = true) :
    48 ≤ c.toNat ∧ c.toNat ≤ 122 := by
  simp only [Item.isWordChar, Char.isAlphanum, isAlpha_eq, Char.isDigit, Bool.or_eq_true,
    Bool.and_eq_true, decide_eq_true_eq, ge_iff_le, UInt32.le_iff_toNat_le] at h
  rcases h with ((h | h) | h) | rfl
  · exact ⟨Nat.le_trans (by decide) h.1, Nat.le_trans h.2 (by decide)⟩
  · exact ⟨Nat.le_trans (by decide) h.1, Nat.le_trans h.2 (by decide)⟩
  · exact ⟨h.1, Nat.le_trans h.2 (by decide)⟩
  · decide

/-- A word character is not blank. -/
theorem isBlank_of_isWordChar {c : Char} (h : Item.isWordChar c = true) :
    Text.isBlank c = false := by
  have hrange := toNat_of_isWordChar h
  simp only [Text.isBlank, Text.blankRanges, List.any_cons, List.any_nil, Bool.or_false,
    Bool.or_eq_false_iff, Bool.and_eq_false_iff, decide_eq_false_iff_not, Nat.not_le]
  omega

/-- What begins a word can go on with it. -/
theorem isWordChar_of_isWordStart {c : Char} (h : Item.isWordStart c = true) :
    Item.isWordChar c = true := by
  simp only [Item.isWordStart, Bool.or_eq_true] at h
  rcases h with h | h <;> simp [Item.isWordChar, Char.isAlphanum, h]

theorem isWordChar_of_isDigit {c : Char} (h : c.isDigit = true) : Item.isWordChar c = true := by
  simp [Item.isWordChar, Char.isAlphanum, h]

theorem isWordStart_of_isDigit {c : Char} (h : c.isDigit = true) : Item.isWordStart c = false := by
  have hrange : c.toNat ≤ 57 := by
    simp only [Char.isDigit, Bool.and_eq_true, decide_eq_true_eq, UInt32.le_iff_toNat_le] at h
    exact h.2
  rw [Bool.eq_false_iff]
  intro hstart
  simp only [Item.isWordStart, isAlpha_eq, Bool.or_eq_true, Bool.and_eq_true, decide_eq_true_eq,
    UInt32.le_iff_toNat_le] at hstart
  rcases hstart with (hstart | hstart) | rfl
  · exact absurd (Nat.le_trans hstart.1 hrange) (by decide)
  · exact absurd (Nat.le_trans hstart.1 hrange) (by decide)
  · exact absurd hrange (by decide)

/-- A row of characters of one class ends where the class does. -/
theorem span_append {p : Char → Bool} {cs rest : List Char} (hcs : ∀ c ∈ cs, p c = true)
    (hrest : ∀ c ∈ rest.head?, p c = false) :
    (cs ++ rest).takeWhile p = cs ∧ (cs ++ rest).dropWhile p = rest := by
  rw [List.takeWhile_append_of_pos hcs, List.dropWhile_append_of_pos hcs]
  cases rest with
  | nil => simp
  | cons c rest =>
      have hc : p c = false := hrest c rfl
      simp [hc]

/-- What is left of a row of characters does not begin with one of its class. -/
theorem head?_dropWhile {p : Char → Bool} {cs : List Char} :
    ∀ c ∈ (cs.dropWhile p).head?, p c = false := by
  intro c hc
  have h := List.head?_dropWhile_not p cs
  rw [Option.mem_def.1 hc] at h
  simpa using h

theorem mem_takeWhile {p : Char → Bool} {cs : List Char} {c : Char} (h : c ∈ cs.takeWhile p) :
    p c = true := List.all_eq_true.1 List.all_takeWhile c h

/-- What begins with such a character is read as a word. -/
theorem read_of_isWordStart {c : Char} (h : Item.isWordStart c = true) (cs : List Char) :
    Item.read c cs = Item.readWord c cs := by
  simp [Item.read, isBlank_of_isWordChar (isWordChar_of_isWordStart h), h]

/-- What begins with a digit is read as a number. -/
theorem read_of_isDigit {c : Char} (h : c.isDigit = true) (cs : List Char) :
    Item.read c cs = Item.readNumber c cs := by
  simp [Item.read, isBlank_of_isWordChar (isWordChar_of_isDigit h), isWordStart_of_isDigit h, h]

/-- Only words, numbers and a few symbols can be extended, and the first character of a lexeme
tells whether it is one of them. -/
theorem longest_of_cons {c : Char} {cs rest : List Char}
    (hword : isWordStart c = true ∨ c = '\\' → ∀ d ∈ rest.head?, isWordChar d = false)
    (hnumber : c.isDigit = true → ∀ d ∈ rest.head?, d.isDigit = false)
    (hinteger : IsDigits (c :: cs) → ∀ d later, rest = '.' :: d :: later → d.isDigit = false)
    (hsymbol : c :: cs ∉ [['<'], ['>'], ['='], ['!'], ['/']]) : Longest (c :: cs) rest where
  word := by
    rintro (h | h)
    · simp only [isWord, Bool.and_eq_true] at h
      exact hword (.inl h.1)
    · exact hword (.inr (Option.some.inj h))
  number := by
    rintro ⟨d, hd, h⟩
    obtain rfl : c = d := by simpa using hd
    exact hnumber h
  integer := hinteger
  operator h := absurd (List.mem_append_left [['/']] h) hsymbol
  slash h := absurd (by simp [h]) hsymbol

/-- The signs that can be extended have no character of a word in them. -/
theorem not_symbol_of_isWordChar {c : Char} (h : isWordChar c = true) (cs : List Char) :
    c :: cs ∉ [['<'], ['>'], ['='], ['!'], ['/']] := by
  intro hsymbol
  simp only [List.mem_cons, List.cons.injEq, List.not_mem_nil, or_false] at hsymbol
  rcases hsymbol with ⟨rfl, -⟩ | ⟨rfl, -⟩ | ⟨rfl, -⟩ | ⟨rfl, -⟩ | ⟨rfl, -⟩ <;>
    simp [isWordChar] at h

/-- A lexeme that begins no word and no number, and is no symbol that could go on, is extended by
nothing. -/
theorem longest_of_other {c : Char} {cs : List Char} (hword : isWordStart c = false)
    (hdigit : c.isDigit = false) (hmark : c ≠ '\\')
    (hsymbol : c :: cs ∉ [['<'], ['>'], ['='], ['!'], ['/']]) (rest : List Char) :
    Longest (c :: cs) rest := by
  refine longest_of_cons ?_ ?_ ?_ hsymbol
  · intro hc
    simp [hword, hmark] at hc
  · intro hc
    simp [hdigit] at hc
  · intro hds
    have hc := hds.digit c List.mem_cons_self
    simp [hdigit] at hc

/-! ## Words -/

/-- A reserved word has the kind it is listed with. -/
theorem wordKind_of_mem {word : String} {k : Kind} (h : (word, k) ∈ reservedWords) :
    wordKind word = k := by
  simp only [reservedWords, List.mem_cons, Prod.mk.injEq, List.not_mem_nil, or_false] at h
  rcases h with ⟨rfl, rfl⟩ | ⟨rfl, rfl⟩ | ⟨rfl, rfl⟩ | ⟨rfl, rfl⟩ | ⟨rfl, rfl⟩ | ⟨rfl, rfl⟩ |
    ⟨rfl, rfl⟩ | ⟨rfl, rfl⟩ <;> rfl

theorem wordKind_of_not_mem {word : String} (h : ∀ k, (word, k) ∉ reservedWords) :
    wordKind word = .name word := by
  rw [wordKind.eq_def]
  split <;> first
    | rfl
    | simp [reservedWords] at h

/-- A word is reserved or a name. -/
theorem isLexeme_wordKind {word : String} (h : isWord word.toList = true) :
    IsLexeme (wordKind word) word.toList := by
  by_cases hreserved : ∃ k, (word, k) ∈ reservedWords
  · obtain ⟨k, hk⟩ := hreserved
    rw [wordKind_of_mem hk]
    exact .reserved hk
  · have hfree : ∀ k, (word, k) ∉ reservedWords := fun k hk => hreserved ⟨k, hk⟩
    rw [wordKind_of_not_mem hfree]
    exact .name h hfree

theorem isWord_of_mem_reservedWords {word : String} {k : Kind} (h : (word, k) ∈ reservedWords) :
    isWord word.toList = true := by
  have hall : ∀ entry ∈ reservedWords, isWord entry.1.toList = true := by decide
  exact hall _ h

theorem isWordChar_of_isWord {cs : List Char} (h : isWord cs = true) :
    cs ≠ [] ∧ ∀ c ∈ cs, isWordChar c = true := by
  cases cs with
  | nil => simp [isWord] at h
  | cons c cs =>
      simp only [isWord, Bool.and_eq_true, List.all_eq_true] at h
      refine ⟨by simp, ?_⟩
      rw [List.forall_mem_cons]
      exact ⟨isWordChar_of_isWordStart h.1, h.2⟩

/-- A word is as long as it can be if no character of a word follows. -/
theorem longest_of_isWordStart {c : Char} {cs rest : List Char} (h : isWordStart c = true)
    (hrest : ∀ d ∈ rest.head?, isWordChar d = false) : Longest (c :: cs) rest := by
  have hdigit : c.isDigit ≠ true := by
    intro hdigit
    simp [isWordStart_of_isDigit hdigit] at h
  refine longest_of_cons (fun _ => hrest) ?_ ?_
    (not_symbol_of_isWordChar (isWordChar_of_isWordStart h) cs)
  · intro hc
    exact absurd hc hdigit
  · intro hds
    exact absurd (hds.digit c List.mem_cons_self) hdigit

/-- What is taken for a word fits the grammar of lexemes. -/
theorem fits_readWord {c : Char} (h : isWordStart c = true) (cs : List Char) :
    Fits (wordKind (String.ofList (c :: cs.takeWhile isWordChar))) (c :: cs.takeWhile isWordChar)
      (cs.dropWhile isWordChar) := by
  have hword : isWord (c :: cs.takeWhile isWordChar) = true := by simp [isWord, h]
  rw [← String.toList_ofList (l := c :: cs.takeWhile isWordChar)] at hword
  have hlexeme := isLexeme_wordKind hword
  rw [String.toList_ofList] at hlexeme
  exact ⟨hlexeme, longest_of_isWordStart h head?_dropWhile⟩

/-- A word is read in front of everything that does not go on with it. -/
theorem read_word {word : String} {rest : List Char} (h : isWord word.toList = true)
    (hrest : ∀ d ∈ rest.head?, isWordChar d = false) :
    ∃ c cs, word.toList ++ rest = c :: cs ∧
      read c cs = .token (wordKind word) word.toList rest := by
  have hword : String.ofList word.toList = word := String.ofList_toList
  revert h hword
  cases word.toList with
  | nil => simp [isWord]
  | cons c cs =>
      intro h hword
      simp only [isWord, Bool.and_eq_true, List.all_eq_true] at h
      obtain ⟨htake, hdrop⟩ := span_append h.2 hrest
      refine ⟨c, cs ++ rest, rfl, ?_⟩
      rw [read_of_isWordStart h.1, readWord, htake, hdrop, hword]

theorem markedKeyword?_eq_some {word : String} {k : Keyword} :
    markedKeyword? word = some k ↔ (word, k) ∈ markedWords := by
  constructor
  · intro h
    rw [markedKeyword?.eq_def] at h
    split at h <;> cases h <;> decide
  · intro h
    simp only [markedWords, List.mem_cons, Prod.mk.injEq, List.not_mem_nil, or_false] at h
    rcases h with ⟨rfl, rfl⟩ | ⟨rfl, rfl⟩ | ⟨rfl, rfl⟩ | ⟨rfl, rfl⟩ | ⟨rfl, rfl⟩ | ⟨rfl, rfl⟩ <;>
      rfl

/-- So is a mark with a word behind it. -/
theorem longest_marked {word rest : List Char} (hrest : ∀ c ∈ rest.head?, isWordChar c = false) :
    Longest ('\\' :: word) rest := by
  refine longest_of_cons (fun _ => hrest) ?_ ?_ (by simp)
  · intro hc
    exact absurd hc (by decide)
  · intro hds
    exact absurd (hds.digit _ List.mem_cons_self) (by decide)

/-- What is taken for a marked keyword fits the grammar of lexemes. -/
theorem fits_of_readMarked {cs : List Char} {item : Item} (h : (readMarked cs).found = .ok item) :
    ∃ k, item = .token k ∧ Fits k (readMarked cs).taken (readMarked cs).rest := by
  rw [readMarked.eq_def] at h ⊢
  dsimp only at h ⊢
  split at h
  · cases h
  · next hword =>
    rw [if_neg hword]
    cases hk : markedKeyword? (String.ofList (cs.takeWhile isWordChar)) with
    | none =>
        rw [hk] at h
        cases h
    | some keyword =>
        rw [hk] at h
        cases h
        have hlexeme := IsLexeme.marked (markedKeyword?_eq_some.1 hk)
        rw [String.toList_ofList] at hlexeme
        exact ⟨_, rfl, hlexeme, longest_marked head?_dropWhile⟩

/-- A marked keyword is read in front of everything that does not go on with it. -/
theorem read_marked {word : String} {k : Keyword} {rest : List Char}
    (h : (word, k) ∈ markedWords) (hrest : ∀ c ∈ rest.head?, isWordChar c = false) :
    read '\\' (word.toList ++ rest) = .token (.keyword k) ('\\' :: word.toList) rest := by
  have hread : ∀ cs, read '\\' cs = readMarked cs := fun _ => rfl
  have hall : ∀ entry ∈ markedWords, isWord entry.1.toList = true := by decide
  obtain ⟨hne, hchars⟩ := isWordChar_of_isWord (hall _ h)
  obtain ⟨htake, hdrop⟩ := span_append hchars hrest
  rw [hread, readMarked, htake, hdrop, if_neg (by simpa using hne), String.ofList_toList,
    markedKeyword?_eq_some.2 h]

/-! ## Numbers -/

/-- A number is as long as it can be if no digit follows, nor a fraction behind an integer. -/
theorem longest_of_isDigit {c : Char} {cs rest : List Char} (h : c.isDigit = true)
    (hrest : ∀ d ∈ rest.head?, d.isDigit = false)
    (hinteger : IsDigits (c :: cs) → ∀ d later, rest = '.' :: d :: later → d.isDigit = false) :
    Longest (c :: cs) rest := by
  refine longest_of_cons ?_ (fun _ => hrest) hinteger
    (not_symbol_of_isWordChar (isWordChar_of_isDigit h) cs)
  rintro (hstart | rfl)
  · simp [isWordStart_of_isDigit h] at hstart
  · simp at h

theorem isDigits_takeWhile {c : Char} (h : c.isDigit = true) (cs : List Char) :
    IsDigits (c :: cs.takeWhile Char.isDigit) where
  ne_nil := by simp
  digit := by
    intro d hd
    rcases List.mem_cons.1 hd with rfl | hd
    · exact h
    · exact mem_takeWhile hd

/-- A number with a fraction. -/
theorem readNumber_of_point {c d : Char} {cs r : List Char}
    (h : cs.dropWhile Char.isDigit = '.' :: d :: r) (hd : d.isDigit = true) :
    readNumber c cs = .token
      (.literal (.float (.ofDecimal false (Number.Binary64.decimalOf
        (c :: cs.takeWhile Char.isDigit) (d :: r.takeWhile Char.isDigit) 0))))
      (c :: cs.takeWhile Char.isDigit ++ '.' :: d :: r.takeWhile Char.isDigit)
      (r.dropWhile Char.isDigit) := by
  rw [readNumber, h]
  simp only [hd, if_true]

/-- A number without a fraction. -/
theorem readNumber_of_no_point {c : Char} {cs : List Char}
    (h : ∀ d later, cs.dropWhile Char.isDigit = '.' :: d :: later → d.isDigit = false) :
    readNumber c cs =
      if Number.ofDigits (c :: cs.takeWhile Char.isDigit) ≤ greatestInteger then
        .token (.literal (.int (Number.ofDigits (c :: cs.takeWhile Char.isDigit))))
          (c :: cs.takeWhile Char.isDigit) (cs.dropWhile Char.isDigit)
      else .faulty (.integerOutOfRange (String.ofList (c :: cs.takeWhile Char.isDigit)))
          (c :: cs.takeWhile Char.isDigit) (cs.dropWhile Char.isDigit) := by
  rw [readNumber.eq_def]
  dsimp only
  split
  · next d r heq => simp [h d r heq, heq]
  · rfl

/-- What is taken for a number fits the grammar of lexemes. -/
theorem fits_of_readNumber {c : Char} {cs : List Char} {item : Item} (hc : c.isDigit = true)
    (h : (readNumber c cs).found = .ok item) :
    ∃ k, item = .token k ∧ Fits k (readNumber c cs).taken (readNumber c cs).rest := by
  have hwhole := isDigits_takeWhile hc cs
  by_cases hpoint : ∃ d r, cs.dropWhile Char.isDigit = '.' :: d :: r ∧ d.isDigit = true
  · obtain ⟨d, r, heq, hd⟩ := hpoint
    rw [readNumber_of_point heq hd] at h ⊢
    cases h
    refine ⟨_, rfl, .float hwhole (isDigits_takeWhile hd r),
      longest_of_isDigit hc head?_dropWhile ?_⟩
    -- a point is no digit, so this is no integer
    intro hds
    exact absurd (hds.digit '.' (by simp)) (by decide)
  · have hinteger : ∀ d later, cs.dropWhile Char.isDigit = '.' :: d :: later →
        d.isDigit = false := by
      intro d later heq
      rw [Bool.eq_false_iff]
      intro hd
      exact hpoint ⟨d, later, heq, hd⟩
    rw [readNumber_of_no_point hinteger] at h ⊢
    by_cases hbound : Number.ofDigits (c :: cs.takeWhile Char.isDigit) ≤ greatestInteger
    · rw [if_pos hbound] at h ⊢
      cases h
      exact ⟨_, rfl, .integer hwhole hbound,
        longest_of_isDigit hc head?_dropWhile fun _ => hinteger⟩
    · rw [if_neg hbound] at h
      cases h

/-- An integer in range is read with its value. -/
theorem read_integer {c : Char} {cs rest : List Char} (h : IsDigits (c :: cs))
    (hbound : Number.ofDigits (c :: cs) ≤ greatestInteger) (hlongest : Longest (c :: cs) rest) :
    read c (cs ++ rest) =
      .token (.literal (.int (Number.ofDigits (c :: cs)))) (c :: cs) rest := by
  have hc := h.digit c List.mem_cons_self
  have hdigits : ∀ d ∈ cs, d.isDigit = true := fun d hd => h.digit d (List.mem_cons_of_mem c hd)
  obtain ⟨htake, hdrop⟩ := span_append hdigits (hlongest.number ⟨c, rfl, hc⟩)
  have hpoint : ∀ d later, (cs ++ rest).dropWhile Char.isDigit = '.' :: d :: later →
      d.isDigit = false := by
    rw [hdrop]
    exact hlongest.integer h
  rw [read_of_isDigit hc, readNumber_of_no_point hpoint, htake, hdrop, if_pos hbound]

/-- Two rows of digits with a point between them are read as the float closest to them. -/
theorem read_float {c d : Char} {cs ds rest : List Char} (hwhole : IsDigits (c :: cs))
    (hfraction : IsDigits (d :: ds)) (hlongest : Longest (c :: cs ++ '.' :: d :: ds) rest) :
    read c (cs ++ '.' :: d :: (ds ++ rest)) = .token
      (.literal (.float (.ofDecimal false (Number.Binary64.decimalOf (c :: cs) (d :: ds) 0))))
      (c :: cs ++ '.' :: d :: ds) rest := by
  have hc := hwhole.digit c List.mem_cons_self
  have hpoint : ∀ e ∈ ('.' :: d :: (ds ++ rest)).head?, e.isDigit = false := by
    intro e he
    obtain rfl : '.' = e := by simpa using he
    rfl
  obtain ⟨htake, hdrop⟩ := span_append
    (fun e he => hwhole.digit e (List.mem_cons_of_mem c he)) hpoint
  have hdigits : ∀ e ∈ ds, e.isDigit = true :=
    fun e he => hfraction.digit e (List.mem_cons_of_mem d he)
  obtain ⟨htake', hdrop'⟩ := span_append hdigits (hlongest.number ⟨c, rfl, hc⟩)
  rw [read_of_isDigit hc, readNumber_of_point hdrop (hfraction.digit d List.mem_cons_self), htake,
    htake', hdrop']

/-! ## Strings and characters -/

/-- What stands in front of the closing quote can stand in a string. -/
theorem isStringInside_splitInside {cs rest : List Char} (h : (splitInside cs).2 = '"' :: rest) :
    IsStringInside (splitInside cs).1 := by
  fun_induction splitInside cs with
  | case1 => simp at h
  | case2 => exact .nil
  | case3 => simp at h
  | case4 rest' => simp at h
  | case5 c cs hc ih => exact .escaped hc (ih h)
  | case6 c cs hquote hline hescape ih =>
      have hc : c ≠ '\\' := by
        rintro rfl
        cases cs with
        | nil => simp [splitInside] at h
        | cons d cs => exact hescape d cs rfl rfl
      exact .plain hc hquote hline (ih h)

/-- Whatever can stand in a string is passed over up to the closing quote. -/
theorem splitInside_append_quote {inside : List Char} (h : IsStringInside inside)
    (rest : List Char) : splitInside (inside ++ '"' :: rest) = (inside, '"' :: rest) := by
  induction h with
  | nil => simp [splitInside]
  | @plain c cs slash quote newline later ih =>
      rw [List.cons_append, splitInside, ih]
      · exact quote
      · exact newline
      · intro d ds hd
        exact absurd hd slash
  | @escaped c cs newline later ih =>
      rw [List.cons_append, List.cons_append, splitInside, if_neg newline, ih]

/-- What is taken for a string fits the grammar of lexemes. -/
theorem fits_of_readString {cs : List Char} {item : Item} (h : (readString cs).found = .ok item) :
    ∃ k, item = .token k ∧ Fits k (readString cs).taken (readString cs).rest := by
  rw [readString.eq_def] at h ⊢
  dsimp only at h ⊢
  split at h
  · next rest hrest =>
    cases h
    exact ⟨_, rfl, .string (isStringInside_splitInside hrest),
      longest_of_other rfl rfl (by decide) (by simp) rest⟩
  · cases h

/-- A string is read whatever follows its closing quote. -/
theorem read_string {inside : List Char} (h : IsStringInside inside) (rest : List Char) :
    read '"' (inside ++ '"' :: rest) =
      .token (.literal (.str (String.ofList inside))) ('"' :: inside ++ ['"']) rest := by
  have hread : ∀ cs, read '"' cs = readString cs := fun _ => rfl
  rw [hread, readString, splitInside_append_quote h]
  rfl

theorem fits_of_closeChar {inside rest : List Char} {item : Item} (hinside : IsCharInside inside)
    (h : (closeChar inside rest).found = .ok item) :
    ∃ k, item = .token k ∧ Fits k (closeChar inside rest).taken (closeChar inside rest).rest := by
  rw [closeChar.eq_def] at h ⊢
  split at h
  · cases h
    exact ⟨_, rfl, .char hinside, longest_of_other rfl rfl (by decide) (by simp) _⟩
  · cases h

/-- What is taken for a character literal fits the grammar of lexemes. -/
theorem fits_of_readChar {cs : List Char} {item : Item} (h : (readChar cs).found = .ok item) :
    ∃ k, item = .token k ∧ Fits k (readChar cs).taken (readChar cs).rest := by
  rw [readChar.eq_def] at h ⊢
  split at h
  · split at h
    · cases h
    · next c rest hc =>
      rw [if_neg hc]
      exact fits_of_closeChar (.escaped hc) h
  · cases h
  · next c rest hescape hlone =>
    split at h
    · cases h
    · next hc =>
      have hslash : c ≠ '\\' := by
        intro hslash
        cases rest with
        | nil => exact hlone hslash rfl
        | cons d rest => exact hescape d rest hslash rfl
      rw [if_neg hc]
      rw [not_or] at hc
      exact fits_of_closeChar (.plain hslash hc.1 hc.2) h
  · cases h

/-- A character literal is read whatever follows its closing quote. -/
theorem read_char {inside : List Char} (h : IsCharInside inside) (rest : List Char) :
    read '\'' (inside ++ '\'' :: rest) =
      .token (.literal (.char (String.ofList inside))) ('\'' :: inside ++ ['\'']) rest := by
  have hread : ∀ cs, read '\'' cs = readChar cs := fun _ => rfl
  rw [hread]
  cases h with
  | @plain c slash quote newline =>
      rw [List.singleton_append, readChar]
      · simp [quote, newline, closeChar]
      · intro d ds hd
        exact absurd hd slash
      · intro hd
        exact absurd hd slash
  | @escaped c newline => simp [readChar, newline, closeChar]

/-! ## Symbols -/

/-- A sign of two characters that is recognized is in the table of signs. -/
theorem mem_symbols_of_pairKind? {c d : Char} {k : Kind} (h : pairKind? c d = some k) :
    (String.ofList [c, d], k) ∈ symbols := by
  rw [pairKind?.eq_def] at h
  split at h <;> cases h <;> decide

theorem mem_symbols_of_singleKind? {c : Char} {k : Kind} (h : singleKind? c = some k) :
    (String.ofList [c], k) ∈ symbols := by
  rw [singleKind?.eq_def] at h
  split at h <;> cases h <;> decide

/-- A symbol of one character that is no division sign and that the next character does not
extend. -/
theorem longest_single {c : Char} {cs : List Char} (hword : isWordStart c = false)
    (hdigit : c.isDigit = false) (hmark : c ≠ '\\')
    (hslash : c = '/' → cs.head? ≠ some '/' ∧ cs.head? ≠ some '*')
    (hpair : ∀ d ∈ cs.head?, pairKind? c d = none) : Longest [c] cs where
  word := by
    rintro (h | h)
    · simp [isWord, hword] at h
    · exact absurd (Option.some.inj h) hmark
  number := by
    rintro ⟨d, hd, h⟩
    obtain rfl : c = d := by simpa using hd
    simp [hdigit] at h
  integer h := by
    have hc := h.digit c List.mem_cons_self
    simp [hdigit] at hc
  operator h := by
    intro hhead
    have hnone := hpair '=' hhead
    simp only [List.mem_cons, List.cons.injEq, and_true, List.not_mem_nil, or_false] at h
    rcases h with rfl | rfl | rfl | rfl <;> simp [pairKind?] at hnone
  slash h := hslash (List.cons.inj h).1

/-- What is taken for a sign fits the grammar of lexemes. -/
theorem fits_of_readSymbol {c : Char} {cs : List Char} {item : Item} (hword : isWordStart c = false)
    (hdigit : c.isDigit = false) (hmark : c ≠ '\\')
    (hslash : c = '/' → cs.head? ≠ some '/' ∧ cs.head? ≠ some '*')
    (h : (readSymbol c cs).found = .ok item) :
    ∃ k, item = .token k ∧ Fits k (readSymbol c cs).taken (readSymbol c cs).rest := by
  have single (hpair : ∀ d ∈ cs.head?, pairKind? c d = none)
      (h : (readSingle c cs).found = .ok item) :
      ∃ k, item = .token k ∧ Fits k (readSingle c cs).taken (readSingle c cs).rest := by
    rw [readSingle.eq_def] at h ⊢
    split at h
    · next k hk =>
      cases h
      have hlexeme := IsLexeme.symbol (mem_symbols_of_singleKind? hk)
      rw [String.toList_ofList] at hlexeme
      exact ⟨k, rfl, hlexeme, longest_single hword hdigit hmark hslash hpair⟩
    · cases h
  cases cs with
  | nil => exact single (by simp) h
  | cons d rest =>
      rw [readSymbol] at h ⊢
      cases hk : pairKind? c d with
      | none =>
          rw [hk] at h
          exact single (by simpa using hk) h
      | some k =>
          rw [hk] at h
          cases h
          have hlexeme := IsLexeme.symbol (mem_symbols_of_pairKind? hk)
          rw [String.toList_ofList] at hlexeme
          exact ⟨k, rfl, hlexeme, longest_of_other hword hdigit hmark (by simp) rest⟩

/-- The kind of a symbol. -/
def symbolKind? : List Char → Option Kind
  | [c] => singleKind? c
  | [c, d] => pairKind? c d
  | _ => none

/-- Every sign of the table is recognized. -/
theorem symbolKind?_of_mem {text : String} {k : Kind} (h : (text, k) ∈ symbols) :
    symbolKind? text.toList = some k := by
  have hall : ∀ entry ∈ symbols, symbolKind? entry.1.toList = some entry.2 := by decide
  exact hall _ h

/-- A sign of one character is read unless the next character extends it. -/
theorem readSymbol_of_singleKind? {c : Char} {rest : List Char} {k : Kind}
    (h : singleKind? c = some k) (hpair : ∀ d ∈ rest.head?, pairKind? c d = none) :
    readSymbol c rest = .token k [c] rest := by
  cases rest with
  | nil => simp [readSymbol, readSingle, h]
  | cons d rest =>
      have hd : pairKind? c d = none := hpair d rfl
      simp [readSymbol, readSingle, h, hd]

/-- Only an equality sign makes a pair of a symbol of one character. -/
theorem pairKind?_eq_none {c d : Char} {k : Kind} (h : singleKind? c = some k)
    (hd : [c] ∈ [['<'], ['>'], ['='], ['!']] → d ≠ '=') : pairKind? c d = none := by
  rw [pairKind?.eq_def]
  split <;> simp_all [singleKind?]

theorem read_of_singleKind? {c : Char} {k : Kind} (h : singleKind? c = some k) (cs : List Char) :
    read c cs = if c = '/' then readSlash cs else readSymbol c cs := by
  rw [singleKind?.eq_def] at h
  split at h <;> cases h <;> rfl

/-- A slash that opens no comment is a sign like others. -/
theorem readSlash_of_head? {cs : List Char} (h : cs.head? ≠ some '/' ∧ cs.head? ≠ some '*') :
    readSlash cs = readSymbol '/' cs := by
  rw [readSlash.eq_def]
  split
  · exact absurd rfl h.1
  · exact absurd rfl h.2
  · rfl

/-- A sign is read in front of everything that does not extend it. -/
theorem read_symbol {c : Char} {cs rest : List Char} {k : Kind}
    (h : symbolKind? (c :: cs) = some k) (hlongest : Longest (c :: cs) rest) :
    read c (cs ++ rest) = .token k (c :: cs) rest := by
  rw [symbolKind?.eq_def] at h
  split at h
  · next c' heq =>
    cases heq
    have hsymbol : readSymbol c rest = .token k [c] rest := by
      refine readSymbol_of_singleKind? h ?_
      intro d hd
      refine pairKind?_eq_none h ?_
      rintro hc rfl
      exact hlongest.operator hc hd
    rw [List.nil_append, read_of_singleKind? h, ← hsymbol]
    split
    · next hslash =>
      subst hslash
      exact readSlash_of_head? (hlongest.slash rfl)
    · rfl
  · next c' d heq =>
    cases heq
    rw [pairKind?.eq_def] at h
    split at h <;> cases h <;> rfl
  · cases h

/-- What an item can be: a blank, a comment behind its opening mark, or a token that belongs to its
class and could not be longer. -/
theorem read_cases {c : Char} {cs : List Char} {item : Item} (h : (read c cs).found = .ok item) :
    (item = .blank ∧ Text.isBlank c = true) ∨
    (item = .lineComment ∧ c = '/' ∧ ∃ later, cs = '/' :: later) ∨
    (item = .blockComment ∧ c = '/' ∧ ∃ later split, cs = '*' :: later ∧
      splitBlock? later = some split) ∨
    ∃ k, item = .token k ∧ Fits k (read c cs).taken (read c cs).rest := by
  rw [read.eq_def] at h ⊢
  by_cases hblank : Text.isBlank c = true
  · rw [if_pos hblank] at h
    cases h
    exact .inl ⟨rfl, hblank⟩
  rw [if_neg hblank] at h ⊢
  right
  by_cases hstart : isWordStart c = true
  · rw [if_pos hstart] at h ⊢
    cases h
    exact .inr (.inr ⟨_, rfl, fits_readWord hstart cs⟩)
  rw [if_neg hstart] at h ⊢
  by_cases hdigit : c.isDigit = true
  · rw [if_pos hdigit] at h ⊢
    exact .inr (.inr (fits_of_readNumber hdigit h))
  rw [if_neg hdigit] at h ⊢
  rw [Bool.not_eq_true] at hstart hdigit
  by_cases hslash : c = '/'
  · subst hslash
    rw [if_pos rfl, readSlash.eq_def] at h ⊢
    split at h
    · cases h
      exact .inl ⟨rfl, rfl, _, rfl⟩
    · rw [readBlock.eq_def] at h
      split at h
      · next hsplit =>
        cases h
        exact .inr (.inl ⟨rfl, rfl, _, _, rfl, hsplit⟩)
      · cases h
    · next hline hblock =>
      refine .inr (.inr (fits_of_readSymbol hstart hdigit (by decide) (fun _ => ?_) h))
      constructor
      · intro hhead
        obtain ⟨rest, rfl⟩ := List.head?_eq_some_iff.1 hhead
        exact hline rest rfl
      · intro hhead
        obtain ⟨rest, rfl⟩ := List.head?_eq_some_iff.1 hhead
        exact hblock rest rfl
  rw [if_neg hslash] at h ⊢
  right
  right
  by_cases hmark : c = '\\'
  · rw [if_pos hmark] at h ⊢
    exact fits_of_readMarked h
  rw [if_neg hmark] at h ⊢
  by_cases hquote : c = '"'
  · rw [if_pos hquote] at h ⊢
    exact fits_of_readString h
  rw [if_neg hquote] at h ⊢
  by_cases hapostrophe : c = '\''
  · rw [if_pos hapostrophe] at h ⊢
    exact fits_of_readChar h
  rw [if_neg hapostrophe] at h ⊢
  exact fits_of_readSymbol hstart hdigit hmark (fun hc => absurd hc hslash) h

/-- A token that is read belongs to its class and could not be longer. -/
theorem fits_of_read {c : Char} {cs : List Char} {k : Kind}
    (h : (read c cs).found = .ok (.token k)) : Fits k (read c cs).taken (read c cs).rest := by
  rcases read_cases h with ⟨hitem, -⟩ | ⟨hitem, -⟩ | ⟨hitem, -⟩ | ⟨k', hitem, hfits⟩
  · cases hitem
  · cases hitem
  · cases hitem
  · cases hitem
    exact hfits

/-- A lexeme that belongs to its class and could not be longer is read. -/
theorem read_of_fits {k : Kind} {lexeme rest : List Char} (h : Fits k lexeme rest) :
    ∃ c cs, lexeme ++ rest = c :: cs ∧ read c cs = .token k lexeme rest := by
  obtain ⟨hlexeme, hlongest⟩ := h
  cases hlexeme with
  | reserved mem =>
      have hword := isWord_of_mem_reservedWords mem
      have hread := read_word hword (hlongest.word (.inl hword))
      rwa [wordKind_of_mem mem] at hread
  | name hword free =>
      have hread := read_word hword (hlongest.word (.inl hword))
      rwa [wordKind_of_not_mem free] at hread
  | marked mem => exact ⟨_, _, rfl, read_marked mem (hlongest.word (.inr rfl))⟩
  | integer digits bound =>
      obtain ⟨c, cs, rfl⟩ := List.exists_cons_of_ne_nil digits.ne_nil
      exact ⟨_, _, rfl, read_integer digits bound hlongest⟩
  | float whole_digits fraction_digits =>
      obtain ⟨c, cs, rfl⟩ := List.exists_cons_of_ne_nil whole_digits.ne_nil
      obtain ⟨d, ds, rfl⟩ := List.exists_cons_of_ne_nil fraction_digits.ne_nil
      exact ⟨_, _, by simp, read_float whole_digits fraction_digits hlongest⟩
  | string inside_ok => exact ⟨_, _, by simp, read_string inside_ok rest⟩
  | char inside_ok => exact ⟨_, _, by simp, read_char inside_ok rest⟩
  | @symbol text k mem =>
      have hsymbol := symbolKind?_of_mem mem
      cases htext : text.toList with
      | nil => simp [htext, symbolKind?] at hsymbol
      | cons c cs =>
          rw [htext] at hsymbol hlongest
          exact ⟨c, cs ++ rest, rfl, read_symbol hsymbol hlongest⟩

end Pseudocode
