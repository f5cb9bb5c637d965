import Pseudocode.Proofs.Lexical.LongestMatch
import Pseudocode.Proofs.Lexical.Positions

/-!
# What lexical faults point at

A text without tokens is reported at its first item that has a fault. What stands there is what the
fault says, in terms of the text alone. Everything in front of it is a text with tokens: an item
looks ahead only to see whether it could be longer, and where the text is cut off it could not.
-/
namespace Pseudocode

open Item

/-- The text begins with what the fault says: a character that is not blank and begins no lexeme, a
backslash and a word that is none of the keywords, digits with a value that is out of range and no
fraction behind them, a quote or an apostrophe that begins no literal, or a comment that nothing
closes. -/
def LexFault.Shows : LexFault → List Char → Prop
  | .unexpectedCharacter c, text =>
    text.head? = some c ∧ Text.isBlank c = false ∧
      ∀ k lexeme rest, IsLexeme k lexeme → text ≠ lexeme ++ rest
  | .unknownKeyword word, text =>
    ∃ rest, text = '\\' :: (word.toList ++ rest) ∧ word.toList ≠ [] ∧
      (∀ c ∈ word.toList, isWordChar c = true) ∧ (∀ c ∈ rest.head?, isWordChar c = false) ∧
      ∀ k, (word, k) ∉ markedWords
  | .integerOutOfRange digits, text =>
    ∃ rest, text = digits.toList ++ rest ∧ IsDigits digits.toList ∧
      (∀ c ∈ rest.head?, c.isDigit = false) ∧
      (∀ d later, rest = '.' :: d :: later → d.isDigit = false) ∧
      9223372036854775807 < Number.ofDigits digits.toList
  | .unterminatedString, text =>
    ∃ cs, text = '"' :: cs ∧ ∀ inside rest, IsStringInside inside → cs ≠ inside ++ '"' :: rest
  | .malformedChar, text =>
    ∃ cs, text = '\'' :: cs ∧ ∀ inside rest, IsCharInside inside → cs ≠ inside ++ '\'' :: rest
  | .unterminatedComment, text => ∃ cs, text = '/' :: '*' :: cs ∧ ¬ ['*', '/'] <:+: cs

section Items
variable {c : Char} {cs : List Char} {fault : LexFault}

/-- A fault of a number shows in its text. -/
theorem shows_of_readNumber (hc : c.isDigit = true) (h : (readNumber c cs).found = .error fault) :
    fault.Shows (c :: cs) := by
  by_cases hpoint : ∃ d r, cs.dropWhile Char.isDigit = '.' :: d :: r ∧ d.isDigit = true
  · obtain ⟨d, r, heq, hd⟩ := hpoint
    rw [readNumber_of_point heq hd] at h
    cases h
  · have hinteger : ∀ d later, cs.dropWhile Char.isDigit = '.' :: d :: later →
        d.isDigit = false := by
      intro d later heq
      rw [Bool.eq_false_iff]
      intro hd
      exact hpoint ⟨d, later, heq, hd⟩
    rw [readNumber_of_no_point hinteger] at h
    split at h
    · cases h
    · next hbound =>
      cases h
      refine ⟨cs.dropWhile Char.isDigit, ?_, ?_, head?_dropWhile, hinteger, ?_⟩
      · simp [List.takeWhile_append_dropWhile]
      · rw [String.toList_ofList]
        exact isDigits_takeWhile hc cs
      · rw [String.toList_ofList]
        exact Nat.lt_of_not_le hbound

theorem shows_of_readString (h : (readString cs).found = .error fault) :
    fault.Shows ('"' :: cs) := by
  have hfault : fault = .unterminatedString := by
    rw [readString.eq_def] at h
    dsimp only at h
    split at h <;> cases h
    rfl
  subst hfault
  refine ⟨cs, rfl, ?_⟩
  rintro inside rest hinside rfl
  have hread : (read '"' (inside ++ '"' :: rest)).found = .error .unterminatedString := h
  rw [read_string hinside] at hread
  cases hread

theorem shows_of_readChar (h : (readChar cs).found = .error fault) : fault.Shows ('\'' :: cs) := by
  have hclose (inside rest : List Char) (h : (closeChar inside rest).found = .error fault) :
      fault = .malformedChar := by
    rw [closeChar.eq_def] at h
    split at h <;> cases h
    rfl
  have hfault : fault = .malformedChar := by
    rw [readChar.eq_def] at h
    split at h
    · split at h
      · cases h
        rfl
      · exact hclose _ _ h
    · cases h
      rfl
    · split at h
      · cases h
        rfl
      · exact hclose _ _ h
    · cases h
      rfl
  subst hfault
  refine ⟨cs, rfl, ?_⟩
  rintro inside rest hinside rfl
  have hread : (read '\'' (inside ++ '\'' :: rest)).found = .error .malformedChar := h
  rw [read_char hinside] at hread
  cases hread

/-- A block comment that is not closed has no closing mark behind it. -/
theorem not_infix_of_splitBlock? (h : splitBlock? cs = none) : ¬ ['*', '/'] <:+: cs := by
  fun_induction splitBlock? cs with
  | case1 => simp
  | case2 cs => cases h
  | case3 c cs hopen ih =>
      rw [List.infix_cons_iff, not_or]
      refine ⟨?_, ih (Option.map_eq_none_iff.1 h)⟩
      rintro ⟨later, hlater⟩
      obtain ⟨rfl, rfl⟩ := List.cons.inj hlater
      exact hopen later rfl rfl

theorem exists_head_of_isWord {word : List Char} (h : isWord word = true) :
    ∃ c later, word = c :: later ∧ isWordStart c = true := by
  cases word with
  | nil => cases h
  | cons c later =>
      simp only [isWord, Bool.and_eq_true] at h
      exact ⟨c, later, rfl, h.1⟩

theorem IsDigits.exists_head {ds : List Char} (h : IsDigits ds) :
    ∃ c later, ds = c :: later ∧ c.isDigit = true := by
  obtain ⟨c, later, rfl⟩ := List.exists_cons_of_ne_nil h.ne_nil
  exact ⟨c, later, rfl, h.digit c List.mem_cons_self⟩

/-- A lexeme is a word, a number or a literal, which its first character tells, or a backslash with
a word behind it, or a symbol. -/
theorem IsLexeme.cases_head {k : Kind} {lexeme : List Char} (h : IsLexeme k lexeme) :
    (∃ c later, lexeme = c :: later ∧
      (isWordStart c = true ∨ c.isDigit = true ∨ c = '"' ∨ c = '\'')) ∨
    (∃ c later, lexeme = '\\' :: c :: later ∧ isWordChar c = true) ∨
    symbolKind? lexeme = some k := by
  cases h with
  | reserved mem =>
      obtain ⟨c, later, heq, hc⟩ := exists_head_of_isWord (isWord_of_mem_reservedWords mem)
      exact .inl ⟨c, later, heq, .inl hc⟩
  | name hword free =>
      obtain ⟨c, later, heq, hc⟩ := exists_head_of_isWord hword
      exact .inl ⟨c, later, heq, .inl hc⟩
  | marked mem =>
      have hall : ∀ entry ∈ markedWords, isWord entry.1.toList = true := by decide
      obtain ⟨c, later, heq, hc⟩ := exists_head_of_isWord (hall _ mem)
      exact .inr (.inl ⟨c, later, by rw [heq], isWordChar_of_isWordStart hc⟩)
  | integer digits bound =>
      obtain ⟨c, later, heq, hc⟩ := digits.exists_head
      exact .inl ⟨c, later, heq, .inr (.inl hc)⟩
  | float whole_digits fraction_digits =>
      obtain ⟨c, later, rfl, hc⟩ := whole_digits.exists_head
      exact .inl ⟨c, _, rfl, .inr (.inl hc)⟩
  | string inside_ok => exact .inl ⟨_, _, rfl, .inr (.inr (.inl rfl))⟩
  | char inside_ok => exact .inl ⟨_, _, rfl, .inr (.inr (.inr rfl))⟩
  | symbol mem => exact .inr (.inr (symbolKind?_of_mem mem))

/-- A character that begins neither a word, a number or a literal nor a symbol begins no lexeme. -/
theorem shows_unexpectedCharacter (hblank : Text.isBlank c = false) (hword : isWordStart c = false)
    (hdigit : c.isDigit = false) (hquote : c ≠ '"') (hapostrophe : c ≠ '\'')
    (hmark : c = '\\' → ∀ d ∈ cs.head?, isWordChar d = false) (hsingle : singleKind? c = none)
    (hpair : ∀ d ∈ cs.head?, pairKind? c d = none) :
    (LexFault.unexpectedCharacter c).Shows (c :: cs) := by
  refine ⟨rfl, hblank, ?_⟩
  intro k lexeme rest hlexeme htext
  rcases hlexeme.cases_head with ⟨d, later, rfl, hd⟩ | ⟨d, later, rfl, hd⟩ | hsymbol
  · obtain ⟨rfl, -⟩ := List.cons.inj htext
    simp [hword, hdigit, hquote, hapostrophe] at hd
  · obtain ⟨rfl, rfl⟩ := List.cons.inj htext
    simp [hmark rfl d rfl] at hd
  · rw [symbolKind?.eq_def] at hsymbol
    split at hsymbol
    · obtain ⟨rfl, -⟩ := List.cons.inj htext
      cases hsingle.symm.trans hsymbol
    · next d e =>
      obtain ⟨rfl, rfl⟩ := List.cons.inj htext
      cases (hpair e rfl).symm.trans hsymbol
    · cases hsymbol

/-- A fault behind a mark shows in the text. -/
theorem shows_of_readMarked (h : (readMarked cs).found = .error fault) :
    fault.Shows ('\\' :: cs) := by
  rw [readMarked.eq_def] at h
  dsimp only at h
  split at h
  · next hempty =>
    cases h
    refine shows_unexpectedCharacter rfl rfl rfl (by decide) (by decide) (fun _ d hd => ?_) rfl
      fun _ _ => rfl
    obtain ⟨later, rfl⟩ := List.head?_eq_some_iff.1 hd
    by_contra hchar
    rw [Bool.not_eq_false] at hchar
    simp [hchar] at hempty
  · next hword =>
    split at h
    · cases h
    · next hnone =>
      cases h
      refine ⟨cs.dropWhile isWordChar, ?_, ?_, ?_, head?_dropWhile, fun k hk => ?_⟩
      · rw [String.toList_ofList, List.takeWhile_append_dropWhile]
      · rw [String.toList_ofList]
        simpa using hword
      · rw [String.toList_ofList]
        exact fun d hd => mem_takeWhile hd
      · rw [← markedKeyword?_eq_some, hnone] at hk
        cases hk

/-- A fault of a sign shows in the text: no item of any kind begins there. -/
theorem shows_of_readSymbol (hblank : Text.isBlank c = false) (hword : isWordStart c = false)
    (hdigit : c.isDigit = false) (hmark : c ≠ '\\') (hquote : c ≠ '"') (hapostrophe : c ≠ '\'')
    (h : (readSymbol c cs).found = .error fault) : fault.Shows (c :: cs) := by
  have single (hpair : ∀ d ∈ cs.head?, pairKind? c d = none)
      (h : (readSingle c cs).found = .error fault) : fault.Shows (c :: cs) := by
    rw [readSingle.eq_def] at h
    split at h
    · cases h
    · next hsingle =>
      cases h
      exact shows_unexpectedCharacter hblank hword hdigit hquote hapostrophe
        (fun hc => absurd hc hmark) hsingle hpair
  cases cs with
  | nil => exact single (by simp) h
  | cons d rest =>
      rw [readSymbol] at h
      split at h
      · cases h
      · next hnone => exact single (by simpa using hnone) h

theorem shows_of_readSlash (h : (readSlash cs).found = .error fault) : fault.Shows ('/' :: cs) := by
  rw [readSlash.eq_def] at h
  split at h
  · cases h
  · rw [readBlock.eq_def] at h
    split at h
    · cases h
    · next hnone =>
      cases h
      exact ⟨_, rfl, not_infix_of_splitBlock? hnone⟩
  · exact shows_of_readSymbol rfl rfl rfl (by decide) (by decide) (by decide) h

/-- **An item that cannot be read shows its fault.** -/
theorem shows_of_read (h : (read c cs).found = .error fault) : fault.Shows (c :: cs) := by
  rw [read.eq_def] at h
  split at h
  · cases h
  next hblank =>
  split at h
  · cases h
  next hword =>
  split at h
  · next hdigit => exact shows_of_readNumber hdigit h
  next hdigit =>
  split at h
  · next hslash =>
    subst hslash
    exact shows_of_readSlash h
  split at h
  · next hmark =>
    subst hmark
    exact shows_of_readMarked h
  next hmark =>
  split at h
  · next hquote =>
    subst hquote
    exact shows_of_readString h
  next hquote =>
  split at h
  · next hapostrophe =>
    subst hapostrophe
    exact shows_of_readChar h
  next hapostrophe =>
  exact shows_of_readSymbol (by simpa using hblank) (by simpa using hword) (by simpa using hdigit)
    hmark hquote hapostrophe h

end Items

section Cut
variable {rest front : List Char}

theorem head?_of_isPrefix (h : front <+: rest) {c : Char} (hc : c ∈ front.head?) :
    c ∈ rest.head? := by
  obtain ⟨later, rfl⟩ := h
  obtain ⟨tail, rfl⟩ := List.head?_eq_some_iff.1 hc
  rfl

/-- What could not be longer could not be longer in front of less text. -/
theorem Longest.of_isPrefix {lexeme : List Char} (h : Longest lexeme rest)
    (hfront : front <+: rest) : Longest lexeme front where
  word hword c hc := h.word hword c (head?_of_isPrefix hfront hc)
  number hnumber c hc := h.number hnumber c (head?_of_isPrefix hfront hc)
  integer hinteger d later hd := by
    obtain ⟨behind, rfl⟩ := hfront
    exact h.integer hinteger d (later ++ behind) (by rw [hd]; rfl)
  operator hoperator hhead := h.operator hoperator (head?_of_isPrefix hfront hhead)
  slash hslash := by
    obtain ⟨hline, hblock⟩ := h.slash hslash
    exact ⟨fun hc => hline (head?_of_isPrefix hfront hc),
      fun hc => hblock (head?_of_isPrefix hfront hc)⟩

/-- **An item that is read is read in front of less text too.** -/
theorem read_of_isPrefix {c : Char} {cs : List Char} {item : Item}
    (hfound : (read c cs).found = .ok item) (hfront : front <+: (read c cs).rest) :
    ∃ d ds, (read c cs).taken ++ front = d :: ds ∧
      read d ds = ⟨.ok item, (read c cs).taken, front⟩ := by
  refine read_before hfound (fun lexeme hlongest => hlongest.of_isPrefix hfront) ?_
  intro hline d hd
  exact hline d (head?_of_isPrefix hfront hd)

end Cut

/-- A scan stops in front of an item with a fault, and the text in front of it has tokens. -/
theorem exists_fault_of_tokenize {cur : Cursor} : ∀ e, cur.tokenize = .error e →
    ∃ front c cs, cur.rest = front ++ c :: cs ∧ e.pos = cur.pos.after front ∧
      (read c cs).found = .error e.fault ∧ ∃ ts, Cursor.tokenize ⟨cur.pos, front⟩ = .ok ts := by
  induction cur using Cursor.scan.induct with
  | case1 pos =>
      intro e h
      rw [Cursor.tokenize_nil] at h
      cases h
  | case2 pos c cs r fault hfound =>
      intro e h
      rw [Cursor.tokenize_error hfound] at h
      cases h
      exact ⟨[], c, cs, rfl, rfl, hfound, _, Cursor.tokenize_nil pos⟩
  | case3 pos c cs r item hfound ih =>
      intro e h
      have hread : read c cs = ⟨.ok item, r.taken, r.rest⟩ := by rw [← hfound]
      have hlater : Cursor.tokenize ⟨pos.after r.taken, r.rest⟩ = .error e := by
        rw [Cursor.tokenize_item hread pos] at h
        cases hrest : Cursor.tokenize ⟨pos.after r.taken, r.rest⟩ with
        | error e' =>
            rw [hrest] at h
            exact congrArg _ (Except.error.inj h)
        | ok ts =>
            rw [hrest] at h
            cases h
      obtain ⟨front, d, ds, htext, hpos, hfault, ts, hts⟩ := ih e hlater
      have htext : r.rest = front ++ d :: ds := htext
      -- the item is read from the part in front of the fault as from the whole text
      obtain ⟨c', cs', hcut, hread'⟩ := read_of_isPrefix hfound ⟨_, htext.symm⟩
      have hfront : Cursor.tokenize ⟨pos.after r.taken, front⟩ = .ok ts := hts
      have htokens := Cursor.tokenize_item hread' pos
      rw [hfront, ← hcut] at htokens
      refine ⟨r.taken ++ front, d, ds, ?_, ?_, hfault, _, htokens⟩
      · rw [List.append_assoc, ← htext]
        exact (taken_append_rest c cs).symm
      · rw [Position.after_append]
        exact hpos

/-- **Lexical faults are reported at the first one**: a text without tokens has a part in front of
the reported place that has tokens, and what stands at this place shows the fault. -/
theorem lexical_faults_are_first {source : String} {e : LexError} (h : tokenize source = .error e) :
    ∃ p < source.length, e.pos = .behind (source.toList.take p) ∧
      (∃ ts, tokenize (String.ofList (source.toList.take p)) = .ok ts) ∧
      e.fault.Shows (source.toList.drop p) := by
  obtain ⟨front, c, cs, htext, hpos, hfound, ts, hts⟩ := exists_fault_of_tokenize e h
  have htext : source.toList = front ++ c :: cs := htext
  have htake : source.toList.take front.length = front := by rw [htext, List.take_left]
  have hdrop : source.toList.drop front.length = c :: cs := by rw [htext, List.drop_left]
  refine ⟨front.length, ?_, ?_, ⟨ts, ?_⟩, ?_⟩
  · rw [← String.length_toList, htext]
    simp
  · rw [htake, ← Position.after_start]
    exact hpos
  · rw [htake, tokenize, Cursor.ofSource, String.toList_ofList]
    exact hts
  · rw [hdrop]
    exact shows_of_read hfound

/-- A number that is out of range, behind a comment in the line before. -/
def overflowSource : String := "/* n */ n\n= 9223372036854775808.;"

/-- The number is reported, and the text in front of it has tokens. -/
theorem overflowSource_fault :
    tokenize overflowSource = .error ⟨.integerOutOfRange "9223372036854775808", ⟨2, 3⟩⟩ ∧
    ∃ p < overflowSource.length, ⟨2, 3⟩ = Position.behind (overflowSource.toList.take p) ∧
      (∃ ts, tokenize (String.ofList (overflowSource.toList.take p)) = .ok ts) ∧
      (LexFault.integerOutOfRange "9223372036854775808").Shows (overflowSource.toList.drop p) := by
  have herror : tokenize overflowSource =
      .error ⟨.integerOutOfRange "9223372036854775808", ⟨2, 3⟩⟩ := by decide +kernel
  exact ⟨herror, lexical_faults_are_first herror⟩

end Pseudocode
