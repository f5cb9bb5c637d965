import Pseudocode.Proofs.Indexed.Scanner
import Pseudocode.Proofs.Lexical.Reading

/-!
# Lexemes on indices

Where a piece of the text is ahead of a scanner, the programs for single lexemes come to what the
reading of that piece says: to its kind or to its fault, and they move over exactly the text that it
takes. They look nowhere out of range, because they have seen every character that they move over,
and the turns of their loops are fewer than the characters ahead.

## Main definitions

* `Scanner.past` — a scanner behind a piece of text.
* `Scanner.Ahead` — the text ahead of a scanner.
* `Scanner.Realizes` — a program that comes to what a reading says.

## Main statements

* `takeWhile_ends` — what a loop over a class of characters does.
* `identify_realizes` — a program for every lexeme.
-/
namespace Pseudocode.Indexed

open Machine

namespace Scanner

variable {input : List Char} {s : Scanner} {cs : List Char} {depth : Nat}

/-- The scanner behind a piece of text. -/
def past (s : Scanner) (text : List Char) : Scanner :=
  { s with idx := s.idx + text.length, pos := s.pos.after text }

/-- A scanner moves over two texts as over one and then the other. -/
@[simp] theorem past_append (s : Scanner) (xs ys : List Char) :
    s.past (xs ++ ys) = (s.past xs).past ys := by
  simp [past, Nat.add_assoc]

theorem past_cons (s : Scanner) (c : Char) (cs : List Char) :
    s.past (c :: cs) = (s.past [c]).past cs := past_append s [c] cs

/-- The scanner is in its text, and `cs` is the text from here on. -/
structure Ahead (input : List Char) (s : Scanner) (cs : List Char) : Prop where
  le : s.idx ≤ input.length
  drop_eq : input.drop s.idx = cs

theorem Ahead.length_eq (h : Ahead input s cs) : s.idx + cs.length = input.length := by
  have hle := h.le
  rw [← h.drop_eq, List.length_drop]
  omega

/-- Behind a text the rest is ahead. -/
theorem Ahead.past (text : List Char) {rest : List Char} (h : Ahead input s (text ++ rest)) :
    Ahead input (s.past text) rest := by
  have hlength := h.length_eq
  rw [List.length_append] at hlength
  constructor
  · simp only [Scanner.past]
    omega
  · simp only [Scanner.past]
    rw [← List.drop_drop, h.drop_eq, List.drop_left]

theorem Ahead.tail {c : Char} (h : Ahead input s (c :: cs)) : Ahead input (s.past [c]) cs :=
  h.past [c]

/-- A look ahead is in range, or finds nothing. -/
theorem Ahead.peek (h : Ahead input s cs) (n : Nat) :
    Ends (peek input n) s (.ok cs[n]?) s := by
  rw [← h.drop_eq, List.getElem?_drop]
  rfl

theorem Ahead.current {c : Char} (h : Ahead input s (c :: cs)) :
    Ends (current input) s (.ok c) s := by
  have hpeek : input[s.idx]? = some c := by
    rw [← Nat.add_zero s.idx, ← List.getElem?_drop, h.drop_eq]
    rfl
  rw [Ends, Scanner.current, hpeek]
  exact ends_found c s

theorem ends_advance {c : Char} (hc : c ≠ '\n') (s : Scanner) :
    Ends advance s (.ok ()) (s.past [c]) := by
  simp [Ends, advance, past, result, Position.step, hc]

/-- A step moves over one character and counts it. -/
theorem ends_step (c : Char) (s : Scanner) : Ends (step c) s (.ok ()) (s.past [c]) := by
  rw [step]
  by_cases hc : c = '\n'
  · subst hc
    rfl
  · refine (ends_advance hc s).bind ?_
    rw [if_neg hc]
    exact ends_pure () _

/-- The scanner with its mark here. -/
def marking (s : Scanner) : Scanner := { s with first := s.idx }

@[simp] theorem marking_idx (s : Scanner) : s.marking.idx = s.idx := rfl

theorem Ahead.marking (h : Ahead input s cs) : Ahead input s.marking cs := ⟨h.le, h.drop_eq⟩

/-- The text between two indices. -/
theorem Ahead.slice_eq {text rest : List Char} (h : Ahead input s (text ++ rest)) :
    (input.take (s.past text).idx).drop s.idx = text := by
  have htake : input.drop s.idx = text ++ rest := h.drop_eq
  show (input.take (s.idx + text.length)).drop s.idx = text
  rw [← List.take_drop, htake, List.take_left]

/-- The text that has been moved over behind the mark. -/
theorem Ahead.lexeme {text rest : List Char} (h : Ahead input s (text ++ rest)) :
    Ends (lexeme input) (s.marking.past text) (.ok text) (s.marking.past text) := by
  have hbehind := (h.past text).le
  have hslice : slice? input s.idx (s.past text).idx = some text := by
    rw [slice?, if_pos ⟨Nat.le_add_right s.idx text.length, hbehind⟩, h.slice_eq]
  show Machine.found (slice? input s.idx (s.past text).idx) _ = _
  rw [hslice]
  exact ends_found text _

/-- A loop over a class of characters moves over all of them. -/
theorem takeWhile_ends {p : Char → Bool} (hp : ∀ c, p c = true → c ≠ '\n')
    (h : Ahead input s cs) (hdepth : cs.length < depth) :
    Ends (takeWhile input p depth) s (.ok (cs.takeWhile p)) (s.past (cs.takeWhile p)) := by
  induction cs generalizing s depth with
  | nil =>
      obtain ⟨depth, rfl⟩ := Nat.exists_eq_add_one_of_ne_zero (Nat.ne_zero_of_lt hdepth)
      exact (h.peek 0).bind (ends_pure _ _)
  | cons c cs ih =>
      obtain ⟨depth, rfl⟩ := Nat.exists_eq_add_one_of_ne_zero (Nat.ne_zero_of_lt hdepth)
      rw [List.length_cons] at hdepth
      refine (h.peek 0).bind ?_
      simp only [List.getElem?_cons_zero]
      by_cases hc : p c = true
      · rw [if_pos hc, List.takeWhile_cons_of_pos hc, past_cons]
        refine (ends_advance (hp c hc) s).bind ?_
        refine (ih h.tail (by omega)).bind ?_
        exact ends_pure _ _
      · rw [if_neg hc, List.takeWhile_cons_of_neg hc]
        exact ends_pure _ _

theorem ne_newline_of_isWordChar (c : Char) (h : Item.isWordChar c = true) : c ≠ '\n' := by
  rintro rfl
  exact absurd h (by decide)

theorem ne_newline_of_isDigit (c : Char) (h : c.isDigit = true) : c ≠ '\n' := by
  rintro rfl
  exact absurd h (by decide)

/-! ## What a reading says -/

/-- The program comes to what a reading says: to the kind of a token, or to a fault that is reported
at `pos`, and it moves over the text that the reading takes. -/
inductive Realizes (m : Scanning Kind) (s : Scanner) (pos : Position) : Reading → Prop where
  | token {kind : Kind} {taken rest : List Char} (ends : Ends m s (.ok kind) (s.past taken)) :
      Realizes m s pos (.token kind taken rest)
  | faulty {fault : LexFault} {taken rest : List Char}
      (ends : Ends m s (.error ⟨fault, pos⟩) (s.past taken)) :
      Realizes m s pos (.faulty fault taken rest)

variable {pos : Position}

/-- A word is scanned as it is read. -/
theorem word_realizes {c : Char} (hc : Item.isWordStart c = true) (h : Ahead input s (c :: cs))
    (hdepth : cs.length + 1 < depth) :
    Realizes (word input depth) s pos (Item.readWord c cs) := by
  have hends := takeWhile_ends ne_newline_of_isWordChar h hdepth
  rw [List.takeWhile_cons_of_pos (isWordChar_of_isWordStart hc)] at hends
  exact .token (hends.bind (ends_pure _ _))

theorem marked_realizes (h : Ahead input s ('\\' :: cs)) (hdepth : cs.length < depth) :
    Realizes (marked input pos depth) s pos (Item.readMarked cs) := by
  have hends := takeWhile_ends ne_newline_of_isWordChar h.tail hdepth
  have hfront (f : List Char → Scanning Kind) (out : Except LexError Kind) (s' : Scanner)
      (hf : Ends (f (cs.takeWhile Item.isWordChar))
        (s.past ('\\' :: cs.takeWhile Item.isWordChar)) out s') :
      Ends (do advance; let text ← takeWhile input Item.isWordChar depth; f text) s out s' := by
    rw [past_cons] at hf
    exact (ends_advance (by decide) s).bind (hends.bind hf)
  rw [Item.readMarked]
  by_cases hempty : (cs.takeWhile Item.isWordChar).isEmpty = true
  · rw [if_pos hempty]
    refine .faulty (hfront _ _ _ ?_)
    rw [if_pos hempty, List.isEmpty_iff.1 hempty]
    exact ends_fail _ _
  · rw [if_neg hempty]
    cases hkeyword : Item.markedKeyword? (String.ofList (cs.takeWhile Item.isWordChar)) with
    | some keyword =>
        refine .token (hfront _ _ _ ?_)
        rw [if_neg hempty, hkeyword]
        exact ends_pure _ _
    | none =>
        refine .faulty (hfront _ _ _ ?_)
        rw [if_neg hempty, hkeyword]
        exact ends_fail _ _

/-- Behind the digits of a number stands a point with a digit, or none. -/
theorem point_cases (cs : List Char) :
    (∃ d r, cs = '.' :: d :: r ∧ d.isDigit = true) ∨
    ((∀ d r, cs = '.' :: d :: r → d.isDigit = false) ∧
      ¬ (cs[0]? = some '.' ∧ cs[1]?.any Char.isDigit = true)) := by
  by_cases hpoint : ∃ d r, cs = '.' :: d :: r ∧ d.isDigit = true
  · exact .inl hpoint
  · refine .inr ⟨?_, ?_⟩
    · intro d r hcs
      rw [Bool.eq_false_iff]
      intro hd
      exact hpoint ⟨d, r, hcs, hd⟩
    · rintro ⟨hzero, hone⟩
      match cs with
      | [] => simp at hzero
      | [c] => simp at hone
      | c :: d :: r =>
          obtain rfl : c = '.' := by simpa using hzero
          exact hpoint ⟨d, r, rfl, by simpa using hone⟩

/-- A number is scanned as it is read, with its fraction if it has one. -/
theorem number_realizes {c : Char} (hc : c.isDigit = true) (h : Ahead input s (c :: cs))
    (hdepth : cs.length + 1 < depth) :
    Realizes (number input pos depth) s pos (Item.readNumber c cs) := by
  have hends := takeWhile_ends ne_newline_of_isDigit h hdepth
  have hbehind : Ahead input (s.past (c :: cs.takeWhile Char.isDigit))
      (cs.dropWhile Char.isDigit) := by
    refine Ahead.past _ ?_
    rwa [List.cons_append, List.takeWhile_append_dropWhile]
  rw [List.takeWhile_cons_of_pos hc] at hends
  rw [number]
  rcases point_cases (cs.dropWhile Char.isDigit) with ⟨d, r, hdrop, hd⟩ | ⟨hno, hpeeks⟩
  · rw [readNumber_of_point hdrop hd]
    rw [hdrop] at hbehind
    have hlength : (d :: r).length < depth := by
      have hdropped := (List.dropWhile_suffix Char.isDigit (l := cs)).length_le
      rw [hdrop] at hdropped
      simp only [List.length_cons] at hdropped ⊢
      omega
    have hfraction := takeWhile_ends ne_newline_of_isDigit hbehind.tail hlength
    rw [List.takeWhile_cons_of_pos hd] at hfraction
    refine .token (hends.bind ((hbehind.peek 0).bind ((hbehind.peek 1).bind ?_)))
    rw [if_pos ⟨rfl, by simpa using hd⟩, past_append, past_cons _ '.']
    exact (ends_advance (by decide) _).bind (hfraction.bind (ends_pure _ _))
  · rw [readNumber_of_no_point hno]
    by_cases hbound : Number.ofDigits (c :: cs.takeWhile Char.isDigit) ≤ Item.greatestInteger
    · rw [if_pos hbound]
      refine .token (hends.bind ((hbehind.peek 0).bind ((hbehind.peek 1).bind ?_)))
      rw [if_neg hpeeks, if_pos hbound]
      exact ends_pure _ _
    · rw [if_neg hbound]
      refine .faulty (hends.bind ((hbehind.peek 0).bind ((hbehind.peek 1).bind ?_)))
      rw [if_neg hpeeks, if_neg hbound]
      exact ends_fail _ _

/-! ## Strings -/

/-- The program comes to the inside of a string literal and moves over its closing quote, or it
stops where the quote is missed. The inside and the text behind it are given as a pair. -/
inductive Closes (m : Scanning (List Char)) (s : Scanner) (pos : Position) :
    List Char × List Char → Prop where
  | closed {inside rest : List Char} (ends : Ends m s (.ok inside) (s.past (inside ++ ['"']))) :
      Closes m s pos (inside, '"' :: rest)
  | missed {inside rest : List Char} (unclosed : rest.head? ≠ some '"')
      (ends : Ends m s (.error ⟨.unterminatedString, pos⟩) (s.past inside)) :
      Closes m s pos (inside, rest)

/-- A piece of the inside that is moved over first. -/
theorem Closes.front {m m' : Scanning (List Char)} {inside rest : List Char} (taken : List Char)
    (h : Closes m (s.past taken) pos (inside, rest))
    (hm : ∀ out s', Ends m (s.past taken) out s' → Ends m' s (out.map (taken ++ ·)) s') :
    Closes m' s pos (taken ++ inside, rest) := by
  cases h with
  | closed ends =>
      refine .closed ?_
      rw [List.append_assoc, past_append]
      exact hm _ _ ends
  | missed unclosed ends =>
      refine .missed unclosed ?_
      rw [past_append]
      exact hm _ _ ends

/-- A string is scanned up to the quote that closes it, or to the end. -/
theorem closeString_closes (h : Ahead input s cs) (hdepth : cs.length < depth) :
    Closes (closeString input pos depth) s pos (Item.splitInside cs) := by
  fun_induction Item.splitInside cs generalizing s depth with
  | case1 =>
      obtain ⟨depth, rfl⟩ := Nat.exists_eq_add_one_of_ne_zero (Nat.ne_zero_of_lt hdepth)
      exact .missed (by simp) ((h.peek 0).bind (ends_fail _ _))
  | case2 rest =>
      obtain ⟨depth, rfl⟩ := Nat.exists_eq_add_one_of_ne_zero (Nat.ne_zero_of_lt hdepth)
      refine .closed ((h.peek 0).bind ?_)
      exact (ends_advance (by decide) s).bind (ends_pure _ _)
  | case3 rest =>
      obtain ⟨depth, rfl⟩ := Nat.exists_eq_add_one_of_ne_zero (Nat.ne_zero_of_lt hdepth)
      refine .missed (by simp) ((h.peek 0).bind ?_)
      exact (h.peek 1).bind (ends_fail _ _)
  | case4 rest =>
      -- a backslash in front of a newline stands for itself, and the newline ends the literal
      obtain ⟨depth, rfl⟩ : ∃ n, depth = n + 2 := ⟨depth - 2, by simp at hdepth; omega⟩
      have hline := h.tail
      refine .missed (by simp) ((h.peek 0).bind ((h.peek 1).bind ?_))
      refine (ends_advance (c := '\\') (by decide) s).bind (Ends.bind_error ?_)
      exact (hline.peek 0).bind ((hline.peek 1).bind (ends_fail _ _))
  | case5 c rest hc ih =>
      obtain ⟨depth, rfl⟩ := Nat.exists_eq_add_one_of_ne_zero (Nat.ne_zero_of_lt hdepth)
      have hbehind : Ahead input (s.past ['\\', c]) rest := h.past ['\\', c]
      have hlength : rest.length < depth := by
        simp only [List.length_cons] at hdepth
        omega
      refine (ih hbehind hlength).front _ ?_
      intro out s' hlater
      refine (h.peek 0).bind ((h.peek 1).bind ?_)
      rw [if_pos (by simpa using hc)]
      refine (ends_advance (by decide) s).bind (h.tail.current.bind ?_)
      exact (ends_advance hc _).bind (hlater.map _)
  | case6 c rest hquote hline hslash ih =>
      obtain ⟨depth, rfl⟩ := Nat.exists_eq_add_one_of_ne_zero (Nat.ne_zero_of_lt hdepth)
      have hlength : rest.length < depth := by
        simp only [List.length_cons] at hdepth
        omega
      refine (ih h.tail hlength).front [c] ?_
      intro out s' hlater
      have hescape : ¬ (c = '\\' ∧ rest[0]?.any (· ≠ '\n') = true) := by
        rintro ⟨hc, hnext⟩
        cases rest with
        | nil => simp at hnext
        | cons d rest => exact hslash d rest hc rfl
      refine (h.peek 0).bind ?_
      simp only [List.getElem?_cons_zero, if_neg hquote]
      refine (h.peek 1).bind ?_
      rw [List.getElem?_cons_succ, if_neg hescape, if_neg hline]
      exact (ends_advance hline s).bind (hlater.map _)

theorem string_realizes (h : Ahead input s ('"' :: cs)) (hdepth : cs.length < depth) :
    Realizes (string input pos depth) s pos (Item.readString cs) := by
  have hinside : Closes (closeString input pos depth) (s.past ['"']) pos (Item.splitInside cs) :=
    closeString_closes h.tail hdepth
  have hquote := ends_advance (c := '"') (by decide) s
  rw [Item.readString]
  generalize Item.splitInside cs = split at hinside
  cases hinside with
  | closed ends =>
      refine .token ?_
      rw [List.cons_append, past_cons]
      exact hquote.bind (ends.bind (ends_pure _ _))
  | @missed inside rest unclosed ends =>
      have hrest : ∀ later, rest ≠ '"' :: later := by
        rintro later rfl
        exact unclosed rfl
      simp only
      refine .faulty ?_
      rw [past_cons]
      exact hquote.bind ends.bind_error

/-! ## Character literals -/

theorem closeChar_realizes {m : Scanning Kind} {inside rest : List Char}
    (h : Ahead input (s.past ('\'' :: inside)) rest)
    (hm : ∀ out s', Ends (closeChar input pos inside) (s.past ('\'' :: inside)) out s' →
      Ends m s out s') :
    Realizes m s pos (Item.closeChar inside rest) := by
  rw [Item.closeChar.eq_def]
  split
  · refine .token (hm _ _ ((h.peek 0).bind ?_))
    rw [past_append]
    exact (ends_advance (by decide) _).bind (ends_pure _ _)
  · next hrest =>
    refine .faulty (hm _ _ ((h.peek 0).bind ?_))
    rw [if_neg]
    · exact ends_fail _ _
    · intro hzero
      cases rest with
      | nil => simp at hzero
      | cons c rest =>
          obtain rfl : c = '\'' := by simpa using hzero
          exact hrest rest rfl

theorem character_realizes (h : Ahead input s ('\'' :: cs)) :
    Realizes (character input pos) s pos (Item.readChar cs) := by
  have hquote := ends_advance (c := '\'') (by decide) s
  have hinside := h.tail
  rw [Item.readChar.eq_def]
  split
  · next c rest =>
    have hescape := ends_advance (c := '\\') (by decide) (s.past ['\''])
    have hpeek := hinside.tail.peek 0
    by_cases hc : c = '\n'
    · rw [if_pos hc]
      refine .faulty ?_
      refine hquote.bind ((hinside.peek 0).bind (hescape.bind (hpeek.bind ?_)))
      simp only [List.getElem?_cons_zero, if_pos hc]
      exact ends_fail _ _
    · rw [if_neg hc]
      refine closeChar_realizes (h.past ['\'', '\\', c]) ?_
      intro out s' hclose
      refine hquote.bind ((hinside.peek 0).bind (hescape.bind (hpeek.bind ?_)))
      simp only [List.getElem?_cons_zero, if_neg hc]
      exact (ends_advance hc _).bind hclose
  · have hescape := ends_advance (c := '\\') (by decide) (s.past ['\''])
    refine .faulty ?_
    exact hquote.bind ((hinside.peek 0).bind (hescape.bind ((hinside.tail.peek 0).bind
      (ends_fail _ _))))
  · next c rest hescaped hlone =>
    have hc : c ≠ '\\' := by
      rintro rfl
      cases rest with
      | nil => exact hlone rfl rfl
      | cons d rest => exact hescaped d rest rfl rfl
    by_cases hend : c = '\'' ∨ c = '\n'
    · rw [if_pos hend]
      refine .faulty (hquote.bind ((hinside.peek 0).bind ?_))
      simp only [List.getElem?_cons_zero, if_pos hend]
      exact ends_fail _ _
    · rw [if_neg hend]
      refine closeChar_realizes (h.past ['\'', c]) ?_
      intro out s' hclose
      refine hquote.bind ((hinside.peek 0).bind ?_)
      simp only [List.getElem?_cons_zero, if_neg hend]
      exact (ends_advance (fun hline => hend (.inr hline)) _).bind hclose
  · refine .faulty ?_
    exact hquote.bind ((hinside.peek 0).bind (ends_fail _ _))

/-! ## Signs -/

/-- Two characters that make a sign together. -/
theorem readSymbol_of_pairKind? {c d : Char} {rest : List Char} {kind : Kind}
    (h : Item.pairKind? c d = some kind) :
    Item.readSymbol c (d :: rest) = .token kind [c, d] rest := by
  simp [Item.readSymbol, h]

theorem exists_cons_of_head? {c : Char} (h : cs[0]? = some c) : ∃ rest, cs = c :: rest := by
  cases cs with
  | nil => simp at h
  | cons d rest => exact ⟨rest, by simpa using h⟩

/-- A sign that a second character makes longer. -/
theorem extended_realizes {c second : Char} {long short : Kind} (hc : c ≠ '\n')
    (hsecond : second ≠ '\n') (hlong : Item.pairKind? c second = some long)
    (hother : ∀ d, d ≠ second → Item.pairKind? c d = none)
    (hshort : Item.singleKind? c = some short) (h : Ahead input s (c :: cs)) :
    Realizes (extended input second long short) s pos (Item.readSymbol c cs) := by
  have hfirst := ends_advance hc s
  have hpeek := h.tail.peek 0
  by_cases hhead : cs[0]? = some second
  · obtain ⟨rest, rfl⟩ := exists_cons_of_head? hhead
    rw [readSymbol_of_pairKind? hlong]
    refine .token (hfirst.bind (hpeek.bind ?_))
    rw [if_pos hhead, past_cons]
    exact (ends_advance hsecond _).bind (ends_pure _ _)
  · have hpair : ∀ d ∈ cs.head?, Item.pairKind? c d = none := by
      intro d hd
      refine hother d ?_
      rintro rfl
      exact hhead (by simpa [List.head?_eq_getElem?] using hd)
    rw [readSymbol_of_singleKind? hshort hpair]
    refine .token (hfirst.bind (hpeek.bind ?_))
    rw [if_neg hhead]
    exact ends_pure _ _

/-- A sign that has to be written twice. -/
theorem doubled_realizes {c : Char} {kind : Kind} (hc : c ≠ '\n')
    (hpair : Item.pairKind? c c = some kind) (hother : ∀ d, d ≠ c → Item.pairKind? c d = none)
    (hsingle : Item.singleKind? c = none) (h : Ahead input s (c :: cs)) :
    Realizes (doubled input c kind pos) s pos (Item.readSymbol c cs) := by
  by_cases hhead : cs[0]? = some c
  · obtain ⟨rest, rfl⟩ := exists_cons_of_head? hhead
    rw [readSymbol_of_pairKind? hpair]
    refine .token ((h.peek 1).bind ?_)
    rw [List.getElem?_cons_succ, if_pos hhead, past_cons]
    exact (ends_advance hc s).bind ((ends_advance hc _).bind (ends_pure _ _))
  · have hread : Item.readSymbol c cs = .faulty (.unexpectedCharacter c) [] (c :: cs) := by
      cases cs with
      | nil => simp [Item.readSymbol, Item.readSingle, hsingle]
      | cons d rest =>
          have hd : d ≠ c := by simpa using hhead
          simp [Item.readSymbol, Item.readSingle, hsingle, hother d hd]
    rw [hread]
    refine .faulty ((h.peek 1).bind ?_)
    rw [List.getElem?_cons_succ, if_neg hhead]
    exact ends_fail _ _

/-- A sign of one character that no second one makes longer. -/
theorem single_realizes {c : Char} (hc : c ≠ '\n') (hother : ∀ d, Item.pairKind? c d = none) :
    Realizes
      (match Item.singleKind? c with
        | some kind => do
          advance
          return kind
        | none => fail ⟨.unexpectedCharacter c, pos⟩)
      s pos (Item.readSymbol c cs) := by
  have hread : Item.readSymbol c cs = Item.readSingle c cs := by
    cases cs with
    | nil => rfl
    | cons d rest => simp [Item.readSymbol, hother d]
  rw [hread, Item.readSingle]
  cases Item.singleKind? c with
  | some kind => exact .token ((ends_advance hc s).bind (ends_pure _ _))
  | none => exact .faulty (ends_fail _ _)

/-- A sign is scanned as it is read, with the character that extends it. -/
theorem sign_realizes {c : Char} (hc : c ≠ '\n') (h : Ahead input s (c :: cs)) :
    Realizes (sign input c pos) s pos (Item.readSymbol c cs) := by
  have hequals : '=' ≠ '\n' := by decide
  rw [sign.eq_def]
  split
  · exact extended_realizes hc hequals rfl (fun d hd => by simp [Item.pairKind?, hd]) rfl h
  · exact extended_realizes hc hequals rfl (fun d hd => by simp [Item.pairKind?, hd]) rfl h
  · exact extended_realizes hc hequals rfl (fun d hd => by simp [Item.pairKind?, hd]) rfl h
  · exact extended_realizes hc hequals rfl (fun d hd => by simp [Item.pairKind?, hd]) rfl h
  · exact doubled_realizes hc rfl (fun d hd => by simp [Item.pairKind?, hd]) rfl h
  · exact doubled_realizes hc rfl (fun d hd => by simp [Item.pairKind?, hd]) rfl h
  · next hless hgreater hequal hbang hand hor =>
    refine single_realizes hc fun d => ?_
    rw [Item.pairKind?.eq_def]
    split <;> simp_all

/-- A look at the text first. -/
theorem Realizes.bind {α : Type} {m : Scanning α} {f : α → Scanning Kind} {a : α} {r : Reading}
    (hm : Ends m s (.ok a) s) (h : Realizes (f a) s pos r) : Realizes (m >>= f) s pos r := by
  cases h with
  | token ends => exact .token (hm.bind ends)
  | faulty ends => exact .faulty (hm.bind ends)

/-- **A program for every lexeme**: where no blank and no comment is ahead, it comes to what the
reading of the text ahead says. -/
theorem identify_realizes {c : Char} (h : Ahead input s (c :: cs)) (hblank : Text.isBlank c = false)
    (hslash : c = '/' → cs.head? ≠ some '/' ∧ cs.head? ≠ some '*')
    (hdepth : cs.length + 1 < depth) :
    Realizes (identify input pos depth) s pos (Item.read c cs) := by
  have hc : c ≠ '\n' := by
    rintro rfl
    exact absurd hblank (by decide)
  refine Realizes.bind h.current ?_
  by_cases hstart : Item.isWordStart c = true
  · rw [if_pos hstart, read_of_isWordStart hstart]
    exact word_realizes hstart h hdepth
  by_cases hdigit : c.isDigit = true
  · rw [if_neg hstart, if_pos hdigit, read_of_isDigit hdigit]
    exact number_realizes hdigit h hdepth
  rw [if_neg hstart, if_neg hdigit, Item.read.eq_def,
    if_neg (Bool.eq_false_iff.1 hblank), if_neg hstart, if_neg hdigit]
  by_cases hmark : c = '\\'
  · subst hmark
    exact marked_realizes h (by omega)
  by_cases hquote : c = '"'
  · subst hquote
    exact string_realizes h (by omega)
  by_cases hapostrophe : c = '\''
  · subst hapostrophe
    exact character_realizes h
  rw [if_neg hmark, if_neg hquote, if_neg hapostrophe, if_neg hmark, if_neg hquote,
    if_neg hapostrophe]
  by_cases hdivide : c = '/'
  · rw [if_pos hdivide, readSlash_of_head? (hslash hdivide), ← hdivide]
    exact sign_realizes hc h
  · rw [if_neg hdivide]
    exact sign_realizes hc h

end Scanner

end Pseudocode.Indexed
