import Pseudocode.Proofs.Code.Lexing
import Pseudocode.Proofs.Number.ReadBack
import Pseudocode.Target.Code
import Mathlib.Data.List.Chain

/-!
# Texts within a line

The generated code is put together from texts of names, literals and signs. Two characters that
come from different texts may be read as one sign, two minus signs as a decrement or two division
signs as a comment; so it matters with which character a text begins and ends. Inside a literal it
does not, and a literal is found by its quotes.

Every text here ends with a character that begins no sign of two characters, so texts can be put
together without regard to the next one. The one exception is the minus sign in front of an
operand, and an operand begins with a character that extends no minus sign.

## Main definitions

* `Place`, `outside` — literals in a text, and the text without their insides.
* `fusedSigns` — the signs of two characters that the code must not have.
* `Unfused`, `Inline` — texts that can be put together, and those of them that stay in a line.
* `IsOperand` — texts within a line that a minus sign can stand in front of.
* `Kind.Legible` — names and literals with such a text.

## Main statements

* `Unfused.append`, `Unfused.minus`, `Unfused.quoted` — how texts are put together.
* `legible_of_isLexeme` — the names and literals of a source.
-/
namespace Pseudocode

open Target

/-- Where a character stands: outside literals, inside a literal that began with a quote, or
behind a backslash there. -/
inductive Place where
  | code
  | literal (quote : Char)
  | escape (quote : Char)
  deriving DecidableEq

namespace Place

/-- The place behind a character. A literal ends with the quote that it began with. -/
def step : Place → Char → Place
  | .code, c => if c = '"' ∨ c = '\'' then .literal c else .code
  | .literal quote, c =>
    if c = quote then .code else if c = '\\' then .escape quote else .literal quote
  | .escape quote, _ => .literal quote

/-- The place behind a text. -/
def after (p : Place) (cs : List Char) : Place := cs.foldl step p

theorem after_cons (p : Place) (c : Char) (cs : List Char) :
    p.after (c :: cs) = (p.step c).after cs := rfl

theorem after_append (p : Place) (cs ds : List Char) :
    p.after (cs ++ ds) = (p.after cs).after ds := List.foldl_append

end Place

/-- What is left of a text without the insides of its literals. Their quotes stay. -/
def outside : Place → List Char → List Char
  | _, [] => []
  | p, c :: cs =>
    if p = .code ∨ p.step c = .code then c :: outside (p.step c) cs else outside (p.step c) cs

/-- What lies outside of the literals can be found part by part. -/
theorem outside_append (p : Place) (cs ds : List Char) :
    outside p (cs ++ ds) = outside p cs ++ outside (p.after cs) ds := by
  induction cs generalizing p with
  | nil => rfl
  | cons c cs ih =>
      by_cases hshown : p = .code ∨ p.step c = .code
      · rw [List.cons_append, outside, if_pos hshown, outside, if_pos hshown, ih]
        rfl
      · rw [List.cons_append, outside, if_neg hshown, outside, if_neg hshown, ih]
        rfl

theorem outside_code_cons (c : Char) (cs : List Char) :
    outside .code (c :: cs) = c :: outside (Place.code.step c) cs := if_pos (.inl rfl)

theorem outside_minus (cs : List Char) : outside .code ('-' :: cs) = '-' :: outside .code cs :=
  outside_code_cons '-' cs

/-- The inside of a literal: it does not close the literal, nothing of it is outside, and no line
ends in it. -/
structure Hidden (quote : Char) (inside : List Char) : Prop where
  after : (Place.literal quote).after inside = .literal quote
  outside : outside (.literal quote) inside = []
  newline : '\n' ∉ inside

/-- Signs of two characters, and the marks of comments, that are spelled with characters of the
signs of the code. -/
def fusedSigns : List String := ["--", "++", "->", "-=", "<<", ">>", "//", "/*", "*/"]

/-- Two characters that do not make one sign. -/
def Apart (c d : Char) : Prop := ∀ sign ∈ fusedSigns, sign.toList ≠ [c, d]

instance (c d : Char) : Decidable (Apart c d) := inferInstanceAs (Decidable (∀ _ ∈ _, _))

/-- The characters that begin a sign of two characters. -/
def signStarts : List Char := ['-', '+', '<', '>', '/', '*']

/-- The characters that make a sign of two characters with a minus sign in front. -/
def minusEnds : List Char := ['-', '>', '=']

theorem exists_pair_of_mem_fusedSigns {sign : String} (h : sign ∈ fusedSigns) :
    ∃ c d, sign.toList = [c, d] := by
  have hlength : ∀ sign ∈ fusedSigns, sign.toList.length = 2 := by decide
  exact List.length_eq_two.1 (hlength sign h)

/-- A character that begins no sign stays apart from all others. -/
theorem apart_of_notMem_signStarts {c : Char} (h : c ∉ signStarts) (d : Char) : Apart c d := by
  have hstarts : ∀ sign ∈ fusedSigns, sign.toList.head? ∈ signStarts.map some := by decide
  intro sign hsign htext
  have hstart := hstarts sign hsign
  rw [htext] at hstart
  exact h (by simpa using hstart)

/-- A minus sign stays apart from a character that extends none. -/
theorem apart_minus {d : Char} (h : d ∉ minusEnds) : Apart '-' d := by
  have hends : ∀ sign ∈ fusedSigns, sign.toList.head? = some '-' →
      sign.toList.getLast? ∈ minusEnds.map some := by decide
  intro sign hsign htext
  have hend := hends sign hsign (by rw [htext]; rfl)
  rw [htext] at hend
  exact h (by simpa using hend)

/-- A text that can stand in front of any other: its literals are closed, no two characters outside
of them make one sign, and the last one begins none. -/
structure Unfused (cs : List Char) : Prop where
  closed : Place.code.after cs = .code
  apart : (outside .code cs).IsChain Apart
  last : ∀ c ∈ (outside .code cs).getLast?, c ∉ signStarts

-- The last character is looked up by a function, because a statement about every character may be
-- decided by going through all characters that there are.
instance (cs : List Char) : Decidable (Unfused cs) :=
  decidable_of_iff (Place.code.after cs = .code ∧ (outside .code cs).IsChain Apart ∧
      (outside .code cs).getLast?.all (fun c => decide (c ∉ signStarts)) = true)
    ⟨fun h => ⟨h.1, h.2.1, by simpa [Option.all_eq_true] using h.2.2⟩,
      fun h => ⟨h.closed, h.apart, by simpa [Option.all_eq_true] using h.last⟩⟩

namespace Unfused

theorem nil : Unfused [] := by decide

/-- Unfused texts can be put together. -/
theorem append {cs ds : List Char} (h : Unfused cs) (hd : Unfused ds) : Unfused (cs ++ ds) where
  closed := by rw [Place.after_append, h.closed, hd.closed]
  apart := by
    rw [outside_append, h.closed, List.isChain_append]
    refine ⟨h.apart, hd.apart, ?_⟩
    intro c hc d _
    exact apart_of_notMem_signStarts (h.last c hc) d
  last := by
    rw [outside_append, h.closed, List.getLast?_append]
    intro c hc
    cases hlast : (outside .code ds).getLast? with
    | none =>
        rw [hlast, Option.none_or] at hc
        exact h.last c hc
    | some d =>
        rw [hlast, Option.some_or] at hc
        exact hd.last c (hlast ▸ hc)

/-- A minus sign in front of a text that does not extend it. -/
theorem minus {c : Char} {cs : List Char} (h : Unfused (c :: cs)) (hc : c ∉ minusEnds) :
    Unfused ('-' :: c :: cs) where
  closed := h.closed
  apart := by
    have hchain := h.apart
    rw [outside_code_cons] at hchain
    rw [outside_minus, outside_code_cons, List.isChain_cons_cons]
    exact ⟨apart_minus hc, hchain⟩
  last := by
    have hlast := h.last
    rw [outside_code_cons] at hlast
    rw [outside_minus, outside_code_cons, List.getLast?_cons_cons]
    exact hlast

/-- A literal: its quotes are all that is seen of it. -/
theorem quoted {quote : Char} {inside : List Char} (hquote : quote = '"' ∨ quote = '\'')
    (h : Hidden quote inside) : Unfused (quote :: inside ++ [quote]) := by
  have hopen : Place.code.step quote = .literal quote := if_pos hquote
  have hclose : (Place.literal quote).step quote = .code := if_pos rfl
  have hafter : Place.code.after (quote :: inside) = .literal quote := by
    rw [Place.after_cons, hopen, h.after]
  have houtside : outside .code (quote :: inside ++ [quote]) = [quote, quote] := by
    rw [outside_append, outside_code_cons, hopen, h.outside, hafter, Pseudocode.outside,
      if_pos (.inr hclose)]
    rfl
  have hstart : quote ∉ signStarts := by
    rcases hquote with rfl | rfl
    · decide
    · decide
  refine ⟨?_, ?_, ?_⟩
  · rw [Place.after_append, hafter]
    exact hclose
  · rw [houtside, List.isChain_pair]
    exact apart_of_notMem_signStarts hstart quote
  · rw [houtside]
    simpa using hstart

end Unfused

/-- A text within a line: it can stand in front of any other, and no line ends in it. -/
structure Inline (text : String) : Prop where
  unfused : Unfused text.toList
  newline : '\n' ∉ text.toList

instance (text : String) : Decidable (Inline text) :=
  decidable_of_iff (Unfused text.toList ∧ '\n' ∉ text.toList)
    ⟨fun h => ⟨h.1, h.2⟩, fun h => ⟨h.unfused, h.newline⟩⟩

/-- The text has a first character, which is no blank, and a minus sign in front of it stays a
minus sign. -/
def StartsPlainly (text : String) : Prop :=
  ∃ c rest, text.toList = c :: rest ∧ c ≠ ' ' ∧ c ∉ minusEnds

/-- The text of an operand: it stays in a line, and a minus sign can stand in front of it. -/
structure IsOperand (text : String) : Prop where
  inline : Inline text
  starts : StartsPlainly text

/-- The characters that begin a literal or a sign of two characters, or end a line. -/
def restless : List Char := ['"', '\'', '\n', '-', '+', '<', '>', '/', '*']

namespace Inline

variable {text left right : String}

/-- Texts that stay in a line can be put together. -/
theorem append (h : Inline left) (hright : Inline right) : Inline (left ++ right) where
  unfused := by
    rw [String.toList_append]
    exact h.unfused.append hright.unfused
  newline := by
    rw [String.toList_append, List.mem_append]
    exact not_or.2 ⟨h.newline, hright.newline⟩

/-- A text without characters that need a look at what stands next to them. -/
theorem of_calm (h : ∀ c ∈ text.toList, c ∉ restless) : Inline text where
  newline hnewline := absurd (h _ hnewline) (by decide)
  unfused := by
    generalize text.toList = cs at h
    induction cs with
    | nil => exact .nil
    | cons c cs ih =>
        rw [List.forall_mem_cons] at h
        simp only [restless, List.mem_cons, List.not_mem_nil, or_false, not_or] at h
        have hstep : Place.code.step c = .code := if_neg (by simp [h])
        have hsingle : Unfused [c] := by
          refine ⟨hstep, ?_, ?_⟩
          · rw [outside_code_cons]
            exact .singleton c
          · simp [outside, signStarts, h]
        exact hsingle.append (ih (by simpa [restless] using h.2))

/-- Parentheses begin no sign, and close where they open. -/
theorem parens (h : Inline text) : Inline (parens text) :=
  .append (.append (by decide) h) (by decide)

/-- Two texts with a sign between blanks. -/
theorem around {sign : String} (hleft : Inline left) (hsign : Inline (" " ++ sign ++ " "))
    (hright : Inline right) : Inline (left ++ " " ++ sign ++ " " ++ right) := by
  have h := hleft.append (hsign.append hright)
  simpa only [String.append_assoc] using h

end Inline

section Operands
variable {text : String}

/-- A text begins as its first part does. -/
theorem StartsPlainly.append (h : StartsPlainly text) (later : String) :
    StartsPlainly (text ++ later) := by
  obtain ⟨c, rest, htext, hc⟩ := h
  exact ⟨c, rest ++ later.toList, by simp [htext], hc⟩

theorem startsPlainly_parens (text : String) : StartsPlainly (parens text) :=
  ⟨'(', text.toList ++ [')'], by simp [parens], by decide, by decide⟩

/-- What follows an operand does not change how it begins. -/
theorem IsOperand.append (h : IsOperand text) {later : String} (hlater : Inline later) :
    IsOperand (text ++ later) := ⟨h.inline.append hlater, h.starts.append later⟩

/-- A minus sign can stand in front of an operand. -/
theorem IsOperand.minus (h : IsOperand text) : Inline ("-" ++ text) := by
  obtain ⟨c, rest, htext, -, hc⟩ := h.starts
  have hminus : ("-" ++ text).toList = '-' :: c :: rest := by simp [htext]
  constructor
  · rw [hminus]
    exact .minus (htext ▸ h.inline.unfused) hc
  · rw [hminus, ← htext]
    simpa using h.inline.newline

end Operands

/-- A character of a name, or of a number without a sign. -/
def isPlainChar (c : Char) : Bool := Item.isWordChar c || c = '.'

theorem isPlainChar_of_isDigit {c : Char} (h : c.isDigit = true) : isPlainChar c = true := by
  rw [isPlainChar, isWordChar_of_isDigit h, Bool.true_or]

theorem notMem_of_isPlainChar {cs : List Char} {c : Char} (h : isPlainChar c = true)
    (hcs : cs.any isPlainChar = false) : c ∉ cs := by
  intro hmem
  exact absurd h (List.any_eq_false.1 hcs c hmem)

/-- Letters, digits and points make an operand. -/
theorem isOperand_of_isPlainChar {cs : List Char} (hne : cs ≠ [])
    (h : ∀ c ∈ cs, isPlainChar c = true) : IsOperand (String.ofList cs) := by
  constructor
  · refine .of_calm fun c hc => ?_
    rw [String.toList_ofList] at hc
    exact notMem_of_isPlainChar (h c hc) (by decide)
  · obtain ⟨c, rest, rfl⟩ := List.exists_cons_of_ne_nil hne
    have hc : isPlainChar c = true := h c List.mem_cons_self
    refine ⟨c, rest, String.toList_ofList, ?_, notMem_of_isPlainChar hc (by decide)⟩
    rintro rfl
    cases hc

/-- A word is an operand. -/
theorem isOperand_of_isWord {x : String} (h : isWord x.toList = true) : IsOperand x := by
  obtain ⟨hne, hchars⟩ := isWordChar_of_isWord h
  rw [← String.ofList_toList (s := x)]
  refine isOperand_of_isPlainChar hne fun c hc => ?_
  rw [isPlainChar, hchars c hc, Bool.true_or]

namespace Number

theorem isOperand_digits (n : Nat) : IsOperand (String.ofList (digits n)) :=
  isOperand_of_isPlainChar (digits_ne_nil n) fun _ hc =>
    isPlainChar_of_isDigit (isDigit_of_mem_digits hc)

/-- An integer is written in a line, with a sign or without. -/
theorem inline_integerText (k : Int) : Inline (integerText k) := by
  cases k with
  | ofNat n => exact (isOperand_digits n).inline
  | negSucc n =>
      have hminus : integerText (.negSucc n) = "-" ++ String.ofList (digits (n + 1)) := by
        apply String.toList_injective
        simp [integerText]
      rw [hminus]
      exact (isOperand_digits (n + 1)).minus

theorem isPlainChar_of_isPlain {cs : List Char} (h : IsPlain cs) :
    cs ≠ [] ∧ ∀ c ∈ cs, isPlainChar c = true := by
  constructor
  · obtain ⟨whole, fraction, hparts⟩ := h
    simp [hparts.text_eq]
  · intro c hc
    rcases isDigit_or_of_isPlain h c hc with hdigit | rfl
    · exact isPlainChar_of_isDigit hdigit
    · decide

/-- A decimal is written as an operand in every style. -/
theorem isOperand_decimal (style : Style) (d : Decimal) :
    IsOperand (String.ofList (d.text style)) := by
  rcases text_cases style d with hplain | ⟨front, exponent, htext, hfront⟩
  · obtain ⟨hne, hchars⟩ := isPlainChar_of_isPlain hplain
    exact isOperand_of_isPlainChar hne hchars
  · -- of all the number only the exponent can have a sign
    have hchars : ∀ c ∈ front, isPlainChar c = true := by
      rcases hfront with hplain | ⟨-, hdigit⟩
      · exact (isPlainChar_of_isPlain hplain).2
      · exact fun c hc => isPlainChar_of_isDigit (hdigit c hc)
    have hmark : IsOperand (String.ofList (front ++ ['e'])) := by
      refine isOperand_of_isPlainChar (by simp) ?_
      rw [List.forall_mem_append, List.forall_mem_singleton]
      exact ⟨hchars, by decide⟩
    have hsplit : String.ofList (d.text style) =
        String.ofList (front ++ ['e']) ++ integerText exponent := by
      apply String.toList_injective
      simp [htext]
    rw [hsplit]
    exact hmark.append (inline_integerText exponent)

/-- A float without a sign. -/
theorem isOperand_ofDecimal (d : Decimal) :
    IsOperand (Literal.floatText (.ofDecimal false d)) := by
  rw [Binary64.ofDecimal]
  cases d.magnitude? with
  | none => exact isOperand_of_isWord (by decide)
  | some m => exact isOperand_decimal Literal.floatStyle m.shortest

end Number

/-- The inside of a string stays inside of its quotes. -/
theorem hidden_of_isStringInside {inside : List Char} (h : IsStringInside inside) :
    Hidden '"' inside := by
  induction h with
  | nil => exact ⟨rfl, rfl, List.not_mem_nil⟩
  | @plain c cs slash quote newline later ih =>
      have hstep : (Place.literal '"').step c = .literal '"' := by simp [Place.step, slash, quote]
      refine ⟨?_, ?_, ?_⟩
      · rw [Place.after_cons, hstep, ih.after]
      · rw [outside, hstep, ih.outside]
        simp
      · rw [List.mem_cons, not_or]
        exact ⟨newline.symm, ih.newline⟩
  | @escaped c cs newline later ih =>
      refine ⟨ih.after, ?_, ?_⟩
      · rw [outside, outside]
        exact ih.outside
      · rw [List.mem_cons, List.mem_cons, not_or, not_or]
        exact ⟨by decide, newline.symm, ih.newline⟩

/-- The inside of a character literal stays inside of its quotes. -/
theorem hidden_of_isCharInside {inside : List Char} (h : IsCharInside inside) :
    Hidden '\'' inside := by
  cases h with
  | @plain c slash quote newline =>
      have hstep : (Place.literal '\'').step c = .literal '\'' := by
        simp [Place.step, slash, quote]
      exact ⟨hstep, by simp [outside, hstep], by simpa using newline.symm⟩
  | escaped newline => exact ⟨rfl, rfl, by simpa using newline.symm⟩

/-- A literal in quotes is an operand, whatever its inside looks like. -/
theorem isOperand_quoted {quote : Char} {text : String} {inside : List Char}
    (hquote : quote = '"' ∨ quote = '\'') (htext : text.toList = quote :: inside ++ [quote])
    (h : Hidden quote inside) : IsOperand text := by
  have hplain : quote ≠ '\n' ∧ quote ≠ ' ' ∧ quote ∉ minusEnds := by
    rcases hquote with rfl | rfl
    · decide
    · decide
  refine ⟨⟨?_, ?_⟩, ?_⟩
  · rw [htext]
    exact .quoted hquote h
  · simp [htext, h.newline, hplain.1.symm]
  · exact ⟨quote, inside ++ [quote], htext, hplain.2⟩

/-- The text of a name or of a literal is that of an operand. -/
def Kind.Legible : Kind → Prop
  | .name x => IsOperand x
  | .literal value => IsOperand value.text
  | _ => True

theorem legible_of_isSign {k : Kind} (h : k.isSign = true) : k.Legible := by
  cases k with
  | name x => cases h
  | literal value => cases h
  | _ => trivial

/-- Whatever has been read from a lexeme has the text of an operand, if it has one. -/
theorem legible_of_isLexeme {k : Kind} {lexeme : List Char} (h : IsLexeme k lexeme) :
    k.Legible := by
  cases h with
  | reserved mem =>
      rcases isSign_of_mem_reservedWords mem with hsign | ⟨b, rfl, rfl⟩
      · exact legible_of_isSign hsign
      · exact isOperand_of_isWord (isWord_of_mem_reservedWords mem)
  | name hword free => exact isOperand_of_isWord hword
  | marked mem => trivial
  | integer digits bound => exact Number.isOperand_digits (Number.ofDigits lexeme)
  | float whole_digits fraction_digits => exact Number.isOperand_ofDecimal _
  | string inside_ok =>
      have hhidden := hidden_of_isStringInside inside_ok
      exact isOperand_quoted (.inl rfl) (by simp [Literal.text]) hhidden
  | char inside_ok =>
      have hhidden := hidden_of_isCharInside inside_ok
      exact isOperand_quoted (.inr rfl) (by simp [Literal.text]) hhidden
  | symbol mem => exact legible_of_isSign (isSign_of_mem_symbols mem)

end Pseudocode
