import Pseudocode.Proofs.Code.Lexing
import Pseudocode.Proofs.Number.ReadBack

/-!
# Names and literals spell themselves again

A literal keeps less than what was written: the value of a number, not its digits. The text that
the code has for a name or a literal is therefore not always the one it was read from, but it is
read as the same name or the same literal.
-/
namespace Pseudocode

/-- The text of a name or of a literal spells it. The end has no text. -/
def Kind.Relexes : Kind → Prop
  | .eof => False
  | .name x => Spells x.toList [.name x]
  | .literal value => Spells value.text.toList [.literal value]
  | _ => True

/-- A number spells its kind. -/
theorem spells_of_isDigit {lexeme : List Char} {k : Kind} (h : IsLexeme k lexeme)
    (hdigit : ∃ c ∈ lexeme.head?, c.isDigit = true) : Spells lexeme [k] := by
  refine spells_of_isLexeme h ?_
  obtain ⟨c, hc, hdigit⟩ := hdigit
  obtain ⟨cs, rfl⟩ := List.head?_eq_some_iff.1 hc
  exact not_symbol_of_isWordChar (isWordChar_of_isDigit hdigit) cs

theorem IsDigits.head {ds : List Char} (h : IsDigits ds) : ∃ c ∈ ds.head?, c.isDigit = true := by
  obtain ⟨c, cs, rfl⟩ := List.exists_cons_of_ne_nil h.ne_nil
  exact ⟨c, rfl, h.digit c List.mem_cons_self⟩

/-- An integer in range spells itself. -/
theorem relexes_int {n : Nat} (h : n ≤ Item.greatestInteger) : (Kind.literal (.int n)).Relexes := by
  have hdigits : IsDigits (Number.digits n) :=
    ⟨Number.digits_ne_nil n, fun c hc => Number.isDigit_of_mem_digits hc⟩
  have hlexeme := IsLexeme.integer hdigits (by rwa [Number.ofDigits_digits])
  have hspells := spells_of_isDigit hlexeme hdigits.head
  have htext : (Literal.int n).text.toList = Number.digits n := String.toList_ofList
  rw [Number.ofDigits_digits] at hspells
  rw [Kind.Relexes, htext]
  exact hspells

theorem relexes_float {x : Number.Binary64} (h : Number.IsPlain (Literal.floatText x).toList) :
    (Kind.literal (.float x)).Relexes := by
  obtain ⟨whole, fraction, hparts, hvalue⟩ := Number.exists_readBack_of_isPlain h
  have hwhole : IsDigits whole := ⟨hparts.whole_ne, hparts.whole_digit⟩
  have hlexeme := IsLexeme.float hwhole ⟨hparts.fraction_ne, hparts.fraction_digit⟩
  have hhead : ∃ c ∈ (whole ++ '.' :: fraction).head?, c.isDigit = true := by
    obtain ⟨c, hc, hdigit⟩ := hwhole.head
    refine ⟨c, ?_, hdigit⟩
    rw [List.head?_append, Option.mem_def.1 hc]
    rfl
  have hspells := spells_of_isDigit hlexeme hhead
  rw [hvalue, ← hparts.text_eq] at hspells
  exact hspells

/-- A sign has no text of its own. -/
theorem relexes_of_isSign {k : Kind} (h : k.isSign = true) : k.Relexes := by
  cases k with
  | eof => cases h
  | name x => cases h
  | literal value => cases h
  | _ => trivial

/-- A token whose lexeme is a name or a literal spells itself again. -/
theorem relexes_of_isLexeme {k : Kind} {lexeme : List Char} (h : IsLexeme k lexeme)
    (hfloat : ∀ x, k = .literal (.float x) → k.Relexes) : k.Relexes := by
  cases h with
  | reserved mem =>
      rcases isSign_of_mem_reservedWords mem with hsign | ⟨b, rfl, rfl⟩
      · exact relexes_of_isSign hsign
      · have hspells := spells_word (isWord_of_mem_reservedWords mem)
        rwa [wordKind_of_mem mem] at hspells
  | @name word hword free =>
      have hspells := spells_word hword
      rwa [wordKind_of_not_mem free] at hspells
  | marked mem => trivial
  | integer digits bound => exact relexes_int bound
  | float whole_digits fraction_digits => exact hfloat _ rfl
  | @string inside inside_ok =>
      have htext : (Literal.str (String.ofList inside)).text.toList = '"' :: inside ++ ['"'] := by
        simp [Literal.text]
      rw [Kind.Relexes, htext]
      exact spells_of_isLexeme (.string inside_ok) (by simp)
  | @char inside inside_ok =>
      have htext : (Literal.char (String.ofList inside)).text.toList =
          '\'' :: inside ++ ['\''] := by simp [Literal.text]
      rw [Kind.Relexes, htext]
      exact spells_of_isLexeme (.char inside_ok) (by simp)
  | symbol mem => exact relexes_of_isSign (isSign_of_mem_symbols mem)

/-- The names and literals of a text spell themselves again, provided that the floats among
them do. -/
theorem relexes_of_lexed {cs : List Char} {ks : List Kind} (h : Lexed cs ks)
    (hfloat : ∀ x, .literal (.float x) ∈ ks → (Kind.literal (.float x)).Relexes) :
    ∀ k ∈ ks, k.Relexes := by
  intro k hk
  obtain ⟨lexeme, hlexeme⟩ := exists_isLexeme_of_lexed h hk
  refine relexes_of_isLexeme hlexeme ?_
  rintro x rfl
  exact hfloat x hk

end Pseudocode
