import Pseudocode.Proofs.Code.Operands
import Pseudocode.Proofs.Lexical.Positions
import Pseudocode.Proofs.Lexical.Spacing
import Pseudocode.Proofs.Number.Range

/-!
# Float literals in the generated code

A float literal of the source has digits on both sides of its point, as many as one likes. In the
generated code its value is written again, with the fewest digits that read back. That is a
floating literal of the target language, with or without a point or an exponent, as long as the
value is in the range of floats. Beyond that range the value is infinite, and what is written for
it is a word.
-/
namespace Pseudocode

open Number Target

/-- A text in three parts: digits, then a point and digits or nothing, then an exponent or nothing.
At least one of the last two is there. -/
structure FloatingParts (cs whole fraction exponent : List Char) : Prop where
  text_eq : cs = whole ++ fraction ++ exponent
  whole_digits : IsDigits whole
  fraction_eq : fraction = [] ∨ ∃ ds, IsDigits ds ∧ fraction = '.' :: ds
  exponent_eq : exponent = [] ∨
    ∃ ds, IsDigits ds ∧ (exponent = 'e' :: ds ∨ exponent = 'e' :: '-' :: ds)
  marked : fraction ≠ [] ∨ exponent ≠ []

/-- A floating literal of the target language. -/
def IsFloating (cs : List Char) : Prop :=
  ∃ whole fraction exponent, FloatingParts cs whole fraction exponent

theorem isDigits_digits (n : Nat) : IsDigits (digits n) :=
  ⟨digits_ne_nil n, fun _ hc => isDigit_of_mem_digits hc⟩

/-- Digits, with or without a point among them. -/
theorem exists_fraction {front : List Char}
    (h : IsPlain front ∨ (front ≠ [] ∧ ∀ c ∈ front, c.isDigit = true)) :
    ∃ whole fraction, front = whole ++ fraction ∧ IsDigits whole ∧
      (fraction = [] ∨ ∃ ds, IsDigits ds ∧ fraction = '.' :: ds) := by
  rcases h with ⟨whole, fraction, hparts⟩ | ⟨hne, hdigit⟩
  · exact ⟨whole, '.' :: fraction, hparts.text_eq, ⟨hparts.whole_ne, hparts.whole_digit⟩,
      .inr ⟨fraction, ⟨hparts.fraction_ne, hparts.fraction_digit⟩, rfl⟩⟩
  · exact ⟨front, [], (List.append_nil front).symm, ⟨hne, hdigit⟩, .inl rfl⟩

/-- A decimal is written as a floating literal. -/
theorem isFloating_text (style : Style) (d : Decimal) : IsFloating (d.text style) := by
  rcases text_cases style d with ⟨whole, fraction, hparts⟩ | ⟨front, exponent, htext, hfront⟩
  · refine ⟨whole, '.' :: fraction, [], ?_, ⟨hparts.whole_ne, hparts.whole_digit⟩,
      .inr ⟨fraction, ⟨hparts.fraction_ne, hparts.fraction_digit⟩, rfl⟩, .inl rfl, .inl (by simp)⟩
    rw [List.append_nil]
    exact hparts.text_eq
  · obtain ⟨whole, fraction, rfl, hwhole, hfraction⟩ := exists_fraction hfront
    refine ⟨whole, fraction, 'e' :: (integerText exponent).toList, htext, hwhole, hfraction, ?_,
      .inr (by simp)⟩
    cases exponent with
    | ofNat n => exact .inr ⟨digits n, isDigits_digits n, .inl (by simp [integerText])⟩
    | negSucc n =>
        exact .inr ⟨digits (n + 1), isDigits_digits (n + 1), .inr (by simp [integerText])⟩

/-- A floating literal begins with a digit, and no word does. -/
theorem isWord_of_isFloating {cs : List Char} (h : IsFloating cs) : isWord cs = false := by
  obtain ⟨whole, fraction, exponent, hparts⟩ := h
  obtain ⟨c, rest, rfl⟩ := List.exists_cons_of_ne_nil hparts.whole_digits.ne_nil
  have hc := hparts.whole_digits.digit c List.mem_cons_self
  rw [hparts.text_eq]
  simp [isWord, isWordStart_of_isDigit hc]

/-- A literal among the tokens of an expression is a part of it. -/
theorem Expr.lit_mem_parts {value : Literal} {e : Expr} (h : .literal value ∈ e.kinds) :
    .lit value ∈ e.parts := by
  induction e with
  | var x => simp [kinds] at h
  | lit v =>
      have hv : value = v := by simpa [kinds] using h
      simp [parts, hv]
  | neg e ih =>
      have he : .literal value ∈ e.kinds := by simpa [kinds] using h
      simp [parts, ih he]
  | group e ih =>
      have he : .literal value ∈ e.kinds := by simpa [kinds] using h
      simp [parts, ih he]
  | bin op l r ihl ihr =>
      have hlr : .literal value ∈ l.kinds ∨ .literal value ∈ r.kinds := by simpa [kinds] using h
      rcases hlr with hl | hr
      · simp [parts, ihl hl]
      · simp [parts, ihr hr]

/-- A literal among the tokens of a condition is a part of one of its sides. -/
theorem Condition.lit_mem_parts {value : Literal} {c : Condition} (h : .literal value ∈ c.kinds) :
    .lit value ∈ c.parts := by
  induction c with
  | cmp op l r =>
      have hlr : .literal value ∈ l.kinds ∨ .literal value ∈ r.kinds := by simpa [kinds] using h
      exact List.mem_append.2 (hlr.imp Expr.lit_mem_parts Expr.lit_mem_parts)
  | logic op l r ihl ihr =>
      have hlr : .literal value ∈ l.kinds ∨ .literal value ∈ r.kinds := by simpa [kinds] using h
      exact List.mem_append.2 (hlr.imp ihl ihr)
  | not c ih => exact ih (by simpa [kinds] using h)
  | group c ih => exact ih (by simpa [kinds] using h)

theorem Assignment.lit_mem_parts {value : Literal} {a : Assignment}
    (h : .literal value ∈ a.kinds) : .lit value ∈ a.value.parts :=
  Expr.lit_mem_parts (by simpa [kinds] using h)

theorem Header.lit_mem_parts {value : Literal} {header : Header}
    (h : .literal value ∈ header.kinds) : .lit value ∈ header.parts := by
  cases header with
  | ifThen c => exact Condition.lit_mem_parts (by simpa [kinds] using h)
  | whileDo c => exact Condition.lit_mem_parts (by simpa [kinds] using h)
  | forDo init c update =>
      have hall : .literal value ∈ init.kinds ∨ .literal value ∈ c.kinds ∨
          .literal value ∈ update.kinds := by
        simpa [kinds] using h
      rw [parts, List.mem_append, List.mem_append]
      exact hall.imp Assignment.lit_mem_parts
        (Or.imp Condition.lit_mem_parts Assignment.lit_mem_parts)

mutual

theorem Stmt.lit_mem_parts {value : Literal} {stmt : Stmt} (h : .literal value ∈ stmt.kinds) :
    .lit value ∈ stmt.parts := by
  match stmt with
  | .assign a => exact Assignment.lit_mem_parts (by simpa [Stmt.kinds] using h)
  | .ret e _ => exact Expr.lit_mem_parts (by simpa [Stmt.kinds] using h)
  | .block header body _ =>
      have hall : .literal value ∈ header.kinds ∨ .literal value ∈ Stmt.allKinds body := by
        simpa [Stmt.kinds] using h
      exact List.mem_append.2 (hall.imp Header.lit_mem_parts Stmt.lit_mem_allParts)

/-- The literals among the tokens of a body are expressions in it. -/
theorem Stmt.lit_mem_allParts {value : Literal} {body : List Stmt}
    (h : .literal value ∈ Stmt.allKinds body) : .lit value ∈ Stmt.allParts body := by
  match body with
  | [] => cases h
  | stmt :: rest =>
      rw [Stmt.allParts, List.mem_append]
      exact (List.mem_append.1 h).imp Stmt.lit_mem_parts Stmt.lit_mem_allParts

end

/-- The tokens of a source are read up to its end. -/
theorem kindsRead_of_tokenize {source : String} {tokens : List Token}
    (h : tokenize source = .ok tokens) {token : Token} (htoken : token ∈ tokens)
    (hkind : token.kind ≠ .eof) :
    token.kind ∈ kindsRead tokens ∧ IsLexeme token.kind token.lexeme.toList := by
  obtain ⟨front, finish, rfl, hfront⟩ := (tokenized_of_tokenize tokens h).exists_front
  have hmem : token ∈ front := by
    rcases List.mem_append.1 htoken with hmem | hmem
    · exact hmem
    · obtain rfl := List.mem_singleton.1 hmem
      exact absurd rfl hkind
  refine ⟨?_, hfront token hmem⟩
  have hread : ∀ k ∈ front.map Token.kind, decide (k ≠ .eof) = true := by
    intro k hk
    obtain ⟨t, ht, rfl⟩ := List.mem_map.1 hk
    exact decide_eq_true (ne_eof_of_isLexeme (hfront t ht))
  rw [kindsRead, List.map_append, List.takeWhile_append_of_pos hread]
  exact List.mem_append_left _ (List.mem_map_of_mem hmem)

/-- The literals of a program are those of its body. -/
theorem IsProgram.literal_mem {ks : List Kind} {name : String} {body : List Stmt} {value : Literal}
    (h : IsProgram ks name body) (hmem : .literal value ∈ ks) :
    .literal value ∈ Stmt.allKinds body := by
  rcases h with ⟨rfl, -⟩ | ⟨rfl, -⟩
  · simpa using hmem
  · exact hmem

/-- A float literal of the lexical grammar, and its value. -/
theorem exists_plainParts_of_isLexeme {x : Binary64} {lexeme : List Char}
    (h : IsLexeme (.literal (.float x)) lexeme) :
    ∃ whole fraction, PlainParts lexeme whole fraction ∧
      x = .ofDecimal false (Binary64.decimalOf whole fraction 0) := by
  cases h with
  | reserved mem => simp [reservedWords] at mem
  | symbol mem => simp [symbols] at mem
  | @float whole fraction hwhole hfraction =>
      exact ⟨whole, fraction, ⟨rfl, hwhole.ne_nil, hfraction.ne_nil, hwhole.digit, hfraction.digit⟩,
        rfl⟩

/-- **What is written for a decimal**: a floating literal, or the word for infinity if the decimal
is out of range. -/
theorem floatText_cases (d : Decimal) :
    (d.value < Magnitude.limit →
      IsFloating (Literal.floatText (.ofDecimal false d)).toList) ∧
    ((Magnitude.limit : ℚ) ≤ d.value → Literal.floatText (.ofDecimal false d) = "inf") := by
  rw [Binary64.ofDecimal]
  cases hm : d.magnitude? with
  | none =>
      have hlimit := d.magnitude?_eq_none_iff.1 hm
      exact ⟨fun hlt => absurd hlimit (not_le.2 hlt), fun _ => rfl⟩
  | some m =>
      have hlimit : ¬ (Magnitude.limit : ℚ) ≤ d.value := by
        rw [← d.magnitude?_eq_none_iff, hm]
        simp
      refine ⟨fun _ => ?_, fun hle => absurd hle hlimit⟩
      have htext : (Literal.floatText (.ofMagnitude? false (some m))).toList =
          m.shortest.text Literal.floatStyle := by
        simp [Literal.floatText, Binary64.text, Binary64.ofMagnitude?]
      rw [htext]
      exact isFloating_text _ _

/-- **Float literals are written as floating literals exactly within the range of floats.** In every
conversion, each float literal of the source, whatever the number of its digits, is an expression
of the function, and its code stands in the program. Below the limit of the range that code is a
floating literal and no word; from the limit on it is the word `inf`. -/
theorem convert_writes_floats {source : String} {hints : TypeMap} {p : Program}
    (h : convert source hints = .ok p) :
    ∃ tokens f t, tokenize source = .ok tokens ∧ parse tokens = .ok f ∧ check f hints = .ok t ∧
      ∀ token ∈ tokens, ∀ x, token.kind = .literal (.float x) →
        ∃ whole fraction text, PlainParts token.lexeme.toList whole fraction ∧
          .lit (.float x) ∈ Stmt.allParts f.body ∧
          (Expr.lit (.float x)).code t.context.known = .ok text ∧
          text.toList <:+: p.text.toList ∧
          ((Binary64.decimalOf whole fraction 0).value < Magnitude.limit →
            IsFloating text.toList ∧ isWord text.toList = false) ∧
          ((Magnitude.limit : ℚ) ≤ (Binary64.decimalOf whole fraction 0).value → text = "inf") := by
  obtain ⟨tokens, f, t, htokens, hf, ht, hp⟩ := exists_stages_of_convert h
  refine ⟨tokens, f, t, htokens, hf, ht, ?_⟩
  obtain rfl := function_of_check ht
  intro token htoken x hx
  obtain ⟨hread, hlexeme⟩ := kindsRead_of_tokenize htokens htoken (by simp [hx])
  rw [hx] at hread hlexeme
  obtain ⟨whole, fraction, hparts, hvalue⟩ := exists_plainParts_of_isLexeme hlexeme
  have hmem : .lit (.float x) ∈ Stmt.allParts t.function.body :=
    Stmt.lit_mem_allParts ((parse_sound hf).2.literal_mem hread)
  obtain ⟨text, hcode, hinfix⟩ := shows_text_of_compile hp _ hmem
  refine ⟨whole, fraction, text, hparts, hmem, hcode, hinfix, ?_⟩
  obtain ⟨hbelow, hbeyond⟩ := floatText_cases (Binary64.decimalOf whole fraction 0)
  have htext : text = Literal.floatText x := (Except.ok.inj hcode).symm
  rw [← hvalue, ← htext] at hbelow hbeyond
  exact ⟨fun hlt => ⟨hbelow hlt, isWord_of_isFloating (hbelow hlt)⟩, hbeyond⟩

/-- The program whose function assigns one value to a float. -/
def floatProgram (value : String) : Program :=
  { text := "#include <bits/stdc++.h>\nusing namespace std;\n\nvoid program() \x7b\n" ++
      "    float x = " ++ value ++ ";\n\x7d\n\n" ++
      "int main() \x7b\n    program();\n    return 0;\n\x7d\n"
    name := "program"
    returnType := none }

/-- A float literal of a digit and a number of zeros in front of its point. -/
def powerSource (digit : Char) (zeros : Nat) : String :=
  String.ofList ("x gets ".toList ++ digit :: List.replicate zeros '0' ++ ".0;".toList)

/-- The literal is written with an exponent and without a point. -/
theorem powerSource_written :
    convert (powerSource '1' 16) ⟨[]⟩ = .ok (floatProgram "1e16") ∧
    ∃ tokens f t, tokenize (powerSource '1' 16) = .ok tokens ∧ parse tokens = .ok f ∧
      check f ⟨[]⟩ = .ok t ∧
      ∀ token ∈ tokens, ∀ x, token.kind = .literal (.float x) →
        ∃ whole fraction text, PlainParts token.lexeme.toList whole fraction ∧
          .lit (.float x) ∈ Stmt.allParts f.body ∧
          (Expr.lit (.float x)).code t.context.known = .ok text ∧
          text.toList <:+: (floatProgram "1e16").text.toList ∧
          ((Binary64.decimalOf whole fraction 0).value < Magnitude.limit →
            IsFloating text.toList ∧ isWord text.toList = false) ∧
          ((Magnitude.limit : ℚ) ≤ (Binary64.decimalOf whole fraction 0).value →
            text = "inf") := by
  have hconvert : convert (powerSource '1' 16) ⟨[]⟩ = .ok (floatProgram "1e16") := by
    decide +kernel
  exact ⟨hconvert, convert_writes_floats hconvert⟩

/-- The tokens of an assignment are its target, its sign and those of its value. -/
theorem tokenize_assignment (rest : List Char) :
    Cursor.tokenize ⟨⟨1, 1⟩, "x gets ".toList ++ rest⟩ =
      (Cursor.tokenize ⟨⟨1, 8⟩, rest⟩).map
        ([⟨.name "x", "x", ⟨1, 1⟩⟩, ⟨.gets, "gets", ⟨1, 3⟩⟩] ++ ·) := by
  have hx : Item.read 'x' (' ' :: 'g' :: 'e' :: 't' :: 's' :: ' ' :: rest) =
      .token (.name "x") ['x'] (' ' :: 'g' :: 'e' :: 't' :: 's' :: ' ' :: rest) := rfl
  have hgets : Item.read 'g' ('e' :: 't' :: 's' :: ' ' :: rest) =
      .token .gets ['g', 'e', 't', 's'] (' ' :: rest) := rfl
  have hblank (later : List Char) : Item.read ' ' later = ⟨.ok .blank, [' '], later⟩ := rfl
  have hlist : "x gets ".toList = ['x', ' ', 'g', 'e', 't', 's', ' '] := by decide
  rw [hlist]
  simp only [List.cons_append, List.nil_append]
  rw [Cursor.tokenize_token hx, Cursor.tokenize_silent (hblank _) nofun,
    Cursor.tokenize_token hgets, Cursor.tokenize_silent (hblank _) nofun]
  simp only [Position.after_cons, Position.after_nil, Position.step, Char.reduceEq, if_false,
    Nat.reduceAdd]
  cases Cursor.tokenize ⟨⟨1, 8⟩, rest⟩ <;> rfl

theorem toList_powerSource (digit : Char) (zeros : Nat) :
    (powerSource digit zeros).toList =
      "x gets ".toList ++ digit :: List.replicate zeros '0' ++ ".0;".toList :=
  String.toList_ofList

theorem tokenize_powerSource (digit : Char) (zeros : Nat) :
    tokenize (powerSource digit zeros) =
      (Cursor.tokenize ⟨⟨1, 8⟩, digit :: (List.replicate zeros '0' ++ ['.', '0', ';'])⟩).map
        ([⟨.name "x", "x", ⟨1, 1⟩⟩, ⟨.gets, "gets", ⟨1, 3⟩⟩] ++ ·) := by
  rw [tokenize, Cursor.ofSource, toList_powerSource, List.append_assoc]
  exact tokenize_assignment _

/-- The lexeme of a literal beyond the range of floats. -/
def hugeLexeme : List Char := '2' :: List.replicate 308 '0' ++ ['.', '0']

/-- The tokens of an assignment of that literal. -/
def hugeTokens : List Token :=
  [⟨.name "x", "x", ⟨1, 1⟩⟩, ⟨.gets, "gets", ⟨1, 3⟩⟩,
    ⟨.literal (.float (.infinite false)), String.ofList hugeLexeme, ⟨1, 8⟩⟩,
    ⟨.semicolon, ";", ⟨1, 319⟩⟩, ⟨.eof, "", ⟨1, 320⟩⟩]

/-- A number with so many digits is read as infinite. -/
theorem read_hugeLexeme :
    Item.read '2' (List.replicate 308 '0' ++ ['.', '0', ';']) =
      .token (.literal (.float (.infinite false))) hugeLexeme [';'] := by
  have hwhole : IsDigits ('2' :: List.replicate 308 '0') := by
    refine ⟨List.cons_ne_nil _ _, ?_⟩
    intro c hc
    rcases List.mem_cons.1 hc with rfl | hc
    · decide
    · rw [List.eq_of_mem_replicate hc]
      decide
  have hfraction : IsDigits ['0'] := by
    refine ⟨List.cons_ne_nil _ _, ?_⟩
    intro c hc
    rw [List.mem_singleton.1 hc]
    decide
  have hlongest : Longest hugeLexeme [';'] :=
    longest_of_stops (stops_semicolon []) (not_symbol_of_isWordChar (by decide) _)
  have hvalue : Binary64.ofDecimal false
      (Binary64.decimalOf ('2' :: List.replicate 308 '0') ['0'] 0) = .infinite false := by
    decide +kernel
  have hread := read_float hwhole hfraction hlongest
  rw [hvalue] at hread
  exact hread

theorem tokenize_hugeLexeme :
    Cursor.tokenize ⟨⟨1, 8⟩, '2' :: (List.replicate 308 '0' ++ ['.', '0', ';'])⟩ =
      .ok (hugeTokens.drop 2) := by
  have hafter : (⟨1, 8⟩ : Position).after hugeLexeme = ⟨1, 319⟩ := by decide +kernel
  have hend : Cursor.tokenize ⟨⟨1, 319⟩, [';']⟩ = .ok (hugeTokens.drop 3) := by decide +kernel
  rw [Cursor.tokenize_token read_hugeLexeme ⟨1, 8⟩, hafter, hend]
  rfl

theorem tokenize_powerSource_huge : tokenize (powerSource '2' 308) = .ok hugeTokens := by
  rw [tokenize_powerSource, tokenize_hugeLexeme]
  rfl

/-- **A literal beyond the range of floats is written as a word**: 309 digits in front of the point
are too many for `2` and zeros, and the target language has no literal `inf`. -/
theorem powerSource_overflows :
    convert (powerSource '2' 308) ⟨[]⟩ = .ok (floatProgram "inf") ∧
    (∃ tokens token, tokenize (powerSource '2' 308) = .ok tokens ∧ token ∈ tokens ∧
      token.kind = .literal (.float (.infinite false)) ∧
      token.lexeme.toList = '2' :: List.replicate 308 '0' ++ ['.', '0']) ∧
    (∀ types, (Expr.lit (.float (.infinite false))).code types = .ok "inf") ∧
    ¬ IsFloating "inf".toList ∧ isWord "inf".toList = true := by
  refine ⟨?_, ⟨hugeTokens, _, tokenize_powerSource_huge,
    .tail _ (.tail _ (.head _)), rfl, String.toList_ofList⟩, ?_, ?_, ?_⟩
  · rw [convert_eq, tokenize_powerSource_huge]
    decide +kernel
  · intro types
    rfl
  · intro h
    exact absurd (isWord_of_isFloating h) (by decide)
  · decide

end Pseudocode
