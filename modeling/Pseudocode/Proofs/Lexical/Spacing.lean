import Mathlib.Data.List.Basic
import Pseudocode.Proofs.Lexical.LongestMatch

/-!
# Lexemes between single blanks

No lexeme goes on with a blank, whatever stands behind it. So the lexemes of a text say by
themselves what its tokens are: with single blanks between them they are read as the same tokens
again, and what stood between them before, comments included, had no part in it.
-/
namespace Pseudocode

open Item

/-- The lexemes of tokens with single blanks between them. That of the end is empty. -/
def spaced (tokens : List Token) : String := " ".intercalate (tokens.map Token.lexeme)

/-- A text without its comments and with single blanks between its lexemes. -/
def tidied (source : String) : Except LexError String := (tokenize source).map spaced

/-- The text has tokens of the same kinds with the same lexemes, in whatever places. -/
def ReadsAs (text : String) (tokens : List Token) : Prop :=
  ∃ again, tokenize text = .ok again ∧ again.map Token.kind = tokens.map Token.kind ∧
    again.map Token.lexeme = tokens.map Token.lexeme

theorem not_isWordChar_of_isBlank {c : Char} (h : Text.isBlank c = true) :
    isWordChar c = false := by
  rw [Bool.eq_false_iff]
  intro hword
  rw [isBlank_of_isWordChar hword] at h
  cases h

/-- A blank extends no lexeme, and neither does the end of the text. -/
theorem longest_of_isBlank (lexeme : List Char) {rest : List Char}
    (h : ∀ c ∈ rest.head?, Text.isBlank c = true) : Longest lexeme rest where
  word _ c hc := not_isWordChar_of_isBlank (h c hc)
  number _ c hc := by
    rw [Bool.eq_false_iff]
    intro hdigit
    have hword := isWordChar_of_isDigit hdigit
    rw [not_isWordChar_of_isBlank (h c hc)] at hword
    cases hword
  integer _ d later hrest := by
    subst hrest
    exact absurd (h '.' rfl) (by decide)
  operator _ hhead := absurd (h '=' hhead) (by decide)
  slash _ := by
    constructor
    · intro hhead
      exact absurd (h '/' hhead) (by decide)
    · intro hhead
      exact absurd (h '*' hhead) (by decide)

/-- The tokens of the lexical grammar have the lexemes of their kinds, up to the end. -/
theorem Tokenized.exists_front {pos : Position} {text : List Char} {tokens : List Token}
    (h : Tokenized pos text tokens) :
    ∃ front finish, tokens = front ++ [⟨.eof, "", finish⟩] ∧
      ∀ t ∈ front, IsLexeme t.kind t.lexeme.toList := by
  induction h with
  | @finish pos gap trivia => exact ⟨[], pos.after gap, rfl, by simp⟩
  | @lexeme pos gap lexeme rest k tokens trivia isLexeme longest later ih =>
      obtain ⟨front, finish, rfl, hfront⟩ := ih
      refine ⟨⟨k, String.ofList lexeme, pos.after gap⟩ :: front, finish, rfl, ?_⟩
      rw [List.forall_mem_cons]
      refine ⟨?_, hfront⟩
      rw [String.toList_ofList]
      exact isLexeme

/-- A token whose lexeme stands at the front of a text. -/
theorem Tokenized.front {pos : Position} {t : Token} {rest : List Char} {tokens : List Token}
    (hlexeme : IsLexeme t.kind t.lexeme.toList) (hlongest : Longest t.lexeme.toList rest)
    (hlater : Tokenized (pos.after t.lexeme.toList) rest tokens) :
    Tokenized pos (t.lexeme.toList ++ rest) ({ t with pos } :: tokens) := by
  have htokens : Tokenized pos ([] ++ (t.lexeme.toList ++ rest))
      (⟨t.kind, String.ofList t.lexeme.toList, pos.after []⟩ :: tokens) :=
    .lexeme .nil hlexeme hlongest hlater
  rwa [String.ofList_toList] at htokens

theorem toList_spaced_cons (t u : Token) (later : List Token) :
    (spaced (t :: u :: later)).toList =
      t.lexeme.toList ++ ' ' :: (spaced (u :: later)).toList := by
  simp [spaced]

theorem trivia_of_isBlank {gap : List Char} (h : ∀ c ∈ gap, Text.isBlank c = true) :
    Trivia [] gap := by
  induction gap with
  | nil => exact .nil
  | cons c gap ih =>
      rw [List.forall_mem_cons] at h
      exact .blank h.1 (ih h.2)

/-- **Lexemes between single blanks are tokens of the lexical grammar**, also with blanks behind
the last one. -/
theorem tokenized_spaced {front : List Token} (h : ∀ t ∈ front, IsLexeme t.kind t.lexeme.toList)
    {gap : List Char} (hgap : ∀ c ∈ gap, Text.isBlank c = true) (pos : Position) :
    ∃ again finish, Tokenized pos ((spaced front).toList ++ gap) (again ++ [⟨.eof, "", finish⟩]) ∧
      again.map Token.kind = front.map Token.kind ∧
      again.map Token.lexeme = front.map Token.lexeme := by
  have hfinish (pos : Position) : Tokenized pos gap [⟨.eof, "", pos.after gap⟩] :=
    .finish (trivia_of_isBlank hgap)
  induction front generalizing pos with
  | nil => exact ⟨[], _, hfinish pos, rfl, rfl⟩
  | cons t front ih =>
      rw [List.forall_mem_cons] at h
      obtain ⟨hlexeme, hfront⟩ := h
      cases front with
      | nil =>
          have hlongest : Longest t.lexeme.toList gap :=
            longest_of_isBlank _ fun c hc => hgap c (List.mem_of_mem_head? hc)
          have htokens := Tokenized.front hlexeme hlongest (hfinish (pos.after t.lexeme.toList))
          refine ⟨[{ t with pos }], (pos.after t.lexeme.toList).after gap, ?_, rfl, rfl⟩
          simpa [spaced] using htokens
      | cons u later =>
          obtain ⟨again, finish, htokens, hkinds, hlexemes⟩ :=
            ih hfront ((pos.after t.lexeme.toList).after [' '])
          have hlongest : Longest t.lexeme.toList (' ' :: ((spaced (u :: later)).toList ++ gap)) :=
            longest_of_isBlank _ (by simp; decide)
          have hlater : Tokenized (pos.after t.lexeme.toList)
              ([' '] ++ ((spaced (u :: later)).toList ++ gap)) (again ++ [⟨.eof, "", finish⟩]) :=
            htokens.prepend fun gap rest _ hgap => .blank (by decide) hgap
          refine ⟨{ t with pos } :: again, finish, ?_, ?_, ?_⟩
          · rw [toList_spaced_cons, List.append_assoc]
            exact .front hlexeme hlongest hlater
          · exact congrArg (t.kind :: ·) hkinds
          · exact congrArg (t.lexeme :: ·) hlexemes

/-- The empty lexeme of the end stands behind a blank, unless it is the only one. -/
theorem exists_spaced_concat (front : List Token) (finish : Position) :
    ∃ gap, (∀ c ∈ gap, Text.isBlank c = true) ∧
      (spaced (front ++ [⟨.eof, "", finish⟩])).toList = (spaced front).toList ++ gap := by
  by_cases hnil : front = []
  · exact ⟨[], by simp, by simp [hnil, spaced]⟩
  · refine ⟨[' '], by simp; decide, ?_⟩
    have hlexemes : front.map Token.lexeme ≠ [] := by simpa using hnil
    rw [spaced, List.map_append, String.intercalate_append_of_ne_nil hlexemes (by simp)]
    simp [spaced]

/-- **Lexemes are self-contained.** If a text has tokens, then their lexemes with single blanks
between them are read as the same tokens, with the blank in front of the end or without it.
Hence a text that is tidied stays as it is when it is tidied again. -/
theorem lexemes_are_self_contained {source : String} {tokens : List Token}
    (h : tokenize source = .ok tokens) :
    ReadsAs (spaced tokens) tokens ∧ ReadsAs (spaced tokens.dropLast) tokens ∧
      tidied (spaced tokens) = .ok (spaced tokens) := by
  obtain ⟨front, finish, rfl, hfront⟩ := (tokenized_of_tokenize tokens h).exists_front
  have hreads {text : String} {gap : List Char} (hgap : ∀ c ∈ gap, Text.isBlank c = true)
      (htext : text.toList = (spaced front).toList ++ gap) :
      ReadsAs text (front ++ [⟨.eof, "", finish⟩]) := by
    obtain ⟨again, behind, htokens, hkinds, hlexemes⟩ := tokenized_spaced hfront hgap .start
    rw [← htext] at htokens
    exact ⟨_, tokenize_of_tokenized htokens, by simp [hkinds], by simp [hlexemes]⟩
  obtain ⟨gap, hgap, htext⟩ := exists_spaced_concat front finish
  have hall := hreads hgap htext
  refine ⟨hall, ?_, ?_⟩
  · rw [List.dropLast_concat]
    exact hreads (List.forall_mem_nil _) (List.append_nil _).symm
  · obtain ⟨again, hagain, -, hlexemes⟩ := hall
    rw [tidied, hagain]
    exact congrArg (Except.ok ∘ " ".intercalate) hlexemes

/-- Signs that would make longer ones, a number in front of a word, and literals with blanks, an
escaped quote and the marks of comments inside. -/
def denseSource : String := "1x=/*=*/=2.5;s gets\"// \\\" /*\"+'\\''//+"

/-- The lexemes of `denseSource` are the same with a blank behind each of them. -/
theorem denseSource_self_contained :
    tidied denseSource = .ok "1 x = = 2.5 ; s gets \"// \\\" /*\" + '\\'' " ∧
    tidied "1 x = = 2.5 ; s gets \"// \\\" /*\" + '\\'' " =
      .ok "1 x = = 2.5 ; s gets \"// \\\" /*\" + '\\'' " ∧
    ∃ tokens, tokenize denseSource = .ok tokens ∧ ReadsAs (spaced tokens) tokens ∧
      ReadsAs (spaced tokens.dropLast) tokens := by
  have htidied : tidied denseSource = .ok "1 x = = 2.5 ; s gets \"// \\\" /*\" + '\\'' " := by
    decide +kernel
  cases htokens : tokenize denseSource with
  | error e =>
      rw [tidied, htokens] at htidied
      cases htidied
  | ok tokens =>
      have hspaced : spaced tokens = "1 x = = 2.5 ; s gets \"// \\\" /*\" + '\\'' " := by
        rw [tidied, htokens] at htidied
        exact Except.ok.inj htidied
      obtain ⟨hend, hbare, hagain⟩ := lexemes_are_self_contained htokens
      rw [hspaced] at hagain
      exact ⟨htidied, hagain, tokens, rfl, hend, hbare⟩

end Pseudocode
