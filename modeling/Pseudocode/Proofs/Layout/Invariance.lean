import Pseudocode.Proofs.Code.Lexing
import Pseudocode.Proofs.Conversion.Totality
import Pseudocode.Proofs.Layout.Readers

/-!
# Layout does not matter

Two sources whose tokens have the same kinds are converted alike, however they are laid out and
spelt: the tokens are read as the same function up to positions, or refused for the same reason at
tokens with the same index, and from there on positions have no influence at all.
-/
namespace Pseudocode

/-- Tokens of the same kinds are counterparts one by one. -/
theorem sameRow_of_kinds_eq {ts us : List Token} (h : ts.map Token.kind = us.map Token.kind) :
    SameRow ts us ts us := by
  have hlength : ts.length = us.length := by simpa using congrArg List.length h
  refine List.forall₂_of_length_eq_of_get hlength fun i ht hu => ⟨?_, i, by simp [ht], by simp [hu]⟩
  have hkind := congrArg (·[i]?) h
  simpa [ht, hu] using hkind

section Rows
variable {left right ts us : List Token}

/-- The rows in front of the ends of the input. -/
theorem sameRow_takeWhile (h : SameRow left right ts us) :
    SameRow left right (ts.takeWhile (·.kind ≠ .eof)) (us.takeWhile (·.kind ≠ .eof)) := by
  induction h with
  | nil => exact .nil
  | @cons t u ts us hsame _ ih =>
      rw [List.takeWhile_cons, List.takeWhile_cons, hsame.kind]
      split
      · exact .cons hsame ih
      · exact .nil

/-- The ends of the input are counterparts. -/
theorem exists_find?_eof (h : SameRow left right ts us) (heof : .eof ∈ ts.map Token.kind) :
    ∃ t u, Counterparts left right t u ∧ ts.find? (·.kind = .eof) = some t ∧
      us.find? (·.kind = .eof) = some u := by
  induction h with
  | nil => simp at heof
  | @cons t u ts us hsame _ ih =>
      rw [List.find?_cons, List.find?_cons, hsame.kind]
      by_cases hu : u.kind = .eof
      · exact ⟨t, u, hsame, by simp [hu], by simp [hu]⟩
      · have hlater : .eof ∈ ts.map Token.kind := by
          rw [List.map_cons, hsame.kind] at heof
          exact (List.mem_cons.1 heof).resolve_left fun heq => hu heq.symm
        simpa [hu] using ih hlater

end Rows

/-- Lists of tokens with the same kinds are read as functions that differ in positions only, or
refused for the same reason at tokens with the same index. -/
theorem parse_alike {ts us : List Token} (h : ts.map Token.kind = us.map Token.kind)
    (heof : .eof ∈ ts.map Token.kind) :
    Alike ts us (fun f g => f.unplaced = g.unplaced) (parse ts) (parse us) := by
  have hrow := sameRow_of_kinds_eq h
  obtain ⟨t, u, hsame, ht, hu⟩ := exists_find?_eof hrow heof
  have hfinish : SamePlace ts us (Grammar.TokenRow.ofTokens ts).finish
      (Grammar.TokenRow.ofTokens us).finish := by
    refine ⟨t, u, hsame, ?_, ?_⟩
    · rw [Grammar.TokenRow.ofTokens, ht]
    · rw [Grammar.TokenRow.ofTokens, hu]
  have hprogram := Grammar.alike_program hfinish (sameRow_takeWhile hrow)
  refine hprogram.map fun source source' hsource => ?_
  rw [← Function.ofSource_unplaced, ← Function.ofSource_unplaced, hsource]

/-- Conversions that end alike: with the same program, with the same variable without a type, or
with the same error at counterparts. -/
inductive SameOutcome (left right : List Token) :
    Except Failure Program → Except Failure Program → Prop where
  | program (p : Program) : SameOutcome left right (.ok p) (.ok p)
  | missing (x : String) :
      SameOutcome left right (.error (.missingType x)) (.error (.missingType x))
  | refused {e e' : SyntaxError} (same : SameError left right e e') :
      SameOutcome left right (.error (.syntactic e)) (.error (.syntactic e'))

/-- What is left of a conversion behind its readers does not depend on positions. -/
theorem stages_unplaced (f : Function) (hints : TypeMap) :
    (do
      let t ← (check f.unplaced hints).mapError Missing.failure
      (compile t).mapError Failure.internal) = (do
      let t ← (check f hints).mapError Missing.failure
      (compile t).mapError Failure.internal) := by
  rw [check_unplaced]
  cases check f hints with
  | error missing => rfl
  | ok t =>
      change (compile t.unplaced).mapError Failure.internal = _
      rw [compile_unplaced]
      rfl

/-- Functions that differ in positions only come to the same. -/
theorem sameOutcome_of_unplaced_eq {source source' : String} {ts us : List Token} {f g : Function}
    (hts : tokenize source = .ok ts) (hus : tokenize source' = .ok us) (hf : parse ts = .ok f)
    (hg : parse us = .ok g) (h : f.unplaced = g.unplaced) (hints : TypeMap) :
    SameOutcome ts us (convert source hints) (convert source' hints) := by
  have hsame : convert source' hints = convert source hints := by
    rw [convert_of_parse hts hf, convert_of_parse hus hg, ← stages_unplaced f, ← stages_unplaced g,
      h]
  rw [hsame]
  -- a program that has been read is converted or lacks a type, so there are no other failures
  cases hchecked : check f hints with
  | error missing =>
      obtain ⟨x, rfl⟩ := exists_variable_of_check hchecked
      rw [convert_of_missing hts hf hchecked]
      exact .missing x
  | ok t =>
      obtain ⟨p, -, hp⟩ := convert_of_check hts hf hchecked
      rw [hp]
      exact .program p

/-- **Layout does not matter**: let the tokens of two sources have the same kinds. Then they are
read as functions that differ in positions only or refused for the same reason, and whatever types
are known, the conversions end with the same program, ask for the type of the same variable, or
report the same fault at tokens with the same index. -/
theorem convert_depends_on_kinds_only {source source' : String} {ts us : List Token}
    (hts : tokenize source = .ok ts) (hus : tokenize source' = .ok us)
    (hkinds : ts.map Token.kind = us.map Token.kind) :
    Alike ts us (fun f g => f.unplaced = g.unplaced) (parse ts) (parse us) ∧
      ∀ hints : TypeMap, SameOutcome ts us (convert source hints) (convert source' hints) := by
  obtain ⟨ks, -, heof⟩ := lexed_of_tokenize hts
  have hparse := parse_alike hkinds (by simp [heof])
  refine ⟨hparse, fun hints => ?_⟩
  generalize hf : parse ts = read at hparse
  generalize hg : parse us = read' at hparse
  cases hparse with
  | ok same => exact sameOutcome_of_unplaced_eq hts hus hf hg same hints
  | error same =>
      rw [convert_of_parse_error hts hf, convert_of_parse_error hus hg]
      exact .refused same

/-- A loop on one line, with keywords behind backslashes. -/
def denseLoop : String := "\\While(i<010)\x7bi=i+1;\x7d\\Return i;"

/-- The same loop over several lines, with a comment. -/
def wideLoop : String := "while ( i < 10 ) \x7b // counts\n  i gets i + 1;\n\x7d\nreturn i;\n"

/-- The two loops have different tokens of the same kinds. -/
theorem denseLoop_wideLoop_alike :
    ∃ ts us, tokenize denseLoop = .ok ts ∧ tokenize wideLoop = .ok us ∧ ts ≠ us ∧
      ts.map Token.kind = us.map Token.kind ∧
      Alike ts us (fun f g => f.unplaced = g.unplaced) (parse ts) (parse us) ∧
      ∀ hints : TypeMap, SameOutcome ts us (convert denseLoop hints) (convert wideLoop hints) := by
  have hdense := eq_ok_of_isSome (x := tokenize denseLoop) (by decide +kernel) []
  have hwide := eq_ok_of_isSome (x := tokenize wideLoop) (by decide +kernel) []
  refine ⟨_, _, hdense, hwide, ?differ, ?kinds, convert_depends_on_kinds_only hdense hwide ?kinds⟩
  case differ => decide +kernel
  case kinds => decide +kernel

end Pseudocode
