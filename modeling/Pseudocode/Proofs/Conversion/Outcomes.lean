import Pseudocode.Proofs.Code.Lexing
import Pseudocode.Proofs.Code.Names
import Pseudocode.Proofs.Conversion.Questions
import Pseudocode.Proofs.Grammar.Acceptance

/-!
# Outcomes of a conversion

A conversion succeeds, or it asks for a name that has no type, or its source cannot be read. In
the last case it fails whatever types are at hand; in the second one the name is a word of the
source.
-/
namespace Pseudocode

/-- The names in a text are words. -/
theorem isWord_of_lexed {cs : List Char} {ks : List Kind} (h : Lexed cs ks) {x : String}
    (hx : .name x ∈ ks) : isWord x.toList = true := by
  obtain ⟨lexeme, hlexeme⟩ := exists_isLexeme_of_lexed h hx
  exact isWord_of_isLexeme hlexeme

/-- What a program reads first are words, for they come from its tokens. -/
theorem isWord_of_mem_firstReads {source : String} {tokens : List Token} {f : Function}
    (htokens : tokenize source = .ok tokens) (hparse : parse tokens = .ok f) {x : String}
    (hx : x ∈ f.firstReads) : isWord x.toList = true := by
  obtain ⟨i, m, hfirst, -⟩ := ((readFirst_firstReads f.mentions).mem x).1 hx
  have hbody : Kind.name x ∈ Stmt.allKinds f.body := by
    rw [← Stmt.allMentioned_iff [] 0]
    exact ⟨m, List.mem_of_getElem? hfirst.get, hfirst.name⟩
  have hread : Kind.name x ∈ kindsRead tokens := (parse_sound hparse).2.allKinds_subset hbody
  obtain ⟨ks, hlexed, hks⟩ := lexed_of_tokenize htokens
  have hmem : Kind.name x ∈ ks ++ [.eof] := hks ▸ List.takeWhile_subset _ hread
  exact isWord_of_lexed hlexed (by simpa using hmem)

/-- The failure of a source that cannot be read. -/
def Unreadable (failure : Failure) : Prop :=
  (∃ e, failure = .lexical e) ∨ ∃ e, failure = .syntactic e

/-- A source that cannot be read lacks no type. -/
theorem Unreadable.ne_missingType {failure : Failure} (h : Unreadable failure) (x : String) :
    failure ≠ .missingType x := by
  rintro rfl
  rcases h with ⟨e, he⟩ | ⟨e, he⟩
  · cases he
  · cases he

/-- **A conversion succeeds, asks for a word that has no type, or fails with any types.** -/
theorem convert_cases (source : String) (hints : TypeMap) :
    (∃ p, convert source hints = .ok p) ∨
    (∃ x, convert source hints = .error (.missingType x) ∧ isWord x.toList = true ∧
      hints.get? x = none) ∨
    ∃ failure, Unreadable failure ∧ ∀ hints, convert source hints = .error failure := by
  cases htokens : tokenize source with
  | error e => exact .inr (.inr ⟨_, .inl ⟨e, rfl⟩, convert_of_tokenize_error htokens⟩)
  | ok tokens =>
      cases hparse : parse tokens with
      | error e => exact .inr (.inr ⟨_, .inr ⟨e, rfl⟩, convert_of_parse_error htokens hparse⟩)
      | ok f =>
          have hasks := asksFor_firstReads htokens hparse
          cases hfind : f.firstReads.find? hints.lacks with
          | none => exact .inl (hasks.succeeds hints hfind)
          | some x =>
              refine .inr (.inl ⟨x, hasks.missing hints x hfind, ?_, ?_⟩)
              · exact isWord_of_mem_firstReads htokens hparse (List.mem_of_find?_eq_some hfind)
              · simpa [TypeMap.lacks] using List.find?_some hfind

section Outcomes
variable {source x : String} {hints : TypeMap} {failure : Failure}

/-- What a conversion asks for is a word that has no type. -/
theorem word_of_missing (h : convert source hints = .error (.missingType x)) :
    isWord x.toList = true ∧ hints.get? x = none := by
  rcases convert_cases source hints with ⟨p, hp⟩ | ⟨y, hy, hword⟩ | ⟨failure, hfailure, hall⟩
  · cases hp.symm.trans h
  · cases hy.symm.trans h
    exact hword
  · have hsame := Except.error.inj ((hall hints).symm.trans h)
    exact absurd hsame (hfailure.ne_missingType x)

end Outcomes

end Pseudocode
