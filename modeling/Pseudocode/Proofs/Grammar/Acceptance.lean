import Pseudocode.Proofs.Grammar.Complete
import Pseudocode.Proofs.Scope.Exact

/-!
# The language that is read

Reading tokens succeeds exactly on the linear forms of programs with a canonical body, and it
gives that body back. Positions, lexemes, declaration flags and whatever stands behind the first
end token have no influence on this.
-/
namespace Pseudocode

/-- The kinds of the tokens before the first end token. -/
def kindsRead (ts : List Token) : List Kind := (ts.map Token.kind).takeWhile (· ≠ .eof)

/-- The tokens in front of the end are those that are read. -/
theorem map_kind_ofTokens (ts : List Token) :
    (Grammar.TokenRow.ofTokens ts).tokens.map Token.kind = kindsRead ts := by
  rw [kindsRead, List.takeWhile_map]
  rfl

/-- What is accepted is the linear form of a canonical program. -/
theorem parse_sound {ts : List Token} {f : Function} (h : parse ts = .ok f) :
    Stmt.AllCanonical f.body ∧ IsProgram (kindsRead ts) f.name f.body := by
  obtain ⟨source, hsource, rfl⟩ := exists_source_of_parse h
  obtain ⟨hread, hcanon⟩ := Grammar.program_sound hsource
  rw [map_kind_ofTokens] at hread
  -- scope resolution only touches flags, which neither side of the law looks at
  have hbare : Stmt.allBare (Function.ofSource source).body = Stmt.allBare source.body :=
    Stmt.allBare_declare source.body
  exact ⟨(allCanonical_congr hbare).2 hcanon, (isProgram_congr hbare _ _).2 hread⟩

/-- The linear form of a canonical program is accepted and read back. -/
theorem parse_complete {ts : List Token} {name : String} {body : List Stmt}
    (hcanon : Stmt.AllCanonical body) (h : IsProgram (kindsRead ts) name body) :
    ∃ f, parse ts = .ok f ∧ f.name = name ∧ Stmt.allBare f.body = Stmt.allBare body := by
  rw [← map_kind_ofTokens] at h
  have hread : ∃ source, Grammar.program (Grammar.TokenRow.ofTokens ts).finish
      (Grammar.TokenRow.ofTokens ts).tokens = .ok source ∧ source.name = name ∧
      Stmt.allBare source.body = Stmt.allBare body := Grammar.program_complete hcanon h
  obtain ⟨source, hsource, hname, hbare⟩ := hread
  refine ⟨.ofSource source, ?_, hname, (Stmt.allBare_declare source.body).trans hbare⟩
  rw [parse, hsource]
  rfl

/-- The linear form of a canonical body determines it, because reading is a function. -/
theorem allBare_eq_of_allKinds_eq {a b : List Stmt} (ha : Stmt.AllCanonical a)
    (hb : Stmt.AllCanonical b) (h : Stmt.allKinds a = Stmt.allKinds b) :
    Stmt.allBare a = Stmt.allBare b := by
  let ts : List Token := (Stmt.allKinds a).map fun k => ⟨k, "", .start⟩
  have hts : ts.map Token.kind = Stmt.allKinds a := by simp [ts, Function.comp_def]
  have hread : ∃ read, Grammar.statements .start ts = .ok read ∧
      Stmt.allBare read = Stmt.allBare a := Grammar.statements_complete ha hts
  have hread' : ∃ read, Grammar.statements .start ts = .ok read ∧
      Stmt.allBare read = Stmt.allBare b := Grammar.statements_complete hb (hts.trans h)
  obtain ⟨read, hread, hbare⟩ := hread
  obtain ⟨read', hread', hbare'⟩ := hread'
  obtain rfl := Except.ok.inj (hread.symm.trans hread')
  exact hbare.symm.trans hbare'

/-- **Reading accepts exactly the grammar**: tokens are read as a function with a given name and
body, up to positions and flags, if and only if the body is canonical and the kinds before the
first end token are those of a program with this name and body. In particular the linear form of
the function that is read gives back these kinds, and a linear form has one canonical body. -/
theorem parse_accepts_exactly :
    (∀ (ts : List Token) (name : String) (body : List Stmt),
      (∃ f, parse ts = .ok f ∧ f.name = name ∧ Stmt.allBare f.body = Stmt.allBare body) ↔
        Stmt.AllCanonical body ∧ IsProgram (kindsRead ts) name body) ∧
    (∀ (ts : List Token) (f : Function), parse ts = .ok f →
      Stmt.AllCanonical f.body ∧ IsProgram (kindsRead ts) f.name f.body) ∧
    (∀ a b : List Stmt, Stmt.AllCanonical a → Stmt.AllCanonical b →
      Stmt.allKinds a = Stmt.allKinds b → Stmt.allBare a = Stmt.allBare b) := by
  refine ⟨fun ts name body => ⟨?_, ?_⟩, fun ts f => parse_sound,
    fun a b => allBare_eq_of_allKinds_eq⟩
  · rintro ⟨f, hf, rfl, hbare⟩
    obtain ⟨hcanon, hread⟩ := parse_sound hf
    exact ⟨(allCanonical_congr hbare).1 hcanon, (isProgram_congr hbare _ _).1 hread⟩
  · rintro ⟨hcanon, hread⟩
    exact parse_complete hcanon hread

/-- The body `while (((a) < b) && !(a + 1) < b) { }`: behind the parenthesis of the header three
more are opened, and only the first of them holds a condition. -/
def ambiguousLoop : List Stmt :=
  [.block (.whileDo (.logic .and
    (.group (.cmp .less (.group (.var "a")) (.var "b")))
    (.not (.cmp .less (.group (.bin .add (.var "a") (.lit (.int 1)))) (.var "b"))))) [] .start]

/-- The body is read back from its linear form. -/
theorem ambiguousLoop_read :
    ∃ f, parse ((Stmt.allKinds ambiguousLoop).map fun k => ⟨k, "", .start⟩) = .ok f ∧
      f.name = "program" ∧ Stmt.allBare f.body = Stmt.allBare ambiguousLoop := by
  refine (parse_accepts_exactly.1 _ _ _).2 ⟨?_, .inr ⟨?_, rfl, ?_⟩⟩
  · simp [ambiguousLoop, Stmt.AllCanonical, Stmt.Canonical, Header.Canonical, Condition.Canonical,
      Condition.joint?, Expr.Canonical, Expr.binding?]
  · decide
  · decide

end Pseudocode
