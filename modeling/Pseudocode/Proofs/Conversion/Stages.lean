import Pseudocode.Conversion
import Pseudocode.Proofs.Results

/-!
# Stages of a conversion

A conversion is decided by the first of its stages that fails. These laws take a conversion
apart into its stages, and put it together again from them.
-/
namespace Pseudocode

/-- A conversion that succeeds has gone through all stages. -/
theorem exists_stages_of_convert {source : String} {hints : TypeMap} {p : Program}
    (h : convert source hints = .ok p) :
    ∃ tokens f t, tokenize source = .ok tokens ∧ parse tokens = .ok f ∧
      check f hints = .ok t ∧ compile t = .ok p := by
  rw [convert_eq] at h
  obtain ⟨tokens, htokens, h⟩ := bind_eq_ok.1 h
  obtain ⟨f, hf, h⟩ := bind_eq_ok.1 h
  obtain ⟨t, ht, h⟩ := bind_eq_ok.1 h
  exact ⟨tokens, f, t, mapError_eq_ok.1 htokens, mapError_eq_ok.1 hf, mapError_eq_ok.1 ht,
    mapError_eq_ok.1 h⟩

/-- A lexical fault ends the conversion. -/
theorem convert_of_tokenize_error {source : String} {e : LexError}
    (h : tokenize source = .error e) (hints : TypeMap) :
    convert source hints = .error (.lexical e) := by
  rw [convert_eq, h]
  rfl

/-- A syntax error ends the conversion. -/
theorem convert_of_parse_error {source : String} {tokens : List Token} {e : SyntaxError}
    (htokens : tokenize source = .ok tokens) (h : parse tokens = .error e) (hints : TypeMap) :
    convert source hints = .error (.syntactic e) := by
  rw [convert_eq, htokens]
  change ((parse tokens).mapError Failure.syntactic >>= _) = _
  rw [h]
  rfl

/-- What is left of a conversion whose source has been read. -/
theorem convert_of_parse {source : String} {tokens : List Token} {f : Function}
    (htokens : tokenize source = .ok tokens) (h : parse tokens = .ok f) (hints : TypeMap) :
    convert source hints = (do
      let t ← (check f hints).mapError Missing.failure
      (compile t).mapError .internal) := by
  rw [convert_eq, htokens]
  change ((parse tokens).mapError Failure.syntactic >>= _) = _
  rw [h]
  rfl

theorem function_of_check {f : Function} {hints : TypeMap} {t : Typed}
    (h : check f hints = .ok t) : t.function = f := by
  obtain ⟨r, -, h⟩ := bind_eq_ok.1 h
  obtain ⟨Γ, -, h⟩ := bind_eq_ok.1 h
  obtain rfl := Except.ok.inj h
  rfl

end Pseudocode
