import Pseudocode.Conversion
import Pseudocode.Proofs.Code.Demands

/-!
# When code generation fails

Code generation needs the type of the value that a function gives back, and the types of the names
it declares up front or mentions. It takes any function with any types, also those that no
resolution ends with, and it fails exactly if one of these types is not there.
-/
namespace Pseudocode

/-- A name is the first of several that has no type. -/
inductive FirstUntyped (types : TypeMap) : List String → String → Prop where
  | here {x : String} {later : List String} (untyped : types.get? x = none) :
      FirstUntyped types (x :: later) x
  | later {x y : String} {t : DataType} {later : List String} (typed : types.get? y = some t)
      (first : FirstUntyped types later x) : FirstUntyped types (y :: later) x

section FirstUntyped
variable {types : TypeMap} {names : List String} {x : String}

/-- The search finds the first name without a type. -/
theorem find?_lacks_eq_some : names.find? types.lacks = some x ↔ FirstUntyped types names x := by
  induction names with
  | nil =>
      constructor
      · intro h
        cases h
      · intro h
        cases h
  | cons y names ih =>
      cases hy : types.get? y with
      | none =>
          rw [List.find?_cons_of_pos (TypeMap.lacks_eq_true.2 hy)]
          constructor
          · intro h
            obtain rfl := Option.some.inj h
            exact .here hy
          · intro h
            cases h with
            | here => rfl
            | later htyped => cases hy.symm.trans htyped
      | some t =>
          have hlacks : ¬ types.lacks y = true := by simp [TypeMap.lacks_eq_true, hy]
          rw [List.find?_cons_of_neg hlacks, ih]
          constructor
          · exact .later hy
          · intro h
            cases h with
            | here huntyped => cases hy.symm.trans huntyped
            | later _ hfirst => exact hfirst

theorem exists_firstUntyped_iff :
    (∃ x, FirstUntyped types names x) ↔ ∃ x ∈ names, types.get? x = none := by
  constructor
  · rintro ⟨x, hfirst⟩
    have hfind := find?_lacks_eq_some.2 hfirst
    have hlacks : types.lacks x = true := List.find?_some hfind
    exact ⟨x, List.mem_of_find?_eq_some hfind, TypeMap.lacks_eq_true.1 hlacks⟩
  · rintro ⟨x, hx, huntyped⟩
    cases hfind : names.find? types.lacks with
    | some y => exact ⟨y, find?_lacks_eq_some.1 hfind⟩
    | none =>
        have hlacks : ¬ types.lacks x = true := List.find?_eq_none.1 hfind x hx
        exact absurd (TypeMap.lacks_eq_true.2 huntyped) hlacks

/-- A generation that demands the types of some names fails with the first of them that has
none. -/
theorem Demanded.eq_error_iff {α : Type} {out : Except InternalFault α}
    (h : Demanded types names out) (fault : InternalFault) :
    out = .error fault ↔ ∃ x, FirstUntyped types names x ∧ fault = .untypedVariable x := by
  cases h with
  | @typed a all =>
      constructor
      · intro h
        cases h
      · rintro ⟨x, hfirst, -⟩
        obtain ⟨y, hy, huntyped⟩ := exists_firstUntyped_iff.1 ⟨x, hfirst⟩
        obtain ⟨t, htyped⟩ := TypeMap.lacks_eq_false.1 (all y hy)
        cases huntyped.symm.trans htyped
  | @untyped y first =>
      constructor
      · intro h
        exact ⟨y, find?_lacks_eq_some.1 first, (Except.error.inj h).symm⟩
      · rintro ⟨x, hfirst, rfl⟩
        obtain rfl := Option.some.inj (first.symm.trans (find?_lacks_eq_some.2 hfirst))
        rfl

end FirstUntyped

/-- The names that a function declares up front, and behind them those that its body mentions, in
evaluation order. -/
def Function.demands (f : Function) : List String := f.free ++ f.mentions.map (·.name)

/-- What is not resolved in a function with types: the type of the value it gives back, and if it
is, the first of its names that has no type. -/
inductive Unresolved (t : Typed) : InternalFault → Prop where
  | returnType (returns : t.function.returns = true) (untyped : t.returnType = none) :
      Unresolved t (.noReturnType t.function.name)
  | name {x : String} (resolved : ¬ (t.function.returns = true ∧ t.returnType = none))
      (first : FirstUntyped t.context.known t.function.demands x) :
      Unresolved t (.untypedVariable x)

section Unresolved
variable {t : Typed} {fault : InternalFault}

/-- When something is unresolved at all. -/
theorem exists_unresolved_iff : (∃ fault, Unresolved t fault) ↔
    (t.function.returns = true ∧ t.returnType = none) ∨
      ∃ x ∈ t.function.demands, t.context.known.get? x = none := by
  rw [← exists_firstUntyped_iff]
  constructor
  · rintro ⟨fault, hfault⟩
    cases hfault with
    | returnType hreturns huntyped => exact .inl ⟨hreturns, huntyped⟩
    | @name x _ hfirst => exact .inr ⟨x, hfirst⟩
  · intro h
    by_cases hreturn : t.function.returns = true ∧ t.returnType = none
    · exact ⟨_, .returnType hreturn.1 hreturn.2⟩
    · obtain ⟨x, hfirst⟩ := h.resolve_left hreturn
      exact ⟨_, .name hreturn hfirst⟩

/-- A return without a type is reported before all names. -/
theorem Typed.signature_unresolved (hreturns : t.function.returns = true)
    (huntyped : t.returnType = none) :
    t.signature = .error (.noReturnType t.function.name) := by
  rw [Typed.signature, if_pos hreturns, huntyped]

theorem Typed.signature_resolved (h : ¬ (t.function.returns = true ∧ t.returnType = none)) :
    ∃ returnType, t.signature = .ok returnType := by
  rw [Typed.signature]
  by_cases hreturns : t.function.returns = true
  · cases htype : t.returnType with
    | none => exact absurd ⟨hreturns, htype⟩ h
    | some type => exact ⟨some type, by rw [if_pos hreturns]⟩
  · exact ⟨none, if_neg hreturns⟩

/-- A program cannot be put together exactly if something is not resolved. -/
theorem compile_eq_error_iff : compile t = .error fault ↔ Unresolved t fault := by
  by_cases hreturn : t.function.returns = true ∧ t.returnType = none
  · -- the type of the value is asked for before any name
    have herror : compile t = .error (.noReturnType t.function.name) := by
      rw [compile, Typed.signature_unresolved hreturn.1 hreturn.2]
      rfl
    rw [herror]
    constructor
    · intro h
      obtain rfl := Except.error.inj h
      exact .returnType hreturn.1 hreturn.2
    · intro h
      cases h with
      | returnType => rfl
      | name hresolved => exact absurd hreturn hresolved
  · obtain ⟨returnType, hsignature⟩ := Typed.signature_resolved hreturn
    have hdemanded : Demanded t.context.known t.function.demands (compile t) := by
      rw [compile, hsignature]
      exact (t.function.demanded_code t.context.known returnType).bind_ok fun _ => ⟨_, rfl⟩
    rw [hdemanded.eq_error_iff]
    constructor
    · rintro ⟨x, hfirst, rfl⟩
      exact .name hreturn hfirst
    · intro h
      cases h with
      | returnType hreturns huntyped => exact absurd ⟨hreturns, huntyped⟩ hreturn
      | @name x _ hfirst => exact ⟨x, hfirst, rfl⟩

end Unresolved

/-- **Code generation fails exactly if something is unresolved, and says what.** For any function
with any types it fails if and only if the function gives back a value of no known type, or a name
that is declared up front or mentioned in the body has no type. The failure is a broken invariant:
the missing type of the value, or else the first name without a type, those declared up front
coming before those of the body in evaluation order. -/
theorem generation_fails_exactly_unresolved (t : Typed) :
    ((∃ failure, (Conversion.generate t).outcome = .error failure) ↔
      (t.function.returns = true ∧ t.returnType = none) ∨
        ∃ x, (x ∈ t.function.free ∨ ∃ m ∈ t.function.mentions, m.name = x) ∧
          t.context.known.get? x = none) ∧
    ∀ failure, (Conversion.generate t).outcome = .error failure ↔
      ∃ fault, Unresolved t fault ∧ failure = .internal fault := by
  have hfailure : ∀ failure, (Conversion.generate t).outcome = .error failure ↔
      ∃ fault, Unresolved t fault ∧ failure = .internal fault := by
    intro failure
    simp only [← compile_eq_error_iff]
    change (compile t).mapError Failure.internal = .error failure ↔ _
    cases compile t with
    | error fault => simp [Except.mapError, eq_comm]
    | ok p => simp [Except.mapError]
  refine ⟨?_, hfailure⟩
  have hnames : ∀ x, x ∈ t.function.demands ↔
      x ∈ t.function.free ∨ ∃ m ∈ t.function.mentions, m.name = x := by
    intro x
    rw [Function.demands, List.mem_append, List.mem_map]
  simp only [hfailure, ← hnames]
  rw [← exists_unresolved_iff]
  constructor
  · rintro ⟨failure, fault, hfault, -⟩
    exact ⟨fault, hfault⟩
  · rintro ⟨fault, hfault⟩
    exact ⟨_, fault, hfault, rfl⟩

end Pseudocode
