import Pseudocode.Proofs.Code.Demands
import Pseudocode.Proofs.Conversion.Stages
import Pseudocode.Proofs.Scope.Exact

/-!
# Code generation never fails behind resolution

Three walks over a body have to agree: resolution gives types to names, generation demands them,
and a third one says whether the function gives back a value. They do, for every function, so no
conversion ends with a broken invariant.
-/
namespace Pseudocode

open Target

/-- A statement stands in a list of statements or in a block of one of them. -/
inductive Stmt.Within (s : Stmt) : List Stmt → Prop where
  | here {body : List Stmt} (mem : s ∈ body) : Within s body
  | inside {body inner : List Stmt} {header : Header} {pos : Position}
      (outer : .block header inner pos ∈ body) (within : Within s inner) : Within s body

namespace Stmt

theorem anyReturns_iff_exists_mem (body : List Stmt) :
    anyReturns body = true ↔ ∃ s ∈ body, s.returns = true := by
  induction body with
  | nil => simp [anyReturns]
  | cons s rest ih => simp [anyReturns, ih]

mutual

theorem exists_within_of_returns {body : List Stmt} (s : Stmt) (hmem : s ∈ body)
    (h : s.returns = true) : ∃ e pos, Within (.ret e pos) body := by
  match s with
  | .assign a => simp [returns] at h
  | .ret e pos => exact ⟨e, pos, .here hmem⟩
  | .block header inner _ =>
      obtain ⟨e, pos, hwithin⟩ := exists_within_of_anyReturns inner h
      exact ⟨e, pos, .inside hmem hwithin⟩

/-- A body that returns has a return statement in it, however deep. -/
theorem exists_within_of_anyReturns (body : List Stmt) (h : anyReturns body = true) :
    ∃ e pos, Within (.ret e pos) body := by
  obtain ⟨s, hs, hreturns⟩ := (anyReturns_iff_exists_mem body).1 h
  exact exists_within_of_returns s hs hreturns

end

/-- The flag of a function tells whether a return stands in its body, at any depth. -/
theorem anyReturns_iff_within (body : List Stmt) :
    anyReturns body = true ↔ ∃ e pos, Within (.ret e pos) body := by
  constructor
  · exact exists_within_of_anyReturns body
  · rintro ⟨e, pos, h⟩
    rw [anyReturns_iff_exists_mem]
    induction h with
    | here mem => exact ⟨_, mem, rfl⟩
    | inside outer within ih =>
        refine ⟨_, outer, ?_⟩
        rw [returns, anyReturns_iff_exists_mem]
        exact ih

end Stmt

/-- Whether an action gives back a value. -/
def Action.isReturn : Action → Bool
  | .ret _ => true
  | _ => false

theorem Header.any_isReturn_actions (header : Header) :
    header.actions.any Action.isReturn = false := by
  cases header <;> rfl

mutual

theorem Stmt.any_isReturn_actions (stmt : Stmt) :
    stmt.actions.any Action.isReturn = stmt.returns := by
  match stmt with
  | .assign _ => rfl
  | .ret _ _ => rfl
  | .block header body _ =>
      rw [Stmt.actions, List.any_append, header.any_isReturn_actions, Bool.false_or,
        Stmt.any_isReturn_allActions body, Stmt.returns]

/-- The actions of a body have a return if the body has one. -/
theorem Stmt.any_isReturn_allActions (body : List Stmt) :
    (Stmt.allActions body).any Action.isReturn = Stmt.anyReturns body := by
  match body with
  | [] => rfl
  | stmt :: rest =>
      rw [Stmt.allActions, List.any_append, Stmt.any_isReturn_actions stmt,
        Stmt.any_isReturn_allActions rest, Stmt.anyReturns]

end

namespace Resolved

/-- A return has a type from then on, and nothing else changes that. -/
theorem isSome_returnType_of_step {r r' : Resolved} {action : Action} {binding : Option Binding}
    (h : r.step action = .ok (binding, r')) :
    r'.returnType.isSome = (r.returnType.isSome || action.isReturn) := by
  cases action with
  | assign a =>
      obtain ⟨out, -, h⟩ := bind_eq_ok.1 h
      cases h
      simp [Action.isReturn]
  | test c =>
      obtain ⟨Γ, -, h⟩ := bind_eq_ok.1 h
      cases h
      simp [Action.isReturn]
  | ret e =>
      obtain ⟨out, -, h⟩ := bind_eq_ok.1 h
      cases h
      simp [Action.isReturn]

/-- A resolution ends with a return type if it had one or has met a return. -/
theorem isSome_returnType_of_run {r r' : Resolved} {actions : List Action}
    (h : (r.run actions).outcome = .ok r') :
    r'.returnType.isSome = (r.returnType.isSome || actions.any Action.isReturn) := by
  induction actions generalizing r with
  | nil =>
      cases h
      simp
  | cons action rest ih =>
      rw [outcome_run_cons] at h
      obtain ⟨⟨binding, mid⟩, hstep, h⟩ := bind_eq_ok.1 h
      rw [ih h, isSome_returnType_of_step hstep, List.any_cons, Bool.or_assoc]

end Resolved

/-- A function has a type to give back exactly if it returns. -/
theorem isSome_returnType_of_check {f : Function} {hints : TypeMap} {t : Typed}
    (h : check f hints = .ok t) : t.returnType.isSome = Stmt.anyReturns f.body := by
  obtain ⟨r, hr, h⟩ := bind_eq_ok.1 h
  obtain ⟨Γ, -, h⟩ := bind_eq_ok.1 h
  obtain rfl := Except.ok.inj h
  have hreturn := Resolved.isSome_returnType_of_run hr
  rw [Stmt.any_isReturn_allActions] at hreturn
  simpa using hreturn

/-- A signature is complete if every return has a type. -/
theorem Typed.signature_eq {t : Typed} (h : t.returnType.isSome = t.function.returns) :
    t.signature = .ok t.returnType := by
  rw [Typed.signature, ← h]
  cases t.returnType <;> rfl

/-- A function whose code exists becomes a program. -/
theorem exists_compile {t : Typed} {lines : List Line}
    (hreturns : t.returnType.isSome = t.function.returns)
    (hcode : t.function.code t.context.known t.returnType = .ok lines) :
    ∃ p, compile t = .ok p ∧ p.returnType = t.returnType := by
  rw [compile, Typed.signature_eq hreturns]
  change ∃ p, (t.function.code t.context.known t.returnType >>= _) = _ ∧ _
  rw [hcode]
  exact ⟨_, rfl, rfl⟩

/-- Resolution leaves no name without a type that generation demands. -/
theorem exists_code_of_check {f : Function} {hints : TypeMap} {t : Typed}
    (h : check f hints = .ok t) (returnType : Option DataType) :
    ∃ lines, f.code t.context.known returnType = .ok lines := by
  have hwalked := check_walked f hints
  rw [h] at hwalked
  cases hwalked with
  | resolved behind =>
      apply (f.demanded_code t.context.known returnType).exists_ok
      intro x hx
      rw [behind.known, List.map_append, map_name_readMentions, List.mem_append]
      exact (List.mem_append.1 hx).symm

/-- A function that has types can be generated. -/
theorem exists_compile_of_check {name : String} {body : List Stmt} {free : List String}
    {pos : Position} {hints : TypeMap} {t : Typed}
    (h : check (.ofBody name body free pos) hints = .ok t) :
    ∃ p, compile t = .ok p ∧ p.returnType.isSome = Stmt.anyReturns body := by
  have hfunction := function_of_check h
  have hreturns : t.returnType.isSome = Stmt.anyReturns body := isSome_returnType_of_check h
  obtain ⟨lines, hlines⟩ := exists_code_of_check h t.returnType
  rw [← hfunction] at hlines
  obtain ⟨p, hp, htype⟩ := exists_compile (by rw [hreturns, hfunction]; rfl) hlines
  exact ⟨p, hp, by rw [htype, hreturns]⟩

/-- The conversion of a source that has been read succeeds if its resolution does. -/
theorem convert_of_check {source : String} {tokens : List Token} {f : Function} {hints : TypeMap}
    {t : Typed} (htokens : tokenize source = .ok tokens) (hparse : parse tokens = .ok f)
    (h : check f hints = .ok t) : ∃ p, compile t = .ok p ∧ convert source hints = .ok p := by
  obtain ⟨program, -, rfl⟩ := exists_source_of_parse hparse
  obtain ⟨p, hp, -⟩ := exists_compile_of_check h
  refine ⟨p, hp, ?_⟩
  rw [convert_of_parse htokens hparse, h]
  change (compile t).mapError Failure.internal = _
  rw [hp]
  rfl

/-- The conversion of a source that has been read asks for a type if its resolution does. -/
theorem convert_of_missing {source : String} {tokens : List Token} {f : Function} {hints : TypeMap}
    {x : String} (htokens : tokenize source = .ok tokens) (hparse : parse tokens = .ok f)
    (h : check f hints = .error (.variable x)) : convert source hints = .error (.missingType x) := by
  rw [convert_of_parse htokens hparse, h]
  rfl

/-- No conversion breaks an invariant of its own. -/
theorem convert_ne_internal (source : String) (hints : TypeMap) (fault : InternalFault) :
    convert source hints ≠ .error (.internal fault) := by
  cases htokens : tokenize source with
  | error e =>
      rw [convert_of_tokenize_error htokens]
      simp
  | ok tokens =>
      cases hparse : parse tokens with
      | error e =>
          rw [convert_of_parse_error htokens hparse]
          simp
      | ok f =>
          cases hcheck : check f hints with
          | error missing =>
              obtain ⟨x, rfl⟩ := exists_variable_of_check hcheck
              rw [convert_of_missing htokens hparse hcheck]
              simp
          | ok t =>
              obtain ⟨p, -, hp⟩ := convert_of_check htokens hparse hcheck
              rw [hp]
              simp

/-- **Resolution lets nothing through that generation rejects.** Whatever function it succeeds on,
with whatever names declared up front, has code, and the code gives back a value exactly if a
return stands somewhere in the body. So no conversion ends with a broken invariant. -/
theorem generates_whatever_resolves :
    (∀ (name : String) (body : List Stmt) (free : List String) (pos : Position) (hints : TypeMap)
      (t : Typed), check (.ofBody name body free pos) hints = .ok t →
      ∃ p, compile t = .ok p ∧
        (p.returnType.isSome = true ↔ ∃ e pos, Stmt.Within (.ret e pos) body)) ∧
    (∀ (source : String) (hints : TypeMap) (fault : InternalFault),
      convert source hints ≠ .error (.internal fault)) := by
  refine ⟨?_, convert_ne_internal⟩
  intro name body free pos hints t h
  obtain ⟨p, hp, hreturns⟩ := exists_compile_of_check h
  refine ⟨p, hp, ?_⟩
  rw [hreturns, Stmt.anyReturns_iff_within]

/-- `for (i gets n; i < 9; i gets i + 1) { while (i < n) { return -i; } }` -/
def nestedReturn : List Stmt :=
  [.block (.forDo { target := "i", value := .var "n", declares := true }
      (.cmp .less (.var "i") (.lit (.int 9)))
      { target := "i", value := .bin .add (.var "i") (.lit (.int 1)) })
    [.block (.whileDo (.cmp .less (.var "i") (.var "n"))) [.ret (.neg (.var "i")) .start] .start]
    .start]

/-- The names declared up front need not be those of the body. -/
theorem nestedReturn_generates :
    ∃ t, check (.ofBody "f" nestedReturn ["k", "i"] .start) ⟨[("n", .long), ("k", .char)]⟩ = .ok t ∧
      t.returnType = some .long ∧
      ∃ p, compile t = .ok p ∧
        (p.returnType.isSome = true ↔ ∃ e pos, Stmt.Within (.ret e pos) nestedReturn) := by
  refine ⟨?t, ?checked, ?type, generates_whatever_resolves.1 _ _ _ _ _ _ ?checked⟩
  case checked => rfl
  case type => rfl

end Pseudocode
