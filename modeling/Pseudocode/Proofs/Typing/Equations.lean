import Pseudocode.Proofs.Code.Demands
import Pseudocode.Proofs.Conversion.Stages
import Pseudocode.Proofs.Typing.Origins

/-!
# Resolution as a system of equations

A resolution binds names one after the other, in the middle of expressions, and yet its result
can be described without a word about the order: under the final types every name has the type
of the value that is first assigned to it, or its hint if there is no such value. The reason is
that a type is never changed once it is known, so that a type found on the way is the one found
at the end.

## Main definitions

* `TypeMap.typeOf?` — the type of an expression when all variables have a fixed type.
* `Explained` — the type of a name and its origin.
* `Context.Moves` — what a part of a body does to the types known so far.
* `Function.SolvedBy` — the equations between the types of a function.

## Main statements

* `Context.Moves.trans` — parts in a row.
* `Resolved.moves_run` — what a row of actions does.
* `resolution_solves_equations` — the types of every function that is resolved solve its equations.
-/
namespace Pseudocode

namespace TypeMap

/-- The type of an expression when the types of all variables are fixed. -/
def typeOf? (types : TypeMap) : Expr → Option DataType
  | .var x => types.get? x
  | .lit value => some value.dataType
  | .neg e => types.typeOf? e
  | .group e => types.typeOf? e
  | .bin _ l r => (types.typeOf? l).bind fun s => (types.typeOf? r).map s.join

/-- Every name that has a type in one map has the same type in another one. -/
def Keeps (old new : TypeMap) : Prop := ∀ x t, old.get? x = some t → new.get? x = some t

theorem Keeps.refl (types : TypeMap) : types.Keeps types := fun _ _ h => h

theorem Keeps.trans {first second third : TypeMap} (h : first.Keeps second)
    (h' : second.Keeps third) : first.Keeps third :=
  fun x t hx => h' x t (h x t hx)

theorem keeps_insert {types : TypeMap} {x : String} (h : types.get? x = none) (t : DataType) :
    types.Keeps (types.insert x t) := by
  intro y s hy
  have hne : y ≠ x := by
    rintro rfl
    simp [h] at hy
  rw [get?_insert, if_neg hne, hy]

/-- An operator joins the types of its operands. -/
theorem typeOf?_bin_eq_some {types : TypeMap} {op : ArithOp} {l r : Expr} {t : DataType} :
    types.typeOf? (.bin op l r) = some t ↔
      ∃ a b, types.typeOf? l = some a ∧ types.typeOf? r = some b ∧ a.join b = t := by
  simp [typeOf?, Option.bind_eq_some_iff]

/-- More known types do not change the type of an expression that has one. -/
theorem Keeps.typeOf? {old new : TypeMap} (h : old.Keeps new) {e : Expr} {t : DataType}
    (he : old.typeOf? e = some t) : new.typeOf? e = some t := by
  induction e generalizing t with
  | var x => exact h x t he
  | lit value => exact he
  | neg e ih => exact ih he
  | group e ih => exact ih he
  | bin op l r ihl ihr =>
      obtain ⟨a, b, ha, hb, rfl⟩ := typeOf?_bin_eq_some.1 he
      exact typeOf?_bin_eq_some.2 ⟨a, b, ihl ha, ihr hb, rfl⟩

end TypeMap

/-! ## Types and origins -/

/-- The type that a name has is the one that its origin calls for. -/
inductive Explained (hints types : TypeMap) (x : String) : Option Origin → Prop where
  | unmentioned (unknown : types.get? x = none) : Explained hints types x none
  | hinted {t : DataType} (known : types.get? x = some t) (hint : hints.get? x = some t) :
      Explained hints types x (some .read)
  | assigned {e : Expr} {t : DataType} (known : types.get? x = some t)
      (value : types.typeOf? e = some t) : Explained hints types x (some (.value e))

/-- What explains a type explains it in a map that has more of them. -/
theorem Explained.mono {hints old new : TypeMap} {x : String} {origin : Origin}
    (h : Explained hints old x (some origin)) (hkeeps : old.Keeps new) :
    Explained hints new x (some origin) := by
  cases h with
  | hinted known hint => exact .hinted (hkeeps x _ known) hint
  | assigned known value => exact .assigned (hkeeps x _ known) (hkeeps.typeOf? value)

theorem Explained.isSome_iff {hints types : TypeMap} {x : String} {origin : Option Origin}
    (h : Explained hints types x origin) :
    (types.get? x).isSome = true ↔ origin.isSome = true := by
  cases h with
  | unmentioned unknown => simp [unknown]
  | hinted known hint => simp [known]
  | assigned known value => simp [known]

namespace Context

/-- **What a part of a body does**: it keeps the types that were known, and a name that was not
known gets the type that its origin in this part calls for. -/
structure Moves (origin : String → Option Origin) (Γ Γ' : Context) : Prop where
  hints_eq : Γ'.hints = Γ.hints
  keeps : Γ.known.Keeps Γ'.known
  explained : ∀ x, Γ.known.get? x = none → Explained Γ.hints Γ'.known x (origin x)

theorem moves_nothing (Γ : Context) : Moves (fun _ => none) Γ Γ where
  hints_eq := rfl
  keeps := .refl _
  explained _ hx := .unmentioned hx

/-- What is unknown behind a part was unknown in front of it and is not mentioned in it. -/
theorem Moves.unknown {origin : String → Option Origin} {Γ Γ' : Context}
    (h : Moves origin Γ Γ') {x : String} (hx : Γ'.known.get? x = none) :
    Γ.known.get? x = none ∧ origin x = none := by
  have hbefore : Γ.known.get? x = none := by
    by_contra hne
    obtain ⟨t, ht⟩ := Option.ne_none_iff_exists'.1 hne
    simp [h.keeps x t ht] at hx
  have hexplained := (h.explained x hbefore).isSome_iff
  refine ⟨hbefore, ?_⟩
  simpa [hx] using hexplained

/-- Of two parts in a row, the first one has the say about the names that it mentions. -/
theorem Moves.trans {first second : String → Option Origin} {Γ mid Γ' : Context}
    (h : Moves first Γ mid) (h' : Moves second mid Γ') :
    Moves (fun x => (first x).or (second x)) Γ Γ' where
  hints_eq := h'.hints_eq.trans h.hints_eq
  keeps := h.keeps.trans h'.keeps
  explained x hx := by
    have hfirst := h.explained x hx
    cases horigin : first x with
    | some origin =>
        rw [horigin] at hfirst
        exact hfirst.mono h'.keeps
    | none =>
        rw [horigin] at hfirst
        cases hfirst with
        | unmentioned unknown =>
            rw [Option.none_or, ← h.hints_eq]
            exact h'.explained x unknown

/-- Binding a name does what an assignment to it calls for. -/
theorem moves_bind {Γ : Context} {e : Expr} {t : DataType} (h : Γ.known.typeOf? e = some t)
    (x : String) : Moves (Origin.ofTarget x e) Γ (Γ.bind x t).2 := by
  rw [Context.bind.eq_def]
  split
  · next earlier hearlier =>
    refine ⟨rfl, .refl _, ?_⟩
    intro y hy
    have hne : y ≠ x := by
      rintro rfl
      simp [hearlier] at hy
    rw [Origin.ofTarget, if_neg hne]
    exact .unmentioned hy
  · next hnew =>
    have hkeeps := TypeMap.keeps_insert hnew t
    refine ⟨rfl, hkeeps, ?_⟩
    intro y hy
    rw [Origin.ofTarget]
    split
    · next heq =>
      subst heq
      exact .assigned (by simp) (hkeeps.typeOf? h)
    · next hne => exact .unmentioned (by simp [hne, hy])

/-- Requiring a name does what a read of it calls for, and the name has its type from then on. -/
theorem moves_require {Γ Γ' : Context} {x : String} {t : DataType}
    (h : Γ.require x = .ok (t, Γ')) :
    Moves (Origin.ofReads [x]) Γ Γ' ∧ Γ'.known.get? x = some t := by
  rw [Context.require.eq_def] at h
  split at h
  · next known hknown =>
    cases h
    refine ⟨⟨rfl, .refl _, ?_⟩, hknown⟩
    intro y hy
    have hne : y ≠ x := by
      rintro rfl
      simp [hknown] at hy
    simpa [Origin.ofReads, hne] using Explained.unmentioned hy
  · next hnew =>
    split at h
    · next hint hhint =>
      rw [Context.bind, hnew] at h
      cases h
      refine ⟨⟨rfl, TypeMap.keeps_insert hnew t, ?_⟩, by simp⟩
      intro y hy
      by_cases heq : y = x
      · subst heq
        simpa [Origin.ofReads] using Explained.hinted (by simp) hhint
      · simpa [Origin.ofReads, heq] using Explained.unmentioned (by simp [heq, hy])
    · cases h

theorem Moves.reads_append {Γ mid Γ' : Context} {names more : List String}
    (h : Moves (Origin.ofReads names) Γ mid) (h' : Moves (Origin.ofReads more) mid Γ') :
    Moves (Origin.ofReads (names ++ more)) Γ Γ' := by
  rw [Origin.ofReads_append]
  exact h.trans h'

/-- Typing an expression does what its reads call for, and its type holds from then on. -/
theorem moves_typeOf {Γ Γ' : Context} {e : Expr} {t : DataType}
    (h : Γ.typeOf e = .ok (t, Γ')) :
    Moves (Origin.ofReads e.reads) Γ Γ' ∧ Γ'.known.typeOf? e = some t := by
  induction e generalizing Γ Γ' t with
  | var x => exact moves_require h
  | lit value =>
      cases h
      exact ⟨moves_nothing Γ, rfl⟩
  | neg e ih => exact ih h
  | group e ih => exact ih h
  | bin op l r ihl ihr =>
      obtain ⟨⟨a, mid⟩, hl, h⟩ := bind_eq_ok.1 h
      obtain ⟨⟨b, last⟩, hr, h⟩ := bind_eq_ok.1 h
      cases h
      obtain ⟨hmoves, hleft⟩ := ihl hl
      obtain ⟨hmoves', hright⟩ := ihr hr
      refine ⟨hmoves.reads_append hmoves', ?_⟩
      exact TypeMap.typeOf?_bin_eq_some.2 ⟨a, b, hmoves'.keeps.typeOf? hleft, hright, rfl⟩

theorem moves_test {Γ Γ' : Context} {c : Condition} (h : Γ.test c = .ok Γ') :
    Moves (Origin.ofReads c.reads) Γ Γ' := by
  induction c generalizing Γ Γ' with
  | cmp op l r =>
      obtain ⟨⟨a, mid⟩, hl, h⟩ := bind_eq_ok.1 h
      obtain ⟨⟨b, last⟩, hr, h⟩ := bind_eq_ok.1 h
      cases h
      exact (moves_typeOf hl).1.reads_append (moves_typeOf hr).1
  | logic op l r ihl ihr =>
      obtain ⟨mid, hl, hr⟩ := bind_eq_ok.1 h
      exact (ihl hl).reads_append (ihr hr)
  | not c ih => exact ih h
  | group c ih => exact ih h

theorem moves_requireAll {Γ Γ' : Context} {names : List String}
    (h : Γ.requireAll names = .ok Γ') : Moves (Origin.ofReads names) Γ Γ' := by
  induction names generalizing Γ with
  | nil =>
      cases h
      exact moves_nothing _
  | cons x names ih =>
      obtain ⟨⟨t, mid⟩, hx, h⟩ := bind_eq_ok.1 h
      exact (moves_require hx).1.reads_append (ih h)

/-- A literal in parentheses has its type without any look-up. -/
theorem typeOf_of_literalType? {e : Expr} {t : DataType} (h : e.literalType? = some t)
    (Γ : Context) : Γ.typeOf e = .ok (t, Γ) := by
  induction e with
  | var x => cases h
  | lit value =>
      cases h
      rfl
  | neg e ih => exact ih h
  | group e ih => exact ih h
  | bin op l r => cases h

/-- A literal decides by itself, and it decides as any other expression would. -/
theorem valueType_eq_typeOf (Γ : Context) (e : Expr) : Γ.valueType e = Γ.typeOf e := by
  cases hliteral : e.literalType? with
  | some t =>
      rw [valueType, typeOf_of_literalType? hliteral, hliteral]
      rfl
  | none =>
      rw [valueType, hliteral]
      exact bind_pure (Γ.typeOf e)

end Context

/-! ## Actions -/

namespace Resolved

/-- One action moves the known types as its mentions call for. -/
theorem moves_step {r r' : Resolved} {action : Action} {binding : Option Binding}
    (h : r.step action = .ok (binding, r')) :
    Context.Moves (fun x => action.origin? x) r.context r'.context := by
  cases action with
  | assign a =>
      obtain ⟨⟨t, mid⟩, hvalue, h⟩ := bind_eq_ok.1 h
      rw [Context.valueType_eq_typeOf] at hvalue
      obtain ⟨hmoves, htype⟩ := Context.moves_typeOf hvalue
      cases h
      exact hmoves.trans (Context.moves_bind htype a.target)
  | test c =>
      obtain ⟨Γ, htest, h⟩ := bind_eq_ok.1 h
      cases h
      exact Context.moves_test htest
  | ret e =>
      obtain ⟨⟨t, Γ⟩, htype, h⟩ := bind_eq_ok.1 h
      cases h
      exact (Context.moves_typeOf htype).1

/-- A row of actions moves the known types as its mentions call for. -/
theorem moves_run {r r' : Resolved} {actions : List Action}
    (h : (r.run actions).outcome = .ok r') :
    Context.Moves (Action.originIn? actions) r.context r'.context := by
  induction actions generalizing r with
  | nil =>
      cases h
      exact Context.moves_nothing _
  | cons action rest ih =>
      rw [outcome_run_cons] at h
      obtain ⟨⟨binding, mid⟩, hstep, h⟩ := bind_eq_ok.1 h
      rw [Action.originIn?_cons]
      exact (moves_step hstep).trans (ih h)

end Resolved

namespace Context

theorem get?_bind (Γ : Context) (x : String) (t : DataType) :
    (Γ.bind x t).2.known.get? x = some (Γ.bind x t).1 := by
  rw [bind]
  split
  · next earlier hearlier => exact hearlier
  · simp

end Context

namespace Resolved

/-- An assignment reports the type that its target has from then on. -/
theorem get?_of_step {r r' : Resolved} {action : Action} {b : Binding}
    (h : r.step action = .ok (some b, r')) : r'.context.known.get? b.name = some b.type := by
  cases action with
  | assign a =>
      obtain ⟨⟨t, mid⟩, -, h⟩ := bind_eq_ok.1 h
      cases h
      exact Context.get?_bind _ _ _
  | test c =>
      obtain ⟨Γ, -, h⟩ := bind_eq_ok.1 h
      cases h
  | ret e =>
      obtain ⟨out, -, h⟩ := bind_eq_ok.1 h
      cases h

/-- What is reported on the way is what is known in the end. -/
theorem get?_of_mem_bindings {r r' : Resolved} {actions : List Action}
    (h : (r.run actions).outcome = .ok r') {b : Binding} (hb : b ∈ (r.run actions).bindings) :
    r'.context.known.get? b.name = some b.type := by
  induction actions generalizing r with
  | nil => cases hb
  | cons action rest ih =>
      rw [outcome_run_cons] at h
      obtain ⟨⟨binding, mid⟩, hstep, h⟩ := bind_eq_ok.1 h
      rw [run, hstep] at hb
      rcases List.mem_append.1 hb with hfirst | hlater
      · obtain rfl := Option.mem_toList.1 hfirst
        exact (moves_run h).keeps _ _ (get?_of_step hstep)
      · exact ih h hlater

end Resolved

/-- The type that is given back is that of the value of the first return, if there is one. -/
inductive ReturnExplained (types : TypeMap) : Option Expr → Option DataType → Prop where
  | silent : ReturnExplained types none none
  | value {e : Expr} {t : DataType} (value : types.typeOf? e = some t) :
      ReturnExplained types (some e) (some t)

theorem ReturnExplained.mono {old new : TypeMap} {first : Option Expr} {type : Option DataType}
    (h : ReturnExplained old first type) (hkeeps : old.Keeps new) :
    ReturnExplained new first type := by
  cases h with
  | silent => exact .silent
  | value value => exact .value (hkeeps.typeOf? value)

namespace Resolved

/-- The first return decides, one action at a time. -/
theorem returnExplained_step {r r' : Resolved} {action : Action} {binding : Option Binding}
    {first : Option Expr} (h : r.step action = .ok (binding, r'))
    (hfirst : ReturnExplained r.context.known first r.returnType) :
    ReturnExplained r'.context.known (first.or action.returned?) r'.returnType := by
  have hmono := hfirst.mono (moves_step h).keeps
  cases action with
  | assign a =>
      obtain ⟨out, -, h⟩ := bind_eq_ok.1 h
      cases h
      simpa [Action.returned?] using hmono
  | test c =>
      obtain ⟨Γ, -, h⟩ := bind_eq_ok.1 h
      cases h
      simpa [Action.returned?] using hmono
  | ret e =>
      obtain ⟨⟨t, Γ⟩, htype, h⟩ := bind_eq_ok.1 h
      cases h
      generalize r.returnType = type at hmono ⊢
      cases hmono with
      | silent => exact .value (Context.moves_typeOf htype).2
      | value value => exact .value value

theorem returnExplained_run {r r' : Resolved} {actions : List Action} {first : Option Expr}
    (h : (r.run actions).outcome = .ok r')
    (hfirst : ReturnExplained r.context.known first r.returnType) :
    ReturnExplained r'.context.known (first.or (actions.findSome? Action.returned?))
      r'.returnType := by
  induction actions generalizing r first with
  | nil =>
      cases h
      simpa using hfirst
  | cons action rest ih =>
      rw [outcome_run_cons] at h
      obtain ⟨⟨binding, mid⟩, hstep, h⟩ := bind_eq_ok.1 h
      have hreturn := ih h (returnExplained_step hstep hfirst)
      rw [← List.singleton_append, List.findSome?_append, ← Option.or_assoc]
      simpa using hreturn

end Resolved

/-! ## Functions -/

/-- **The equations between the types of a function**, and the type that it gives back. -/
structure Function.SolvedBy (f : Function) (hints types : TypeMap) (returnType : Option DataType) :
    Prop where
  /-- The names of the body and those declared up front have a type, and no others. -/
  domain : ∀ x, (∃ t, types.get? x = some t) ↔ (∃ m ∈ f.mentions, m.name = x) ∨ x ∈ f.free
  /-- A name that is assigned before it is read has the type of that value. -/
  assigned : ∀ x e, f.origin? x = some (.value e) →
    ∃ t, types.get? x = some t ∧ types.typeOf? e = some t
  /-- Any other name has the type that the caller offers. -/
  hinted : ∀ x t, types.get? x = some t → (∀ e, f.origin? x ≠ some (.value e)) →
    hints.get? x = some t
  /-- The first return decides what is given back. -/
  returned : ∀ e, f.firstReturn? = some e → ∃ t, returnType = some t ∧ types.typeOf? e = some t
  /-- Without a return nothing is given back. -/
  silent : f.firstReturn? = none → returnType = none

section Check
variable {f : Function} {hints : TypeMap} {t : Typed}

/-- The stages of a resolution that succeeds. -/
theorem exists_resolved_of_check (h : check f hints = .ok t) :
    ∃ r, (f.resolve hints).outcome = .ok r ∧ r.context.requireAll f.free = .ok t.context ∧
      t.returnType = r.returnType := by
  obtain ⟨r, hr, h⟩ := bind_eq_ok.1 h
  obtain ⟨Γ, hΓ, h⟩ := bind_eq_ok.1 h
  cases h
  exact ⟨r, hr, hΓ, rfl⟩

/-- Every type of a function is explained by the origin of its name. -/
theorem explained_of_check (h : check f hints = .ok t) (x : String) :
    Explained hints t.context.known x ((f.origin? x).or (Origin.ofReads f.free x)) := by
  obtain ⟨r, hr, hfree, -⟩ := exists_resolved_of_check h
  have hmoves := (Resolved.moves_run hr).trans (Context.moves_requireAll hfree)
  have hexplained := hmoves.explained x (TypeMap.get?_empty x)
  rwa [Stmt.originIn?_allActions] at hexplained

theorem returnExplained_of_check (h : check f hints = .ok t) :
    ReturnExplained t.context.known f.firstReturn? t.returnType := by
  obtain ⟨r, hr, hfree, hreturn⟩ := exists_resolved_of_check h
  have hfirst := Resolved.returnExplained_run hr .silent
  rw [Option.none_or, Stmt.findSome?_allReturned] at hfirst
  rw [hreturn]
  exact hfirst.mono (Context.moves_requireAll hfree).keeps

/-- The types of a function solve its equations. -/
theorem solvedBy_of_check (h : check f hints = .ok t) :
    f.SolvedBy hints t.context.known t.returnType where
  domain x := by
    have hwalked := check_walked f hints
    rw [h] at hwalked
    cases hwalked with
    | resolved behind =>
        rw [← TypeMap.lacks_eq_false, behind.known x, List.map_append, map_name_readMentions,
          List.mem_append, List.mem_map]
  assigned x e horigin := by
    have hexplained := explained_of_check h x
    rw [horigin, Option.some_or] at hexplained
    cases hexplained with
    | assigned known value => exact ⟨_, known, value⟩
  hinted x s hx horigin := by
    have hexplained := explained_of_check h x
    generalize hsum : (f.origin? x).or (Origin.ofReads f.free x) = origin at hexplained
    cases hexplained with
    | unmentioned unknown => simp [unknown] at hx
    | hinted known hint => rwa [← hx, known]
    | @assigned e u known value =>
        rcases Option.or_eq_some_iff.1 hsum with hvalue | ⟨-, hfree⟩
        · exact absurd hvalue (horigin e)
        · simp [Origin.ofReads] at hfree
  returned e he := by
    have hreturn := returnExplained_of_check h
    rw [he] at hreturn
    generalize t.returnType = type at hreturn
    cases hreturn with
    | value value => exact ⟨_, rfl, value⟩
  silent he := by
    have hreturn := returnExplained_of_check h
    rw [he] at hreturn
    generalize t.returnType = type at hreturn
    cases hreturn with
    | silent => rfl

/-- What is known behind some of the actions is known in the end. -/
theorem keeps_of_check (h : check f hints = .ok t) {front back : List Action}
    (hactions : Stmt.allActions f.body = front ++ back) {r : Resolved}
    (hr : (Resolved.run ⟨.ofHints hints, none⟩ front).outcome = .ok r) :
    r.context.known.Keeps t.context.known := by
  obtain ⟨last, hlast, hfree, -⟩ := exists_resolved_of_check h
  rw [Function.resolve, hactions, Resolved.outcome_run_append, hr] at hlast
  exact (Resolved.moves_run hlast).keeps.trans (Context.moves_requireAll hfree).keeps

/-- Bindings report the types that names have in the end. -/
theorem get?_of_mem_bindings_of_check (h : check f hints = .ok t) {b : Binding}
    (hb : b ∈ (f.resolve hints).bindings) : t.context.known.get? b.name = some b.type := by
  obtain ⟨r, hr, hfree, -⟩ := exists_resolved_of_check h
  exact (Context.moves_requireAll hfree).keeps _ _ (Resolved.get?_of_mem_bindings hr hb)

end Check

/-- **A resolution solves the equations of its function.** Whatever function is resolved, its types
are exactly those of its names; under them a name has the type of the value that is first assigned
to it, and if there is none the type that the caller offers, and what is given back has the type of
the first return. Nothing that is known or reported on the way is different in the end, and the
shortcut for literals agrees with the type of any other value. -/
theorem resolution_solves_equations {f : Function} {hints : TypeMap} {t : Typed}
    (h : check f hints = .ok t) :
    f.SolvedBy hints t.context.known t.returnType ∧
    (∀ (front back : List Action) (r : Resolved), Stmt.allActions f.body = front ++ back →
      (Resolved.run ⟨.ofHints hints, none⟩ front).outcome = .ok r →
      r.context.known.Keeps t.context.known) ∧
    (∀ b ∈ (f.resolve hints).bindings, t.context.known.get? b.name = some b.type) ∧
    (∀ (Γ : Context) (e : Expr), Γ.valueType e = Γ.typeOf e) := by
  refine ⟨solvedBy_of_check h, ?_, ?_, Context.valueType_eq_typeOf⟩
  · intro front back r hactions hr
    exact keeps_of_check h hactions hr
  · intro b hb
    exact get?_of_mem_bindings_of_check h hb

/-- `if (a < 1) { x gets 'c'; } y gets x + a; x gets 2; return y; return 'd';` -/
def widenedBody : List Stmt :=
  [.block (.ifThen (.cmp .less (.var "a") (.lit (.int 1))))
      [.assign { target := "x", value := .group (.lit (.char "c")) }] .start,
    .assign { target := "y", value := .bin .add (.var "x") (.var "a") },
    .assign { target := "x", value := .lit (.int 2) },
    .ret (.var "y") .start, .ret (.lit (.char "d")) .start]

/-- The hint for `x` is not used, the one for `k` is, although the body does not mention `k`. -/
theorem widenedBody_solved :
    ∃ t, check (.ofBody "f" widenedBody ["k", "a"] .start)
        ⟨[("x", .string), ("k", .vector), ("a", .long)]⟩ = .ok t ∧
      t.context.known = ⟨[("a", .long), ("x", .char), ("y", .long), ("k", .vector)]⟩ ∧
      t.returnType = some .long ∧
      (Function.ofBody "f" widenedBody ["k", "a"] .start).SolvedBy
        ⟨[("x", .string), ("k", .vector), ("a", .long)]⟩ t.context.known t.returnType := by
  refine ⟨?t, ?checked, ?known, ?type, (resolution_solves_equations ?checked).1⟩
  case checked => rfl
  case known => rfl
  case type => rfl

end Pseudocode
