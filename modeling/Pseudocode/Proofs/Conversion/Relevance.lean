import Pseudocode.Proofs.Results
import Pseudocode.Proofs.Scope.Exact
import Pseudocode.Proofs.Typing.Equations

/-!
# Hints that matter

A conversion looks at a hint only for a name that is read before anything is assigned to it. Two
conversions of one source with hints that agree on these names go through the same steps: they
know the same types at every point, ask for the same name, and generate the same code.
-/
namespace Pseudocode

namespace Context

/-- The same known types, with other types offered by the caller. -/
def rehint (hints : TypeMap) (Γ : Context) : Context := { Γ with hints }

/-- Other hints agree with those of a context on every name that is not known yet and that a part
of a body reads first. -/
def Agrees (hints : TypeMap) (origin : String → Option Origin) (Γ : Context) : Prop :=
  ∀ x, Γ.known.get? x = none → origin x = some .read → hints.get? x = Γ.hints.get? x

section Agrees
variable {hints : TypeMap} {first second : String → Option Origin} {Γ mid : Context}

/-- Hints that agree on two origins agree on the first one. -/
theorem Agrees.front (h : Agrees hints (fun x => (first x).or (second x)) Γ) :
    Agrees hints first Γ := by
  intro x hx hread
  exact h x hx (by simp [hread])

/-- Behind a part only the names matter that it has left unknown. -/
theorem Agrees.behind (h : Agrees hints (fun x => (first x).or (second x)) Γ)
    (hmoves : Moves first Γ mid) : Agrees hints second mid := by
  intro x hx hread
  obtain ⟨hbefore, hfirst⟩ := hmoves.unknown hx
  rw [hmoves.hints_eq]
  exact h x hbefore (by simp [hfirst, hread])

theorem bind_rehint (hints : TypeMap) (Γ : Context) (x : String) (t : DataType) :
    (Γ.rehint hints).bind x t = ((Γ.bind x t).1, (Γ.bind x t).2.rehint hints) := by
  cases hknown : Γ.known.get? x with
  | some earlier =>
      have hrehint : (Γ.rehint hints).known.get? x = some earlier := hknown
      rw [bind, bind, hknown, hrehint]
  | none =>
      have hrehint : (Γ.rehint hints).known.get? x = none := hknown
      rw [bind, bind, hknown, hrehint]
      rfl

/-- A read does not depend on hints that agree on it. -/
theorem require_rehint {x : String} (h : Agrees hints (Origin.ofReads [x]) Γ) :
    (Γ.rehint hints).require x = (Γ.require x).map (Prod.map id (rehint hints)) := by
  cases hknown : Γ.known.get? x with
  | some t =>
      have hrehint : (Γ.rehint hints).known.get? x = some t := hknown
      rw [require, require, hknown, hrehint]
      rfl
  | none =>
      have hrehint : (Γ.rehint hints).known.get? x = none := hknown
      have hhint : (Γ.rehint hints).hints.get? x = Γ.hints.get? x :=
        h x hknown (by simp [Origin.ofReads])
      rw [require, require, hknown, hrehint, hhint]
      cases Γ.hints.get? x with
      | some hint => exact congrArg Except.ok (bind_rehint hints Γ x hint)
      | none => rfl

/-- The type of an expression does not depend on hints that agree on what it reads first. -/
theorem typeOf_rehint {e : Expr} (h : Agrees hints (Origin.ofReads e.reads) Γ) :
    (Γ.rehint hints).typeOf e = (Γ.typeOf e).map (Prod.map id (rehint hints)) := by
  induction e generalizing Γ with
  | var x => exact require_rehint h
  | lit value => rfl
  | neg e ih => exact ih h
  | group e ih => exact ih h
  | bin op l r ihl ihr =>
      rw [Expr.reads, Origin.ofReads_append] at h
      refine map_bind_lockstep (ihl h.front) fun a ha => ?_
      exact map_bind_lockstep (ihr (h.behind (moves_typeOf ha).1)) fun _ _ => rfl

theorem test_rehint {c : Condition} (h : Agrees hints (Origin.ofReads c.reads) Γ) :
    (Γ.rehint hints).test c = (Γ.test c).map (rehint hints) := by
  induction c generalizing Γ with
  | cmp op l r =>
      rw [Condition.reads, Origin.ofReads_append] at h
      refine map_bind_lockstep (typeOf_rehint h.front) fun a ha => ?_
      exact map_bind_lockstep (typeOf_rehint (h.behind (moves_typeOf ha).1)) fun _ _ => rfl
  | logic op l r ihl ihr =>
      rw [Condition.reads, Origin.ofReads_append] at h
      exact map_bind_lockstep (ihl h.front) fun a ha => ihr (h.behind (moves_test ha))
  | not c ih => exact ih h
  | group c ih => exact ih h

theorem requireAll_rehint {names : List String} (h : Agrees hints (Origin.ofReads names) Γ) :
    (Γ.rehint hints).requireAll names = (Γ.requireAll names).map (rehint hints) := by
  induction names generalizing Γ with
  | nil => rfl
  | cons x names ih =>
      rw [← List.singleton_append, Origin.ofReads_append] at h
      refine map_bind_lockstep (require_rehint h.front) fun a ha => ?_
      exact ih (h.behind (moves_require ha).1)

end Agrees

end Context

namespace Resolved

/-- The same progress, with other types offered by the caller. -/
def rehint (hints : TypeMap) (r : Resolved) : Resolved :=
  { r with context := r.context.rehint hints }

variable {hints : TypeMap} {r : Resolved}

/-- One action under other hints. -/
theorem step_rehint {action : Action}
    (h : Context.Agrees hints (fun x => action.origin? x) r.context) :
    (r.rehint hints).step action = (r.step action).map (Prod.map id (rehint hints)) := by
  cases action with
  | assign a =>
      rw [step, step, Context.valueType_eq_typeOf, Context.valueType_eq_typeOf]
      refine map_bind_lockstep (Context.typeOf_rehint h.front) fun out _ => ?_
      simp only [Prod.map, id, Context.bind_rehint]
      rfl
  | test c =>
      rw [step, step]
      exact map_bind_lockstep (Context.test_rehint h) fun _ _ => rfl
  | ret e =>
      rw [step, step]
      exact map_bind_lockstep (Context.typeOf_rehint h) fun _ _ => rfl

/-- A row of actions with hints that agree on what the actions ask for. -/
theorem run_rehint {actions : List Action}
    (h : Context.Agrees hints (Action.originIn? actions) r.context) :
    ((r.rehint hints).run actions).outcome = (r.run actions).outcome.map (rehint hints) := by
  induction actions generalizing r with
  | nil => rfl
  | cons action rest ih =>
      rw [Action.originIn?_cons] at h
      rw [outcome_run_cons, outcome_run_cons]
      refine map_bind_lockstep (step_rehint h.front) fun out hout => ?_
      exact ih (h.behind (moves_step hout))

end Resolved

/-- The same types, with other types offered by the caller. -/
def Typed.rehint (hints : TypeMap) (t : Typed) : Typed :=
  { t with context := t.context.rehint hints }

/-- **Two resolutions in lockstep**: hints that agree on the names that are read first, in the body
or up front, lead to the same types and to the same question. -/
theorem check_rehint {f : Function} {hints hints' : TypeMap}
    (h : ∀ x, (f.origin? x).or (Origin.ofReads f.free x) = some .read →
      hints'.get? x = hints.get? x) :
    check f hints' = (check f hints).map (Typed.rehint hints') := by
  have hagrees : Context.Agrees hints'
      (fun x => (Action.originIn? (Stmt.allActions f.body) x).or (Origin.ofReads f.free x))
      (.ofHints hints) := by
    intro x _ hread
    dsimp only at hread
    rw [Stmt.originIn?_allActions] at hread
    exact h x hread
  have hrun : (f.resolve hints').outcome =
      (f.resolve hints).outcome.map (Resolved.rehint hints') :=
    Resolved.run_rehint (r := ⟨.ofHints hints, none⟩) hagrees.front
  rw [check, check]
  refine map_bind_lockstep hrun fun r hr => ?_
  refine map_bind_lockstep (Context.requireAll_rehint ?_) fun _ _ => rfl
  exact hagrees.behind (Resolved.moves_run hr)

/-- A name that the function of a source reads before anything is assigned to it. -/
def ReadsFirst (source x : String) : Prop :=
  ∃ tokens f i m, tokenize source = .ok tokens ∧ parse tokens = .ok f ∧
    FirstAt f.mentions x i m ∧ m.use = .read

/-- The reads that count are those of the origins. -/
theorem readsFirst_iff {source x : String} {tokens : List Token} {f : Function}
    (htokens : tokenize source = .ok tokens) (hparse : parse tokens = .ok f) :
    ReadsFirst source x ↔ f.origin? x = some .read := by
  rw [Function.origin?_eq_read_iff]
  constructor
  · rintro ⟨tokens', f', i, m, htokens', hparse', hfirst, huse⟩
    obtain rfl := Except.ok.inj (htokens.symm.trans htokens')
    obtain rfl := Except.ok.inj (hparse.symm.trans hparse')
    exact ⟨i, m, hfirst, huse⟩
  · rintro ⟨i, m, hfirst, huse⟩
    exact ⟨tokens, f, i, m, htokens, hparse, hfirst, huse⟩

/-- What is declared up front is mentioned, so it has an origin in the body. -/
theorem origin?_of_parse {tokens : List Token} {f : Function} (hparse : parse tokens = .ok f)
    {x : String} (h : (f.origin? x).or (Origin.ofReads f.free x) = some .read) :
    f.origin? x = some .read := by
  rcases Option.or_eq_some_iff.1 h with hbody | ⟨hnone, hfree⟩
  · exact hbody
  · have hmem : x ∈ f.free := by
      by_contra hnot
      simp [Origin.ofReads, hnot] at hfree
    obtain ⟨m, hm, hname⟩ := (settled_of_parse hparse).mentioned hmem
    have hfirst := f.origin?_isRead x
    rw [hnone, Option.map_none, eq_comm, Option.map_eq_none_iff] at hfirst
    exact absurd hname (firstMention?_eq_none.1 hfirst m hm)

/-- Conversions with hints that agree on the names that are read first have the same result. -/
theorem convert_congr {source : String} {hints hints' : TypeMap}
    (h : ∀ x, ReadsFirst source x → hints'.get? x = hints.get? x) :
    convert source hints' = convert source hints := by
  cases htokens : tokenize source with
  | error e => rw [convert_of_tokenize_error htokens, convert_of_tokenize_error htokens]
  | ok tokens =>
      cases hparse : parse tokens with
      | error e => rw [convert_of_parse_error htokens hparse, convert_of_parse_error htokens hparse]
      | ok f =>
          have hcheck : check f hints' = (check f hints).map (Typed.rehint hints') := by
            apply check_rehint
            intro x hx
            exact h x ((readsFirst_iff htokens hparse).2 (origin?_of_parse hparse hx))
          rw [convert_of_parse htokens hparse, convert_of_parse htokens hparse, hcheck]
          cases check f hints with
          | error missing => rfl
          | ok t => rfl

/-- A conversion that succeeds has a hint for every name that is read first. -/
theorem exists_hint_of_convert {source x : String} {hints : TypeMap} {p : Program}
    (h : convert source hints = .ok p) (hx : ReadsFirst source x) :
    ∃ t, hints.get? x = some t := by
  obtain ⟨tokens, f, t, htokens, hparse, hcheck, -⟩ := exists_stages_of_convert h
  have hexplained := explained_of_check hcheck x
  rw [(readsFirst_iff htokens hparse).1 hx, Option.some_or] at hexplained
  cases hexplained with
  | hinted known hint => exact ⟨_, hint⟩

/-- **Irrelevant hints have no effect.** Only the hints for names that the source reads first count:
hints that agree on these give the same program or the same failure. So more hints do not change a
conversion that succeeds, and the hint for any other name can be given or taken away. -/
theorem irrelevant_hints_have_no_effect (source : String) :
    (∀ hints hints' : TypeMap, (∀ x, ReadsFirst source x → hints.get? x = hints'.get? x) →
      convert source hints = convert source hints') ∧
    (∀ (hints hints' : TypeMap) (p : Program), convert source hints = .ok p →
      hints.Keeps hints' → convert source hints' = .ok p) ∧
    (∀ (hints : TypeMap) (x : String), ¬ ReadsFirst source x →
      convert source (hints.erase x) = convert source hints ∧
      ∀ t, convert source (hints.insert x t) = convert source hints) := by
  refine ⟨?_, ?_, ?_⟩
  · intro hints hints' hagree
    exact convert_congr hagree
  · intro hints hints' p hp hkeeps
    rw [← hp]
    apply convert_congr
    intro x hx
    obtain ⟨t, ht⟩ := exists_hint_of_convert hp hx
    rw [ht, hkeeps x t ht]
  · intro hints x hx
    have hne : ∀ y, ReadsFirst source y → y ≠ x := by
      rintro y hy rfl
      exact hx hy
    refine ⟨convert_congr ?_, ?_⟩
    · intro y hy
      simp [hne y hy]
    · intro t
      apply convert_congr
      intro y hy
      simp [hne y hy]

/-- A source that reads `a` and `b` first; `x` and `y` get their types from what is assigned. -/
def inferableSource : String := "x gets a + 1; if (b < x) \x7b y gets 'c'; \x7d return y;"

/-- Hints for `x`, for `y`, which is declared up front, and for a name that does not occur make no
difference. -/
theorem inferableSource_ignores_hints :
    convert inferableSource ⟨[("a", .long), ("b", .int)]⟩ =
      convert inferableSource
        ⟨[("y", .vector), ("b", .int), ("k", .float), ("x", .string), ("a", .long)]⟩ ∧
    (∃ p, convert inferableSource ⟨[("a", .long), ("b", .int)]⟩ = .ok p ∧
      convert inferableSource (.insert ⟨[("a", .long), ("b", .int)]⟩ "k" .float) = .ok p) ∧
    ∀ t, convert inferableSource (.insert ⟨[("a", .long)]⟩ "y" t) =
      convert inferableSource ⟨[("a", .long)]⟩ := by
  have hlexed := eq_ok_of_isSome (x := tokenize inferableSource) (by decide +kernel) []
  have hparsed := eq_ok_of_isSome (x := parse ((tokenize inferableSource).toOption.getD []))
    (by decide +kernel) ⟨"", [], false, [], .start⟩
  have hconverted := eq_ok_of_isSome
    (x := convert inferableSource ⟨[("a", .long), ("b", .int)]⟩) (by decide +kernel) ⟨"", "", none⟩
  obtain ⟨hagree, hextend, hother⟩ := irrelevant_hints_have_no_effect inferableSource
  refine ⟨hagree _ _ ?_, ⟨_, hconverted, hextend _ _ _ hconverted ?_⟩, (hother _ "y" ?_).2⟩
  · intro x hx
    rw [readsFirst_iff hlexed hparsed, Function.origin?_eq_read_iff,
      ← (readFirst_firstReads _).mem x, (by decide +kernel : firstReads _ = ["a", "b"])] at hx
    rcases List.mem_pair.1 hx with rfl | rfl
    · rfl
    · rfl
  · exact TypeMap.keeps_insert rfl .float
  · rw [readsFirst_iff hlexed hparsed]
    decide +kernel

end Pseudocode
