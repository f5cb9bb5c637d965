import Pseudocode.Proofs.Typing.FirstReads
import Pseudocode.Typing

/-!
# Resolution follows the mentions

A resolution meets the mentions of a body one after the other. Whatever it has met has a type
from then on, and it stops at the first name that is read before it has one and for which the
caller offers none. Neither the types themselves nor the scopes have a say in this.
-/
namespace Pseudocode

/-- Whether a map has no type for a name. -/
def TypeMap.lacks (types : TypeMap) (x : String) : Bool := (types.get? x).isNone

namespace TypeMap

theorem lacks_eq_true {types : TypeMap} {x : String} :
    types.lacks x = true ↔ types.get? x = none :=
  Option.isNone_iff_eq_none

theorem lacks_eq_false {types : TypeMap} {x : String} :
    types.lacks x = false ↔ ∃ t, types.get? x = some t := by
  rw [lacks, ← Option.isSome_iff_exists]
  cases types.get? x <;> simp

@[simp] theorem lacks_empty (x : String) : empty.lacks x = true := rfl

@[simp] theorem lacks_insert (types : TypeMap) (x y : String) (t : DataType) :
    (types.insert x t).lacks y = (decide (y ≠ x) && types.lacks y) := by
  rw [lacks, get?_insert]
  by_cases h : y = x
  · simp [h]
  · simp [h, lacks]

end TypeMap

/-- The context behind mentions that have all been met: what was mentioned has a type, and what
was read first had one from the caller. -/
structure Resolves (hints : TypeMap) (ms : List Mention) (Γ : Context) : Prop where
  hints_eq : Γ.hints = hints
  known : ∀ x, Γ.known.lacks x = false ↔ x ∈ ms.map (·.name)
  answered : ∀ x ∈ firstReads ms, hints.lacks x = false

/-- The end of a resolution: all mentions have been met, or the first of the names read first that
the caller offers no type for is missing. -/
inductive Walked (hints : TypeMap) (ms : List Mention) {α : Type} (context : α → Context) :
    Except Missing α → Prop where
  | resolved {a : α} (behind : Resolves hints ms (context a)) : Walked hints ms context (.ok a)
  | missing {x : String} (first : (firstReads ms).find? hints.lacks = some x) :
      Walked hints ms context (.error (.variable x))

theorem resolves_ofHints (hints : TypeMap) : Resolves hints [] (.ofHints hints) where
  hints_eq := rfl
  known x := by simp [Context.ofHints]
  answered x hx := by simp [firstReads, newReads] at hx

section Mentions
variable {α β : Type} {hints : TypeMap} {ms more : List Mention} {Γ : Context}

/-- A resolution goes on only if all mentions so far have been met. -/
theorem Walked.bind {context : α → Context} {context' : β → Context} {out : Except Missing α}
    {f : α → Except Missing β} (h : Walked hints ms context out)
    (hf : ∀ a, Resolves hints ms (context a) → Walked hints (ms ++ more) context' (f a)) :
    Walked hints (ms ++ more) context' (out >>= f) := by
  cases h with
  | resolved behind => exact hf _ behind
  | missing first =>
      refine .missing ?_
      rw [firstReads_append, List.find?_append, first, Option.some_or]

/-- A step behind all mentions that meets no more of them. -/
theorem Walked.bind_same {context : α → Context} {context' : β → Context}
    {out : Except Missing α} {f : α → Except Missing β} (h : Walked hints ms context out)
    (hf : ∀ a, Resolves hints ms (context a) → Walked hints ms context' (f a)) :
    Walked hints ms context' (out >>= f) := by
  rw [← List.append_nil ms]
  refine h.bind fun a ha => ?_
  rw [List.append_nil]
  exact hf a ha

/-- A further mention of a name that has been met. -/
theorem Resolves.again (h : Resolves hints ms Γ) {m : Mention} (hm : m.name ∈ ms.map (·.name)) :
    Resolves hints (ms ++ [m]) Γ where
  hints_eq := h.hints_eq
  known x := by
    rw [h.known x, List.map_append, List.mem_append]
    constructor
    · intro hx
      exact .inl hx
    · rintro (hx | hx)
      · exact hx
      · obtain rfl : x = m.name := by simpa using hx
        exact hm
  answered := by
    have hold : newReads (ms.map (·.name)) [m] = [] := newReads_eq_nil (by simpa using hm)
    rw [firstReads_append, hold, List.append_nil]
    exact h.answered

/-- A mention that gives its name a type, which the caller has offered if it is a first read. -/
theorem Resolves.bind (h : Resolves hints ms Γ) {m : Mention} (t : DataType)
    (hm : m.use = .read → hints.lacks m.name = false) :
    Resolves hints (ms ++ [m]) (Γ.bind m.name t).2 := by
  rw [Context.bind.eq_def]
  split
  · next earlier hearlier =>
    have hmet : Γ.known.lacks m.name = false := TypeMap.lacks_eq_false.2 ⟨earlier, hearlier⟩
    exact h.again ((h.known _).1 hmet)
  · refine ⟨h.hints_eq, ?_, ?_⟩
    · intro x
      simp only [TypeMap.lacks_insert, Bool.and_eq_false_iff, h.known x, List.map_append,
        List.map_singleton, List.mem_append, List.mem_singleton]
      simp [or_comm]
    · intro x hx
      rw [firstReads_append, List.mem_append] at hx
      rcases hx with hx | hx
      · exact h.answered x hx
      · obtain ⟨-, k, hk, huse⟩ := mem_newReads.1 hx
        obtain ⟨hmem, rfl⟩ := firstMention?_mem hk
        obtain rfl := List.mem_singleton.1 hmem
        exact hm huse

/-- A read of a name asks the caller for a type if the name has not been met. -/
theorem Resolves.require (h : Resolves hints ms Γ) (p : List Nat) (x : String) :
    Walked hints (ms ++ readMentions p [x]) Prod.snd (Γ.require x) := by
  rw [Context.require.eq_def]
  split
  · next t ht =>
    refine .resolved (h.again ?_)
    exact (h.known x).1 (TypeMap.lacks_eq_false.2 ⟨t, ht⟩)
  · next hnew =>
    rw [h.hints_eq]
    split
    · next hint hhint =>
      refine .resolved (h.bind hint ?_)
      intro _
      exact TypeMap.lacks_eq_false.2 ⟨hint, hhint⟩
    · next hnone =>
      have hmissing : hints.lacks x = true := by simp [TypeMap.lacks, hnone]
      have hx : x ∉ ms.map (·.name) := by
        rw [← h.known x]
        simp [TypeMap.lacks, hnew]
      have hread : newReads (ms.map (·.name)) (readMentions p [x]) = [x] := by
        simp only [readMentions, List.map_singleton, newReads, hx, not_false_eq_true, and_self,
          if_true]
      have hearlier : (firstReads ms).find? hints.lacks = none := by
        rw [List.find?_eq_none]
        intro y hy
        simp [h.answered y hy]
      refine .missing ?_
      rw [firstReads_append, hread, List.find?_append, hearlier]
      simp [hmissing]

theorem readMentions_append (p : List Nat) (xs ys : List String) :
    readMentions p (xs ++ ys) = readMentions p xs ++ readMentions p ys := by
  simp [readMentions]

/-- Required names are met one after the other. -/
theorem Resolves.requireAll (h : Resolves hints ms Γ) (p : List Nat) (xs : List String) :
    Walked hints (ms ++ readMentions p xs) id (Γ.requireAll xs) := by
  induction xs generalizing ms Γ with
  | nil => exact .resolved (by simpa [readMentions] using h)
  | cons x xs ih =>
      rw [← List.singleton_append, readMentions_append, ← List.append_assoc]
      exact (h.require p x).bind fun a ha => ih ha

/-- The reads of an expression are met from left to right. -/
theorem Resolves.typeOf (h : Resolves hints ms Γ) (p : List Nat) (e : Expr) :
    Walked hints (ms ++ readMentions p e.reads) Prod.snd (Γ.typeOf e) := by
  induction e generalizing ms Γ with
  | var x => exact h.require p x
  | lit value => exact .resolved (by simpa [Expr.reads, readMentions] using h)
  | neg e ih => exact ih h
  | group e ih => exact ih h
  | bin op l r ihl ihr =>
      rw [Expr.reads, readMentions_append, ← List.append_assoc]
      exact (ihl h).bind fun a ha => (ihr ha).bind_same fun b hb => .resolved hb

theorem Resolves.test (h : Resolves hints ms Γ) (p : List Nat) (c : Condition) :
    Walked hints (ms ++ readMentions p c.reads) id (Γ.test c) := by
  induction c generalizing ms Γ with
  | cmp op l r =>
      rw [Condition.reads, readMentions_append, ← List.append_assoc]
      exact (h.typeOf p l).bind fun a ha => (ha.typeOf p r).bind_same fun b hb => .resolved hb
  | logic op l r ihl ihr =>
      rw [Condition.reads, readMentions_append, ← List.append_assoc]
      exact (ihl h).bind fun a ha => ihr ha
  | not c ih => exact ih h
  | group c ih => exact ih h

variable {r : Resolved}

/-- An assignment meets its value first and then its target. -/
theorem Resolves.step_assign (h : Resolves hints ms r.context) (p : List Nat) {use : Use}
    (huse : use ≠ .read) (a : Assignment) :
    Walked hints (ms ++ a.mentions use p) (fun out => out.2.context) (r.step (.assign a)) := by
  rw [Assignment.mentions, ← List.append_assoc]
  have hvalue : Walked hints (ms ++ readMentions p a.value.reads) Prod.snd
      (r.context.valueType a.value) :=
    (h.typeOf p a.value).bind_same fun b hb => .resolved hb
  refine hvalue.bind fun b hb => ?_
  refine .resolved (hb.bind (m := ⟨a.target, use, p, a.declares⟩) b.1 ?_)
  intro hread
  exact absurd hread huse

theorem Resolves.step_test (h : Resolves hints ms r.context) (p : List Nat) (c : Condition) :
    Walked hints (ms ++ readMentions p c.reads) (fun out => out.2.context) (r.step (.test c)) :=
  (h.test p c).bind_same fun _ hb => .resolved hb

theorem Resolves.step_ret (h : Resolves hints ms r.context) (p : List Nat) (e : Expr) :
    Walked hints (ms ++ readMentions p e.reads) (fun out => out.2.context) (r.step (.ret e)) :=
  (h.typeOf p e).bind_same fun _ hb => .resolved hb

end Mentions

namespace Resolved

theorem outcome_run_cons (r : Resolved) (action : Action) (rest : List Action) :
    (r.run (action :: rest)).outcome = r.step action >>= fun out => (out.2.run rest).outcome := by
  rw [run]
  split <;> next h => rw [h]; rfl

/-- Actions in a row are resolved one after the other. -/
theorem outcome_run_append (r : Resolved) (front back : List Action) :
    (r.run (front ++ back)).outcome =
      (r.run front).outcome >>= fun mid => (mid.run back).outcome := by
  induction front generalizing r with
  | nil => rfl
  | cons action rest ih =>
      rw [List.cons_append, outcome_run_cons, outcome_run_cons, bind_assoc]
      simp only [ih]

end Resolved

section Bodies
variable {hints : TypeMap} {ms more : List Mention} {r : Resolved}

theorem Walked.run_cons {action : Action} {rest : List Action}
    (h : Walked hints ms (fun out => out.2.context) (r.step action))
    (hrest : ∀ mid : Resolved, Resolves hints ms mid.context →
      Walked hints (ms ++ more) Resolved.context (mid.run rest).outcome) :
    Walked hints (ms ++ more) Resolved.context (r.run (action :: rest)).outcome := by
  rw [Resolved.outcome_run_cons]
  exact h.bind fun out hout => hrest out.2 hout

theorem Walked.run_singleton {action : Action}
    (h : Walked hints ms (fun out => out.2.context) (r.step action)) :
    Walked hints ms Resolved.context (r.run [action]).outcome := by
  rw [Resolved.outcome_run_cons]
  exact h.bind_same fun _ hout => .resolved hout

/-- A resolution meets the mentions of a header in their order. -/
theorem Header.walked (h : Resolves hints ms r.context) (p : List Nat) (header : Header) :
    Walked hints (ms ++ header.mentions p) Resolved.context (r.run header.actions).outcome := by
  cases header with
  | ifThen c => exact (h.step_test p c).run_singleton
  | whileDo c => exact (h.step_test p c).run_singleton
  | forDo init c update =>
      rw [Header.mentions, Header.actions, List.append_assoc, ← List.append_assoc ms]
      refine (h.step_assign p (by simp) init).run_cons fun first hfirst => ?_
      rw [← List.append_assoc _ (readMentions p c.reads)]
      refine (hfirst.step_test p c).run_cons fun second hsecond => ?_
      exact (hsecond.step_assign p (by simp) update).run_singleton

end Bodies

mutual

/-- A resolution meets the mentions of a statement in their order, whatever is in it. -/
theorem Stmt.walked {hints : TypeMap} {ms : List Mention} {r : Resolved}
    (h : Resolves hints ms r.context) (p : List Nat) (i : Nat) (stmt : Stmt) :
    Walked hints (ms ++ stmt.mentions p i) Resolved.context (r.run stmt.actions).outcome := by
  match stmt with
  | .assign a => exact (h.step_assign p (by simp) a).run_singleton
  | .ret value _ => exact (h.step_ret p value).run_singleton
  | .block header body _ =>
      rw [Stmt.mentions, Stmt.actions, Resolved.outcome_run_append, ← List.append_assoc]
      exact (header.walked h _).bind fun mid hmid => Stmt.allWalked hmid _ 0 body

/-- The resolution of statements meets their mentions. -/
theorem Stmt.allWalked {hints : TypeMap} {ms : List Mention} {r : Resolved}
    (h : Resolves hints ms r.context) (p : List Nat) (i : Nat) (body : List Stmt) :
    Walked hints (ms ++ Stmt.allMentions p i body) Resolved.context
      (r.run (Stmt.allActions body)).outcome := by
  match body with
  | [] => exact .resolved (by simpa [Stmt.allMentions] using h)
  | stmt :: rest =>
      rw [Stmt.allMentions, Stmt.allActions, Resolved.outcome_run_append, ← List.append_assoc]
      exact (Stmt.walked h p i stmt).bind fun mid hmid => Stmt.allWalked hmid p (i + 1) rest

end

/-- A resolution meets the mentions of a whole function in their order. -/
theorem resolve_walked (f : Function) (hints : TypeMap) :
    Walked hints f.mentions Resolved.context (f.resolve hints).outcome := by
  have h := Stmt.allWalked (r := ⟨.ofHints hints, none⟩) (resolves_ofHints hints) [] 0 f.body
  rwa [List.nil_append] at h

/-- **Resolution follows the mentions**: of any function, it meets the mentions of the body and
then the names declared up front, and stops only at a name that is read first and has no type from
the caller. -/
theorem check_walked (f : Function) (hints : TypeMap) :
    Walked hints (f.mentions ++ readMentions [] f.free) Typed.context (check f hints) :=
  (resolve_walked f hints).bind fun _ hr =>
    (hr.requireAll [] f.free).bind_same fun _ hΓ => .resolved hΓ

/-- No literal stops a resolution: what lacks a type is a variable. -/
theorem exists_variable_of_check {f : Function} {hints : TypeMap} {missing : Missing}
    (h : check f hints = .error missing) : ∃ x, missing = .variable x := by
  have hwalked := check_walked f hints
  rw [h] at hwalked
  cases hwalked with
  | @missing x first => exact ⟨x, rfl⟩

end Pseudocode
