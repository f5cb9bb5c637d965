import Pseudocode.Proofs.Typing.Resolution
import Pseudocode.Target.Code

/-!
# What code generation demands

Code generation asks for the type of every name it meets, in the order of the mentions and whether
or not the code shows the type, and it fails for no other reason than a name without one.
-/
namespace Pseudocode

open Target

/-- The end of a generation that demands the types of these names: all of them have one, or the
first that has none is reported. -/
inductive Demanded (types : TypeMap) (names : List String) {α : Type} :
    Except InternalFault α → Prop where
  | typed {a : α} (all : ∀ x ∈ names, types.lacks x = false) : Demanded types names (.ok a)
  | untyped {x : String} (first : names.find? types.lacks = some x) :
      Demanded types names (.error (.untypedVariable x))

section Demands
variable {α β : Type} {types : TypeMap} {xs ys : List String} {out : Except InternalFault α}
  {f : α → Except InternalFault β}

/-- Two generations in a row demand the names of both, those of the first one first. -/
theorem Demanded.bind (h : Demanded types xs out) (hf : ∀ a, Demanded types ys (f a)) :
    Demanded types (xs ++ ys) (out >>= f) := by
  cases h with
  | @typed a all =>
      have hnone : xs.find? types.lacks = none := by
        rw [List.find?_eq_none]
        intro x hx
        simp [all x hx]
      have hlater : Demanded types ys (f a) := hf a
      change Demanded types (xs ++ ys) (f a)
      generalize f a = later at hlater ⊢
      cases hlater with
      | typed all' =>
          refine .typed ?_
          intro x hx
          rcases List.mem_append.1 hx with hx | hx
          · exact all x hx
          · exact all' x hx
      | untyped first => exact .untyped (by rw [List.find?_append, hnone, first, Option.none_or])
  | untyped first => exact .untyped (by rw [List.find?_append, first, Option.some_or])

/-- A step behind all demands that cannot fail. -/
theorem Demanded.bind_ok (h : Demanded types xs out) (hf : ∀ a, ∃ b, f a = .ok b) :
    Demanded types xs (out >>= f) := by
  rw [← List.append_nil xs]
  refine h.bind fun a => ?_
  obtain ⟨b, hb⟩ := hf a
  rw [hb]
  exact .typed (by simp)

theorem Demanded.exists_ok (h : Demanded types xs out)
    (hxs : ∀ x ∈ xs, types.lacks x = false) : ∃ a, out = .ok a := by
  cases h with
  | @typed a all => exact ⟨a, rfl⟩
  | @untyped x first =>
      have hx := hxs x (List.mem_of_find?_eq_some first)
      have hlacks : types.lacks x = true := List.find?_some first
      exact absurd (hx.symm.trans hlacks) (by simp)

/-- A generation that does not fail has found the types of all names that it demands. -/
theorem Demanded.typed_of_ok {a : α} (h : Demanded types xs (.ok a)) {x : String} (hx : x ∈ xs) :
    ∃ t, types.get? x = some t := by
  cases h with
  | typed all => exact TypeMap.lacks_eq_false.1 (all x hx)

end Demands

theorem demanded_demand (types : TypeMap) (x : String) : Demanded types [x] (types.demand x) := by
  rw [TypeMap.demand.eq_def]
  split
  · next t ht => exact .typed (by simpa using TypeMap.lacks_eq_false.2 ⟨t, ht⟩)
  · next hnone => exact .untyped (by simp [TypeMap.lacks, hnone])

@[simp] theorem map_name_readMentions (p : List Nat) (xs : List String) :
    (readMentions p xs).map (·.name) = xs := by
  simp [readMentions, Function.comp_def]

@[simp] theorem Assignment.map_name_mentions (use : Use) (p : List Nat) (a : Assignment) :
    (a.mentions use p).map (·.name) = a.value.reads ++ [a.target] := by
  simp [Assignment.mentions]

variable (types : TypeMap)

/-- The code of an expression demands the types of the names that it reads. -/
theorem Expr.demanded_code (e : Expr) : Demanded types e.reads (e.code types) := by
  induction e with
  | var x => exact (demanded_demand types x).bind_ok fun _ => ⟨x, rfl⟩
  | lit value => exact .typed (by simp [Expr.reads])
  | neg e ih => exact ih.bind_ok fun _ => ⟨_, rfl⟩
  | group e ih => exact ih.bind_ok fun _ => ⟨_, rfl⟩
  | bin op l r ihl ihr => exact ihl.bind fun _ => ihr.bind_ok fun _ => ⟨_, rfl⟩

theorem Condition.demanded_code (c : Condition) : Demanded types c.reads (c.code types) := by
  induction c with
  | cmp op l r =>
      exact (l.demanded_code types).bind fun _ => (r.demanded_code types).bind_ok fun _ => ⟨_, rfl⟩
  | logic op l r ihl ihr => exact ihl.bind fun _ => ihr.bind_ok fun _ => ⟨_, rfl⟩
  | not c ih => exact ih.bind_ok fun _ => ⟨_, rfl⟩
  | group c ih => exact ih.bind_ok fun _ => ⟨_, rfl⟩

theorem Assignment.demanded_code (a : Assignment) :
    Demanded types (a.value.reads ++ [a.target]) (a.code types) :=
  (a.value.demanded_code types).bind fun _ =>
    (demanded_demand types a.target).bind_ok fun _ => ⟨_, rfl⟩

/-- The code of a header demands the types of its names in the order of evaluation. -/
theorem Header.demanded_code (p : List Nat) (header : Header) :
    Demanded types ((header.mentions p).map (·.name)) (header.code types) := by
  cases header with
  | ifThen c =>
      rw [Header.mentions, map_name_readMentions]
      exact (c.demanded_code types).bind_ok fun _ => ⟨_, rfl⟩
  | whileDo c =>
      rw [Header.mentions, map_name_readMentions]
      exact (c.demanded_code types).bind_ok fun _ => ⟨_, rfl⟩
  | forDo init c update =>
      rw [Header.mentions, List.map_append, List.map_append, map_name_readMentions,
        Assignment.map_name_mentions, Assignment.map_name_mentions, List.append_assoc]
      refine (init.demanded_code types).bind fun _ => ?_
      refine (c.demanded_code types).bind fun _ => ?_
      exact Demanded.bind_ok (Assignment.demanded_code types { update with declares := false })
        fun _ => ⟨_, rfl⟩

mutual

theorem Stmt.demanded_code (depth : Nat) (p : List Nat) (i : Nat) (stmt : Stmt) :
    Demanded types ((stmt.mentions p i).map (·.name)) (stmt.code types depth) := by
  match stmt with
  | .assign a =>
      rw [Stmt.mentions, Assignment.map_name_mentions]
      exact (a.demanded_code types).bind_ok fun _ => ⟨_, rfl⟩
  | .ret value _ =>
      rw [Stmt.mentions, map_name_readMentions]
      exact (value.demanded_code types).bind_ok fun _ => ⟨_, rfl⟩
  | .block header body _ =>
      rw [Stmt.mentions, List.map_append]
      refine (header.demanded_code types _).bind fun _ => ?_
      exact (Stmt.demanded_allCode (depth + 1) _ 0 body).bind_ok fun _ => ⟨_, rfl⟩

theorem Stmt.demanded_allCode (depth : Nat) (p : List Nat) (i : Nat) (body : List Stmt) :
    Demanded types ((Stmt.allMentions p i body).map (·.name)) (Stmt.allCode types depth body) := by
  match body with
  | [] => exact .typed (by simp [Stmt.allMentions])
  | stmt :: rest =>
      rw [Stmt.allMentions, List.map_append]
      refine (Stmt.demanded_code depth p i stmt).bind fun _ => ?_
      exact (Stmt.demanded_allCode depth p (i + 1) rest).bind_ok fun _ => ⟨_, rfl⟩

end

/-- A declaration up front shows the type of its name. -/
theorem Function.demanded_declarations (xs : List String) :
    Demanded types xs (declarations types xs) := by
  induction xs with
  | nil => exact .typed (by simp)
  | cons x xs ih => exact (demanded_demand types x).bind fun _ => ih.bind_ok fun _ => ⟨_, rfl⟩

/-- The code of a function demands the types of the names declared up front and then those of the
names that the body mentions. -/
theorem Function.demanded_code (returnType : Option DataType) (f : Function) :
    Demanded types (f.free ++ f.mentions.map (·.name)) (f.code types returnType) := by
  refine (demanded_declarations types f.free).bind fun _ => ?_
  exact (Stmt.demanded_allCode types 1 [] 0 f.body).bind_ok fun _ => ⟨_, rfl⟩

end Pseudocode
