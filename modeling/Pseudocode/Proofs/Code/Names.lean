import Pseudocode.Proofs.Code.Demands
import Pseudocode.Proofs.Grammar.Linear

/-!
# Names in the code

The names that a body mentions are those that stand in its linear form, and each of them has a
type if the body has code, whether or not the code shows it.
-/
namespace Pseudocode

open Target

/-- An expression reads the names among its tokens. -/
theorem Expr.mem_reads_iff (e : Expr) (x : String) : x ∈ e.reads ↔ Kind.name x ∈ e.kinds := by
  induction e with
  | var y => simp [reads, kinds]
  | lit value => simp [reads, kinds]
  | neg e ih => simp [reads, kinds, ih]
  | group e ih => simp [reads, kinds, ih]
  | bin op l r ihl ihr => simp [reads, kinds, ihl, ihr]

theorem Condition.mem_reads_iff (c : Condition) (x : String) :
    x ∈ c.reads ↔ Kind.name x ∈ c.kinds := by
  induction c with
  | cmp op l r => simp [reads, kinds, Expr.mem_reads_iff]
  | logic op l r ihl ihr => simp [reads, kinds, ihl, ihr]
  | not c ih => simp [reads, kinds, ih]
  | group c ih => simp [reads, kinds, ih]

theorem Assignment.mentioned_iff (use : Use) (p : List Nat) (a : Assignment) (x : String) :
    (∃ m ∈ a.mentions use p, m.name = x) ↔ Kind.name x ∈ a.kinds := by
  simp [mentions, readMentions, kinds, or_and_right, exists_or, Expr.mem_reads_iff, or_comm,
    eq_comm]

theorem Header.mentioned_iff (p : List Nat) (header : Header) (x : String) :
    (∃ m ∈ header.mentions p, m.name = x) ↔ Kind.name x ∈ header.kinds := by
  cases header with
  | ifThen c => simp [mentions, readMentions, kinds, Condition.mem_reads_iff]
  | whileDo c => simp [mentions, readMentions, kinds, Condition.mem_reads_iff]
  | forDo init c update =>
      simp [mentions, readMentions, kinds, or_and_right, exists_or, Assignment.mentioned_iff,
        Condition.mem_reads_iff]

mutual

/-- A statement mentions the names among its tokens. -/
theorem Stmt.mentioned_iff (p : List Nat) (i : Nat) (stmt : Stmt) (x : String) :
    (∃ m ∈ stmt.mentions p i, m.name = x) ↔ Kind.name x ∈ stmt.kinds := by
  match stmt with
  | .assign a => simp [Stmt.mentions, Stmt.kinds, Assignment.mentioned_iff]
  | .ret value _ => simp [Stmt.mentions, Stmt.kinds, readMentions, Expr.mem_reads_iff]
  | .block header body _ =>
      simp [Stmt.mentions, Stmt.kinds, or_and_right, exists_or, Header.mentioned_iff,
        Stmt.allMentioned_iff _ _ body]

/-- The names that are mentioned are those that stand in the linear form. -/
theorem Stmt.allMentioned_iff (p : List Nat) (i : Nat) (body : List Stmt) (x : String) :
    (∃ m ∈ Stmt.allMentions p i body, m.name = x) ↔ Kind.name x ∈ Stmt.allKinds body := by
  match body with
  | [] => simp [Stmt.allMentions, Stmt.allKinds]
  | stmt :: rest =>
      simp [Stmt.allMentions, Stmt.allKinds, or_and_right, exists_or,
        Stmt.mentioned_iff _ _ stmt, Stmt.allMentioned_iff _ _ rest]

end

/-- The names of a body that has code have types. -/
theorem Stmt.typed_of_allCode {types : TypeMap} {depth : Nat} {x : String} (body : List Stmt)
    {lines : List Line} (h : Stmt.allCode types depth body = .ok lines)
    (hx : .name x ∈ Stmt.allKinds body) : ∃ t, types.get? x = some t := by
  obtain ⟨m, hm, rfl⟩ := (Stmt.allMentioned_iff [] 0 body x).2 hx
  have hdemanded := Stmt.demanded_allCode types depth [] 0 body
  rw [h] at hdemanded
  exact hdemanded.typed_of_ok (List.mem_map_of_mem hm)

end Pseudocode
