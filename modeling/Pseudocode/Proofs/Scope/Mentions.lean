import Pseudocode.Function
import Mathlib.Data.List.Infix

/-!
# Mentions of names

The mentions of a body are the places where it reads or assigns a name, in evaluation order,
each with the scope it stands in. This is all that the placement of declarations depends on,
so the placement can be specified without the machinery that computes it.

A scope is a path in the body: the numbers of the compound statements around a place,
innermost first. The body of the function is the empty path. A counting loop is a scope as a
whole and its block is a scope inside it; of the other compound statements only the block is
a scope. One scope lies inside another exactly if its path ends with the path of the other.

## Main definitions

* `Mention`, `Function.mentions` — the mentions, in order.
* `FirstAt`, `FreedAt` — the first mention of a name, and the one that makes it free.
* `Function.DeclaresExactly` — every name is declared once, and where it has to be.
-/
namespace Pseudocode

/-- How a name is mentioned. -/
inductive Use where
  | read
  /-- The target of an assignment that may declare. -/
  | write
  /-- The target of the update of a counting loop, which may not. -/
  | update
  deriving DecidableEq

/-- A mention of a name: how it is used, in which scope, and whether it declares the name. -/
structure Mention where
  name : String
  use : Use
  scope : List Nat
  declares : Bool
  deriving DecidableEq

/-- Reads of several names in one scope. -/
def readMentions (p : List Nat) (xs : List String) : List Mention :=
  xs.map fun x => ⟨x, .read, p, false⟩

/-- The mentions of an assignment: its value comes before its target. -/
def Assignment.mentions (use : Use) (p : List Nat) (a : Assignment) : List Mention :=
  readMentions p a.value.reads ++ [⟨a.target, use, p, a.declares⟩]

/-- The scope in which the header of the `i`-th statement in a scope stands: a counting loop
has opened one of its own there. -/
def Header.scope (p : List Nat) (i : Nat) : Header → List Nat
  | .ifThen _ => p
  | .whileDo _ => p
  | .forDo _ _ _ => i :: p

/-- The scope of the block behind the header of the `i`-th statement in a scope. -/
def Header.blockScope (p : List Nat) (i : Nat) : Header → List Nat
  | .ifThen _ => i :: p
  | .whileDo _ => i :: p
  | .forDo _ _ _ => 0 :: i :: p

/-- The mentions of a header that stands in the scope `p`. -/
def Header.mentions (p : List Nat) : Header → List Mention
  | .ifThen c => readMentions p c.reads
  | .whileDo c => readMentions p c.reads
  | .forDo init c update =>
    init.mentions .write p ++ readMentions p c.reads ++ update.mentions .update p

mutual

/-- The mentions of the `i`-th statement in a scope. -/
def Stmt.mentions (p : List Nat) (i : Nat) : Stmt → List Mention
  | .assign a => a.mentions .write p
  | .block header body _ =>
    header.mentions (header.scope p i) ++ Stmt.allMentions (header.blockScope p i) 0 body
  | .ret value _ => readMentions p value.reads

/-- The mentions of the statements in a scope from the `i`-th one on. -/
def Stmt.allMentions (p : List Nat) (i : Nat) : List Stmt → List Mention
  | [] => []
  | s :: rest => s.mentions p i ++ Stmt.allMentions p (i + 1) rest

end

/-- The mentions of a function. -/
def Function.mentions (f : Function) : List Mention := Stmt.allMentions [] 0 f.body

/-- The `i`-th mention is `m`, and it is the first one of the name `x`. -/
structure FirstAt (ms : List Mention) (x : String) (i : Nat) (m : Mention) : Prop where
  get : ms[i]? = some m
  name : m.name = x
  first : ∀ k ∈ ms.take i, k.name ≠ x

/-- The `j`-th mention makes the name `x` free: it is the first one and cannot declare, or it
is the first one that lies outside the scope of the assignment that mentions `x` first. -/
inductive FreedAt (ms : List Mention) (x : String) : Nat → Prop where
  | read {i : Nat} {m : Mention} (first : FirstAt ms x i m) (use : m.use = .read) :
      FreedAt ms x i
  | update {i : Nat} {m : Mention} (first : FirstAt ms x i m) (use : m.use = .update) :
      FreedAt ms x i
  | outlived {i j : Nat} {m k : Mention} (first : FirstAt ms x i m) (use : m.use = .write)
      (later : i < j) (get : ms[j]? = some k) (name : k.name = x) (outside : ¬ m.scope <:+ k.scope)
      (inside : ∀ l ∈ ms.take j, l.name = x → m.scope <:+ l.scope) : FreedAt ms x j

/-- **The declarations of a function are exact.** The mentions alone determine which names are
declared up front, in which order, and which assignments declare; so every name has one
declaration, in front of all its mentions and visible from them. -/
structure Function.DeclaresExactly (f : Function) : Prop where
  /-- No name is declared up front twice. -/
  nodup : f.free.Nodup
  /-- The names declared up front: those whose first mention is a read or an update, and those
  first assigned in a scope that does not contain all later mentions. -/
  mem_free : ∀ x, x ∈ f.free ↔ ∃ i m, FirstAt f.mentions x i m ∧
    (m.use = .read ∨ m.use = .update ∨ (m.use = .write ∧
      ∃ (j : Nat) (k : Mention), i < j ∧ f.mentions[j]? = some k ∧ k.name = x ∧ ¬ m.scope <:+ k.scope))
  /-- They are listed in the order of the mentions that made them free. -/
  ordered : f.free.Pairwise fun x y =>
    ∃ i j, FreedAt f.mentions x i ∧ FreedAt f.mentions y j ∧ i < j
  /-- An assignment declares its target if it is the first mention of a name that is not
  declared up front. -/
  declares : ∀ (i : Nat) (m : Mention), f.mentions[i]? = some m → m.use ≠ .read →
    (m.declares = true ↔ FirstAt f.mentions m.name i m ∧ m.name ∉ f.free)
  /-- Every name that is mentioned has one declaration. -/
  one_declaration : ∀ x, (∃ m ∈ f.mentions, m.name = x) →
    (x ∈ f.free ∧ ∀ m ∈ f.mentions, m.name = x → m.declares = false) ∨
    (x ∉ f.free ∧ ∃! i : Nat, ∃ m, f.mentions[i]? = some m ∧ m.name = x ∧ m.declares = true)
  /-- A declaring assignment precedes and encloses every mention of its target. -/
  encloses : ∀ (i : Nat) (m : Mention), f.mentions[i]? = some m → m.declares = true →
    ∀ (j : Nat) (k : Mention), f.mentions[j]? = some k → k.name = m.name → i ≤ j ∧ m.scope <:+ k.scope

end Pseudocode
