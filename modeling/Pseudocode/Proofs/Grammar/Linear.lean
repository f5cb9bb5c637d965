import Pseudocode.Function
import Mathlib.Data.List.Basic

/-!
# Trees written out

Every tree has a linear form: the kinds of the tokens that stand for it, with parentheses only
where the tree has a group. Many trees share one linear form; the canonical ones among them are
those in which no operator stands below another one that binds more tightly, so that what is
written without parentheses can be meant without them.
-/
namespace Pseudocode

/-- The kinds of the tokens of an expression. -/
def Expr.kinds : Expr → List Kind
  | .var x => [.name x]
  | .lit value => [.literal value]
  | .neg e => .arith .sub :: e.kinds
  | .group e => .leftParen :: (e.kinds ++ [.rightParen])
  | .bin op l r => l.kinds ++ .arith op :: r.kinds

/-- The kinds of the tokens of a condition. -/
def Condition.kinds : Condition → List Kind
  | .cmp op l r => l.kinds ++ .rel op :: r.kinds
  | .logic op l r => l.kinds ++ .logic op :: r.kinds
  | .not c => .bang :: c.kinds
  | .group c => .leftParen :: (c.kinds ++ [.rightParen])

/-- The kinds of the tokens of an assignment, without its semicolon. -/
def Assignment.kinds (a : Assignment) : List Kind := .name a.target :: .gets :: a.value.kinds

/-- The kinds of the tokens in front of a block. -/
def Header.kinds : Header → List Kind
  | .ifThen c => .keyword .ifKw :: .leftParen :: (c.kinds ++ [.rightParen])
  | .whileDo c => .keyword .whileKw :: .leftParen :: (c.kinds ++ [.rightParen])
  | .forDo init c update =>
    .keyword .forKw :: .leftParen ::
      (init.kinds ++ .semicolon :: (c.kinds ++ .semicolon :: (update.kinds ++ [.rightParen])))

mutual

/-- The kinds of the tokens of a statement. -/
def Stmt.kinds : Stmt → List Kind
  | .assign a => a.kinds ++ [.semicolon]
  | .block header body _ => header.kinds ++ .leftCurly :: (Stmt.allKinds body ++ [.rightCurly])
  | .ret value _ => .keyword .returnKw :: (value.kinds ++ [.semicolon])

/-- The kinds of the tokens of a list of statements. -/
def Stmt.allKinds : List Stmt → List Kind
  | [] => []
  | stmt :: rest => stmt.kinds ++ Stmt.allKinds rest

end

/-- The kinds of a program with the given name and body: a function behind its keyword, under a
name that is not reserved, or bare statements, which have a name of their own. -/
def IsProgram (ks : List Kind) (name : String) (body : List Stmt) : Prop :=
  (ks = .keyword .fn :: .name name :: .leftParen :: .rightParen :: .leftCurly ::
      (Stmt.allKinds body ++ [.rightCurly]) ∧ name ≠ Grammar.reservedName) ∨
  (ks = Stmt.allKinds body ∧ name = Grammar.implicitName ∧ ks.head? ≠ some (.keyword .fn))

/-- The tokens of the body are tokens of the program. -/
theorem IsProgram.allKinds_subset {ks : List Kind} {name : String} {body : List Stmt}
    (h : IsProgram ks name body) : Stmt.allKinds body ⊆ ks := by
  intro k hk
  rcases h with ⟨rfl, -⟩ | ⟨rfl, -⟩
  · simp [hk]
  · exact hk

/-- The name of a program stands in it, unless it is the implicit one. -/
theorem IsProgram.name_mem_or {ks : List Kind} {name : String} {body : List Stmt}
    (h : IsProgram ks name body) : .name name ∈ ks ∨ name = Grammar.implicitName := by
  rcases h with ⟨rfl, -⟩ | ⟨-, rfl, -⟩
  · exact .inl (by simp)
  · exact .inr rfl

/-- How tightly the outermost operator of an expression binds, if there is one. -/
def Expr.binding? : Expr → Option Nat
  | .bin op _ _ => some op.precedence
  | _ => none

/-- A minus sign stands before no operator; to the left of an operator nothing binds more
loosely, and to its right nothing binds as loosely. -/
def Expr.Canonical : Expr → Prop
  | .var _ => True
  | .lit _ => True
  | .neg e => e.binding? = none ∧ e.Canonical
  | .group e => e.Canonical
  | .bin op l r =>
    (∀ p ∈ l.binding?, op.precedence ≤ p) ∧ (∀ p ∈ r.binding?, op.precedence < p) ∧
      l.Canonical ∧ r.Canonical

/-- The outermost connective of a condition, if there is one. -/
def Condition.joint? : Condition → Option LogicOp
  | .logic op _ _ => some op
  | _ => none

/-- A negation sign stands before no connective, no alternative is part of a conjunction, and
chains of one connective group to the left. -/
def Condition.Canonical : Condition → Prop
  | .cmp _ l r => l.Canonical ∧ r.Canonical
  | .logic .and l r =>
    l.joint? ≠ some .or ∧ r.joint? ≠ some .or ∧ r.joint? ≠ some .and ∧ l.Canonical ∧ r.Canonical
  | .logic .or l r => r.joint? ≠ some .or ∧ l.Canonical ∧ r.Canonical
  | .not c => c.joint? = none ∧ c.Canonical
  | .group c => c.Canonical

/-- The conditions and expressions of a header are canonical. -/
def Header.Canonical : Header → Prop
  | .ifThen c => c.Canonical
  | .whileDo c => c.Canonical
  | .forDo init c update => init.value.Canonical ∧ c.Canonical ∧ update.value.Canonical

mutual

/-- All conditions and expressions of a statement are canonical. -/
def Stmt.Canonical : Stmt → Prop
  | .assign a => a.value.Canonical
  | .block header body _ => header.Canonical ∧ Stmt.AllCanonical body
  | .ret value _ => value.Canonical

/-- All conditions and expressions of a list of statements are canonical. -/
def Stmt.AllCanonical : List Stmt → Prop
  | [] => True
  | stmt :: rest => stmt.Canonical ∧ Stmt.AllCanonical rest

end

/-- An assignment without its position and its flag. -/
def Assignment.bare (a : Assignment) : Assignment := { target := a.target, value := a.value }

/-- A header without positions and flags. -/
def Header.bare : Header → Header
  | .ifThen c => .ifThen c
  | .whileDo c => .whileDo c
  | .forDo init c update => .forDo init.bare c update.bare

mutual

/-- A statement without positions and flags. -/
def Stmt.bare : Stmt → Stmt
  | .assign a => .assign a.bare
  | .block header body _ => .block header.bare (Stmt.allBare body) .start
  | .ret value _ => .ret value .start

/-- Statements without positions and flags. -/
def Stmt.allBare : List Stmt → List Stmt
  | [] => []
  | stmt :: rest => stmt.bare :: Stmt.allBare rest

end

@[simp] theorem Header.kinds_bare (header : Header) : header.bare.kinds = header.kinds := by
  cases header <;> rfl

@[simp] theorem Header.canonical_bare (header : Header) :
    header.bare.Canonical ↔ header.Canonical := by
  cases header <;> rfl

mutual

/-- Marks and positions are not part of the linear form. -/
@[simp] theorem Stmt.kinds_bare (stmt : Stmt) : stmt.bare.kinds = stmt.kinds := by
  match stmt with
  | .assign _ => rfl
  | .ret _ _ => rfl
  | .block header body _ => simp [Stmt.bare, Stmt.kinds, Stmt.allKinds_allBare body]

@[simp] theorem Stmt.allKinds_allBare (body : List Stmt) :
    Stmt.allKinds (Stmt.allBare body) = Stmt.allKinds body := by
  match body with
  | [] => rfl
  | stmt :: rest =>
    simp [Stmt.allBare, Stmt.allKinds, Stmt.kinds_bare stmt, Stmt.allKinds_allBare rest]

end

mutual

@[simp] theorem Stmt.canonical_bare (stmt : Stmt) : stmt.bare.Canonical ↔ stmt.Canonical := by
  match stmt with
  | .assign _ => rfl
  | .ret _ _ => rfl
  | .block header body _ => simp [Stmt.bare, Stmt.Canonical, Stmt.allCanonical_allBare body]

@[simp] theorem Stmt.allCanonical_allBare (body : List Stmt) :
    Stmt.AllCanonical (Stmt.allBare body) ↔ Stmt.AllCanonical body := by
  match body with
  | [] => rfl
  | stmt :: rest =>
    simp [Stmt.allBare, Stmt.AllCanonical, Stmt.canonical_bare stmt,
      Stmt.allCanonical_allBare rest]

end

/-- Bodies that differ in positions and flags only are programs of the same kinds. -/
theorem isProgram_congr {a b : List Stmt} (h : Stmt.allBare a = Stmt.allBare b) (ks : List Kind)
    (name : String) : IsProgram ks name a ↔ IsProgram ks name b := by
  have hkinds : Stmt.allKinds a = Stmt.allKinds b := by
    rw [← Stmt.allKinds_allBare a, h, Stmt.allKinds_allBare b]
  rw [IsProgram, IsProgram, hkinds]

/-- Bodies that differ in marks and positions only are canonical together. -/
theorem allCanonical_congr {a b : List Stmt} (h : Stmt.allBare a = Stmt.allBare b) :
    Stmt.AllCanonical a ↔ Stmt.AllCanonical b := by
  rw [← Stmt.allCanonical_allBare a, h, Stmt.allCanonical_allBare b]

@[simp] theorem Header.bare_mark (s : Scopes) (header : Header) :
    (header.mark s).1.bare = header.bare := by
  cases header <;> rfl

@[simp] theorem Header.bare_settle (free : List String) (header : Header) :
    (header.settle free).bare = header.bare := by
  cases header <;> rfl

mutual

/-- Marking changes nothing but marks. -/
theorem Stmt.bare_mark (s : Scopes) (stmt : Stmt) : (stmt.mark s).1.bare = stmt.bare := by
  match stmt with
  | .assign _ => rfl
  | .ret _ _ => rfl
  | .block header body _ => simp [Stmt.mark, Stmt.bare, Stmt.allBare_markAll _ body]

theorem Stmt.allBare_markAll (s : Scopes) (body : List Stmt) :
    Stmt.allBare (Stmt.markAll s body).1 = Stmt.allBare body := by
  match body with
  | [] => rfl
  | stmt :: rest =>
    simp [Stmt.markAll, Stmt.allBare, Stmt.bare_mark s stmt, Stmt.allBare_markAll _ rest]

end

mutual

theorem Stmt.bare_settle (free : List String) (stmt : Stmt) :
    (stmt.settle free).bare = stmt.bare := by
  match stmt with
  | .assign _ => rfl
  | .ret _ _ => rfl
  | .block header body _ => simp [Stmt.settle, Stmt.bare, Stmt.allBare_settleAll free body]

theorem Stmt.allBare_settleAll (free : List String) (body : List Stmt) :
    Stmt.allBare (Stmt.settleAll free body) = Stmt.allBare body := by
  match body with
  | [] => rfl
  | stmt :: rest =>
    simp [Stmt.settleAll, Stmt.allBare, Stmt.bare_settle free stmt,
      Stmt.allBare_settleAll free rest]

end

/-- Scope resolution changes nothing but declaration flags. -/
@[simp] theorem Stmt.allBare_declare (body : List Stmt) :
    Stmt.allBare (declare body).1 = Stmt.allBare body := by
  rw [← Stmt.allBare_markAll .start body, declare]
  exact Stmt.allBare_settleAll _ _

/-- What stands behind the closing parenthesis of an open one, when `depth` more have been opened
in the meantime. -/
def behindClosing (depth : Nat) : List Kind → List Kind
  | [] => []
  | .leftParen :: ks => behindClosing (depth + 1) ks
  | .rightParen :: ks =>
    match depth with
    | 0 => ks
    | depth + 1 => behindClosing depth ks
  | _ :: ks => behindClosing depth ks

/-- An expression closes what it opens, so a closing parenthesis is looked for behind it. -/
theorem Expr.behindClosing_kinds (e : Expr) (depth : Nat) (ks : List Kind) :
    behindClosing depth (e.kinds ++ ks) = behindClosing depth ks := by
  induction e generalizing depth ks with
  | var x => rfl
  | lit value => rfl
  | neg e ih => exact ih depth ks
  | group e ih =>
      have inside := ih (depth + 1) (.rightParen :: ks)
      simpa [Expr.kinds, behindClosing] using inside
  | bin op l r ihl ihr =>
      have front := ihl depth (.arith op :: (r.kinds ++ ks))
      simpa [Expr.kinds, behindClosing, ihr depth ks] using front

theorem Condition.behindClosing_kinds (c : Condition) (depth : Nat) (ks : List Kind) :
    behindClosing depth (c.kinds ++ ks) = behindClosing depth ks := by
  induction c generalizing depth ks with
  | cmp op l r =>
      have front := l.behindClosing_kinds depth (.rel op :: (r.kinds ++ ks))
      simpa [Condition.kinds, behindClosing, r.behindClosing_kinds depth ks] using front
  | logic op l r ihl ihr =>
      have front := ihl depth (.logic op :: (r.kinds ++ ks))
      simpa [Condition.kinds, behindClosing, ihr depth ks] using front
  | not c ih => exact ih depth ks
  | group c ih =>
      have inside := ih (depth + 1) (.rightParen :: ks)
      simpa [Condition.kinds, behindClosing] using inside

/-- A parenthesis at the front of an expression closes at its end or before an operator. -/
theorem Expr.behindClosing_of_kinds {e : Expr} {ks : List Kind}
    (h : e.kinds = .leftParen :: ks) (rest : List Kind) :
    behindClosing 0 (ks ++ rest) = rest ∨
      ∃ op later, behindClosing 0 (ks ++ rest) = .arith op :: later := by
  induction e generalizing ks rest with
  | var x => simp [Expr.kinds] at h
  | lit value => simp [Expr.kinds] at h
  | neg e ih => simp [Expr.kinds] at h
  | group e ih =>
      obtain rfl : e.kinds ++ [.rightParen] = ks := by simpa [Expr.kinds] using h
      left
      rw [List.append_assoc, e.behindClosing_kinds]
      rfl
  | bin op l r ihl ihr =>
      rw [Expr.kinds, List.append_eq_cons_iff] at h
      rcases h with ⟨-, h⟩ | ⟨front, hl, rfl⟩
      · exact absurd h (by simp)
      · right
        rw [List.append_assoc]
        rcases ihl hl (.arith op :: r.kinds ++ rest) with h | h
        · exact ⟨op, r.kinds ++ rest, h⟩
        · exact h

end Pseudocode
