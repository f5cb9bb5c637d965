import Pseudocode.Proofs.Grammar.Linear

/-!
# What may come next

A program can be checked kind by kind, from left to right and without looking ahead: behind the
kinds read so far stands a list of goals, one for each phrase that is still open or still to come,
and the next kind either goes on with the first of them or cannot stand here.

Only a parenthesis at the front of a condition needs care, because it may hold a condition or the
first operand of a comparison. The goals count such parentheses instead of deciding: a negation
sign or a comparison behind them makes all of them conditions, a closing parenthesis makes the
innermost an operand.

## Main definitions

* `Goal` — what a phrase still needs.
* `Goal.advance` — what a goal becomes with the next kind.
* `step`, `run` — the goals behind one more kind, and behind a row of kinds.

## Main statements

* `run_expr`, `run_condition`, `run_statements` — linear forms reach the goals behind them.
* `run_isProgram` — a program and the end behind it reach all goals.
-/
namespace Pseudocode.Viability

/-- What is still needed at some place of a program. -/
inductive Goal where
  /-- A token of this kind. -/
  | token (kind : Kind)
  /-- The target of an assignment. -/
  | target
  /-- The name of a function. -/
  | functionName
  /-- An operand, with its signs. -/
  | operand
  /-- Further operators with their operands, behind an operand. -/
  | operators
  /-- A comparison or a condition in parentheses, of which the last `depth` opening parentheses
  have been read: they may hold conditions or operands. -/
  | condition (depth : Nat)
  /-- The rest of a comparison behind its first operand or a part of it, when `depth` such
  parentheses are open. -/
  | comparison (depth : Nat)
  /-- Further conditions behind a connective. -/
  | connectives
  /-- Any number of statements. -/
  | statements
  /-- A function, or any number of statements. -/
  | program
  deriving DecidableEq

/-- What is needed behind a condition in `depth` parentheses to close these. -/
def closings : Nat → List Goal
  | 0 => []
  | depth + 1 => .connectives :: .token .rightParen :: closings depth

/-- Statements in braces. -/
def blockGoals : List Goal := [.token .leftCurly, .statements, .token .rightCurly]

/-- A condition in parentheses and a block. -/
def testedBlockGoals : List Goal :=
  [.token .leftParen, .condition 0, .connectives, .token .rightParen] ++ blockGoals

/-- The three clauses of a counting loop and its block. -/
def countedBlockGoals : List Goal :=
  [.token .leftParen, .target, .token .gets, .operand, .operators, .token .semicolon,
    .condition 0, .connectives, .token .semicolon, .target, .token .gets, .operand, .operators,
    .token .rightParen] ++ blockGoals

/-- The rest of a statement that begins with this kind. -/
def statementGoals? : Kind → Option (List Goal)
  | .name _ => some [.token .gets, .operand, .operators, .token .semicolon]
  | .keyword .returnKw => some [.operand, .operators, .token .semicolon]
  | .keyword .ifKw => some testedBlockGoals
  | .keyword .whileKw => some testedBlockGoals
  | .keyword .forKw => some countedBlockGoals
  | _ => none

namespace Goal

/-- What is needed instead of a goal when a token of this kind goes on with it. -/
def advance : Goal → Kind → Option (List Goal)
  | .token kind, k => if k = kind then some [] else none
  | .target, .name _ => some []
  | .functionName, .name x => if x = Grammar.reservedName then none else some []
  | .operand, .arith .sub => some [.operand]
  | .operand, .name _ => some []
  | .operand, .literal _ => some []
  | .operand, .leftParen => some [.operand, .operators, .token .rightParen]
  | .operators, .arith _ => some [.operand, .operators]
  | .condition depth, .bang => some (.condition 0 :: closings depth)
  | .condition depth, .leftParen => some [.condition (depth + 1)]
  | .condition depth, .arith .sub => some [.operand, .comparison depth]
  | .condition depth, .name _ => some [.comparison depth]
  | .condition depth, .literal _ => some [.comparison depth]
  | .comparison depth, .arith _ => some [.operand, .comparison depth]
  | .comparison (depth + 1), .rightParen => some [.comparison depth]
  | .comparison depth, .rel _ => some (.operand :: .operators :: closings depth)
  | .connectives, .logic _ => some [.condition 0, .connectives]
  | .statements, k => (statementGoals? k).map (· ++ [.statements])
  | .program, .keyword .fn =>
    some ([.functionName, .token .leftParen, .token .rightParen] ++ blockGoals)
  | .program, k => (statementGoals? k).map (· ++ [.statements])
  | _, _ => none

/-- Whether nothing at all meets a goal. -/
def isOptional : Goal → Bool
  | .operators => true
  | .connectives => true
  | .statements => true
  | .program => true
  | _ => false

end Goal

/-- The goals behind a token of this kind. The end comes when no goal is left but optional ones. -/
def step : List Goal → Kind → Option (List Goal)
  | [], k => if k = .eof then some [] else none
  | g :: gs, k =>
    match g.advance k with
    | some new => some (new ++ gs)
    | none => if g.isOptional then step gs k else none

/-- The goals behind a row of kinds. -/
def run (gs : List Goal) : List Kind → Option (List Goal)
  | [] => some gs
  | k :: ks => (step gs k).bind (run · ks)

@[simp] theorem run_nil (gs : List Goal) : run gs [] = some gs := rfl

theorem run_cons {gs left : List Goal} {k : Kind} (h : step gs k = some left) (ks : List Kind) :
    run gs (k :: ks) = run left ks := by
  rw [run, h, Option.bind_some]

theorem run_append (gs : List Goal) (xs ys : List Kind) :
    run gs (xs ++ ys) = (run gs xs).bind (run · ys) := by
  induction xs generalizing gs with
  | nil => rfl
  | cons k xs ih =>
      cases h : step gs k with
      | none => simp [run, h]
      | some left => simp [run, h, ih]

theorem run_concat {gs left : List Goal} {ks : List Kind} (h : run gs ks = some left) (k : Kind) :
    run gs (ks ++ [k]) = step left k := by
  rw [run_append, h, Option.bind_some, run]
  cases step left k <;> rfl

theorem step_of_advance {g : Goal} {new : List Goal} {k : Kind} (h : g.advance k = some new)
    (gs : List Goal) : step (g :: gs) k = some (new ++ gs) := by
  rw [step, h]

/-- A kind that does not go on with an optional goal goes on with the next one. -/
theorem step_of_isOptional {g : Goal} {k : Kind} (h : g.advance k = none)
    (hopt : g.isOptional = true) (gs : List Goal) : step (g :: gs) k = step gs k := by
  rw [step, h, hopt, if_pos rfl]

theorem step_eq_none {g : Goal} {k : Kind} (h : g.advance k = none)
    (hopt : g.isOptional = false) (gs : List Goal) : step (g :: gs) k = none := by
  rw [step, h, hopt]
  rfl

@[simp] theorem step_token (k : Kind) (gs : List Goal) : step (.token k :: gs) k = some gs := by
  simp [step, Goal.advance]

theorem step_token_ne {k kind : Kind} (h : k ≠ kind) (gs : List Goal) :
    step (.token kind :: gs) k = none := by
  simp [step, Goal.advance, h, Goal.isOptional]

/-- What is no arithmetic operator goes on with what stands behind an expression. -/
theorem step_operators {k : Kind} (hk : k.isArithmetic = false) (gs : List Goal) :
    step (.operators :: gs) k = step gs k := by
  refine step_of_isOptional ?_ rfl gs
  cases k with
  | arith op => cases hk
  | _ => rfl

/-- An operator goes on with the goal: its right operand is needed, and then the goal again. -/
def TakesOperators (X : Goal) : Prop := ∀ op, X.advance (.arith op) = some [.operand, X]

/-- An expression is read where further operators may come behind an operand. -/
theorem run_expr {X : Goal} (hX : TakesOperators X) (e : Expr) (gs : List Goal) (ks : List Kind) :
    run (.operand :: X :: gs) (e.kinds ++ ks) = run (X :: gs) ks := by
  induction e generalizing X gs ks with
  | var x => rfl
  | lit value => rfl
  | neg e ih => exact ih hX gs ks
  | group e ih =>
      have inside := ih (X := .operators) (fun _ => rfl) (.token .rightParen :: X :: gs)
        (.rightParen :: ks)
      rw [Expr.kinds, List.cons_append, List.append_assoc]
      exact inside
  | bin op l r ihl ihr =>
      have behind : step (X :: gs) (.arith op) = some (.operand :: X :: gs) :=
        step_of_advance (hX op) gs
      rw [Expr.kinds, List.append_assoc, ihl hX, List.cons_append, run_cons behind, ihr hX]

/-- An expression at the front of a condition leaves the parentheses in front of it undecided. -/
theorem run_first_expr (e : Expr) (depth : Nat) (gs : List Goal) (ks : List Kind) :
    run (.condition depth :: gs) (e.kinds ++ ks) = run (.comparison depth :: gs) ks := by
  induction e generalizing depth ks with
  | var x => rfl
  | lit value => rfl
  | neg e ih => exact run_expr (fun _ => rfl) e gs ks
  | group e ih =>
      have inside := ih (depth + 1) (.rightParen :: ks)
      rw [Expr.kinds, List.cons_append, List.append_assoc]
      exact inside
  | bin op l r ihl ihr =>
      rw [Expr.kinds, List.append_assoc, ihl, List.cons_append,
        run_cons (step_of_advance rfl gs)]
      exact run_expr (fun _ => rfl) r gs ks

/-- What may go on with the last comparison of a condition. Nothing goes on with a parenthesis. -/
def pending : Condition → List Goal
  | .cmp _ _ _ => [.operators]
  | .logic _ _ r => pending r
  | .not c => pending c
  | .group _ => []

theorem pending_eq_or (c : Condition) : pending c = [] ∨ pending c = [.operators] := by
  induction c with
  | cmp op l r => exact .inr rfl
  | logic op l r ihl ihr => exact ihr
  | not c ih => exact ih
  | group c ih => exact .inl rfl

/-- What is no arithmetic operator does not go on with a condition. -/
theorem step_pending (c : Condition) {k : Kind} (hk : k.isArithmetic = false) (gs : List Goal) :
    step (pending c ++ gs) k = step gs k := by
  rcases pending_eq_or c with h | h
  · rw [h, List.nil_append]
  · rw [h]
    exact step_operators hk gs

/-- Behind a condition in parentheses there is always a place for further conditions. -/
theorem exists_closings_eq (depth : Nat) (gs : List Goal) :
    ∃ later, closings depth ++ .connectives :: gs = .connectives :: later := by
  cases depth with
  | zero => exact ⟨gs, rfl⟩
  | succ depth => exact ⟨_, rfl⟩

/-- A condition leads to the goals behind it, and to those that its last operand leaves open. -/
theorem run_condition (c : Condition) (depth : Nat) (gs : List Goal) (ks : List Kind) :
    run (.condition depth :: .connectives :: gs) (c.kinds ++ ks) =
      run (pending c ++ (closings depth ++ .connectives :: gs)) ks := by
  induction c generalizing depth gs ks with
  | cmp op l r =>
      have behind : step (.comparison depth :: .connectives :: gs) (.rel op) =
          some (.operand :: .operators :: (closings depth ++ .connectives :: gs)) := by
        cases depth <;> rfl
      rw [Condition.kinds, List.append_assoc, run_first_expr, List.cons_append, run_cons behind]
      exact run_expr (fun _ => rfl) r _ ks
  | logic op l r ihl ihr =>
      obtain ⟨later, hlater⟩ := exists_closings_eq depth gs
      have behind : step (pending l ++ .connectives :: later) (.logic op) =
          some (.condition 0 :: .connectives :: later) := by
        rw [step_pending l rfl]
        rfl
      rw [Condition.kinds, List.append_assoc, ihl, hlater, List.cons_append, run_cons behind, ihr]
      rfl
  | not c ih =>
      obtain ⟨later, hlater⟩ := exists_closings_eq depth gs
      have sign : step (.condition depth :: .connectives :: gs) .bang =
          some (.condition 0 :: .connectives :: later) := by
        rw [← hlater]
        rfl
      rw [Condition.kinds, List.cons_append, run_cons sign, ih, hlater]
      rfl
  | group c ih =>
      have opening : step (.condition depth :: .connectives :: gs) .leftParen =
          some (.condition (depth + 1) :: .connectives :: gs) := rfl
      have close : step (pending c ++ (closings (depth + 1) ++ .connectives :: gs)) .rightParen =
          some (closings depth ++ .connectives :: gs) := by
        rw [step_pending c rfl]
        rfl
      rw [Condition.kinds, List.cons_append, run_cons opening, List.append_assoc, ih,
        List.singleton_append, run_cons close]
      rfl

/-- A condition and the token behind it. -/
theorem run_test (c : Condition) {k : Kind} (hk : k = .rightParen ∨ k = .semicolon)
    (gs : List Goal) (ks : List Kind) :
    run (.condition 0 :: .connectives :: .token k :: gs) (c.kinds ++ k :: ks) = run gs ks := by
  have behind : step (pending c ++ .connectives :: .token k :: gs) k = some gs := by
    rcases hk with rfl | rfl
    · rw [step_pending c rfl]
      rfl
    · rw [step_pending c rfl]
      rfl
  rw [run_condition]
  exact run_cons behind ks

theorem run_assignment (a : Assignment) {k : Kind} (hk : k = .rightParen ∨ k = .semicolon)
    (gs : List Goal) (ks : List Kind) :
    run (.target :: .token .gets :: .operand :: .operators :: .token k :: gs)
      (a.kinds ++ k :: ks) = run gs ks := by
  have front : run (.target :: .token .gets :: .operand :: .operators :: .token k :: gs)
      (a.kinds ++ k :: ks) =
        run (.operand :: .operators :: .token k :: gs) (a.value.kinds ++ k :: ks) := rfl
  have behind : step (.operators :: .token k :: gs) k = some gs := by
    rcases hk with rfl | rfl <;> rfl
  rw [front, run_expr (fun _ => rfl), run_cons behind]

theorem run_header (header : Header) (gs : List Goal) (ks : List Kind) :
    run (.statements :: gs) (header.kinds ++ ks) = run (blockGoals ++ .statements :: gs) ks := by
  cases header with
  | ifThen c =>
      have hc := run_test c (k := .rightParen) (.inl rfl) (blockGoals ++ .statements :: gs) ks
      rw [Header.kinds, List.cons_append, List.cons_append, List.append_assoc]
      exact hc
  | whileDo c =>
      have hc := run_test c (k := .rightParen) (.inl rfl) (blockGoals ++ .statements :: gs) ks
      rw [Header.kinds, List.cons_append, List.cons_append, List.append_assoc]
      exact hc
  | forDo init c update =>
      have third := run_assignment update (k := .rightParen) (.inl rfl)
        (blockGoals ++ .statements :: gs) ks
      rw [← third]
      have second := run_test c (k := .semicolon) (.inr rfl) (.target :: .token .gets :: .operand ::
        .operators :: .token .rightParen :: (blockGoals ++ .statements :: gs))
        (update.kinds ++ .rightParen :: ks)
      rw [← second]
      simp only [Header.kinds, List.cons_append, List.append_assoc, List.nil_append]
      exact run_assignment init (k := .semicolon) (.inr rfl) _ _

mutual

/-- Statements lead back to the goal for statements. -/
theorem run_statement (stmt : Stmt) (gs : List Goal) (ks : List Kind) :
    run (.statements :: gs) (stmt.kinds ++ ks) = run (.statements :: gs) ks := by
  match stmt with
  | .assign a =>
      have ha := run_assignment a (k := .semicolon) (.inr rfl) (.statements :: gs) ks
      rw [Stmt.kinds, List.append_assoc, List.singleton_append, ← ha]
      rfl
  | .ret value _ =>
      have hvalue := run_expr (X := .operators) (fun _ => rfl) value
        (.token .semicolon :: .statements :: gs) (.semicolon :: ks)
      rw [Stmt.kinds, List.cons_append, List.append_assoc]
      exact hvalue
  | .block header body _ =>
      have hbody := run_statements body (.token .rightCurly :: .statements :: gs)
        (.rightCurly :: ks)
      rw [Stmt.kinds, List.append_assoc, run_header, List.cons_append, List.append_assoc,
        List.singleton_append]
      exact hbody

theorem run_statements (body : List Stmt) (gs : List Goal) (ks : List Kind) :
    run (.statements :: gs) (Stmt.allKinds body ++ ks) = run (.statements :: gs) ks := by
  match body with
  | [] => rfl
  | stmt :: rest =>
      rw [Stmt.allKinds, List.append_assoc, run_statement stmt, run_statements rest]

end

/-- What does not begin with a function is read as statements. -/
theorem step_program {k : Kind} (h : k ≠ .keyword .fn) :
    step [.program] k = step [.statements] k := by
  have hsame : Goal.program.advance k = Goal.statements.advance k := by
    cases k with
    | keyword word => cases word with
      | fn => exact absurd rfl h
      | _ => rfl
    | _ => rfl
  rw [step, step, hsame]
  rfl

/-- The kinds of a program and the end behind them reach all goals. -/
theorem run_isProgram {ks : List Kind} {name : String} {body : List Stmt}
    (h : IsProgram ks name body) : run [.program] (ks ++ [.eof]) = some [] := by
  rcases h with ⟨rfl, hname⟩ | ⟨rfl, -, hhead⟩
  · have hbody := run_statements body [.token .rightCurly] [.rightCurly, .eof]
    have hfront : run [.functionName, .token .leftParen, .token .rightParen, .token .leftCurly,
        .statements, .token .rightCurly] (.name name :: .leftParen :: .rightParen :: .leftCurly ::
          (Stmt.allKinds body ++ [.rightCurly, .eof])) =
        run [.statements, .token .rightCurly] (Stmt.allKinds body ++ [.rightCurly, .eof]) := by
      have hstep : Goal.functionName.advance (.name name) = some [] := if_neg hname
      rw [run_cons (step_of_advance hstep _)]
      rfl
    simp only [List.cons_append, List.append_assoc]
    exact hfront.trans hbody
  · have hbody := run_statements body [] [.eof]
    cases hks : Stmt.allKinds body with
    | nil => rfl
    | cons k ks =>
        rw [hks] at hbody hhead
        have hk : k ≠ .keyword .fn := by simpa using hhead
        rw [List.cons_append, run, step_program hk]
        exact hbody

/-- Whether a kind stands inside of a line: neither a brace nor the end. -/
def inLine : Kind → Bool
  | .eof => false
  | .leftCurly => false
  | .rightCurly => false
  | _ => true

theorem inLine_expr (e : Expr) : ∀ k ∈ e.kinds, inLine k = true := by
  induction e with
  | var x => simp [Expr.kinds, inLine]
  | lit value => simp [Expr.kinds, inLine]
  | neg e ih => simpa [Expr.kinds, inLine] using ih
  | group e ih => simpa [Expr.kinds, inLine, or_imp, forall_and] using ih
  | bin op l r ihl ihr => simpa [Expr.kinds, inLine, or_imp, forall_and] using ⟨ihl, ihr⟩

theorem inLine_condition (c : Condition) : ∀ k ∈ c.kinds, inLine k = true := by
  induction c with
  | cmp op l r =>
      simpa [Condition.kinds, inLine, or_imp, forall_and] using ⟨inLine_expr l, inLine_expr r⟩
  | logic op l r ihl ihr => simpa [Condition.kinds, inLine, or_imp, forall_and] using ⟨ihl, ihr⟩
  | not c ih => simpa [Condition.kinds, inLine] using ih
  | group c ih => simpa [Condition.kinds, inLine, or_imp, forall_and] using ih

theorem inLine_assignment (a : Assignment) : ∀ k ∈ a.kinds, inLine k = true := by
  simpa [Assignment.kinds, inLine] using inLine_expr a.value

theorem inLine_header (header : Header) : ∀ k ∈ header.kinds, inLine k = true := by
  cases header with
  | ifThen c => simpa [Header.kinds, inLine, or_imp, forall_and] using inLine_condition c
  | whileDo c => simpa [Header.kinds, inLine, or_imp, forall_and] using inLine_condition c
  | forDo init c update =>
      simpa [Header.kinds, inLine, or_imp, forall_and] using
        ⟨inLine_assignment init, inLine_condition c, inLine_assignment update⟩

theorem eof_notMem_of_inLine {ks : List Kind} (h : ∀ k ∈ ks, inLine k = true) : .eof ∉ ks :=
  fun hmem => Bool.noConfusion (h _ hmem)

mutual

theorem eof_notMem_kinds (stmt : Stmt) : .eof ∉ stmt.kinds := by
  match stmt with
  | .assign a => simp [Stmt.kinds, eof_notMem_of_inLine (inLine_assignment a)]
  | .ret value _ => simp [Stmt.kinds, eof_notMem_of_inLine (inLine_expr value)]
  | .block header body _ =>
      simp [Stmt.kinds, eof_notMem_of_inLine (inLine_header header), eof_notMem_allKinds body]

theorem eof_notMem_allKinds (body : List Stmt) : .eof ∉ Stmt.allKinds body := by
  match body with
  | [] => simp [Stmt.allKinds]
  | stmt :: rest => simp [Stmt.allKinds, eof_notMem_kinds stmt, eof_notMem_allKinds rest]

end

theorem eof_notMem_of_isProgram {ks : List Kind} {name : String} {body : List Stmt}
    (h : IsProgram ks name body) : .eof ∉ ks := by
  rcases h with ⟨rfl, -⟩ | ⟨rfl, -⟩
  · simp [eof_notMem_allKinds body]
  · exact eof_notMem_allKinds body

end Pseudocode.Viability
