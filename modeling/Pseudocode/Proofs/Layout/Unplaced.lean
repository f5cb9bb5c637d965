import Pseudocode.Proofs.Typing.Resolution
import Pseudocode.Function
import Pseudocode.Target.Program

/-!
# Trees without their positions

Behind the readers a position is only ever handed on. Where variables are declared, which types
they have and what code there is for them does not change when all positions are forgotten.
-/
namespace Pseudocode

/-- An assignment without its position. -/
def Assignment.unplaced (a : Assignment) : Assignment := { a with pos := .start }

/-- A header without its positions. -/
def Header.unplaced : Header → Header
  | .ifThen c => .ifThen c
  | .whileDo c => .whileDo c
  | .forDo init c update => .forDo init.unplaced c update.unplaced

mutual

/-- A statement without its positions. -/
def Stmt.unplaced : Stmt → Stmt
  | .assign a => .assign a.unplaced
  | .block header body _ => .block header.unplaced (Stmt.allUnplaced body) .start
  | .ret value _ => .ret value .start

/-- Statements without their positions. -/
def Stmt.allUnplaced : List Stmt → List Stmt
  | [] => []
  | stmt :: rest => stmt.unplaced :: Stmt.allUnplaced rest

end

/-- A function as it is written, without its positions. -/
def Grammar.Source.unplaced (source : Grammar.Source) : Grammar.Source :=
  { source with body := Stmt.allUnplaced source.body, pos := .start }

/-- A function without its positions. -/
def Function.unplaced (f : Function) : Function :=
  { f with body := Stmt.allUnplaced f.body, pos := .start }

/-- A typed function without its positions. -/
def Typed.unplaced (t : Typed) : Typed := { t with function := t.function.unplaced }

/-- An action without its position. -/
def Action.unplaced : Action → Action
  | .assign a => .assign a.unplaced
  | .test c => .test c
  | .ret value => .ret value

theorem Header.mark_unplaced (s : Scopes) (header : Header) :
    header.unplaced.mark s = ((header.mark s).1.unplaced, (header.mark s).2) := by
  cases header <;> rfl

theorem Header.close_unplaced (s : Scopes) (header : Header) :
    header.unplaced.close s = header.close s := by
  cases header <;> rfl

mutual

/-- Positions do not count for marks. -/
theorem Stmt.mark_unplaced (s : Scopes) (stmt : Stmt) :
    stmt.unplaced.mark s = ((stmt.mark s).1.unplaced, (stmt.mark s).2) := by
  match stmt with
  | .assign _ => rfl
  | .ret _ _ => rfl
  | .block header body _ =>
      simp [Stmt.unplaced, Stmt.mark, Header.mark_unplaced, Header.close_unplaced,
        Stmt.markAll_unplaced _ body]

theorem Stmt.markAll_unplaced (s : Scopes) (body : List Stmt) :
    Stmt.markAll s (Stmt.allUnplaced body) =
      (Stmt.allUnplaced (Stmt.markAll s body).1, (Stmt.markAll s body).2) := by
  match body with
  | [] => rfl
  | stmt :: rest =>
      simp [Stmt.allUnplaced, Stmt.markAll, Stmt.mark_unplaced s stmt,
        Stmt.markAll_unplaced _ rest]

end

theorem Header.settle_unplaced (free : List String) (header : Header) :
    header.unplaced.settle free = (header.settle free).unplaced := by
  cases header <;> rfl

mutual

theorem Stmt.settle_unplaced (free : List String) (stmt : Stmt) :
    stmt.unplaced.settle free = (stmt.settle free).unplaced := by
  match stmt with
  | .assign _ => rfl
  | .ret _ _ => rfl
  | .block header body _ =>
      simp [Stmt.unplaced, Stmt.settle, Header.settle_unplaced, Stmt.settleAll_unplaced free body]

theorem Stmt.settleAll_unplaced (free : List String) (body : List Stmt) :
    Stmt.settleAll free (Stmt.allUnplaced body) = Stmt.allUnplaced (Stmt.settleAll free body) := by
  match body with
  | [] => rfl
  | stmt :: rest =>
      simp [Stmt.allUnplaced, Stmt.settleAll, Stmt.settle_unplaced free stmt,
        Stmt.settleAll_unplaced free rest]

end

mutual

theorem Stmt.returns_unplaced (stmt : Stmt) : stmt.unplaced.returns = stmt.returns := by
  match stmt with
  | .assign _ => rfl
  | .ret _ _ => rfl
  | .block _ body _ => exact Stmt.anyReturns_unplaced body

theorem Stmt.anyReturns_unplaced (body : List Stmt) :
    Stmt.anyReturns (Stmt.allUnplaced body) = Stmt.anyReturns body := by
  match body with
  | [] => rfl
  | stmt :: rest =>
      rw [Stmt.allUnplaced, Stmt.anyReturns, Stmt.returns_unplaced stmt,
        Stmt.anyReturns_unplaced rest, Stmt.anyReturns]

end

/-- Where variables are declared does not depend on positions. -/
theorem Function.ofSource_unplaced (source : Grammar.Source) :
    Function.ofSource source.unplaced = (Function.ofSource source).unplaced := by
  simp [Function.ofSource, Grammar.Source.unplaced, Function.unplaced, Function.ofBody, declare,
    Stmt.markAll_unplaced, Stmt.settleAll_unplaced, Stmt.anyReturns_unplaced]

theorem Header.actions_unplaced (header : Header) :
    header.unplaced.actions = header.actions.map Action.unplaced := by
  cases header <;> rfl

mutual

theorem Stmt.actions_unplaced (stmt : Stmt) :
    stmt.unplaced.actions = stmt.actions.map Action.unplaced := by
  match stmt with
  | .assign _ => rfl
  | .ret _ _ => rfl
  | .block header body _ =>
      rw [Stmt.unplaced, Stmt.actions, Header.actions_unplaced, Stmt.allActions_unplaced body,
        Stmt.actions, List.map_append]

/-- The actions of a body without positions are its actions without positions. -/
theorem Stmt.allActions_unplaced (body : List Stmt) :
    Stmt.allActions (Stmt.allUnplaced body) = (Stmt.allActions body).map Action.unplaced := by
  match body with
  | [] => rfl
  | stmt :: rest =>
      rw [Stmt.allUnplaced, Stmt.allActions, Stmt.actions_unplaced stmt,
        Stmt.allActions_unplaced rest, Stmt.allActions, List.map_append]

end

namespace Resolved

/-- An action leaves the same progress at every place; only its binding notes the place. -/
theorem step_unplaced {α : Type} (r : Resolved) (action : Action)
    (later : Resolved → Except Missing α) :
    (r.step action.unplaced >>= fun out => later out.2) =
      r.step action >>= fun out => later out.2 := by
  cases action with
  | assign a =>
      change ((r.context.valueType a.value >>= _) >>= _) =
        (r.context.valueType a.value >>= _) >>= _
      cases r.context.valueType a.value <;> rfl
  | test c => rfl
  | ret value => rfl

/-- Positions do not count for types. -/
theorem outcome_run_unplaced (r : Resolved) (actions : List Action) :
    (r.run (actions.map Action.unplaced)).outcome = (r.run actions).outcome := by
  induction actions generalizing r with
  | nil => rfl
  | cons action rest ih =>
      rw [List.map_cons, outcome_run_cons, outcome_run_cons]
      simp only [ih]
      exact r.step_unplaced action fun mid => (mid.run rest).outcome

end Resolved

/-- Which types the variables have does not depend on positions. -/
theorem check_unplaced (f : Function) (hints : TypeMap) :
    check f.unplaced hints = (check f hints).map Typed.unplaced := by
  have hresolve : (f.unplaced.resolve hints).outcome = (f.resolve hints).outcome := by
    rw [Function.resolve, Function.unplaced, Stmt.allActions_unplaced]
    exact Resolved.outcome_run_unplaced _ _
  rw [check, check, hresolve]
  cases (f.resolve hints).outcome with
  | error missing => rfl
  | ok r =>
      change (r.context.requireAll f.free >>= _) = (r.context.requireAll f.free >>= _).map _
      cases r.context.requireAll f.free <;> rfl

theorem Header.code_unplaced (types : TypeMap) (header : Header) :
    header.unplaced.code types = header.code types := by
  cases header <;> rfl

mutual

theorem Stmt.code_unplaced (types : TypeMap) (depth : Nat) (stmt : Stmt) :
    stmt.unplaced.code types depth = stmt.code types depth := by
  match stmt with
  | .assign _ => rfl
  | .ret _ _ => rfl
  | .block header body _ =>
      rw [Stmt.unplaced, Stmt.code, Header.code_unplaced, Stmt.allCode_unplaced types _ body,
        Stmt.code]

theorem Stmt.allCode_unplaced (types : TypeMap) (depth : Nat) (body : List Stmt) :
    Stmt.allCode types depth (Stmt.allUnplaced body) = Stmt.allCode types depth body := by
  match body with
  | [] => rfl
  | stmt :: rest =>
      rw [Stmt.allUnplaced, Stmt.allCode, Stmt.code_unplaced types depth stmt,
        Stmt.allCode_unplaced types depth rest, Stmt.allCode]

end

/-- Positions do not count for the code. -/
theorem Function.code_unplaced (types : TypeMap) (returnType : Option DataType) (f : Function) :
    f.unplaced.code types returnType = f.code types returnType := by
  simp only [Function.code, Function.unplaced, Stmt.allCode_unplaced]

/-- The code does not depend on positions. -/
theorem compile_unplaced (t : Typed) : compile t.unplaced = compile t := by
  simp only [compile, Typed.unplaced, Function.code_unplaced]
  rfl

end Pseudocode
