import Pseudocode.Tree
import Mathlib.Logic.Function.Basic

/-!
# Executions of a function

A machine that executes the body of a function step by step. What an expression or a
condition means is a parameter, and so is the way in which variables are kept; the control
flow is the same for all of them. Two ways to keep variables are of interest: one store for
the whole function, which is how the source is meant, and a stack of block scopes with
declarations, which is what the generated code says.

## Main definitions

* `Meaning` — values, conditions, conversions and defaults.
* `Discipline`, `flat`, `nested` — the two ways to keep variables.
* `Machine.step`, `Machine.run` — an execution.
-/
namespace Pseudocode.Execution

/-- The meaning of expressions and conditions as functions of the values of the variables they
read, in the order in which they read them; the conversion of a value that is stored in a
variable; and the value a variable has before it is assigned. -/
structure Meaning (V : Type) where
  expr : Expr → List V → V
  test : Condition → List V → Bool
  convert : String → V → V
  initial : String → V

/-- What an observer sees of an execution. -/
inductive Event (V : Type) where
  | stored (name : String) (value : V)
  | tested (condition : Condition) (holds : Bool)

/-- A use of variables that the generated code must not make. -/
inductive Fault where
  /-- A name is read or written where no declaration of it can be seen. -/
  | undeclared (name : String)
  /-- A name is declared twice in one scope. -/
  | redeclared (name : String)

/-- A way to keep variables. -/
structure Discipline (V : Type) where
  Store : Type
  read : Store → String → Except Fault V
  write : Store → String → V → Except Fault Store
  declare : Store → String → V → Except Fault Store
  enter : Store → Store
  leave : Store → Store

/-- One store for all variables. A declaration is an assignment, and scopes do not matter. -/
@[reducible] def flat (V : Type) : Discipline V where
  Store := String → V
  read σ x := .ok (σ x)
  write σ x v := .ok (Function.update σ x v)
  declare σ x v := .ok (Function.update σ x v)
  enter σ := σ
  leave σ := σ

/-- The bindings of one scope, the newest first. -/
abbrev Frame (V : Type) := List (String × V)

namespace Frame
variable {V : Type}

/-- Whether a name is declared in a scope. -/
def declares (frame : Frame V) (x : String) : Bool := frame.any (·.1 = x)

/-- Changes the newest binding of a name. -/
def set (x : String) (v : V) : Frame V → Frame V
  | [] => []
  | (y, w) :: rest => if y = x then (y, v) :: rest else (y, w) :: set x v rest

end Frame

/-- The innermost binding of a name. -/
def lookup {V : Type} (frames : List (Frame V)) (x : String) : Option V := frames.flatten.lookup x

/-- Changes the innermost binding of a name. -/
def assign {V : Type} (x : String) (v : V) : List (Frame V) → Except Fault (List (Frame V))
  | [] => .error (.undeclared x)
  | frame :: outer =>
    if frame.declares x then .ok (frame.set x v :: outer)
    else (assign x v outer).map (frame :: ·)

/-- Adds a binding to the innermost scope. -/
def declare {V : Type} (x : String) (v : V) : List (Frame V) → Except Fault (List (Frame V))
  | [] => .ok [[(x, v)]]
  | frame :: outer =>
    if frame.declares x then .error (.redeclared x) else .ok (((x, v) :: frame) :: outer)

/-- A stack of scopes, the innermost first. A variable has to be declared, lives until its scope
is left, and hides those of the same name around it. -/
@[reducible] def nested (V : Type) : Discipline V where
  Store := List (Frame V)
  read frames x := match lookup frames x with
    | some v => .ok v
    | none => .error (.undeclared x)
  write frames x v := assign x v frames
  declare frames x v := declare x v frames
  enter frames := [] :: frames
  leave frames := frames.tail

/-- Something that is still to be done. -/
inductive Task where
  | perform (stmt : Stmt)
  /-- The test of a loop, its body, and the update behind the body, if there is one. -/
  | loop (condition : Condition) (update : Option Assignment) (body : List Stmt)
  | update (assignment : Assignment)
  | leave

/-- An execution: under way with tasks ahead, returned, or refused by the discipline. An
execution without tasks has come to the end of the body. -/
inductive State (V Store : Type) where
  | going (tasks : List Task) (store : Store) (events : List (Event V))
  | returned (value : V) (events : List (Event V))
  | stuck (fault : Fault)

/-- How far an execution is. -/
inductive Outcome (V : Type) where
  | unfinished
  | ended
  | returned (value : V)
  | stuck (fault : Fault)

namespace State
variable {V Store : Type}

/-- How far an execution is. -/
def outcome : State V Store → Outcome V
  | going [] _ _ => .ended
  | going (_ :: _) _ _ => .unfinished
  | returned v _ => .returned v
  | stuck fault => .stuck fault

/-- What has been observed so far. -/
def events : State V Store → List (Event V)
  | going _ _ events => events
  | returned _ events => events
  | stuck _ => []

end State

namespace Machine
variable {V : Type} (D : Discipline V) (M : Meaning V)

/-- The value of an expression. -/
def value (s : D.Store) (e : Expr) : Except Fault V := do
  let values ← e.reads.mapM (D.read s)
  return M.expr e values

/-- The outcome of a test. -/
def test (s : D.Store) (c : Condition) : Except Fault Bool := do
  let values ← c.reads.mapM (D.read s)
  return M.test c values

/-- Stores the value of an assignment in its target, which may be declared by it. -/
def store (s : D.Store) (a : Assignment) (declares : Bool) : Except Fault (D.Store × Event V) := do
  let v ← value D M s a.value
  let v := M.convert a.target v
  let s ← if declares then D.declare s a.target v else D.write s a.target v
  return (s, .stored a.target v)

/-- The tasks for a block in braces, which is a scope of its own. -/
def block (body : List Stmt) (rest : List Task) : List Task :=
  body.map .perform ++ .leave :: rest

/-- The state behind a task, with the tasks `rest` and the events so far. -/
def perform (s : D.Store) (rest : List Task) (events : List (Event V)) :
    Task → Except Fault (State V D.Store)
  | .perform (.assign a) => do
    let (s, event) ← store D M s a a.declares
    return .going rest s (events ++ [event])
  | .perform (.ret e _) => do
    let v ← value D M s e
    return .returned v events
  | .perform (.block (.ifThen c) body _) => do
    let holds ← test D M s c
    let events := events ++ [.tested c holds]
    return if holds then .going (block body rest) (D.enter s) events else .going rest s events
  | .perform (.block (.whileDo c) body _) => return .going (.loop c none body :: rest) s events
  | .perform (.block (.forDo init c update) body _) => do
    let (s, event) ← store D M (D.enter s) init init.declares
    return .going (.loop c (some update) body :: .leave :: rest) s (events ++ [event])
  | .loop c update body => do
    let holds ← test D M s c
    let events := events ++ [.tested c holds]
    let again := update.toList.map .update ++ .loop c update body :: rest
    return if holds then .going (block body again) (D.enter s) events else .going rest s events
  | .update a => do
    let (s, event) ← store D M s a false
    return .going rest s (events ++ [event])
  | .leave => return .going rest (D.leave s) events

/-- One step of an execution. -/
def step : State V D.Store → State V D.Store
  | .going (task :: rest) s events =>
    match perform D M s rest events task with
    | .ok next => next
    | .error fault => .stuck fault
  | state => state

/-- An execution after `n` more steps. -/
def run : Nat → State V D.Store → State V D.Store
  | 0, state => state
  | n + 1, state => run n (step D M state)

end Machine

/-- The beginning of the flat execution of a function: all variables have their default. -/
def flatStart {V : Type} (M : Meaning V) (f : Function) : State V (flat V).Store :=
  .going (f.body.map .perform) M.initial []

/-- Declares names with their defaults in the innermost scope. -/
def declareAll {V : Type} (M : Meaning V) :
    List String → List (Frame V) → Except Fault (List (Frame V))
  | [], frames => .ok frames
  | x :: xs, frames => do
    let frames ← declare x (M.initial x) frames
    declareAll M xs frames

/-- The beginning of the nested execution of a function: the variables that are declared up
front have their default, and there are no others. -/
def nestedStart {V : Type} (M : Meaning V) (f : Function) : State V (nested V).Store :=
  match declareAll M f.free [[]] with
  | .ok frames => .going (f.body.map .perform) frames []
  | .error fault => .stuck fault

end Pseudocode.Execution
