import Pseudocode.Failure
import Pseudocode.Tree
import Pseudocode.TypeMap

/-!
# Types of variables

A variable takes its type from its first mention: an assignment gives it the type of the
value, and a read takes the type from the hints of the caller. A type once given is never
changed. If a variable is read that has neither, its name is the answer, and the caller can
try again with a hint for it.

The body is walked in evaluation order, as a list of actions.
-/
namespace Pseudocode

/-- A part of a body that is evaluated as a whole. -/
inductive Action where
  | assign (assignment : Assignment)
  | test (condition : Condition)
  | ret (value : Expr)

/-- The actions of a header. -/
def Header.actions : Header → List Action
  | .ifThen c => [.test c]
  | .whileDo c => [.test c]
  | .forDo init c update => [.assign init, .test c, .assign update]

mutual

/-- The actions of a statement, a header before its body. -/
def Stmt.actions : Stmt → List Action
  | .assign a => [.assign a]
  | .block header body _ => header.actions ++ Stmt.allActions body
  | .ret value _ => [.ret value]

/-- The actions of a list of statements. -/
def Stmt.allActions : List Stmt → List Action
  | [] => []
  | s :: rest => s.actions ++ Stmt.allActions rest

end

/-- The types known so far, and the types that the caller offers. -/
structure Context where
  known : TypeMap
  hints : TypeMap

/-- A failed look-up: what has no type. -/
inductive Missing where
  | variable (name : String)
  /-- Every literal has a type, so this would be a broken invariant. -/
  | literal (value : Literal)
  deriving DecidableEq

/-- What has no type, as it is written in a program. -/
def Missing.name : Missing → String
  | .variable x => x
  | .literal value => value.text

/-- The failure of a conversion that a failed look-up is. -/
def Missing.failure : Missing → Failure
  | .variable x => .missingType x
  | .literal _ => .internal (.stated "literal without a type")

namespace Context

/-- The context before anything is known. -/
def ofHints (hints : TypeMap) : Context := ⟨.empty, hints⟩

/-- Gives a variable a type unless it has one. The type it ends up with comes first. -/
def bind (Γ : Context) (x : String) (t : DataType) : DataType × Context :=
  match Γ.known.get? x with
  | some earlier => (earlier, Γ)
  | none => (t, { Γ with known := Γ.known.insert x t })

/-- The type of a variable that is read: the known one, or else the hinted one, which is then
known. -/
def require (Γ : Context) (x : String) : Except Missing (DataType × Context) :=
  match Γ.known.get? x with
  | some t => .ok (t, Γ)
  | none =>
    match Γ.hints.get? x with
    | some hint => .ok (Γ.bind x hint)
    | none => .error (.variable x)

/-- The type of an expression. Its variables are looked up from left to right. -/
def typeOf (Γ : Context) : Expr → Except Missing (DataType × Context)
  | .var x => Γ.require x
  | .lit value =>
    match (Expr.lit value).literalType? with
    | some t => .ok (t, Γ)
    | none => .error (.literal value)
  | .neg e => Γ.typeOf e
  | .group e => Γ.typeOf e
  | .bin _ l r => do
    let (s, Γ) ← Γ.typeOf l
    let (t, Γ) ← Γ.typeOf r
    return (s.join t, Γ)

/-- The context behind a condition. -/
def test (Γ : Context) : Condition → Except Missing Context
  | .cmp _ l r => do
    let (_, Γ) ← Γ.typeOf l
    let (_, Γ) ← Γ.typeOf r
    return Γ
  | .logic _ l r => do
    let Γ ← Γ.test l
    Γ.test r
  | .not c => Γ.test c
  | .group c => Γ.test c

/-- The type of the value of an assignment. A literal decides by itself. -/
def valueType (Γ : Context) (e : Expr) : Except Missing (DataType × Context) := do
  let (t, Γ) ← Γ.typeOf e
  return (e.literalType?.getD t, Γ)

end Context

/-- The type an assignment left its target with. -/
structure Binding where
  name : String
  type : DataType
  pos : Position

/-- Progress of a resolution: the context, and the type of the first return, if there was one. -/
structure Resolved where
  context : Context
  returnType : Option DataType

/-- A resolution: the bindings made, in order, and how it ended. -/
structure Resolution where
  bindings : List Binding
  outcome : Except Missing Resolved

namespace Resolved

/-- One action: the binding it makes, if it is an assignment, and the progress behind it. -/
def step (r : Resolved) : Action → Except Missing (Option Binding × Resolved)
  | .assign a => do
    let (t, Γ) ← r.context.valueType a.value
    let (bound, Γ) := Γ.bind a.target t
    return (some ⟨a.target, bound, a.pos⟩, { r with context := Γ })
  | .test c => do
    let Γ ← r.context.test c
    return (none, { r with context := Γ })
  | .ret e => do
    let (t, Γ) ← r.context.typeOf e
    return (none, { context := Γ, returnType := some (r.returnType.getD t) })

/-- A list of actions, up to its end or to the first variable without a type. -/
def run (r : Resolved) : List Action → Resolution
  | [] => ⟨[], .ok r⟩
  | action :: rest =>
    match r.step action with
    | .error missing => ⟨[], .error missing⟩
    | .ok (binding, r) =>
      let later := r.run rest
      ⟨binding.toList ++ later.bindings, later.outcome⟩

end Resolved

/-- The context behind reads of several variables. -/
def Context.requireAll (Γ : Context) : List String → Except Missing Context
  | [] => .ok Γ
  | x :: rest => do
    let (_, Γ) ← Γ.require x
    Γ.requireAll rest

/-- A function whose variables all have a type. -/
structure Typed where
  function : Function
  context : Context
  returnType : Option DataType

/-- The resolution of a function body. -/
def Function.resolve (f : Function) (hints : TypeMap) : Resolution :=
  Resolved.run ⟨.ofHints hints, none⟩ (Stmt.allActions f.body)

/-- The types of a function. The variables that are declared up front are looked up last. -/
def check (f : Function) (hints : TypeMap) : Except Missing Typed := do
  let r ← (f.resolve hints).outcome
  let Γ ← r.context.requireAll f.free
  return ⟨f, Γ, r.returnType⟩

end Pseudocode
