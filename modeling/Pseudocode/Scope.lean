import Pseudocode.Tree

/-!
# Where variables are declared

The source has one set of variables per function; the generated code has block scopes. Every
name therefore gets one declaration that all its mentions can see: either its first
assignment, if that declares it in a scope which contains all other mentions, or an entry in
the list of variables that are declared up front.

The body is read once in evaluation order: the value of an assignment before its target, a
header before its body, and of a counting loop the first assignment, the condition and the
update. A name that is read before it was assigned, or mentioned again after its scope was
closed, is declared up front, and so is a new target of an update, because that clause cannot
declare.
-/
namespace Pseudocode

/-- The declarations made so far. -/
structure Scopes where
  /-- Declared up front, in the order in which that was decided. -/
  free : List String
  /-- Declared by an assignment in a scope that is still open, innermost scope first. -/
  stack : List (List String)
  /-- Declared by an assignment in a scope that has been closed. -/
  expired : List String

namespace Scopes

/-- The beginning of a function body. -/
def start : Scopes := ⟨[], [[]], []⟩

/-- Whether a name is declared where it can be seen from here. -/
def isVisible (s : Scopes) (x : String) : Bool := s.free.contains x || s.stack.any (·.contains x)

/-- Declares a name up front. -/
def toFront (s : Scopes) (x : String) : Scopes :=
  { s with free := s.free ++ [x], expired := s.expired.filter (· ≠ x) }

/-- A mention that cannot declare: a name that is not visible is declared up front. -/
def need (s : Scopes) (x : String) : Scopes := if s.isVisible x then s else s.toFront x

/-- After a mention the name can be seen. -/
@[simp] theorem isVisible_need (s : Scopes) (x : String) : (s.need x).isVisible x = true := by
  rw [need]
  split
  · assumption
  · simp [isVisible, toFront]

/-- Declares a name in the innermost scope. -/
def declareHere (s : Scopes) (x : String) : Scopes :=
  match s.stack with
  | [] => s
  | scope :: outer => { s with stack := (scope ++ [x]) :: outer }

/-- An assignment to a name, and whether it declares the name: it does if the name was never
mentioned. A name whose scope was closed is declared up front. -/
def assign (s : Scopes) (x : String) : Bool × Scopes :=
  if s.isVisible x then (false, s)
  else if s.expired.contains x then (false, s.toFront x)
  else (true, s.declareHere x)

/-- Opens a scope. -/
def enter (s : Scopes) : Scopes := { s with stack := [] :: s.stack }

/-- Closes the innermost scope. -/
def leave (s : Scopes) : Scopes :=
  match s.stack with
  | [] => s
  | scope :: outer => { s with stack := outer, expired := s.expired ++ scope }

/-- Reads of several names. -/
def needAll (s : Scopes) (xs : List String) : Scopes := xs.foldl need s

end Scopes

/-- Marks an assignment as a declaration if its target is new. -/
def Assignment.mark (s : Scopes) (a : Assignment) : Assignment × Scopes :=
  let (declares, s) := (s.needAll a.value.reads).assign a.target
  ({ a with declares }, s)

/-- An assignment in a clause that cannot declare. -/
def Assignment.markUpdate (s : Scopes) (a : Assignment) : Assignment × Scopes :=
  ({ a with declares := false }, (s.needAll a.value.reads).need a.target)

/-- Marks the assignments of a header. A counting loop opens a scope of its own here, in which
its first assignment may declare. -/
def Header.mark (s : Scopes) : Header → Header × Scopes
  | .ifThen c => (.ifThen c, s.needAll c.reads)
  | .whileDo c => (.whileDo c, s.needAll c.reads)
  | .forDo init c update =>
    let (init, s) := init.mark s.enter
    let (update, s) := update.markUpdate (s.needAll c.reads)
    (.forDo init c update, s)

/-- Closes the scope that a header has opened. -/
def Header.close (s : Scopes) : Header → Scopes
  | .ifThen _ => s
  | .whileDo _ => s
  | .forDo _ _ _ => s.leave

mutual

/-- Marks the assignments of a statement. -/
def Stmt.mark (s : Scopes) : Stmt → Stmt × Scopes
  | .assign a =>
    let (a, s) := a.mark s
    (.assign a, s)
  | .block header body pos =>
    let (header, s) := header.mark s
    let (body, s) := Stmt.markAll s.enter body
    (.block header body pos, header.close s.leave)
  | .ret value pos => (.ret value pos, s.needAll value.reads)

/-- Marks the assignments of a list of statements. -/
def Stmt.markAll (s : Scopes) : List Stmt → List Stmt × Scopes
  | [] => ([], s)
  | stmt :: rest =>
    let (stmt, s) := stmt.mark s
    let (rest, s) := Stmt.markAll s rest
    (stmt :: rest, s)

end

/-- Takes back the mark of an assignment whose target is declared up front. -/
def Assignment.settle (free : List String) (a : Assignment) : Assignment :=
  { a with declares := a.declares && !free.contains a.target }

/-- Takes back the marks in a header. -/
def Header.settle (free : List String) : Header → Header
  | .ifThen c => .ifThen c
  | .whileDo c => .whileDo c
  | .forDo init c update => .forDo (init.settle free) c (update.settle free)

mutual

/-- Takes back the marks in a statement. -/
def Stmt.settle (free : List String) : Stmt → Stmt
  | .assign a => .assign (a.settle free)
  | .block header body pos => .block (header.settle free) (Stmt.settleAll free body) pos
  | .ret value pos => .ret value pos

/-- Takes back the marks in a list of statements. -/
def Stmt.settleAll (free : List String) : List Stmt → List Stmt
  | [] => []
  | stmt :: rest => stmt.settle free :: Stmt.settleAll free rest

end

/-- A body with its declaring assignments marked, and the variables to declare up front. -/
def declare (body : List Stmt) : List Stmt × List String :=
  let (body, s) := Stmt.markAll .start body
  (Stmt.settleAll s.free body, s.free)

end Pseudocode
