import Pseudocode.Target.Code
import Pseudocode.Typing

/-!
# Generated programs

A generated program is put together from header lines, one function and an entry point. The
entry point calls the function and writes its value to the output, if there is one that can
be written.
-/
namespace Pseudocode

/-- A finished program: its text, and its function's name and type. -/
structure Program where
  text : String
  name : String
  returnType : Option DataType
  deriving DecidableEq

/-- The function of a program. -/
structure Definition where
  name : String
  returnType : Option DataType
  text : String

/-- The parts of a program. A part that is added again replaces the earlier one, except for
header lines, which follow each other. -/
structure Assembly where
  headers : List String := []
  definition : Option Definition := none
  entryPoint : Option String := none

namespace Assembly

/-- Adds a header line behind the others. -/
def addHeader (a : Assembly) (line : String) : Assembly := { a with headers := a.headers ++ [line] }

/-- Sets the function. -/
def setFunction (a : Assembly) (d : Definition) : Assembly := { a with definition := some d }

/-- Sets the entry point. -/
def setEntryPoint (a : Assembly) (text : String) : Assembly := { a with entryPoint := some text }

/-- The header lines, and an empty line behind them if there are any. -/
def headerText : List String → String
  | [] => ""
  | lines => Target.render (lines.map (⟨0, ·⟩)) ++ "\n"

/-- The program made of the parts. A missing function is reported before a missing entry
point. -/
def build (a : Assembly) : Except InternalFault Program := do
  let d ← match a.definition with
    | some d => pure d
    | none => throw .noFunction
  let entry ← match a.entryPoint with
    | some text => pure text
    | none => throw .noEntryPoint
  return ⟨headerText a.headers ++ d.text ++ "\n" ++ entry, d.name, d.returnType⟩

end Assembly

namespace Target

/-- The lines in front of the function. -/
def headers : List String := ["#include <bits/stdc++.h>", "using namespace std;"]

/-- The statement that calls a function and shows its value. -/
def call (name : String) : Option DataType → String
  | some t =>
    if t.isPrintable then "cout << " ++ name ++ "() << endl;" else name ++ "();"
  | none => name ++ "();"

/-- The entry point of a program whose function has the given name and type. -/
def entryPoint (name : String) (returnType : Option DataType) : List Line :=
  braced 0 "int main()" [⟨1, call name returnType⟩, ⟨1, "return 0;"⟩]

end Target

/-- The type in which the function gives back its value, if it gives back one. -/
def Typed.signature (t : Typed) : Except InternalFault (Option DataType) :=
  if t.function.returns then
    match t.returnType with
    | some type => .ok (some type)
    | none => .error (.noReturnType t.function.name)
  else .ok none

/-- The program of a typed function. -/
def compile (t : Typed) : Except InternalFault Program := do
  let returnType ← t.signature
  let lines ← t.function.code t.context.known returnType
  let parts : Assembly := Target.headers.foldl .addHeader {}
  let parts := parts.setFunction ⟨t.function.name, returnType, Target.render lines⟩
  (parts.setEntryPoint (Target.render (Target.entryPoint t.function.name returnType))).build

end Pseudocode
