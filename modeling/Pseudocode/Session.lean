import Pseudocode.Conversion

/-!
# Sessions

A session holds a source text and the types that have been named for its variables, and
converts the source as often as it is asked to. When a conversion asks for the type of a
variable, a list of answers can be tried one after the other.
-/
namespace Pseudocode

/-- A source text and the types named so far. -/
structure Session where
  source : String := ""
  hints : TypeMap := .empty

namespace Session

/-- Converts the source with the types named so far. -/
def run (s : Session) : Traced Program := Conversion.run s.source s.hints

/-- Names the type of a variable. The type it had before comes first. -/
def hint (s : Session) (x : String) (t : DataType) : Option DataType × Session :=
  (s.hints.get? x, { s with hints := s.hints.insert x t })

/-- Forgets the type of a variable. The type it had comes first. -/
def unhint (s : Session) (x : String) : Option DataType × Session :=
  (s.hints.get? x, { s with hints := s.hints.erase x })

/-- The end of a row of conversions: the variables that were asked for, and the last
conversion, or the answer that named no type. -/
structure Retries where
  asked : List String
  result : Except DataType.Unknown (Traced Program)

/-- Converts and, as long as the type of a variable is missing and answers remain, names the
type that the next answer gives and converts again. -/
def retry (s : Session) : List String → Retries × Session
  | [] => (⟨[], .ok s.run⟩, s)
  | answer :: rest =>
    match s.run.outcome with
    | .error (.missingType x) =>
      match DataType.ofName answer with
      | .ok t =>
        let (later, s) := (s.hint x t).2.retry rest
        (⟨x :: later.asked, later.result⟩, s)
      | .error unknown => (⟨[], .error unknown⟩, s)
    | _ => (⟨[], .ok s.run⟩, s)

end Session

end Pseudocode
