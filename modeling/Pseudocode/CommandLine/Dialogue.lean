import Pseudocode.CommandLine.Options
import Pseudocode.Conversion

/-!
# Dialogues

A run converts its source and, when a variable has no type, asks the user for one and
converts again. A dialogue is the row of questions and answers of such a run. It is a pure
value: what it writes between two answers is text, and the answers come as lines, so a
dialogue can be led on a terminal or replayed from a list of lines.
-/
namespace Pseudocode.CommandLine

/-- How much a user wants to see. -/
inductive Verbosity where
  | quiet
  | normal
  | verbose
  deriving DecidableEq

/-- Whether a note is shown. -/
def Verbosity.shows : Verbosity → Note → Bool
  | .quiet, _ => false
  | .normal, note => !note.isDetail
  | .verbose, _ => true

/-- The lines for the notes that are shown. -/
def Verbosity.log (v : Verbosity) : List Note → String
  | [] => ""
  | note :: rest => (if v.shows note then note.message ++ "\n" else "") ++ v.log rest

/-- The verbosity that the options ask for. -/
def Options.verbosity (o : Options) : Verbosity :=
  if o.verbose then .verbose
  else if o.quiet then .quiet
  else .normal

/-- What stays fixed during a dialogue. -/
structure Setting where
  source : String
  verbosity : Verbosity
  /-- Whether a missing type is asked for. -/
  prompts : Bool

/-- Where a dialogue stands. -/
inductive Turn where
  /-- The type of a variable was asked for. -/
  | asked (name : String) (hints : TypeMap)
  /-- The last conversion, made with these types, ended the dialogue. -/
  | ended (hints : TypeMap) (conversion : Traced Program)

/-- A turn, and what is written until it is reached. -/
structure Spoken where
  text : String
  turn : Turn

/-- The question for the type of a variable. -/
def question (name : String) : String :=
  "Enter datatype for variable '" ++ name ++ "' (" ++ DataType.choices ++ "): "

namespace Setting

/-- Converts with the types known so far. -/
def attempt (s : Setting) (hints : TypeMap) : Spoken :=
  let conversion := Conversion.run s.source hints
  let log := s.verbosity.log conversion.notes
  match conversion.outcome with
  | .error (.missingType name) =>
    if s.prompts then ⟨log ++ question name, .asked name hints⟩
    else ⟨log, .ended hints conversion⟩
  | _ => ⟨log, .ended hints conversion⟩

/-- The turn after an answer. An answer that names no type is reported, and the question is
put again. -/
def answer (s : Setting) (name : String) (hints : TypeMap) (line : String) : Spoken :=
  match DataType.ofName line with
  | .ok t =>
    let next := s.attempt (hints.insert name t)
    ⟨s.verbosity.log [.retrying name t] ++ next.text, next.turn⟩
  | .error unknown => ⟨unknown.message ++ "\n" ++ question name, .asked name hints⟩

/-- Goes on with the given answers until the dialogue ends or no answer is left. -/
def follow (s : Setting) (spoken : Spoken) : List String → Spoken
  | [] => spoken
  | line :: rest =>
    match spoken.turn with
    | .asked name hints =>
      let next := s.answer name hints line
      s.follow ⟨spoken.text ++ next.text, next.turn⟩ rest
    | .ended _ _ => spoken

/-- A whole dialogue with the given answers. -/
def replay (s : Setting) (hints : TypeMap) (answers : List String) : Spoken :=
  s.follow (s.attempt hints) answers

end Setting

end Pseudocode.CommandLine
