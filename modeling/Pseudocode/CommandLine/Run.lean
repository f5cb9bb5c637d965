import Pseudocode.CommandLine.Arguments
import Pseudocode.CommandLine.Dialogue
import Pseudocode.CommandLine.Folder
import Pseudocode.Report
import Pseudocode.Timings

/-!
# Runs of the program

A run finds its options in its arguments, reads its source, leads a dialogue, and delivers the
generated code on the standard output or in a file. Everything else it has to say goes to the error
stream.
-/
namespace Pseudocode.CommandLine

/-- What a run leaves behind: its exit code, the text on both streams, and the files. -/
structure Outcome where
  exit : Nat
  stdout : String := ""
  stderr : String := ""
  folder : Folder

namespace Toolkit

/-- The end of a run that stopped with an error and perhaps the reason for it. -/
def errorText (kit : Toolkit) (message : String) (cause : Option String) : String :=
  "Error: " ++ kit.explain message cause ++ "\n"

/-- The error that a file could not be read. -/
def readErrorText (kit : Toolkit) (path : String) (fault : FileFault) : String :=
  kit.errorText ("failed to read " ++ path) (some fault.message)

/-- The error that a file could not be written. -/
def writeErrorText (kit : Toolkit) (path : String) (fault : FileFault) : String :=
  kit.errorText ("failed to write " ++ path) (some fault.message)

/-- The error that a question was left open. -/
def unansweredText (kit : Toolkit) (name : String) : String :=
  kit.errorText ("no type given for variable '" ++ name ++ "'") none

end Toolkit

/-- What the end of a dialogue calls for. -/
inductive Delivery where
  /-- The run fails; the text goes to the error stream. -/
  | fail (text : String)
  /-- The text goes to the error stream, then the code is delivered. -/
  | deliver (text code : String)

namespace Options

/-- The setting that the options ask for. -/
def setting (o : Options) (source : String) : Setting := ⟨source, o.verbosity, !o.noPrompt⟩

/-- The end of a dialogue. If it still waits for an answer, there is none. The time that each
stage took is only looked at if it is asked for. -/
def conclude (o : Options) (kit : Toolkit) (source : String) (elapsed : Stage → Nat) :
    Turn → Delivery
  | .asked name _ => .fail (kit.unansweredText name)
  | .ended _ conversion =>
    match conversion.outcome with
    | .error failure => .fail (failure.reportWith kit.paint source ++ "\n")
    | .ok program =>
      let measurements := conversion.stages.map fun s => ⟨s.name, elapsed s⟩
      let table := Timings.table { measurements }
      .deliver (if o.timings then table ++ "\n" else "") program.text

/-- A run with the given options and answers. -/
def run (o : Options) (kit : Toolkit) (folder : Folder) (answers : List String)
    (elapsed : Stage → Nat) : Outcome :=
  match folder.read o.input with
  | .error fault => { exit := 1, stderr := kit.readErrorText o.input fault, folder }
  | .ok source =>
    let spoken := (o.setting source).replay (.ofList o.types) answers
    match o.conclude kit source elapsed spoken.turn with
    | .fail text => { exit := 1, stderr := spoken.text ++ text, folder }
    | .deliver text code =>
      let stderr := spoken.text ++ text
      match o.output with
      | none => { exit := 0, stdout := code, stderr, folder }
      | some path =>
        match folder.write path code with
        | .error fault => { exit := 1, stderr := stderr ++ kit.writeErrorText path fault, folder }
        | .ok folder =>
          { exit := 0, stderr := stderr ++ o.verbosity.log [.wroteFile path], folder }

end Options

/-- A run with the given arguments and answers. -/
def Toolkit.run (kit : Toolkit) (folder : Folder) (arguments answers : List String)
    (elapsed : Stage → Nat) : Outcome :=
  match kit.options arguments with
  | .error stopped =>
    { exit := stopped.exit, stdout := stopped.stdout, stderr := stopped.stderr, folder }
  | .ok o => o.run kit folder answers elapsed

/-- A run away from a terminal, in a directory that holds the given files and nothing else. -/
def run (files : Files) (arguments answers : List String) (elapsed : Stage → Nat) : Outcome :=
  (Toolkit.standard false).run files.folder arguments answers elapsed

end Pseudocode.CommandLine
