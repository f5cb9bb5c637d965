import Pseudocode.CommandLine.Options
import Pseudocode.Text.Control

/-!
# What a run takes from elsewhere

Three things are not the work of the program itself: to pick the options out of the arguments of
the command line, to word an error together with its cause, and to colour a text on a terminal. A
run takes them as they are given. Of the last two nothing needs to be known; of the first it is
known how an option reads that stands in front of all other arguments.
-/
namespace Pseudocode.CommandLine

/-- The end of a run that its arguments bring about by themselves: they make no sense, or they only
ask about the program. -/
structure Stopped where
  exit : Nat
  stdout : String := ""
  stderr : String := ""

/-- What a run takes from elsewhere. -/
structure Toolkit where
  /-- The options that a row of arguments stands for, unless it ends the run. -/
  options : List String → Except Stopped Options
  /-- The wording of an error and of its cause, if there is one. -/
  explain : String → Option String → String
  /-- A text in a colour. -/
  paint : Text.Colour → List Char → List Char

end Pseudocode.CommandLine
