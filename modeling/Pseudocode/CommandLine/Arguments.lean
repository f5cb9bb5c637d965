import Pseudocode.CommandLine.Toolkit

/-!
# Arguments of the command line

A reader of arguments, and with it a whole toolkit. Arguments are read from left to right. A value
that stands in an argument of its own is looked at only when the next argument is understood, so
that an argument nobody knows is reported before a bad value in front of it; a value attached to
its option is looked at on the spot. What concerns several arguments is checked at the end: first
options that exclude each other, then the input that has to be there.

What is said about the arguments goes to a terminal in colours, and to anywhere else without them.
-/
namespace Pseudocode.CommandLine

open Text (Colour)

/-- The options without a value. -/
inductive Flag where
  | noPrompt
  | verbose
  | quiet
  | timings
  deriving DecidableEq

/-- The arguments with a value. -/
inductive Slot where
  | input
  | output
  | type
  deriving DecidableEq

/-- How a flag is named in messages. -/
def Flag.label : Flag → String
  | .noPrompt => "--no-prompt"
  | .verbose => "--verbose"
  | .quiet => "--quiet"
  | .timings => "--timings"

/-- How an argument with a value is named in messages. -/
def Slot.label : Slot → String
  | .input => "<INPUT>"
  | .output => "--output <OUTPUT>"
  | .type => "--type <NAME=TYPE>"

/-- Why the arguments make no sense. -/
inductive UsageError where
  | invalidType (text : String) (fault : HintFault)
  | conflict (first second : Flag)
  | missingInput
  | unexpectedArgument (argument : String)
  | unexpectedValue (value option : String)
  | valueRequired (slot : Slot)
  | repeated (label : String)

/-- The wording of a usage error. What a user wrote and what could be written is set off by
colours; only the reason why a value does not fit is not. -/
def UsageError.message : UsageError → String
  | .invalidType text fault =>
    "invalid value '" ++ Colour.yellow.mark text ++ "' for '" ++ Colour.bold.mark Slot.type.label ++
      "': " ++ fault.message
  | .conflict first second =>
    "the argument '" ++ Colour.yellow.mark first.label ++ "' cannot be used with '" ++
      Colour.yellow.mark second.label ++ "'"
  | .missingInput =>
    "the following required arguments were not provided:\n  " ++ Colour.bold.mark Slot.input.label
  | .unexpectedArgument argument =>
    "unexpected argument '" ++ Colour.yellow.mark argument ++ "' found"
  | .unexpectedValue value option =>
    "unexpected value '" ++ Colour.yellow.mark value ++ "' for '" ++ Colour.bold.mark option ++
      "' found; no more were expected"
  | .valueRequired slot =>
    "a value is required for '" ++ Colour.bold.mark slot.label ++ "' but none was supplied"
  | .repeated label =>
    "the argument '" ++ Colour.yellow.mark label ++ "' cannot be used multiple times"

/-- A usage error as it is shown on a terminal, with a hint where to find help. -/
def UsageError.report (e : UsageError) : String :=
  Colour.boldRed.mark "error:" ++ " " ++ e.message ++ "\n\nFor more information, try '" ++
    Colour.bold.mark "--help" ++ "'.\n"

/-- A usage error as it is written anywhere else than to a terminal. -/
def UsageError.plainReport (e : UsageError) : String := Text.plainText e.report

/-- The arguments understood so far. -/
structure Draft where
  input : Option String := none
  output : Option String := none
  types : List (String × DataType) := []
  flags : List Flag := []
  /-- An argument whose value has been read but not looked at, or has not been read. -/
  pending : Option (Slot × Option String) := none
  /-- Whether the place of the input has been taken. -/
  placed : Bool := false

/-- What the name of an option stands for. -/
inductive Meaning where
  | flag (flag : Flag)
  | slot (slot : Slot)
  | version
  | help

/-- How an option is named in messages. -/
def Meaning.label : Meaning → String
  | .flag f => f.label
  | .slot s => s.label
  | .version => "--version"
  | .help => "--help"

/-- The option with a long name. -/
def longMeaning? : String → Option Meaning
  | "output" => some (.slot .output)
  | "type" => some (.slot .type)
  | "no-prompt" => some (.flag .noPrompt)
  | "verbose" => some (.flag .verbose)
  | "quiet" => some (.flag .quiet)
  | "timings" => some (.flag .timings)
  | "version" => some .version
  | "help" => some .help
  | _ => none

/-- The option with a one-letter name. -/
def shortMeaning? : Char → Option Meaning
  | 'o' => some (.slot .output)
  | 't' => some (.slot .type)
  | 'v' => some (.flag .verbose)
  | 'q' => some (.flag .quiet)
  | 'V' => some .version
  | 'h' => some .help
  | _ => none

/-- Why arguments stand for no options. -/
inductive Stop where
  | usage (error : UsageError)
  | version
  | help

namespace Draft

/-- Takes a value for an argument. A file name is not empty. -/
def store (r : Draft) : Slot → String → Except Stop Draft
  | .input, value =>
    if value.isEmpty then .error (.usage (.valueRequired .input))
    else .ok { r with input := some value }
  | .output, value =>
    if r.output.isSome then .error (.usage (.repeated Slot.output.label))
    else if value.isEmpty then .error (.usage (.valueRequired .output))
    else .ok { r with output := some value }
  | .type, value =>
    match hintOf value with
    | .ok hint => .ok { r with types := r.types ++ [hint] }
    | .error fault => .error (.usage (.invalidType value fault))

/-- Looks at the value that is pending. -/
def settle (r : Draft) : Except Stop Draft :=
  match r.pending with
  | none => .ok r
  | some (slot, none) => .error (.usage (.valueRequired slot))
  | some (slot, some value) => { r with pending := none }.store slot value

/-- An option without a value. -/
def raise (r : Draft) (meaning : Meaning) : Except Stop Draft := do
  let r ← r.settle
  match meaning with
  | .flag f =>
    if r.flags.contains f then .error (.usage (.repeated f.label))
    else .ok { r with flags := r.flags ++ [f] }
  | .slot slot => .ok { r with pending := some (slot, none) }
  | .version => .error .version
  | .help => .error .help

/-- An option with a value attached to it. -/
def attach (r : Draft) (slot : Slot) (value : String) : Except Stop Draft := do
  let r ← r.settle
  r.store slot value

/-- An option by its long name, with the value behind an equals sign, if there is one. -/
def long (r : Draft) (name : String) (value : Option String) : Except Stop Draft :=
  match longMeaning? name, value with
  | none, _ => .error (.usage (.unexpectedArgument ("--" ++ name)))
  | some (.slot slot), some value => r.attach slot value
  | some meaning, some value => .error (.usage (.unexpectedValue value meaning.label))
  | some meaning, none => r.raise meaning

/-- A row of one-letter options. One with a value takes the rest of the row, if there is any,
without an equals sign in front of it. -/
def short (r : Draft) : List Char → Except Stop Draft
  | [] => .ok r
  | c :: rest =>
    match shortMeaning? c with
    | none => .error (.usage (.unexpectedArgument ("-" ++ String.singleton c)))
    | some (.slot slot) =>
      match rest with
      | [] => r.raise (.slot slot)
      | '=' :: value => r.attach slot (String.ofList value)
      | value => r.attach slot (String.ofList value)
    | some meaning => do
      let r ← r.raise meaning
      r.short rest

/-- An argument that belongs to no option: the input, which is given once. -/
def place (r : Draft) (value : String) : Except Stop Draft :=
  if r.placed then .error (.usage (.unexpectedArgument value))
  else do
    let r ← r.settle
    .ok { r with pending := some (.input, some value), placed := true }

/-- The form of an argument. -/
inductive Form where
  | long (name : String) (value : Option String)
  | short (letters : List Char)
  | plain

/-- The form of an argument, by the hyphens in front of it. A single hyphen is plain. -/
def formOf (argument : String) : Form :=
  match argument.toList with
  | '-' :: '-' :: rest =>
    .long (String.ofList (rest.takeWhile (· ≠ '=')))
      (match rest.dropWhile (· ≠ '=') with
        | [] => none
        | _ :: value => some (String.ofList value))
  | '-' :: c :: rest => .short (c :: rest)
  | _ => .plain

/-- One argument. A plain one is the value of the option in front of it, if that is still
without one. -/
def step (r : Draft) (argument : String) : Except Stop Draft :=
  match formOf argument with
  | .long name value => r.long name value
  | .short letters => r.short letters
  | .plain =>
    match r.pending with
    | some (slot, none) => .ok { r with pending := some (slot, some argument) }
    | _ => r.place argument

/-- All arguments. Behind two hyphens that stand alone, none of them belongs to an option. -/
def readAll (r : Draft) : List String → Except Stop Draft
  | [] => r.settle
  | argument :: rest =>
    if argument = "--" then do
      let r ← rest.foldlM place r
      r.settle
    else do
      let r ← r.step argument
      r.readAll rest

/-- The flags that exclude each other, in the order in which they were given. -/
def conflict? (flags : List Flag) : Option (Flag × Flag) :=
  match flags.filter fun f => f = .verbose ∨ f = .quiet with
  | first :: second :: _ => some (first, second)
  | _ => none

/-- The options that were read, if they make sense together. -/
def options (r : Draft) : Except UsageError Options :=
  match conflict? r.flags with
  | some (first, second) => .error (.conflict first second)
  | none =>
    match r.input with
    | none => .error .missingInput
    | some input =>
      .ok
        { input
          output := r.output
          types := r.types
          noPrompt := r.flags.contains .noPrompt
          verbose := r.flags.contains .verbose
          quiet := r.flags.contains .quiet
          timings := r.flags.contains .timings }

/-- The options that a row of arguments stands for. -/
def optionsOf (arguments : List String) : Except Stop Options := do
  let r ← readAll {} arguments
  r.options.mapError .usage

end Draft

/-- The name and version of the program. -/
def versionText : String := "pseudocpp 0.1.0\n"

/-- What the program does and how it is used. -/
def helpText : String :=
  "Convert a pseudo-code function into a C++ program\n\n" ++
  "Usage: pseudocpp [OPTIONS] <INPUT>\n\n" ++
  "Arguments:\n" ++
  "  <INPUT>  Pseudo-code source file\n\n" ++
  "Options:\n" ++
  "  -o, --output <OUTPUT>   Write the generated C++ here instead of stdout\n" ++
  "  -t, --type <NAME=TYPE>  Type of a variable, e.g. `--type a=int` (repeatable)\n" ++
  "      --no-prompt         Fail instead of asking for missing types on the terminal\n" ++
  "  -v, --verbose           Trace every token and type binding\n" ++
  "  -q, --quiet             Only print the generated code and errors\n" ++
  "      --timings           Print how long each stage took\n" ++
  "  -h, --help              Print help\n" ++
  "  -V, --version           Print version\n"

/-- The wording of an error and of its cause: the cause stands on a line of its own. -/
def explanation (message : String) : Option String → String
  | none => message
  | some cause => message ++ "\n\nCaused by:\n    " ++ cause

/-- The end of a run whose arguments make no sense or only ask about the program. -/
def Stop.stopped (terminal : Bool) : Stop → Stopped
  | .usage e => { exit := 2, stderr := if terminal then e.report else e.plainReport }
  | .version => { exit := 0, stdout := versionText }
  | .help => { exit := 0, stdout := helpText }

/-- The toolkit of a run on a terminal or away from one. -/
def Toolkit.standard (terminal : Bool) : Toolkit where
  options arguments := (Draft.optionsOf arguments).mapError (Stop.stopped terminal)
  explain := explanation
  paint := Colour.paint

end Pseudocode.CommandLine
