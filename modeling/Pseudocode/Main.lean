import Pseudocode.CommandLine.Run

/-!
# The program

The command line on a terminal. All decisions are made by the pure parts; this module reads
lines, files and the clock, and writes texts.
-/
namespace Pseudocode.CommandLine

/-- The number of an error, which some calls of the system hand on with a minus sign. -/
def errorNumber (code : UInt32) : UInt32 := if code < 0x80000000 then code else 0 - code

/-- The fault that an error of the system stands for. -/
def FileFault.ofError : IO.Error → FileFault
  | .noFileOrDirectory _ _ _ => .notFound
  | .inappropriateType _ code _ =>
    if errorNumber code = 21 then .isDirectory else .notDirectory
  | .invalidArgument _ code text =>
    if errorNumber code = 36 then .nameTooLong else .other text
  | e => .other (toString e)

/-- The text of a file. -/
def readFile (path : String) : IO (Except FileFault String) := do
  try
    let bytes ← IO.FS.readBinFile path
    match String.fromUTF8? bytes with
    | some text => return .ok text
    | none => return .error .notText
  catch e => return .error (.ofError e)

/-- Writes a text into a file. -/
def writeFile (path text : String) : IO (Except FileFault Unit) := do
  try
    IO.FS.writeFile path text
    return .ok ()
  catch e => return .error (.ofError e)

/-- A line from a user without its ending, or nothing at the end of the input. -/
def readLine? (input : IO.FS.Stream) : IO (Option String) := do
  let line ← input.getLine
  return (Text.lines line.toList).head?.map String.ofList

/-- Leads a dialogue on a terminal to its end. -/
partial def lead (setting : Setting) (input output : IO.FS.Stream) (spoken : Spoken) : IO Turn := do
  output.putStr spoken.text
  output.flush
  match spoken.turn with
  | .ended _ _ => return spoken.turn
  | .asked name hints =>
    match ← readLine? input with
    | some line => lead setting input output (setting.answer name hints line)
    | none => return spoken.turn

/-- The time that each stage of a conversion takes. Every stage is run once more, on the
result of the stage before it. -/
def clock (source : String) (hints : TypeMap) : IO (Stage → Nat) := do
  let t0 ← IO.monoNanosNow
  let tokens := (tokenize source).toOption
  let t1 ← if tokens.isSome then IO.monoNanosNow else pure t0
  let function := tokens.bind fun ts => (parse ts).toOption
  let t2 ← if function.isSome then IO.monoNanosNow else pure t1
  let typed := function.bind fun f => (check f hints).toOption
  let t3 ← if typed.isSome then IO.monoNanosNow else pure t2
  let program := typed.bind fun t => (compile t).toOption
  let t4 ← if program.isSome then IO.monoNanosNow else pure t3
  return fun
    | .lexer => t1 - t0
    | .parser => t2 - t1
    | .typeChecker => t3 - t2
    | .compiler => t4 - t3

/-- The times of the conversion that ended a dialogue, if they are asked for. -/
def Options.elapsed (o : Options) (source : String) : Turn → IO (Stage → Nat)
  | .ended hints _ => if o.timings then clock source hints else return fun _ => 0
  | .asked _ _ => return fun _ => 0

/-- A run with the given options. -/
def Options.main (o : Options) (kit : Toolkit) : IO UInt32 := do
  let stdin ← IO.getStdin
  let stderr ← IO.getStderr
  match ← readFile o.input with
  | .error fault =>
    stderr.putStr (kit.readErrorText o.input fault)
    return 1
  | .ok source =>
    let setting := o.setting source
    let turn ← lead setting stdin stderr (setting.attempt (.ofList o.types))
    match o.conclude kit source (← o.elapsed source turn) turn with
    | .fail text =>
      stderr.putStr text
      return 1
    | .deliver text code =>
      stderr.putStr text
      match o.output with
      | none =>
        IO.print code
        return 0
      | some path =>
        match ← writeFile path code with
        | .error fault =>
          stderr.putStr (kit.writeErrorText path fault)
          return 1
        | .ok () =>
          stderr.putStr (o.verbosity.log [.wroteFile path])
          return 0

/-- A run with the given arguments. -/
def main (arguments : List String) : IO UInt32 := do
  let stderr ← IO.getStderr
  let kit := Toolkit.standard (← stderr.isTty)
  match kit.options arguments with
  | .error stopped =>
    IO.print stopped.stdout
    stderr.putStr stopped.stderr
    return stopped.exit.toUInt32
  | .ok o => o.main kit

end Pseudocode.CommandLine

/-- Runs the program with the arguments of the command line. -/
def main (arguments : List String) : IO UInt32 := Pseudocode.CommandLine.main arguments
