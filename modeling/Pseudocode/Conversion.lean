import Pseudocode.Cursor
import Pseudocode.Function
import Pseudocode.Note
import Pseudocode.Target.Program

/-!
# Conversions

A conversion runs the four stages on a source text with the types that the caller offers. It
ends with a program or with the failure of the first stage that failed, and it can be asked
which stages were entered and what they noted.
-/
namespace Pseudocode

/-- A stage of a conversion. -/
inductive Stage where
  | lexer
  | parser
  | typeChecker
  | compiler
  deriving DecidableEq

/-- The name of a stage. -/
def Stage.name : Stage → String
  | .lexer => "Lexer"
  | .parser => "Parser"
  | .typeChecker => "Type Checker"
  | .compiler => "Compiler"

/-- A result, or a failure, with the stages entered and the notes taken so far. -/
structure Traced (α : Type) where
  stages : List Stage
  notes : List Note
  outcome : Except Failure α

/-- Goes on with a result. After a failure nothing more is entered. -/
def Traced.andThen {α β : Type} (t : Traced α) (f : α → Traced β) : Traced β :=
  match t.outcome with
  | .error e => ⟨t.stages, t.notes, .error e⟩
  | .ok a => ⟨t.stages ++ (f a).stages, t.notes ++ (f a).notes, (f a).outcome⟩

namespace Conversion

/-- The note on an item of the source. -/
def entryNote? (e : Cursor.Entry) : Option Note :=
  match e.item with
  | .lineComment => some (.skippedComment (String.ofList e.text) e.pos)
  | .token kind => some (.readToken kind e.pos)
  | _ => none

/-- The tokens of a source text. -/
def lex (source : String) : Traced (List Token) :=
  let scan := (Cursor.ofSource source).scan
  let closing := match scan.tokens with
    | .ok tokens => [Note.producedTokens tokens.length]
    | .error _ => []
  ⟨[.lexer], scan.entries.filterMap entryNote? ++ closing, scan.tokens.mapError .lexical⟩

/-- The function of a list of tokens. -/
def parseTokens (tokens : List Token) : Traced Function :=
  let closing := match parse tokens with
    | .ok f => [Note.parsedFunction f.name f.body.length]
    | .error _ => []
  ⟨[.parser], closing, (parse tokens).mapError .syntactic⟩

/-- The types of a function. -/
def resolve (hints : TypeMap) (f : Function) : Traced Typed :=
  let bindings := (f.resolve hints).bindings.map fun b => Note.boundVariable b.name b.type b.pos
  let closing := match check f hints with
    | .ok t => [Note.resolvedVariables t.context.known.size]
    | .error _ => []
  ⟨[.typeChecker], .startedResolution :: bindings ++ closing,
    (check f hints).mapError Missing.failure⟩

/-- The program of a typed function. -/
def generate (t : Typed) : Traced Program :=
  let closing := match compile t with
    | .ok p => [Note.generatedFunction p.name p.returnType]
    | .error _ => []
  ⟨[.compiler], closing, (compile t).mapError .internal⟩

/-- A conversion with its trace. -/
def run (source : String) (hints : TypeMap) : Traced Program :=
  (lex source).andThen fun tokens =>
    (parseTokens tokens).andThen fun f => (resolve hints f).andThen generate

end Conversion

/-- Converts a source text, with types for variables that have no other source of a type. -/
def convert (source : String) (hints : TypeMap) : Except Failure Program :=
  (Conversion.run source hints).outcome

/-- The trace does not count for the outcome of two computations in a row. -/
theorem Traced.outcome_andThen {α β : Type} (t : Traced α) (f : α → Traced β) :
    (t.andThen f).outcome = t.outcome >>= fun a => (f a).outcome := by
  unfold Traced.andThen
  split <;> next h => rw [h]; rfl

/-- A conversion is its four stages, one after the other. -/
theorem convert_eq (source : String) (hints : TypeMap) :
    convert source hints = (do
      let tokens ← (tokenize source).mapError .lexical
      let f ← (parse tokens).mapError .syntactic
      let t ← (check f hints).mapError Missing.failure
      (compile t).mapError .internal) := by
  simp only [convert, Conversion.run, Traced.outcome_andThen]
  rfl

end Pseudocode
