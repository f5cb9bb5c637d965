import Pseudocode.Number.Binary64
import Pseudocode.Number.Digits
import Pseudocode.Text.Lines

/-!
# Timings of stages

How long each stage took, and the table that shows it. Times are in nanoseconds and come
from the caller, who has a clock. A stage that was started and not stopped took no time.
-/
namespace Pseudocode

/-- A stage and the time it took. -/
structure Measurement where
  name : String
  elapsed : Nat

/-- The stages measured so far, and when the running one was started. -/
structure Timings where
  started : Option Nat := none
  measurements : List Measurement := []

namespace Timings

/-- Starts a stage. -/
def start (t : Timings) (now : Nat) (name : String) : Timings :=
  ⟨some now, t.measurements ++ [⟨name, 0⟩]⟩

/-- Gives the last measurement its time. -/
def stopLast (elapsed : Nat) : List Measurement → List Measurement
  | [] => []
  | [m] => [{ m with elapsed }]
  | m :: rest => m :: stopLast elapsed rest

/-- Stops the running stage. Without one nothing happens. -/
def stop (t : Timings) (now : Nat) : Timings :=
  match t.started with
  | none => t
  | some began => ⟨none, stopLast (now - began) t.measurements⟩

/-- A whole stage that ran from one time to another. -/
def measure (t : Timings) (began ended : Nat) (name : String) : Timings :=
  (t.start began name).stop ended

/-- The names of the stages, in the order in which they were started. -/
def stages (t : Timings) : List String := t.measurements.map Measurement.name

@[simp] theorem stages_start (t : Timings) (now : Nat) (name : String) :
    (t.start now name).stages = t.stages ++ [name] := by
  simp [start, stages]

theorem map_name_stopLast (elapsed : Nat) (ms : List Measurement) :
    (stopLast elapsed ms).map Measurement.name = ms.map Measurement.name := by
  induction ms with
  | nil => rfl
  | cons m rest ih =>
    cases rest with
    | nil => rfl
    | cons n rest => rw [stopLast, List.map_cons, ih, ← List.map_cons]; simp

/-- Stopping changes no name. -/
@[simp] theorem stages_stop (t : Timings) (now : Nat) : (t.stop now).stages = t.stages := by
  rw [stop]
  split
  · rfl
  · exact map_name_stopLast _ _

namespace Table

/-- The widths of the three columns. -/
def widths : Nat × Nat × Nat := (20, 12, 15)

/-- The blanks in front of each line. -/
def indent : List Char := Text.spaces 4

/-- A horizontal rule with its three corners. -/
def rule (left middle right : Char) : List Char :=
  let bar (n : Nat) := List.replicate n '═'
  indent ++ left :: bar widths.1 ++ middle :: bar widths.2.1 ++
    middle :: bar widths.2.2 ++ [right, '\n']

/-- A row of three centred cells. -/
def row (name millis micros : List Char) : List Char :=
  indent ++ '║' :: Text.centre widths.1 name ++ '║' :: Text.centre widths.2.1 millis ++
    '║' :: Text.centre widths.2.2 micros ++ ['║', '\n']

/-- Milliseconds with three places. -/
def millisText (nanos : Nat) : List Char :=
  let micros := Number.nearestEven nanos 1000
  let places := Number.digits (micros % 1000)
  Number.digits (micros / 1000) ++ '.' :: List.replicate (3 - places.length) '0' ++ places

/-- The row of a stage. A long name is cut to the width of its column. -/
def stageRow (m : Measurement) : List Char :=
  row (m.name.toList.take widths.1) (millisText m.elapsed) (Number.digits (m.elapsed / 1000))

end Table

/-- The table of all stages. -/
def table (t : Timings) : String :=
  String.ofList (Table.rule '╔' '╦' '╗' ++
    Table.row "Stage".toList "Millis".toList "Micros".toList ++
    Table.rule '╠' '╬' '╣' ++
    t.measurements.flatMap Table.stageRow ++
    Table.rule '╚' '╩' '╝')

end Timings

end Pseudocode
