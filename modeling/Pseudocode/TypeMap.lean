import Pseudocode.DataType

/-!
# Maps from names to types

A finite map from variables to data types, kept as a list with one entry per name. A new
entry for a known name takes the place of the old one.
-/
namespace Pseudocode

/-- A finite map from names to types. -/
structure TypeMap where
  entries : List (String × DataType)
  deriving DecidableEq

namespace TypeMap

/-- The map without entries. -/
def empty : TypeMap := ⟨[]⟩

/-- The type in the first pair for a name. -/
def find? (x : String) : List (String × DataType) → Option DataType
  | [] => none
  | (y, t) :: rest => if y = x then some t else find? x rest

/-- The type of a name. -/
def get? (m : TypeMap) (x : String) : Option DataType := find? x m.entries

/-- The number of names that have a type. -/
def size (m : TypeMap) : Nat := m.entries.length

/-- The map without an entry for a name. -/
def erase (m : TypeMap) (x : String) : TypeMap := ⟨m.entries.filter (·.1 ≠ x)⟩

/-- The map in which a name has the given type, whatever it had before. -/
def insert (m : TypeMap) (x : String) (t : DataType) : TypeMap :=
  ⟨(m.erase x).entries ++ [(x, t)]⟩

/-- The map of a list of pairs. The last pair for a name counts. -/
def ofList (pairs : List (String × DataType)) : TypeMap :=
  pairs.foldl (fun m (x, t) => m.insert x t) empty

@[simp] theorem get?_empty (x : String) : empty.get? x = none := rfl

/-- Entries without those of one name answer as before for every other name. -/
theorem find?_filter_ne (entries : List (String × DataType)) (x y : String) :
    find? y (entries.filter (·.1 ≠ x)) = if y = x then none else find? y entries := by
  induction entries with
  | nil => simp [find?]
  | cons e rest ih =>
    obtain ⟨z, t⟩ := e
    by_cases hz : z = x
    · subst hz
      by_cases hy : y = z
      · simpa [hy] using ih
      · have : z ≠ y := fun h => hy h.symm
        simpa [hy, find?, this] using ih
    · by_cases hy : y = x
      · subst hy
        simpa [hz, find?] using ih
      · simp only [ne_eq, hz, not_false_eq_true, decide_true, List.filter_cons_of_pos, find?]
        simp only [ne_eq, hy, if_false] at ih ⊢
        rw [ih]

/-- A new entry behind the others counts only if none of them has its name. -/
theorem find?_append_singleton (entries : List (String × DataType)) (x y : String) (t : DataType) :
    find? y (entries ++ [(x, t)]) = (find? y entries).or (if x = y then some t else none) := by
  induction entries with
  | nil => simp [find?]
  | cons e rest ih =>
    obtain ⟨z, u⟩ := e
    by_cases hz : z = y <;> simp [find?, hz, ih]

/-- What was erased has no type, and everything else keeps its own. -/
@[simp] theorem get?_erase (m : TypeMap) (x y : String) :
    (m.erase x).get? y = if y = x then none else m.get? y :=
  find?_filter_ne m.entries x y

/-- What was inserted has its new type, and everything else keeps its own. -/
@[simp] theorem get?_insert (m : TypeMap) (x y : String) (t : DataType) :
    (m.insert x t).get? y = if y = x then some t else m.get? y := by
  have h : find? y (m.erase x).entries = if y = x then none else m.get? y := get?_erase m x y
  rw [insert, get?, find?_append_singleton, h]
  by_cases hy : y = x
  · simp [hy]
  · have : x ≠ y := fun h => hy h.symm
    simp [hy, this]

end TypeMap

end Pseudocode
