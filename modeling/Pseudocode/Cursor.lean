import Pseudocode.Item.Progress

/-!
# Cursors and token lists

A cursor is a place in a source text: the text that is still ahead, and the position of its
first character. Moving over a piece of text advances the position by exactly that piece, so
the position of a cursor is always that of the text already passed. Asking a cursor for its
next token moves it over the blanks and comments in between; after a fault it stays where the
fault was noticed and can be asked again.

## Main definitions

* `Cursor.next` — the next token and the cursor behind it.
* `Cursor.scan` — all items ahead, each with its position and text.
* `Cursor.tokenize`, `tokenize` — the tokens of a text; the last one is its end.
-/
namespace Pseudocode

/-- A place in a source text. -/
structure Cursor where
  pos : Position
  rest : List Char
  deriving DecidableEq

namespace Cursor

/-- The cursor at the beginning of a text. -/
def ofSource (source : String) : Cursor := ⟨.start, source.toList⟩

/-- The cursor behind a reading that was made here. -/
def past (cur : Cursor) (r : Reading) : Cursor := ⟨cur.pos.after r.taken, r.rest⟩

/-- The token at the end of a text. -/
def endToken (pos : Position) : Token := ⟨.eof, "", pos⟩

/-- The next token, or the fault in its way, and the cursor behind what was read. -/
def next (cur : Cursor) : Except LexError Token × Cursor :=
  match cur with
  | ⟨pos, []⟩ => (.ok (endToken pos), ⟨pos, []⟩)
  | ⟨pos, c :: cs⟩ =>
    let r := Item.read c cs
    let behind := Cursor.past ⟨pos, c :: cs⟩ r
    match _h : r.found with
    | .error fault => (.error ⟨fault, pos⟩, behind)
    | .ok (.token kind) => (.ok ⟨kind, String.ofList r.taken, pos⟩, behind)
    | .ok _ => next behind
termination_by cur.rest.length
decreasing_by exact Item.length_rest_lt (by assumption)

/-- An item of the source with its place and its text. -/
structure Entry where
  pos : Position
  item : Item
  text : List Char

/-- The token of an entry, if the entry is not a blank or a comment. -/
def Entry.token? (e : Entry) : Option Token :=
  match e.item with
  | .token kind => some ⟨kind, String.ofList e.text, e.pos⟩
  | _ => none

/-- All items up to the end of a text or up to its first fault. -/
structure Scan where
  entries : List Entry
  /-- The position of the end, or the fault. -/
  outcome : Except LexError Position

/-- Reads every item ahead. -/
def scan (cur : Cursor) : Scan :=
  match cur with
  | ⟨pos, []⟩ => ⟨[], .ok pos⟩
  | ⟨pos, c :: cs⟩ =>
    let r := Item.read c cs
    match _h : r.found with
    | .error fault => ⟨[], .error ⟨fault, pos⟩⟩
    | .ok item =>
      let later := scan (Cursor.past ⟨pos, c :: cs⟩ r)
      ⟨⟨pos, item, r.taken⟩ :: later.entries, later.outcome⟩
termination_by cur.rest.length
decreasing_by exact Item.length_rest_lt (by assumption)

/-- The tokens of a scan, ended by the token for the end of the text. -/
def Scan.tokens (s : Scan) : Except LexError (List Token) :=
  s.outcome.map fun finish => s.entries.filterMap Entry.token? ++ [endToken finish]

/-- The tokens ahead of a cursor. -/
def tokenize (cur : Cursor) : Except LexError (List Token) := cur.scan.tokens

end Cursor

/-- The tokens of a source text. -/
def tokenize (source : String) : Except LexError (List Token) := (Cursor.ofSource source).tokenize

end Pseudocode
