/-!
# Control sequences

A terminal takes some characters as commands: the control characters of ASCII, and the
sequences that the escape character opens. A text is coloured by such sequences. A text that
goes anywhere else than to a terminal is written without any of them, whether they colour it
or came in with a name that a user has given.

The sequences are told apart as terminals do: an escape sequence ends at its first letter or
digit, a control sequence, opened by a bracket, at its first letter, and a command for the
device or the system around it runs up to a terminator of its own. An escape character opens
a new sequence wherever it stands.
-/
namespace Pseudocode.Text

/-- The ways to set a text off. -/
inductive Colour where
  | red
  | boldRed
  | yellow
  | bold

/-- The parameters of the control sequence that switches to a colour. -/
def Colour.code : Colour → List Char
  | .red => ['3', '1']
  | .boldRed => ['1', ';', '3', '1']
  | .yellow => ['3', '3']
  | .bold => ['1']

/-- The control sequence with the given parameters that switches to a colour or back. -/
def switch (code : List Char) : List Char := '\x1b' :: '[' :: code ++ ['m']

/-- Wraps a text in the control sequences that colour it. -/
def Colour.paint (colour : Colour) (text : List Char) : List Char :=
  switch colour.code ++ text ++ switch ['0']

/-- Wraps a string in the control sequences that colour it. -/
def Colour.mark (colour : Colour) (text : String) : String :=
  String.ofList (colour.paint text.toList)

/-- Whether a character is a control character of ASCII. -/
def isControl (c : Char) : Bool := c.toNat < 0x20 || c = '\x7f'

/-- Whether a control character lays a text out, so that it stays in a plain text. -/
def isLayout (c : Char) : Bool := c = '\t' || c = '\n' || c = '\x0c' || c = '\r'

/-- Whether a character outside of sequences belongs to a plain text. -/
def isPlain (c : Char) : Bool := isLayout c || !isControl c

/-- Whether the code of a character is in a range, both ends included. -/
def isWithin (lo hi : Nat) (c : Char) : Bool := lo ≤ c.toNat && c.toNat ≤ hi

/-- Whether a character stands between the opening of a sequence and what it asks for. -/
def isIntermediate (c : Char) : Bool := isWithin 0x20 0x2F c

/-- The sequences that layout characters interrupt. -/
inductive Sequence where
  /-- The escape character was read. -/
  | escape
  /-- Intermediate characters were read behind it. -/
  | intermediate
  /-- A control sequence was opened by a bracket. -/
  | control

/-- The head of a command for the device, by what was read of it. -/
inductive Head where
  | start
  | parameters
  | intermediates

/-- What the characters read so far make of the next one. -/
inductive Mode where
  /-- No sequence is open. -/
  | text
  | inside (sequence : Sequence)
  /-- A layout character stood inside of a sequence. What follows is text; a control
  character goes on with the sequence. -/
  | paused (sequence : Sequence)
  | device (head : Head)
  /-- The body of a command for the device, or of a string for somebody else. -/
  | body
  /-- A command for the system around the terminal. -/
  | system

/-- The mode after a character inside of a sequence that neither opens another one nor breaks
it off. -/
def Sequence.next (sequence : Sequence) (c : Char) : Mode :=
  if !isWithin 0x20 0x7E c then .inside sequence
  else match sequence with
    | .escape =>
      if isIntermediate c then .inside .intermediate
      else if c = '[' then .inside .control
      else if c = ']' then .system
      else if c = 'P' then .device .start
      else if c = 'X' || c = '^' || c = '_' then .body
      else .text
    | .intermediate => if isIntermediate c then .inside .intermediate else .text
    | .control => if isWithin 0x20 0x3F c then .inside .control else .text

/-- The mode after a character in the head of a command for the device. -/
def Head.next (head : Head) (c : Char) : Mode :=
  if !isWithin 0x20 0x7E c then .device head
  else if isIntermediate c then .device .intermediates
  else match head with
    | .start => if isWithin 0x30 0x3F c then .device .parameters else .body
    | .parameters => if isWithin 0x30 0x3B c then .device .parameters else .body
    | .intermediates => .body

/-- Whether a character ends the body of a command: the terminator is a single byte, and it is
found inside of a longer character too. -/
def endsBody (c : Char) : Bool := (String.utf8EncodeChar c).contains 0x9C

/-- Reads a character: whether it is kept, and the mode after it. -/
def Mode.step (mode : Mode) (c : Char) : Bool × Mode :=
  if c = '\x1b' then (false, .inside .escape)
  else if c = '\x18' || c = '\x1a' then (false, .text)
  else match mode with
    | .text => (isPlain c, .text)
    | .inside s => if isLayout c then (true, .paused s) else (false, s.next c)
    | .paused s =>
      if isPlain c then (true, if c.toNat < 0x80 then .paused s else .text)
      else (false, .inside s)
    | .device head => (false, head.next c)
    | .body => (false, if endsBody c then .text else .body)
    | .system => (false, if c = '\x07' then .text else .system)

/-- The characters of a text that are kept, from a given mode on. -/
def Mode.plain (mode : Mode) : List Char → List Char
  | [] => []
  | c :: rest =>
    let (kept, next) := mode.step c
    if kept then c :: next.plain rest else next.plain rest

/-- The mode behind a text. -/
def Mode.after (mode : Mode) (text : List Char) : Mode :=
  text.foldl (fun m c => (m.step c).2) mode

/-- A text without control characters and sequences. -/
def plain (text : List Char) : List Char := Mode.text.plain text

/-- A string without control characters and sequences. -/
def plainText (text : String) : String := String.ofList (plain text.toList)

/-- A text can be read in two parts, the second from where the first has led. -/
theorem plain_append (mode : Mode) (s t : List Char) :
    mode.plain (s ++ t) = mode.plain s ++ (mode.after s).plain t := by
  induction s generalizing mode with
  | nil => rfl
  | cons c s ih =>
    have hs := ih (mode.step c).2
    rcases h : mode.step c with ⟨kept, next⟩
    rw [h] at hs
    cases kept <;> simp [Mode.plain, Mode.after, h, hs]

/-- A switch leaves nothing behind and ends whatever was open. -/
theorem plain_switch_append (mode : Mode) (colour : Colour) (rest : List Char) :
    mode.plain (switch colour.code ++ rest) = plain rest := by
  cases colour <;> rfl

/-- The switch back leaves nothing behind and ends whatever was open. -/
theorem plain_switch_back_append (mode : Mode) (rest : List Char) :
    mode.plain (switch ['0'] ++ rest) = plain rest := rfl

/-- Nothing in a coloured text changes what follows it. -/
theorem plain_paint_append (colour : Colour) (text rest : List Char) :
    plain (colour.paint text ++ rest) = plain text ++ plain rest := by
  rw [Colour.paint, List.append_assoc, List.append_assoc, plain, plain_switch_append, plain,
    plain_append, plain_switch_back_append]
  rfl

/-- A text without control characters stays as it is in front of another one. -/
theorem plain_append_of_forall {front : List Char} (h : ∀ c ∈ front, isControl c = false)
    (rest : List Char) : plain (front ++ rest) = front ++ plain rest := by
  induction front with
  | nil => rfl
  | cons c front ih =>
    have hc := h c (List.mem_cons_self ..)
    have hfront := ih fun d hd => h d (List.mem_cons_of_mem _ hd)
    have h1 : c ≠ '\x1b' := by rintro rfl; exact absurd hc (by decide)
    have h2 : c ≠ '\x18' := by rintro rfl; exact absurd hc (by decide)
    have h3 : c ≠ '\x1a' := by rintro rfl; exact absurd hc (by decide)
    have hstep : Mode.text.step c = (true, .text) := by
      simp [Mode.step, h1, h2, h3, isPlain, hc]
    rw [plain] at hfront
    simp [plain, Mode.plain, hstep, hfront]

end Pseudocode.Text
