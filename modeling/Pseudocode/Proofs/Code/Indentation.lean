import Pseudocode.Proofs.Code.Signs
import Mathlib.Data.List.Forall2

/-!
# Indentation of the generated code

The generated function is a flat text, and the nesting of its source can be seen in it in two ways:
in the braces at the ends of its rows, and in the blanks at their beginnings. Both tell the same.
Which rows there are is decided by the statements alone: no name and no literal brings in a newline
or looks like a brace.

## Main definitions

* `opensBlock`, `closesBlock`, `depthAt` — the nesting of rows, as their braces have it.
* `Indented` — rows whose blanks agree with their braces.
* `Role`, `Function.outline` — what the rows of a function stand for, in order.
* `Laid` — lines that show what they stand for, block by block.

## Main statements

* `Stmt.laid_allCode` — the lines of a body.
* `Laid.depthsFrom` — the depth of a line is the number of blocks that are open around it.
* `convert_indents_by_nesting` — the rows of every generated function.
-/
namespace Pseudocode

open Target

/-- Whether a row opens a block. -/
def opensBlock (row : List Char) : Bool := row.getLast? = some '{'

/-- A row without its indentation. -/
def unindented (row : List Char) : String := String.ofList (row.dropWhile (· = ' '))

/-- Whether a row closes a block: a brace stands alone in it. -/
def closesBlock (row : List Char) : Bool := unindented row = "\x7d"

/-- The number of blocks around the `i`-th row, without the one that it may close. -/
def depthAt (rows : List (List Char)) (i : Nat) : Int :=
  (rows.take i).countP opensBlock - (rows.take (i + 1)).countP closesBlock

/-- The blanks of the rows agree with their braces. -/
structure Indented (rows : List (List Char)) : Prop where
  /-- A row has four blanks for every block around it, and no more. -/
  blanks : ∀ (i : Nat) (row : List Char), rows[i]? = some row → ∃ (depth : Nat) (c : Char)
    (rest : List Char), depthAt rows i = depth ∧ c ≠ ' ' ∧
      row = List.replicate (4 * depth) ' ' ++ c :: rest
  /-- All blocks are closed. -/
  balanced : rows.countP opensBlock = rows.countP closesBlock
  /-- A row that neither opens nor closes a block ends with a semicolon. -/
  ended : ∀ row ∈ rows, opensBlock row = true ∨ closesBlock row = true ∨ row.getLast? = some ';'

/-- What a row of a function stands for. -/
inductive Role where
  /-- The first row of the function. -/
  | function (name : String)
  /-- The declaration of a variable up front. -/
  | declaration (name : String)
  | assignment (assignment : Assignment)
  | ret (value : Expr)
  /-- The row in front of the body of a statement. -/
  | header (header : Header)
  /-- The row behind a body. -/
  | closing

/-- A row, without its indentation, shows what it stands for. -/
inductive Shows (types : TypeMap) (returnType : Option DataType) : Role → String → Prop where
  | function {name : String} :
      Shows types returnType (.function name)
        (returnSpelling returnType ++ " " ++ name ++ "() \x7b")
  | declaration {x : String} {t : DataType} (typed : types.get? x = some t) :
      Shows types returnType (.declaration x) (t.spelling ++ " " ++ x ++ "\x7b\x7d;")
  | assignment {a : Assignment} {text : String} (code : a.code types = .ok text) :
      Shows types returnType (.assignment a) (text ++ ";")
  | ret {value : Expr} {text : String} (code : value.code types = .ok text) :
      Shows types returnType (.ret value) ("return " ++ text ++ ";")
  | header {header : Header} {text : String} (code : header.code types = .ok text) :
      Shows types returnType (.header header) (text ++ " \x7b")
  | closing : Shows types returnType .closing "\x7d"

mutual

/-- What the rows of a statement stand for. -/
def Stmt.outline : Stmt → List Role
  | .assign a => [.assignment a]
  | .block header body _ => .header header :: (Stmt.allOutline body ++ [.closing])
  | .ret value _ => [.ret value]

/-- What the rows of a list of statements stand for. -/
def Stmt.allOutline : List Stmt → List Role
  | [] => []
  | stmt :: rest => stmt.outline ++ Stmt.allOutline rest

end

/-- What the rows of a function stand for. -/
def Function.outline (f : Function) : List Role :=
  .function f.name :: (f.free.map .declaration ++ Stmt.allOutline f.body ++ [.closing])

/-! ## Lines, block by block -/

/-- Lines at a depth show what they stand for: each ends itself, or it opens a block whose lines
are one level deeper, up to a closing brace at its own depth. -/
inductive Laid (types : TypeMap) (returnType : Option DataType) :
    Nat → List Role → List Line → Prop where
  | nil {depth : Nat} : Laid types returnType depth [] []
  | simple {depth : Nat} {role : Role} {text : String} {roles : List Role} {lines : List Line}
      (shows_role : Shows types returnType role (text ++ ";")) (begins : StartsPlainly text)
      (later : Laid types returnType depth roles lines) :
      Laid types returnType depth (role :: roles) (⟨depth, text ++ ";"⟩ :: lines)
  | block {depth : Nat} {role : Role} {text : String} {inner roles : List Role}
      {inside lines : List Line} (shows_role : Shows types returnType role (text ++ " \x7b"))
      (begins : StartsPlainly text) (body : Laid types returnType (depth + 1) inner inside)
      (later : Laid types returnType depth roles lines) :
      Laid types returnType depth (role :: (inner ++ .closing :: roles))
        (⟨depth, text ++ " \x7b"⟩ :: (inside ++ ⟨depth, "\x7d"⟩ :: lines))

/-- Lines that are laid out can be put together. -/
theorem Laid.append {types : TypeMap} {returnType : Option DataType} {depth : Nat}
    {roles more : List Role} {lines added : List Line} (h : Laid types returnType depth roles lines)
    (hmore : Laid types returnType depth more added) :
    Laid types returnType depth (roles ++ more) (lines ++ added) := by
  induction h with
  | nil => exact hmore
  | simple shows_role begins later ih => exact .simple shows_role begins (ih hmore)
  | block shows_role begins body later ihbody ih =>
      simpa using Laid.block shows_role begins body (ih hmore)

/-- A type is spelled with a letter in front. -/
theorem DataType.startsPlainly_spelling (t : DataType) : StartsPlainly t.spelling := by
  cases t <;> exact ⟨_, _, rfl, by decide, by decide⟩

theorem Target.startsPlainly_returnSpelling (t : Option DataType) :
    StartsPlainly (returnSpelling t) := by
  cases t with
  | none => exact ⟨'v', _, rfl, by decide, by decide⟩
  | some t => exact t.startsPlainly_spelling

section Code
variable {types : TypeMap} {text : String}

/-- An assignment begins with its type or with its target. -/
theorem Assignment.startsPlainly_code {a : Assignment} (h : a.code types = .ok text)
    (htarget : StartsPlainly a.target) : StartsPlainly text := by
  obtain ⟨value, -, h⟩ := bind_eq_ok.1 h
  obtain ⟨t, -, h⟩ := bind_eq_ok.1 h
  obtain rfl := Except.ok.inj h
  cases a.declares with
  | true => exact (((t.startsPlainly_spelling.append " ").append _).append _).append _
  | false => simpa using (htarget.append " = ").append value

/-- A header begins with a word of the language. -/
theorem Header.startsPlainly_code {header : Header} (h : header.code types = .ok text) :
    StartsPlainly text := by
  cases header with
  | ifThen c =>
      obtain ⟨test, -, h⟩ := bind_eq_ok.1 h
      obtain rfl := Except.ok.inj h
      exact StartsPlainly.append ⟨'i', _, rfl, by decide, by decide⟩ _
  | whileDo c =>
      obtain ⟨test, -, h⟩ := bind_eq_ok.1 h
      obtain rfl := Except.ok.inj h
      exact StartsPlainly.append ⟨'w', _, rfl, by decide, by decide⟩ _
  | forDo init c update =>
      obtain ⟨first, -, h⟩ := bind_eq_ok.1 h
      obtain ⟨test, -, h⟩ := bind_eq_ok.1 h
      obtain ⟨next, -, h⟩ := bind_eq_ok.1 h
      obtain rfl := Except.ok.inj h
      exact StartsPlainly.append ⟨'f', _, rfl, by decide, by decide⟩ _

end Code

section Lines
variable {types : TypeMap} (returnType : Option DataType)

mutual

/-- The lines of a statement. -/
theorem Stmt.laid_code {depth : Nat} (stmt : Stmt) {lines : List Line}
    (h : stmt.code types depth = .ok lines) (hkinds : ∀ k ∈ stmt.kinds, k.Legible) :
    Laid types returnType depth stmt.outline lines := by
  match stmt with
  | .assign a =>
      obtain ⟨text, htext, h⟩ := bind_eq_ok.1 h
      obtain rfl := Except.ok.inj h
      have htarget := hkinds (.name a.target) (by simp [Stmt.kinds, Assignment.kinds])
      exact .simple (.assignment htext) (a.startsPlainly_code htext htarget.starts) .nil
  | .block header body pos =>
      obtain ⟨text, htext, h⟩ := bind_eq_ok.1 h
      obtain ⟨inside, hinside, h⟩ := bind_eq_ok.1 h
      obtain rfl := Except.ok.inj h
      have hbody := Stmt.laid_allCode body hinside fun k hk => hkinds k (by simp [Stmt.kinds, hk])
      exact .block (.header htext) (header.startsPlainly_code htext) hbody .nil
  | .ret value pos =>
      obtain ⟨text, htext, h⟩ := bind_eq_ok.1 h
      obtain rfl := Except.ok.inj h
      have hbegins : StartsPlainly "return " := ⟨'r', _, rfl, by decide, by decide⟩
      exact .simple (.ret htext) (hbegins.append text) .nil

/-- The lines of a body. -/
theorem Stmt.laid_allCode {depth : Nat} (body : List Stmt) {lines : List Line}
    (h : Stmt.allCode types depth body = .ok lines) (hkinds : ∀ k ∈ Stmt.allKinds body, k.Legible) :
    Laid types returnType depth (Stmt.allOutline body) lines := by
  match body with
  | [] =>
      obtain rfl := Except.ok.inj h
      exact .nil
  | stmt :: rest =>
      obtain ⟨first, hfirst, h⟩ := bind_eq_ok.1 h
      obtain ⟨later, hlater, h⟩ := bind_eq_ok.1 h
      obtain rfl := Except.ok.inj h
      rw [Stmt.allKinds, List.forall_mem_append] at hkinds
      have hstmt := Stmt.laid_code stmt hfirst hkinds.1
      exact hstmt.append (Stmt.laid_allCode rest hlater hkinds.2)

end

/-- The declarations up front stand one step in, a line for each name. -/
theorem Function.laid_declarations {free : List String} {lines : List Line}
    (h : declarations types free = .ok lines) :
    Laid types returnType 1 (free.map .declaration) lines := by
  induction free generalizing lines with
  | nil =>
      obtain rfl := Except.ok.inj h
      exact .nil
  | cons x free ih =>
      obtain ⟨t, ht, h⟩ := bind_eq_ok.1 h
      obtain ⟨later, hlater, h⟩ := bind_eq_ok.1 h
      obtain rfl := Except.ok.inj h
      have hbraces : t.spelling ++ " " ++ x ++ "\x7b\x7d;" =
          t.spelling ++ " " ++ x ++ "\x7b\x7d" ++ ";" := by simp [String.append_assoc]
      have hshows : Shows types returnType (.declaration x)
          (t.spelling ++ " " ++ x ++ "\x7b\x7d" ++ ";") :=
        hbraces ▸ .declaration (TypeMap.demand_eq_ok.1 ht)
      have hbegins := ((t.startsPlainly_spelling.append " ").append x).append "\x7b\x7d"
      rw [hbraces]
      exact .simple hshows hbegins (ih hlater)

/-- The lines of a function. -/
theorem Function.laid_code {f : Function} {lines : List Line}
    (h : f.code types returnType = .ok lines) (hf : f.Legible) :
    Laid types returnType 0 f.outline lines := by
  obtain ⟨front, hfront, h⟩ := bind_eq_ok.1 h
  obtain ⟨body, hbody, h⟩ := bind_eq_ok.1 h
  obtain rfl := Except.ok.inj h
  have hinside := (laid_declarations returnType hfront).append
    (Stmt.laid_allCode returnType f.body hbody hf.kinds)
  have hhead : Shows types returnType (.function f.name)
      (returnSpelling returnType ++ " " ++ f.name ++ "()" ++ " \x7b") := by
    have hsplit : returnSpelling returnType ++ " " ++ f.name ++ "()" ++ " \x7b" =
        returnSpelling returnType ++ " " ++ f.name ++ "() \x7b" := by
      simp [String.append_assoc]
    exact hsplit ▸ .function
  have hbegins := (((startsPlainly_returnSpelling returnType).append " ").append f.name).append "()"
  exact .block hhead hbegins hinside .nil

end Lines

/-- A line as a row of the text, without its ending. -/
def Target.Line.row (line : Line) : List Char :=
  Text.spaces (indentWidth * line.depth) ++ line.text.toList

section Rows
variable (depth : Nat) (text : String)

theorem getLast?_row_append {later : String} {c : Char} (hlast : later.toList.getLast? = some c) :
    (Line.mk depth (text ++ later)).row.getLast? = some c := by
  simp [Line.row, List.getLast?_append, hlast]

/-- A row that ends with another character is no lone brace. -/
theorem closesBlock_eq_false {row : List Char} (h : row.getLast? ≠ some '}') :
    closesBlock row = false := by
  rw [closesBlock, decide_eq_false_iff_not]
  intro hclosing
  have hbrace : row.dropWhile (· = ' ') = ['}'] := by
    simpa [unindented] using congrArg String.toList hclosing
  have hrow : row = row.takeWhile (· = ' ') ++ ['}'] := by
    rw [← hbrace, List.takeWhile_append_dropWhile]
  rw [hrow, List.getLast?_append] at h
  exact h rfl

/-- A row without the blanks in front is the text of its line. -/
theorem unindented_row {line : Line} (h : StartsPlainly line.text) :
    unindented line.row = line.text := by
  obtain ⟨c, rest, htext, hc, -⟩ := h
  apply String.toList_injective
  rw [unindented, String.toList_ofList, Line.row, Text.spaces, htext]
  rw [List.dropWhile_append_of_pos fun b hb => by simp [List.eq_of_mem_replicate hb]]
  simp [hc]

theorem getLast?_simple : (Line.mk depth (text ++ ";")).row.getLast? = some ';' :=
  getLast?_row_append depth text (by decide)

theorem getLast?_header : (Line.mk depth (text ++ " \x7b")).row.getLast? = some '{' :=
  getLast?_row_append depth text (by decide)

/-- A line that ends with a semicolon opens no block. -/
@[simp] theorem opensBlock_simple : opensBlock (Line.mk depth (text ++ ";")).row = false := by
  simp [opensBlock, getLast?_simple]

@[simp] theorem closesBlock_simple : closesBlock (Line.mk depth (text ++ ";")).row = false :=
  closesBlock_eq_false (by simp [getLast?_simple])

@[simp] theorem opensBlock_header : opensBlock (Line.mk depth (text ++ " \x7b")).row = true := by
  simp [opensBlock, getLast?_header]

@[simp] theorem closesBlock_header : closesBlock (Line.mk depth (text ++ " \x7b")).row = false :=
  closesBlock_eq_false (by simp [getLast?_header])

@[simp] theorem opensBlock_closing : opensBlock (Line.mk depth "\x7d").row = false := by
  simp [opensBlock, Line.row]

@[simp] theorem closesBlock_closing : closesBlock (Line.mk depth "\x7d").row = true := by
  rw [closesBlock, unindented_row ⟨'}', [], by simp, by decide, by decide⟩]
  rfl

end Rows

/-! ## Depths -/

/-- The blocks that a row opens, less those that it closes. -/
def netBlocks (row : List Char) : Int :=
  (if opensBlock row then 1 else 0) - (if closesBlock row then 1 else 0)

/-- The blocks that rows leave open. -/
def excess (rows : List (List Char)) : Int := rows.countP opensBlock - rows.countP closesBlock

@[simp] theorem excess_nil : excess [] = 0 := rfl

@[simp] theorem excess_cons (row : List Char) (rows : List (List Char)) :
    excess (row :: rows) = netBlocks row + excess rows := by
  simp only [excess, netBlocks, List.countP_cons]
  push_cast
  omega

@[simp] theorem excess_append (xs ys : List (List Char)) :
    excess (xs ++ ys) = excess xs + excess ys := by
  simp only [excess, List.countP_append]
  omega

/-- The depths of lines that stand inside a number of blocks agree with their braces. -/
def DepthsFrom : Int → List Line → Prop
  | _, [] => True
  | blocks, line :: rest =>
    (line.depth : Int) = blocks - (if closesBlock line.row then 1 else 0) ∧
      DepthsFrom (blocks + netBlocks line.row) rest

/-- The depths of more lines are counted from the blocks that are open then. -/
theorem depthsFrom_append (blocks : Int) (lines more : List Line) :
    DepthsFrom blocks (lines ++ more) ↔
      DepthsFrom blocks lines ∧ DepthsFrom (blocks + excess (lines.map Line.row)) more := by
  induction lines generalizing blocks with
  | nil => simp [DepthsFrom]
  | cons line lines ih =>
      rw [List.cons_append, DepthsFrom, DepthsFrom, ih, List.map_cons, excess_cons, and_assoc,
        Int.add_assoc]

/-- What the depths of lines have to do with the rows in front of them. -/
theorem DepthsFrom.depthAt {blocks : Int} {lines : List Line} (h : DepthsFrom blocks lines)
    {i : Nat} {line : Line} (hi : lines[i]? = some line) :
    (line.depth : Int) = blocks + depthAt (lines.map Line.row) i := by
  induction lines generalizing blocks i with
  | nil => cases hi
  | cons first rest ih =>
      cases i with
      | zero =>
          obtain rfl := Option.some.inj hi
          rw [h.1]
          simp [Pseudocode.depthAt, List.countP_cons, Int.sub_eq_add_neg]
      | succ i =>
          rw [ih h.2 hi]
          simp only [Pseudocode.depthAt, netBlocks, List.map_cons, List.take_succ_cons,
            List.countP_cons]
          push_cast
          omega

/-- **The depth of a line is the number of blocks around it**, and lines leave no block open. -/
theorem Laid.depthsFrom {types : TypeMap} {returnType : Option DataType} {depth : Nat}
    {roles : List Role} {lines : List Line} (h : Laid types returnType depth roles lines) :
    DepthsFrom depth lines ∧ excess (lines.map Line.row) = 0 := by
  induction h with
  | nil => exact ⟨trivial, rfl⟩
  | @simple depth role text roles lines _ _ _ ih =>
      have hnet : netBlocks (Line.mk depth (text ++ ";")).row = 0 := by simp [netBlocks]
      constructor
      · refine ⟨by simp, ?_⟩
        rw [hnet, Int.add_zero]
        exact ih.1
      · rw [List.map_cons, excess_cons, hnet, ih.2]
        rfl
  | @block depth role text inner roles inside lines _ _ _ _ ihbody ih =>
      have hopen : netBlocks (Line.mk depth (text ++ " \x7b")).row = 1 := by simp [netBlocks]
      have hclose : netBlocks (Line.mk depth "\x7d").row = -1 := by simp [netBlocks]
      constructor
      · -- the closing brace stands behind the body, and outside of the block again
        refine ⟨by simp, ?_⟩
        rw [hopen, depthsFrom_append, ihbody.2]
        refine ⟨ihbody.1, by simp, ?_⟩
        rw [hclose]
        simpa using ih.1
      · rw [List.map_cons, List.map_append, List.map_cons, excess_cons, excess_append, excess_cons,
          hopen, hclose, ihbody.2, ih.2]
        rfl

/-! ## Rows of a text -/

section Text
variable {types : TypeMap} {returnType : Option DataType} {depth : Nat} {roles : List Role}
  {lines : List Line}

/-- Every line that is laid out shows its role. -/
theorem Laid.forall₂_shows (h : Laid types returnType depth roles lines) :
    List.Forall₂ (fun role line => Shows types returnType role line.text) roles lines := by
  induction h with
  | nil => exact .nil
  | simple shows_role _ _ ih => exact .cons shows_role ih
  | block shows_role _ _ _ ihbody ih =>
      exact .cons shows_role (List.rel_append ihbody (.cons .closing ih))

/-- No line that is laid out has blanks in front of its text. -/
theorem Laid.begins (h : Laid types returnType depth roles lines) :
    ∀ line ∈ lines, StartsPlainly line.text := by
  induction h with
  | nil => exact List.forall_mem_nil _
  | simple _ begins _ ih => exact List.forall_mem_cons.2 ⟨begins.append _, ih⟩
  | block _ begins _ _ ihbody ih =>
      have hclosing : StartsPlainly "\x7d" := ⟨'}', [], by simp, by decide, by decide⟩
      rw [List.forall_mem_cons, List.forall_mem_append, List.forall_mem_cons]
      exact ⟨begins.append _, ihbody, hclosing, ih⟩

/-- Every line that is laid out opens a block, closes one, or ends with a semicolon. -/
theorem Laid.ends (h : Laid types returnType depth roles lines) :
    ∀ line ∈ lines, opensBlock line.row = true ∨ closesBlock line.row = true ∨
      line.row.getLast? = some ';' := by
  induction h with
  | nil => exact List.forall_mem_nil _
  | @simple depth role text _ _ _ _ _ ih =>
      exact List.forall_mem_cons.2 ⟨.inr (.inr (getLast?_simple depth text)), ih⟩
  | @block depth role text _ _ _ _ _ _ _ _ ihbody ih =>
      have hopens := opensBlock_header depth text
      have hcloses := closesBlock_closing depth
      rw [List.forall_mem_cons, List.forall_mem_append, List.forall_mem_cons]
      exact ⟨.inl hopens, ihbody, .inr (.inl hcloses), ih⟩

/-- The rows of lines are indented as their braces demand. -/
theorem Laid.indented (h : Laid types returnType 0 roles lines) :
    Indented (lines.map Line.row) where
  blanks i row hi := by
    rw [List.getElem?_map] at hi
    obtain ⟨line, hline, rfl⟩ := Option.map_eq_some_iff.1 hi
    obtain ⟨c, rest, htext, hc, -⟩ := h.begins line (List.mem_of_getElem? hline)
    have hdepth := h.depthsFrom.1.depthAt hline
    refine ⟨line.depth, c, rest, ?_, hc, ?_⟩
    · rw [hdepth]
      simp
    · rw [Line.row, htext]
      rfl
  balanced := by
    have hexcess := h.depthsFrom.2
    rw [excess] at hexcess
    omega
  ended := by
    intro row hrow
    obtain ⟨line, hline, rfl⟩ := List.mem_map.1 hrow
    exact h.ends line hline

/-- Cutting the text of lines at its newlines gives their rows. -/
theorem AllInline.splitOn_render (h : AllInline lines) :
    (render lines).toList.splitOn '\n' = lines.map Line.row ++ [[]] := by
  induction lines with
  | nil => rfl
  | cons line lines ih =>
      obtain ⟨hline, hlines⟩ := List.forall_mem_cons.1 h
      have hrow : ∀ c ∈ line.row, (c == '\n') = false := by
        intro c hc
        rw [beq_eq_false_iff_ne]
        rintro rfl
        rcases List.mem_append.1 hc with hc | hc
        · exact absurd (List.eq_of_mem_replicate hc) (by decide)
        · exact hline.newline hc
      have hrender : (render (line :: lines)).toList =
          line.row ++ '\n' :: (render lines).toList := by
        simp [render, Line.render, Line.row]
      rw [List.splitOn_eq_splitOnP] at ih ⊢
      rw [hrender, List.splitOnP_append_cons_of_forall_mem hrow '\n' (by decide), ih hlines]
      rfl

end Text

/-- **The indentation of a generated function follows its nesting.** Cut at its newlines, the text
of the function is a row for each of the roles in its outline, in their order, and an empty rest:
its first row, a declaration for each variable that is declared up front, the statements of its
body with the bodies of compound statements in braces, and its closing brace. Every row has four
blanks for each block around it, no row closes a block that is not open, no block stays open, and
all rows without a brace at their end have a semicolon there. -/
theorem convert_indents_by_nesting {source : String} {hints : TypeMap} {p : Program}
    (h : convert source hints = .ok p) :
    ∃ f types lines rows, Generated source hints p f types lines ∧
      (render lines).toList.splitOn '\n' = rows ++ [[]] ∧ Indented rows ∧
      List.Forall₂ (Shows types p.returnType) f.outline (rows.map unindented) := by
  obtain ⟨f, types, lines, hgenerated⟩ := exists_generated h
  have hlaid := Function.laid_code p.returnType hgenerated.code hgenerated.legible
  have hinline := Function.inline_code hgenerated.legible hgenerated.code
  refine ⟨f, types, lines, lines.map Line.row, hgenerated, hinline.splitOn_render,
    hlaid.indented, ?_⟩
  have hrows : (lines.map Line.row).map unindented = lines.map (·.text) := by
    rw [List.map_map]
    exact List.map_congr_left fun line hline => unindented_row (hlaid.begins line hline)
  rw [hrows, List.forall₂_map_right_iff]
  exact hlaid.forall₂_shows

/-- A source with three blocks in each other, and with braces and a newline in its literals. -/
def nestedBlocks : String :=
  "fn count() \x7b for (i gets 0; i < n; i gets i + 1) \x7b if (i == 2) \x7b " ++
    "s gets \"\x7d\"; while (s != \"\x7b\") \x7b return s; \x7d \x7d \x7d return \"\\n\"; \x7d"

/-- The code of `nestedBlocks` if `n` is an integer. -/
def nestedProgram : Program :=
  { text := "#include <bits/stdc++.h>\nusing namespace std;\n\nstring count() \x7b\n" ++
      "    int n\x7b\x7d;\n    for (int i = 0; i < n; i = i + 1) \x7b\n" ++
      "        if (i == 2) \x7b\n            string s = \"\x7d\";\n" ++
      "            while (s != \"\x7b\") \x7b\n                return s;\n" ++
      "            \x7d\n        \x7d\n    \x7d\n    return \"\\n\";\n\x7d\n\n" ++
      "int main() \x7b\n    cout << count() << endl;\n    return 0;\n\x7d\n"
    name := "count"
    returnType := some .string }

/-- The rows of `nestedProgram` follow its blocks, and no brace of a literal counts. -/
theorem nestedProgram_indented :
    convert nestedBlocks ⟨[("n", .int)]⟩ = .ok nestedProgram ∧
    ∃ f types lines rows, Generated nestedBlocks ⟨[("n", .int)]⟩ nestedProgram f types lines ∧
      (render lines).toList.splitOn '\n' = rows ++ [[]] ∧ Indented rows ∧
      List.Forall₂ (Shows types nestedProgram.returnType) f.outline (rows.map unindented) := by
  have hconvert : convert nestedBlocks ⟨[("n", .int)]⟩ = .ok nestedProgram := by decide +kernel
  exact ⟨hconvert, convert_indents_by_nesting hconvert⟩

end Pseudocode
