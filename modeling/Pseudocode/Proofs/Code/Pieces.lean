import Pseudocode.Target.Code
import Pseudocode.Proofs.Grammar.Linear

/-!
# Tokens of the generated code

The tokens of the code of a tree, each with a mark that says whether the source has it too or
the code adds it. Only four things are added to a body: the type of a variable in front of an
assignment that declares it, the conversion of a string literal in front of or behind an
arithmetic operator, and the parentheses that a minus sign or a negation sign needs to stay
apart from its operand.

## Main definitions

* `Piece` — a token of the code, taken from the source or added.
* `Expr.pieces`, `Condition.pieces`, `Stmt.pieces`, `Stmt.allPieces` — the code of a tree.
* `Function.codeKinds` — the kinds of the tokens of a function.

## Main statements

* `Stmt.source_allPieces` — what is left of a body without the additions is its linear form.
-/
namespace Pseudocode

/-- A token of the generated code. -/
inductive Piece where
  /-- The token stands in the source. -/
  | source (kind : Kind)
  /-- The token stands in the code only. -/
  | added (kind : Kind)
  deriving DecidableEq

namespace Piece

/-- The kind of a token of the code. -/
def kind : Piece → Kind
  | source k => k
  | added k => k

/-- The token of the source, if it is one. -/
def source? : Piece → Option Kind
  | source k => some k
  | added _ => none

/-- Added tokens. -/
def addition (ks : List Kind) : List Piece := ks.map added

/-- A piece of code in added parentheses. -/
def wrapped (ps : List Piece) : List Piece := added .leftParen :: (ps ++ [added .rightParen])

@[simp] theorem filterMap_source?_cons_source (k : Kind) (ps : List Piece) :
    (source k :: ps).filterMap source? = k :: ps.filterMap source? := rfl

@[simp] theorem filterMap_source?_cons_added (k : Kind) (ps : List Piece) :
    (added k :: ps).filterMap source? = ps.filterMap source? := rfl

@[simp] theorem map_kind_addition (ks : List Kind) : (addition ks).map kind = ks := by
  simp [addition, Function.comp_def, kind]

@[simp] theorem filterMap_source?_addition (ks : List Kind) :
    (addition ks).filterMap source? = [] := by
  simp [addition, source?]

@[simp] theorem map_kind_wrapped (ps : List Piece) :
    (wrapped ps).map kind = .leftParen :: (ps.map kind ++ [.rightParen]) := by
  simp [wrapped, kind]

/-- Added parentheses leave what is in them. -/
@[simp] theorem filterMap_source?_wrapped (ps : List Piece) :
    (wrapped ps).filterMap source? = ps.filterMap source? := by
  simp [wrapped]

end Piece

/-- The kinds of the tokens of a type. -/
def DataType.kinds : DataType → List Kind
  | .int => [.name "int"]
  | .float => [.name "float"]
  | .string => [.name "string"]
  | .char => [.name "char"]
  | .long => [.name "long"]
  | .array => [.name "vector", .rel .less, .name "int", .rel .greater]
  | .vector => [.name "vector", .rel .less, .name "int", .rel .greater]

/-- The kinds of the tokens of a return type. -/
def Target.returnKinds (t : Option DataType) : List Kind :=
  (t.map DataType.kinds).getD [.name "void"]

/-- The kinds of the tokens of the type of a variable. -/
def TypeMap.kinds (types : TypeMap) (x : String) : List Kind :=
  ((types.get? x).map DataType.kinds).getD []

theorem TypeMap.demand_eq_ok {types : TypeMap} {x : String} {t : DataType} :
    types.demand x = .ok t ↔ types.get? x = some t := by
  rw [demand]
  cases types.get? x with
  | none => simp
  | some u => simp

theorem TypeMap.kinds_of_demand {types : TypeMap} {x : String} {t : DataType}
    (h : types.demand x = .ok t) : types.kinds x = t.kinds := by
  simp [TypeMap.kinds, demand_eq_ok.1 h]

namespace Expr

/-- The code of the operand of a minus sign: a negation is put in parentheses. -/
def negatedPieces (e : Expr) (ps : List Piece) : List Piece :=
  match e with
  | .neg _ => Piece.wrapped ps
  | _ => ps

/-- The code of an operand of an arithmetic operator: a string literal is made a string. -/
def operandPieces (e : Expr) (ps : List Piece) : List Piece :=
  match e with
  | .lit (.str _) => .added (.name "string") :: Piece.wrapped ps
  | _ => ps

/-- The code of an expression. -/
def pieces : Expr → List Piece
  | .var x => [.source (.name x)]
  | .lit value => [.source (.literal value)]
  | .neg e => .source (.arith .sub) :: e.negatedPieces e.pieces
  | .group e => .source .leftParen :: (e.pieces ++ [.source .rightParen])
  | .bin op l r => l.operandPieces l.pieces ++ .source (.arith op) :: r.operandPieces r.pieces

/-- A minus sign adds parentheses at most. -/
@[simp] theorem source_negatedPieces (e : Expr) (ps : List Piece) :
    (e.negatedPieces ps).filterMap Piece.source? = ps.filterMap Piece.source? := by
  cases e with
  | neg e => simp [negatedPieces]
  | var x => rfl
  | lit value => rfl
  | group e => rfl
  | bin op l r => rfl

/-- An operand adds a conversion at most. -/
@[simp] theorem source_operandPieces (e : Expr) (ps : List Piece) :
    (e.operandPieces ps).filterMap Piece.source? = ps.filterMap Piece.source? := by
  rw [operandPieces.eq_def]
  split
  · simp
  · rfl

/-- Without the additions, an expression has the tokens of the source. -/
@[simp] theorem source_pieces (e : Expr) : e.pieces.filterMap Piece.source? = e.kinds := by
  induction e with
  | var x => rfl
  | lit value => rfl
  | neg e ih => simp [pieces, kinds, ih]
  | group e ih => simp [pieces, kinds, ih]
  | bin op l r ihl ihr => simp [pieces, kinds, ihl, ihr]

end Expr

namespace Condition

/-- The code of the operand of a negation sign: parentheses are added unless it has its own or
is a negation. -/
def negatedPieces (c : Condition) (ps : List Piece) : List Piece :=
  match c with
  | .group _ => ps
  | .not _ => ps
  | _ => Piece.wrapped ps

/-- The code of a condition. -/
def pieces : Condition → List Piece
  | .cmp op l r => l.pieces ++ .source (.rel op) :: r.pieces
  | .logic op l r => l.pieces ++ .source (.logic op) :: r.pieces
  | .not c => .source .bang :: c.negatedPieces c.pieces
  | .group c => .source .leftParen :: (c.pieces ++ [.source .rightParen])

@[simp] theorem source_negatedPieces (c : Condition) (ps : List Piece) :
    (c.negatedPieces ps).filterMap Piece.source? = ps.filterMap Piece.source? := by
  cases c with
  | cmp op l r => simp [negatedPieces]
  | logic op l r => simp [negatedPieces]
  | not c => rfl
  | group c => rfl

/-- Without the additions, a condition has the tokens of the source. -/
@[simp] theorem source_pieces (c : Condition) : c.pieces.filterMap Piece.source? = c.kinds := by
  induction c with
  | cmp op l r => simp [pieces, kinds]
  | logic op l r ihl ihr => simp [pieces, kinds, ihl, ihr]
  | not c ih => simp [pieces, kinds, ih]
  | group c ih => simp [pieces, kinds, ih]

end Condition

/-- The code of an assignment, with the type of its target in front if it declares it. -/
def Assignment.pieces (types : TypeMap) (a : Assignment) : List Piece :=
  (if a.declares then Piece.addition (types.kinds a.target) else []) ++
    .source (.name a.target) :: .source .gets :: a.value.pieces

/-- The code in front of a block. -/
def Header.pieces (types : TypeMap) : Header → List Piece
  | .ifThen c =>
    .source (.keyword .ifKw) :: .source .leftParen :: (c.pieces ++ [.source .rightParen])
  | .whileDo c =>
    .source (.keyword .whileKw) :: .source .leftParen :: (c.pieces ++ [.source .rightParen])
  | .forDo init c update =>
    .source (.keyword .forKw) :: .source .leftParen ::
      (init.pieces types ++ .source .semicolon :: (c.pieces ++ .source .semicolon ::
        (update.pieces types ++ [.source .rightParen])))

mutual

/-- The code of a statement. -/
def Stmt.pieces (types : TypeMap) : Stmt → List Piece
  | .assign a => a.pieces types ++ [.source .semicolon]
  | .block header body _ =>
    header.pieces types ++ .source .leftCurly ::
      (Stmt.allPieces types body ++ [.source .rightCurly])
  | .ret value _ => .source (.keyword .returnKw) :: (value.pieces ++ [.source .semicolon])

/-- The code of a list of statements. -/
def Stmt.allPieces (types : TypeMap) : List Stmt → List Piece
  | [] => []
  | stmt :: rest => stmt.pieces types ++ Stmt.allPieces types rest

end

@[simp] theorem Assignment.source_pieces (types : TypeMap) (a : Assignment) :
    (a.pieces types).filterMap Piece.source? = a.kinds := by
  cases hdeclares : a.declares with
  | false => simp [pieces, kinds, hdeclares]
  | true => simp [pieces, kinds, hdeclares]

@[simp] theorem Header.source_pieces (types : TypeMap) (header : Header) :
    (header.pieces types).filterMap Piece.source? = header.kinds := by
  cases header with
  | ifThen c => simp [pieces, kinds]
  | whileDo c => simp [pieces, kinds]
  | forDo init c update => simp [pieces, kinds]

mutual

theorem Stmt.source_pieces (types : TypeMap) (stmt : Stmt) :
    (stmt.pieces types).filterMap Piece.source? = stmt.kinds := by
  match stmt with
  | .assign a => simp [Stmt.pieces, Stmt.kinds]
  | .ret value _ => simp [Stmt.pieces, Stmt.kinds]
  | .block header body _ =>
    simp [Stmt.pieces, Stmt.kinds, Stmt.source_allPieces types body]

/-- Without the additions, the code of a body has the tokens of the body, in their order. -/
theorem Stmt.source_allPieces (types : TypeMap) (body : List Stmt) :
    (Stmt.allPieces types body).filterMap Piece.source? = Stmt.allKinds body := by
  match body with
  | [] => rfl
  | stmt :: rest =>
    simp [Stmt.allPieces, Stmt.allKinds, Stmt.source_pieces types stmt,
      Stmt.source_allPieces types rest]

end

/-- The kinds of the tokens that declare variables up front. -/
def declarationKinds (types : TypeMap) (free : List String) : List Kind :=
  free.flatMap fun x => types.kinds x ++ [.name x, .leftCurly, .rightCurly, .semicolon]

/-- The kinds of the tokens of a function: its type and name, the variables that are declared up
front, and the body. -/
def Function.codeKinds (types : TypeMap) (returnType : Option DataType) (f : Function) :
    List Kind :=
  Target.returnKinds returnType ++
    [.name f.name, .leftParen, .rightParen, .leftCurly] ++
    declarationKinds types f.free ++ (Stmt.allPieces types f.body).map Piece.kind ++
    [.rightCurly]

end Pseudocode
