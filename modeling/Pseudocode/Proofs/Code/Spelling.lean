import Pseudocode.Proofs.Code.Pieces
import Pseudocode.Proofs.Code.Respelling
import Pseudocode.Proofs.Grammar.Readers
import Pseudocode.Proofs.Scope.Mentions

/-!
# What generated code spells

The text of a tree spells the tokens of its code. Whatever the text of an expression, a
condition or a header is followed by stops it, so these spell their tokens in front of every
such text; a line ends itself, so lines spell theirs in front of any text.
-/
namespace Pseudocode

open Target

section Spells
variable {cs ds : List Char} {ks ls : List Kind}

theorem stops_space (rest : List Char) : Stops (' ' :: rest) :=
  stops_cons (by decide) (by decide) rest

theorem stops_semicolon (rest : List Char) : Stops (';' :: rest) :=
  stops_cons (by decide) (by decide) rest

theorem stops_leftParen (rest : List Char) : Stops ('(' :: rest) :=
  stops_cons (by decide) (by decide) rest

/-- A text in parentheses spells its tokens in parentheses. -/
theorem Spells.parens (h : Spells cs ks) :
    Spells ('(' :: (cs ++ [')'])) (.leftParen :: (ks ++ [.rightParen])) := by
  intro rest later hstop hrest
  have hstop' : Stops (')' :: rest) := stops_cons (by decide) (by decide) rest
  have hinside := h (')' :: rest) (.rightParen :: later) hstop' hrest.rightParen
  simpa using hinside.leftParen

/-- Texts with a blank between them spell their tokens one after the other. -/
theorem Spells.spaced (h : Spells cs ks) (hd : Spells ds ls) :
    Spells (cs ++ ' ' :: ds) (ks ++ ls) := by
  intro rest later hstop hrest
  have hbehind := (hd rest later hstop hrest).space
  simpa using h _ _ (stops_space _) hbehind

/-- Two texts around a symbol between blanks. -/
theorem Spells.around {symbol : List Char} {k : Kind}
    (hsymbol : ∀ {rest later}, Lexed rest later → Lexed (symbol ++ ' ' :: rest) (k :: later))
    (h : Spells cs ks) (hd : Spells ds ls) :
    Spells (cs ++ ' ' :: (symbol ++ ' ' :: ds)) (ks ++ k :: ls) := by
  intro rest later hstop hrest
  have hbehind := (hsymbol (hd rest later hstop hrest)).space
  simpa using h _ _ (stops_space _) hbehind

theorem Spells.minus (h : Spells cs ks) : Spells ('-' :: cs) (.arith .sub :: ks) := by
  intro rest later hstop hrest
  exact (h rest later hstop hrest).minus

theorem Spells.semicolon (h : Spells cs ks) : Spells (cs ++ [';']) (ks ++ [.semicolon]) := by
  intro rest later hstop hrest
  simpa using h _ _ (stops_semicolon rest) hrest.semicolon

/-- The opening brace behind a header. -/
theorem Spells.leftCurly (h : Spells cs ks) : Spells (cs ++ [' ', '{']) (ks ++ [.leftCurly]) := by
  intro rest later hstop hrest
  simpa using h _ _ (stops_space _) hrest.leftCurly.space

theorem spells_rightCurly : Spells ['}'] [.rightCurly] := by
  intro rest later hstop hrest
  exact hrest.rightCurly

end Spells

/-- A type is spelled by its own tokens. -/
theorem DataType.lexed_spelling (t : DataType) {rest : List Char} {later : List Kind}
    (h : Lexed rest later) : Lexed (t.spelling.toList ++ ' ' :: rest) (t.kinds ++ later) := by
  have hword {x : String} (hx : isWord x.toList = true) :
      Lexed (x.toList ++ ' ' :: rest) ([Item.wordKind x] ++ later) :=
    spells_word hx _ _ (stops_space rest) h.space
  -- the name of a vector has the type of its elements in angle brackets behind it
  have hvector : Lexed ("vector<int>".toList ++ ' ' :: rest)
      ([.name "vector", .rel .less, .name "int", .rel .greater] ++ later) := by
    have hgreater : Lexed ('>' :: ' ' :: rest) (.rel .greater :: later) := h.rel .greater
    have hint : Lexed ("int".toList ++ '>' :: ' ' :: rest) (.name "int" :: .rel .greater :: later) :=
      spells_word (by decide) _ _ (stops_cons (by decide) (by decide) _) hgreater
    have hless : Lexed ('<' :: ("int".toList ++ '>' :: ' ' :: rest))
        (.rel .less :: .name "int" :: .rel .greater :: later) := .of_read rfl hint
    have hname : Spells "vector".toList [.name "vector"] := spells_word (by decide)
    exact hname _ _ (stops_cons (by decide) (by decide) _) hless
  cases t with
  | int => exact hword (by decide)
  | float => exact hword (by decide)
  | string => exact hword (by decide)
  | char => exact hword (by decide)
  | long => exact hword (by decide)
  | array => exact hvector
  | vector => exact hvector

/-- The type of a function is spelled by its own tokens, also if it gives nothing back. -/
theorem Target.lexed_returnSpelling (t : Option DataType) {rest : List Char} {later : List Kind}
    (h : Lexed rest later) :
    Lexed ((returnSpelling t).toList ++ ' ' :: rest) (returnKinds t ++ later) := by
  cases t with
  | none => exact spells_word (by decide) _ _ (stops_space rest) h.space
  | some t => exact t.lexed_spelling h

namespace Expr

variable {types : TypeMap} {text : String}

/-- The text of a negated operand spells the pieces of one. -/
theorem spells_negatedText (e : Expr) {ps : List Piece}
    (h : Spells text.toList (ps.map Piece.kind)) :
    Spells (e.negatedText text).toList ((e.negatedPieces ps).map Piece.kind) := by
  cases e with
  | neg e => simpa [negatedText, negatedPieces, parens] using h.parens
  | var x => exact h
  | lit value => exact h
  | group e => exact h
  | bin op l r => exact h

/-- The text of an operand spells the pieces of one. -/
theorem spells_operandText (e : Expr) {ps : List Piece}
    (h : Spells text.toList (ps.map Piece.kind)) :
    Spells (e.operandText text).toList ((e.operandPieces ps).map Piece.kind) := by
  cases e with
  | lit value =>
      cases value with
      | str inside =>
          -- the opening parenthesis ends the name of the type
          intro rest later hstop hrest
          have hname : Spells "string".toList [.name "string"] := spells_word (by decide)
          have hinside := h.parens rest later hstop hrest
          simpa [operandText, operandPieces, parens, Piece.kind] using
            hname _ _ (stops_leftParen _) hinside
      | int n => exact h
      | float x => exact h
      | char inside => exact h
      | bool b => exact h
  | var x => exact h
  | neg e => exact h
  | group e => exact h
  | bin op l r => exact h

/-- The text of an expression spells its code. -/
theorem spells_code {e : Expr} (h : e.code types = .ok text) (hkinds : ∀ k ∈ e.kinds, k.Relexes) :
    Spells text.toList (e.pieces.map Piece.kind) := by
  induction e generalizing text with
  | var x =>
      obtain ⟨t, -, h⟩ := bind_eq_ok.1 h
      obtain rfl := Except.ok.inj h
      exact hkinds (.name x) (by simp [kinds])
  | lit value =>
      obtain rfl := Except.ok.inj h
      exact hkinds (.literal value) (by simp [kinds])
  | neg e ih =>
      obtain ⟨inside, hinside, h⟩ := bind_eq_ok.1 h
      obtain rfl := Except.ok.inj h
      have hspells := ih hinside fun k hk => hkinds k (by simp [kinds, hk])
      simpa [pieces, Piece.kind] using (e.spells_negatedText hspells).minus
  | group e ih =>
      obtain ⟨inside, hinside, h⟩ := bind_eq_ok.1 h
      obtain rfl := Except.ok.inj h
      have hspells := ih hinside fun k hk => hkinds k (by simp [kinds, hk])
      simpa [pieces, Piece.kind, parens] using hspells.parens
  | bin op l r ihl ihr =>
      obtain ⟨left, hleft, h⟩ := bind_eq_ok.1 h
      obtain ⟨right, hright, h⟩ := bind_eq_ok.1 h
      obtain rfl := Except.ok.inj h
      have hl := l.spells_operandText (ihl hleft fun k hk => hkinds k (by simp [kinds, hk]))
      have hr := r.spells_operandText (ihr hright fun k hk => hkinds k (by simp [kinds, hk]))
      simpa [pieces, Piece.kind] using Spells.around (Lexed.arith op) hl hr

end Expr

namespace Condition

variable {types : TypeMap} {text : String}

/-- The operand of a negation sign begins with a parenthesis or with another negation sign, so
no equality sign follows. -/
theorem head?_negatedText {c : Condition} (h : c.code types = .ok text) (rest : List Char) :
    ∀ d ∈ ((c.negatedText text).toList ++ rest).head?, d ≠ '=' := by
  cases c with
  | cmp op l r => simp [negatedText, parens]
  | logic op l r => simp [negatedText, parens]
  | not c =>
      obtain ⟨inside, -, h⟩ := bind_eq_ok.1 h
      obtain rfl := Except.ok.inj h
      simp [negatedText]
  | group c =>
      obtain ⟨inside, -, h⟩ := bind_eq_ok.1 h
      obtain rfl := Except.ok.inj h
      simp [negatedText, parens]

theorem spells_negatedText (c : Condition) {ps : List Piece}
    (h : Spells text.toList (ps.map Piece.kind)) :
    Spells (c.negatedText text).toList ((c.negatedPieces ps).map Piece.kind) := by
  cases c with
  | cmp op l r => simpa [negatedText, negatedPieces, parens] using h.parens
  | logic op l r => simpa [negatedText, negatedPieces, parens] using h.parens
  | not c => exact h
  | group c => exact h

/-- The text of a condition spells its code. -/
theorem spells_code {c : Condition} (h : c.code types = .ok text)
    (hkinds : ∀ k ∈ c.kinds, k.Relexes) : Spells text.toList (c.pieces.map Piece.kind) := by
  induction c generalizing text with
  | cmp op l r =>
      obtain ⟨left, hleft, h⟩ := bind_eq_ok.1 h
      obtain ⟨right, hright, h⟩ := bind_eq_ok.1 h
      obtain rfl := Except.ok.inj h
      have hl := l.spells_code hleft fun k hk => hkinds k (by simp [kinds, hk])
      have hr := r.spells_code hright fun k hk => hkinds k (by simp [kinds, hk])
      simpa [pieces, Piece.kind] using Spells.around (Lexed.rel op) hl hr
  | logic op l r ihl ihr =>
      obtain ⟨left, hleft, h⟩ := bind_eq_ok.1 h
      obtain ⟨right, hright, h⟩ := bind_eq_ok.1 h
      obtain rfl := Except.ok.inj h
      have hl := ihl hleft fun k hk => hkinds k (by simp [kinds, hk])
      have hr := ihr hright fun k hk => hkinds k (by simp [kinds, hk])
      simpa [pieces, Piece.kind] using Spells.around (Lexed.logic op) hl hr
  | not c ih =>
      obtain ⟨inside, hinside, h⟩ := bind_eq_ok.1 h
      obtain rfl := Except.ok.inj h
      have hspells := c.spells_negatedText (ih hinside fun k hk => hkinds k (by simp [kinds, hk]))
      intro rest later hstop hrest
      have hnext := head?_negatedText hinside rest
      simpa [pieces, Piece.kind] using (hspells rest later hstop hrest).bang hnext
  | group c ih =>
      obtain ⟨inside, hinside, h⟩ := bind_eq_ok.1 h
      obtain rfl := Except.ok.inj h
      have hspells := ih hinside fun k hk => hkinds k (by simp [kinds, hk])
      simpa [pieces, Piece.kind, parens] using hspells.parens

end Condition

section Headers
variable {types : TypeMap} {text : String}

/-- The text of an assignment spells its code. -/
theorem Assignment.spells_code {a : Assignment} (h : a.code types = .ok text)
    (hkinds : ∀ k ∈ a.kinds, k.Relexes) : Spells text.toList ((a.pieces types).map Piece.kind) := by
  obtain ⟨value, hvalue, h⟩ := bind_eq_ok.1 h
  obtain ⟨t, ht, h⟩ := bind_eq_ok.1 h
  obtain rfl := Except.ok.inj h
  have htarget : Spells a.target.toList [.name a.target] :=
    hkinds (.name a.target) (by simp [kinds])
  have hspells := a.value.spells_code hvalue fun k hk => hkinds k (by simp [kinds, hk])
  have hgets : Spells (a.target.toList ++ ' ' :: (['='] ++ ' ' :: value.toList))
      ([.name a.target] ++ .gets :: a.value.pieces.map Piece.kind) :=
    htarget.around Lexed.gets hspells
  intro rest later hstop hrest
  have hassign := hgets rest later hstop hrest
  cases hdeclares : a.declares with
  | false => simpa [pieces, Piece.kind, hdeclares] using hassign
  | true =>
      simpa [pieces, Piece.kind, hdeclares, TypeMap.kinds_of_demand ht] using t.lexed_spelling hassign

/-- The text of a header spells its code, provided that its update declares nothing. -/
theorem Header.spells_code {header : Header} (h : header.code types = .ok text)
    (hkinds : ∀ k ∈ header.kinds, k.Relexes) {p : List Nat}
    (hflags : ∀ m ∈ header.mentions p, m.declares = true → m.use = .write) :
    Spells text.toList ((header.pieces types).map Piece.kind) := by
  cases header with
  | ifThen c =>
      obtain ⟨test, htest, h⟩ := bind_eq_ok.1 h
      obtain rfl := Except.ok.inj h
      have hc := c.spells_code htest fun k hk => hkinds k (by simp [kinds, hk])
      have hif : Spells "if".toList [.keyword .ifKw] := spells_word (by decide)
      simpa [pieces, Piece.kind, parens] using hif.spaced hc.parens
  | whileDo c =>
      obtain ⟨test, htest, h⟩ := bind_eq_ok.1 h
      obtain rfl := Except.ok.inj h
      have hc := c.spells_code htest fun k hk => hkinds k (by simp [kinds, hk])
      have hwhile : Spells "while".toList [.keyword .whileKw] := spells_word (by decide)
      simpa [pieces, Piece.kind, parens] using hwhile.spaced hc.parens
  | forDo init c update =>
      obtain ⟨first, hfirst, h⟩ := bind_eq_ok.1 h
      obtain ⟨test, htest, h⟩ := bind_eq_ok.1 h
      obtain ⟨next, hnext, h⟩ := bind_eq_ok.1 h
      obtain rfl := Except.ok.inj h
      have hupdate : { update with declares := false : Assignment } = update := by
        have hflag : update.declares = false := by
          by_contra hne
          have huse := hflags ⟨update.target, .update, p, update.declares⟩
            (by simp [mentions, Assignment.mentions]) (by simpa using hne)
          cases huse
        rw [← hflag]
      rw [hupdate] at hnext
      have hi := init.spells_code hfirst fun k hk => hkinds k (by simp [kinds, hk])
      have hc := c.spells_code htest fun k hk => hkinds k (by simp [kinds, hk])
      have hu := update.spells_code hnext fun k hk => hkinds k (by simp [kinds, hk])
      have hfor : Spells "for".toList [.keyword .forKw] := spells_word (by decide)
      have hinside := (hi.semicolon.spaced hc).semicolon.spaced hu
      simpa [pieces, Piece.kind, parens] using hfor.spaced hinside.parens

end Headers

/-- Lines whose text spells these kinds in front of every text. -/
def Renders (lines : List Line) (ks : List Kind) : Prop :=
  ∀ rest later, Lexed rest later → Lexed ((render lines).toList ++ rest) (ks ++ later)

theorem Lexed.spaces {rest : List Char} {later : List Kind} (h : Lexed rest later) (n : Nat) :
    Lexed (Text.spaces n ++ rest) later := by
  induction n with
  | zero => exact h
  | succ n ih => exact ih.space

section Renders
variable {lines more : List Line} {ks ls : List Kind}

theorem renders_nil : Renders [] [] := by
  intro rest later h
  simpa [render] using h

/-- Lines spell their tokens one after the other. -/
theorem Renders.append (h : Renders lines ks) (hmore : Renders more ls) :
    Renders (lines ++ more) (ks ++ ls) := by
  intro rest later hrest
  simpa using h _ _ (hmore rest later hrest)

/-- A line spells what its text does, because its ending stops it. -/
theorem Spells.renders {text : String} (h : Spells text.toList ks) (depth : Nat) :
    Renders [⟨depth, text⟩] ks := by
  intro rest later hrest
  have hstop : Stops ('\n' :: rest) := stops_cons (by decide) (by decide) rest
  have htext := h ('\n' :: rest) later hstop hrest.newline
  simpa [render, Line.render] using htext.spaces (indentWidth * depth)

/-- A block behind a header spells both, and the braces. -/
theorem Renders.braced {header : String} (h : Renders lines ls) (hheader : Spells header.toList ks)
    (depth : Nat) :
    Renders (braced depth header lines) (ks ++ .leftCurly :: (ls ++ [.rightCurly])) := by
  have hfirst : Renders [⟨depth, header ++ " \x7b"⟩] (ks ++ [.leftCurly]) :=
    Spells.renders (by simpa using hheader.leftCurly) depth
  have hlast : Renders [⟨depth, "\x7d"⟩] [.rightCurly] :=
    Spells.renders (by simpa using spells_rightCurly) depth
  simpa [Target.braced] using hfirst.append (h.append hlast)

end Renders

mutual

/-- The lines of a statement spell its code. -/
theorem Stmt.renders_code {types : TypeMap} {depth : Nat} {p : List Nat} {i : Nat} (stmt : Stmt)
    {lines : List Line} (h : stmt.code types depth = .ok lines)
    (hkinds : ∀ k ∈ stmt.kinds, k.Relexes)
    (hflags : ∀ m ∈ stmt.mentions p i, m.declares = true → m.use = .write) :
    Renders lines ((stmt.pieces types).map Piece.kind) := by
  match stmt with
  | .assign a =>
      obtain ⟨text, htext, h⟩ := bind_eq_ok.1 h
      obtain rfl := Except.ok.inj h
      have ha := a.spells_code htext fun k hk => hkinds k (by simp [Stmt.kinds, hk])
      exact Spells.renders (by simpa [Stmt.pieces, Piece.kind] using ha.semicolon) depth
  | .block header body pos =>
      obtain ⟨text, htext, h⟩ := bind_eq_ok.1 h
      obtain ⟨inside, hinside, h⟩ := bind_eq_ok.1 h
      obtain rfl := Except.ok.inj h
      rw [Stmt.mentions, List.forall_mem_append] at hflags
      have hheader := header.spells_code htext (fun k hk => hkinds k (by simp [Stmt.kinds, hk]))
        hflags.1
      have hbody := Stmt.renders_allCode body hinside
        (fun k hk => hkinds k (by simp [Stmt.kinds, hk])) hflags.2
      simpa [Stmt.pieces, Piece.kind] using hbody.braced hheader depth
  | .ret value pos =>
      obtain ⟨text, htext, h⟩ := bind_eq_ok.1 h
      obtain rfl := Except.ok.inj h
      have hvalue := value.spells_code htext fun k hk => hkinds k (by simp [Stmt.kinds, hk])
      have hreturn : Spells "return".toList [.keyword .returnKw] := spells_word (by decide)
      refine Spells.renders ?_ depth
      simpa [Stmt.pieces, Piece.kind] using hreturn.spaced hvalue.semicolon

/-- The lines of a body spell its code. -/
theorem Stmt.renders_allCode {types : TypeMap} {depth : Nat} {p : List Nat} {i : Nat}
    (body : List Stmt) {lines : List Line} (h : Stmt.allCode types depth body = .ok lines)
    (hkinds : ∀ k ∈ Stmt.allKinds body, k.Relexes)
    (hflags : ∀ m ∈ Stmt.allMentions p i body, m.declares = true → m.use = .write) :
    Renders lines ((Stmt.allPieces types body).map Piece.kind) := by
  match body with
  | [] =>
      obtain rfl := Except.ok.inj h
      exact renders_nil
  | stmt :: rest =>
      obtain ⟨first, hfirst, h⟩ := bind_eq_ok.1 h
      obtain ⟨later, hlater, h⟩ := bind_eq_ok.1 h
      obtain rfl := Except.ok.inj h
      rw [Stmt.allKinds, List.forall_mem_append] at hkinds
      rw [Stmt.allMentions, List.forall_mem_append] at hflags
      have hstmt := Stmt.renders_code stmt hfirst hkinds.1 hflags.1
      have hrest := Stmt.renders_allCode rest hlater hkinds.2 hflags.2
      simpa [Stmt.allPieces] using hstmt.append hrest

end

/-- The lines that declare variables up front spell one group of tokens for each of them. -/
theorem Function.renders_declarations {types : TypeMap} {free : List String} {lines : List Line}
    (h : declarations types free = .ok lines) (hnames : ∀ x ∈ free, (Kind.name x).Relexes) :
    Renders lines (declarationKinds types free) := by
  induction free generalizing lines with
  | nil =>
      obtain rfl := Except.ok.inj h
      exact renders_nil
  | cons x free ih =>
      obtain ⟨t, ht, h⟩ := bind_eq_ok.1 h
      obtain ⟨later, hlater, h⟩ := bind_eq_ok.1 h
      obtain rfl := Except.ok.inj h
      have hx : Spells x.toList [.name x] := hnames x (by simp)
      have hgroup : Spells (t.spelling ++ " " ++ x ++ "\x7b\x7d;").toList
          (t.kinds ++ [.name x, .leftCurly, .rightCurly, .semicolon]) := by
        intro rest later hstop hrest
        have hbraces := hrest.semicolon.rightCurly.leftCurly
        have hname := hx _ _ (stops_cons (by decide) (by decide) _) hbraces
        simpa using t.lexed_spelling hname
      have hfree := ih hlater fun y hy => hnames y (List.mem_cons_of_mem x hy)
      simpa [declarationKinds, TypeMap.kinds_of_demand ht] using (hgroup.renders 1).append hfree

end Pseudocode
