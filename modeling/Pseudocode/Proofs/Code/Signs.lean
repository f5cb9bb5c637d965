import Pseudocode.Proofs.Code.Inline
import Pseudocode.Proofs.Code.Relexing

/-!
# Signs of the generated code stay apart

The operators of an expression stand between blanks, and the one sign that is not followed by a
blank is a minus sign in front of its operand. What is read as such an operand is a name, a literal,
a group or another negation, and the last one is put in parentheses; so a minus sign is never
followed by another one. Literals are read without a sign, and the code writes them without one.
-/
namespace Pseudocode

open Target

/-- Between blanks, no operator fuses with its operands. -/
theorem ArithOp.inline_symbol (op : ArithOp) : Inline (" " ++ op.symbol ++ " ") := by
  cases op <;> decide

theorem RelOp.inline_symbol (op : RelOp) : Inline (" " ++ op.symbol ++ " ") := by
  cases op <;> decide

theorem LogicOp.inline_symbol (op : LogicOp) : Inline (" " ++ op.symbol ++ " ") := by
  cases op <;> decide

namespace Expr

variable {types : TypeMap} {text : String}

/-- The conversion of an operand stays in the line. -/
theorem inline_operandText (e : Expr) (h : Inline text) : Inline (e.operandText text) := by
  rw [operandText.eq_def]
  split
  · exact .append (by decide) h.parens
  · exact h

/-- The operand of a minus sign begins with no sign: it is a name, a literal or a group, or it has
been put in parentheses. -/
theorem isOperand_negatedText {e : Expr} (h : e.code types = .ok text) (hinline : Inline text)
    (hbinding : e.binding? = none) (hkinds : ∀ k ∈ e.kinds, k.Legible) :
    IsOperand (e.negatedText text) := by
  cases e with
  | var x =>
      obtain ⟨t, -, h⟩ := bind_eq_ok.1 h
      obtain rfl := Except.ok.inj h
      exact hkinds (.name x) (by simp [kinds])
  | lit value =>
      obtain rfl := Except.ok.inj h
      exact hkinds (.literal value) (by simp [kinds])
  | neg e => exact ⟨hinline.parens, startsPlainly_parens text⟩
  | group e =>
      obtain ⟨inside, -, h⟩ := bind_eq_ok.1 h
      obtain rfl := Except.ok.inj h
      exact ⟨hinline, startsPlainly_parens inside⟩
  | bin op l r => cases hbinding

/-- The text of an expression. -/
theorem inline_code {e : Expr} (h : e.code types = .ok text) (hcanon : e.Canonical)
    (hkinds : ∀ k ∈ e.kinds, k.Legible) : Inline text := by
  induction e generalizing text with
  | var x =>
      obtain ⟨t, -, h⟩ := bind_eq_ok.1 h
      obtain rfl := Except.ok.inj h
      exact (hkinds (.name x) (by simp [kinds])).inline
  | lit value =>
      obtain rfl := Except.ok.inj h
      exact (hkinds (.literal value) (by simp [kinds])).inline
  | neg e ih =>
      obtain ⟨inside, hinside, h⟩ := bind_eq_ok.1 h
      obtain rfl := Except.ok.inj h
      have hlegible : ∀ k ∈ e.kinds, k.Legible := fun k hk => hkinds k (by simp [kinds, hk])
      have hinline := ih hinside hcanon.2 hlegible
      exact (isOperand_negatedText hinside hinline hcanon.1 hlegible).minus
  | group e ih =>
      obtain ⟨inside, hinside, h⟩ := bind_eq_ok.1 h
      obtain rfl := Except.ok.inj h
      exact (ih hinside hcanon fun k hk => hkinds k (by simp [kinds, hk])).parens
  | bin op l r ihl ihr =>
      obtain ⟨left, hleft, h⟩ := bind_eq_ok.1 h
      obtain ⟨right, hright, h⟩ := bind_eq_ok.1 h
      obtain rfl := Except.ok.inj h
      obtain ⟨-, -, hcl, hcr⟩ := hcanon
      have hl := ihl hleft hcl fun k hk => hkinds k (by simp [kinds, hk])
      have hr := ihr hright hcr fun k hk => hkinds k (by simp [kinds, hk])
      exact (l.inline_operandText hl).around op.inline_symbol (r.inline_operandText hr)

end Expr

namespace Condition

variable {types : TypeMap} {text : String}

theorem inline_negatedText (c : Condition) (h : Inline text) : Inline (c.negatedText text) := by
  cases c with
  | cmp op l r => exact h.parens
  | logic op l r => exact h.parens
  | not c => exact h
  | group c => exact h

/-- The sides of a canonical connective are canonical. -/
theorem Canonical.operands {op : LogicOp} {l r : Condition} (h : (logic op l r).Canonical) :
    l.Canonical ∧ r.Canonical := by
  cases op with
  | and => exact h.2.2.2
  | or => exact h.2

/-- The text of a condition. -/
theorem inline_code {c : Condition} (h : c.code types = .ok text) (hcanon : c.Canonical)
    (hkinds : ∀ k ∈ c.kinds, k.Legible) : Inline text := by
  induction c generalizing text with
  | cmp op l r =>
      obtain ⟨left, hleft, h⟩ := bind_eq_ok.1 h
      obtain ⟨right, hright, h⟩ := bind_eq_ok.1 h
      obtain rfl := Except.ok.inj h
      have hl := l.inline_code hleft hcanon.1 fun k hk => hkinds k (by simp [kinds, hk])
      have hr := r.inline_code hright hcanon.2 fun k hk => hkinds k (by simp [kinds, hk])
      exact hl.around op.inline_symbol hr
  | logic op l r ihl ihr =>
      obtain ⟨left, hleft, h⟩ := bind_eq_ok.1 h
      obtain ⟨right, hright, h⟩ := bind_eq_ok.1 h
      obtain rfl := Except.ok.inj h
      have hl := ihl hleft hcanon.operands.1 fun k hk => hkinds k (by simp [kinds, hk])
      have hr := ihr hright hcanon.operands.2 fun k hk => hkinds k (by simp [kinds, hk])
      exact hl.around op.inline_symbol hr
  | not c ih =>
      obtain ⟨inside, hinside, h⟩ := bind_eq_ok.1 h
      obtain rfl := Except.ok.inj h
      have hinline := ih hinside hcanon.2 fun k hk => hkinds k (by simp [kinds, hk])
      exact .append (by decide) (c.inline_negatedText hinline)
  | group c ih =>
      obtain ⟨inside, hinside, h⟩ := bind_eq_ok.1 h
      obtain rfl := Except.ok.inj h
      exact (ih hinside hcanon fun k hk => hkinds k (by simp [kinds, hk])).parens

end Condition

/-- Types are spelled in a line. -/
theorem DataType.inline_spelling (t : DataType) : Inline (t.spelling ++ " ") := by
  cases t <;> decide

theorem Target.inline_returnSpelling (t : Option DataType) : Inline (returnSpelling t ++ " ") := by
  cases t with
  | none => decide
  | some t => exact t.inline_spelling

section Headers
variable {types : TypeMap} {text : String}

/-- The text of an assignment. -/
theorem Assignment.inline_code {a : Assignment} (h : a.code types = .ok text)
    (hcanon : a.value.Canonical) (hkinds : ∀ k ∈ a.kinds, k.Legible) : Inline text := by
  obtain ⟨value, hvalue, h⟩ := bind_eq_ok.1 h
  obtain ⟨t, -, h⟩ := bind_eq_ok.1 h
  obtain rfl := Except.ok.inj h
  have htarget : Inline a.target := (hkinds (.name a.target) (by simp [kinds])).inline
  have hinline := a.value.inline_code hvalue hcanon fun k hk => hkinds k (by simp [kinds, hk])
  have hdeclaration : Inline (if a.declares then t.spelling ++ " " else "") := by
    split
    · exact t.inline_spelling
    · decide
  exact ((hdeclaration.append htarget).append (by decide)).append hinline

/-- The text of a header. -/
theorem Header.inline_code {header : Header} (h : header.code types = .ok text)
    (hcanon : header.Canonical) (hkinds : ∀ k ∈ header.kinds, k.Legible) : Inline text := by
  cases header with
  | ifThen c =>
      obtain ⟨test, htest, h⟩ := bind_eq_ok.1 h
      obtain rfl := Except.ok.inj h
      have hc := c.inline_code htest hcanon fun k hk => hkinds k (by simp [kinds, hk])
      exact .append (by decide) hc.parens
  | whileDo c =>
      obtain ⟨test, htest, h⟩ := bind_eq_ok.1 h
      obtain rfl := Except.ok.inj h
      have hc := c.inline_code htest hcanon fun k hk => hkinds k (by simp [kinds, hk])
      exact .append (by decide) hc.parens
  | forDo init c update =>
      obtain ⟨first, hfirst, h⟩ := bind_eq_ok.1 h
      obtain ⟨test, htest, h⟩ := bind_eq_ok.1 h
      obtain ⟨next, hnext, h⟩ := bind_eq_ok.1 h
      obtain rfl := Except.ok.inj h
      obtain ⟨hcinit, hcc, hcupdate⟩ := hcanon
      have hinit := init.inline_code hfirst hcinit fun k hk => hkinds k (by simp [kinds, hk])
      have hc := c.inline_code htest hcc fun k hk => hkinds k (by simp [kinds, hk])
      have hupdate := Assignment.inline_code hnext hcupdate fun k hk =>
        hkinds k (by simp [kinds, show k ∈ update.kinds from hk])
      have hmark : Inline "; " := by decide
      have hclauses := (((hinit.append hmark).append hc).append hmark).append hupdate
      exact .append (by decide) hclauses.parens

end Headers

/-- All lines have texts that stay in them. -/
def AllInline (lines : List Line) : Prop := ∀ line ∈ lines, Inline line.text

theorem allInline_single {text : String} (h : Inline text) (depth : Nat) :
    AllInline [⟨depth, text⟩] := by
  intro line hline
  rw [List.mem_singleton.1 hline]
  exact h

/-- Lines with inline texts can be put together. -/
theorem AllInline.append {lines more : List Line} (h : AllInline lines) (hmore : AllInline more) :
    AllInline (lines ++ more) :=
  List.forall_mem_append.2 ⟨h, hmore⟩

/-- A block behind a header has inline texts if its lines have. -/
theorem AllInline.braced {lines : List Line} {header : String} (h : AllInline lines)
    (hheader : Inline header) (depth : Nat) : AllInline (braced depth header lines) := by
  have hopen : Inline (header ++ " \x7b") := hheader.append (by decide)
  have hclose : Inline "\x7d" := by decide
  exact (allInline_single hopen depth).append (h.append (allInline_single hclose depth))

mutual

/-- The lines of a statement. -/
theorem Stmt.inline_code {types : TypeMap} {depth : Nat} (stmt : Stmt) {lines : List Line}
    (h : stmt.code types depth = .ok lines) (hcanon : stmt.Canonical)
    (hkinds : ∀ k ∈ stmt.kinds, k.Legible) : AllInline lines := by
  match stmt with
  | .assign a =>
      obtain ⟨text, htext, h⟩ := bind_eq_ok.1 h
      obtain rfl := Except.ok.inj h
      have ha := a.inline_code htext hcanon fun k hk => hkinds k (by simp [Stmt.kinds, hk])
      exact allInline_single (ha.append (by decide)) depth
  | .block header body pos =>
      obtain ⟨text, htext, h⟩ := bind_eq_ok.1 h
      obtain ⟨inside, hinside, h⟩ := bind_eq_ok.1 h
      obtain rfl := Except.ok.inj h
      have hheader := header.inline_code htext hcanon.1 fun k hk =>
        hkinds k (by simp [Stmt.kinds, hk])
      have hbody := Stmt.inline_allCode body hinside hcanon.2 fun k hk =>
        hkinds k (by simp [Stmt.kinds, hk])
      exact hbody.braced hheader depth
  | .ret value pos =>
      obtain ⟨text, htext, h⟩ := bind_eq_ok.1 h
      obtain rfl := Except.ok.inj h
      have hvalue := value.inline_code htext hcanon fun k hk => hkinds k (by simp [Stmt.kinds, hk])
      exact allInline_single (.append (.append (by decide) hvalue) (by decide)) depth

/-- The lines of a body. -/
theorem Stmt.inline_allCode {types : TypeMap} {depth : Nat} (body : List Stmt) {lines : List Line}
    (h : Stmt.allCode types depth body = .ok lines) (hcanon : Stmt.AllCanonical body)
    (hkinds : ∀ k ∈ Stmt.allKinds body, k.Legible) : AllInline lines := by
  match body with
  | [] =>
      obtain rfl := Except.ok.inj h
      exact List.forall_mem_nil _
  | stmt :: rest =>
      obtain ⟨first, hfirst, h⟩ := bind_eq_ok.1 h
      obtain ⟨later, hlater, h⟩ := bind_eq_ok.1 h
      obtain rfl := Except.ok.inj h
      rw [Stmt.allKinds, List.forall_mem_append] at hkinds
      have hstmt := Stmt.inline_code stmt hfirst hcanon.1 hkinds.1
      exact hstmt.append (Stmt.inline_allCode rest hlater hcanon.2 hkinds.2)

end

namespace Function

variable {types : TypeMap} {lines : List Line}

/-- The declarations up front have inline texts. -/
theorem inline_declarations {free : List String} (h : declarations types free = .ok lines)
    (hnames : ∀ x ∈ free, Inline x) : AllInline lines := by
  induction free generalizing lines with
  | nil =>
      obtain rfl := Except.ok.inj h
      exact List.forall_mem_nil _
  | cons x free ih =>
      obtain ⟨t, -, h⟩ := bind_eq_ok.1 h
      obtain ⟨later, hlater, h⟩ := bind_eq_ok.1 h
      obtain rfl := Except.ok.inj h
      rw [List.forall_mem_cons] at hnames
      have hfirst : Inline (t.spelling ++ " " ++ x ++ "\x7b\x7d;") :=
        (t.inline_spelling.append hnames.1).append (by decide)
      exact (allInline_single hfirst 1).append (ih hlater hnames.2)

/-- A function whose names and literals have texts that stay in a line, and whose expressions are
as they are read. -/
structure Legible (f : Function) : Prop where
  canonical : Stmt.AllCanonical f.body
  name : (Kind.name f.name).Legible
  free : ∀ x ∈ f.free, (Kind.name x).Legible
  kinds : ∀ k ∈ Stmt.allKinds f.body, k.Legible

/-- The lines of a function. -/
theorem inline_code {returnType : Option DataType} {f : Function} (hf : f.Legible)
    (h : f.code types returnType = .ok lines) : AllInline lines := by
  obtain ⟨front, hfront, h⟩ := bind_eq_ok.1 h
  obtain ⟨body, hbody, h⟩ := bind_eq_ok.1 h
  obtain rfl := Except.ok.inj h
  have hheader : Inline (returnSpelling returnType ++ " " ++ f.name ++ "()") :=
    ((inline_returnSpelling returnType).append hf.name.inline).append (by decide)
  have hdeclared := inline_declarations hfront fun x hx => (hf.free x hx).inline
  have hinside := hdeclared.append (Stmt.inline_allCode _ hbody hf.canonical hf.kinds)
  exact hinside.braced hheader 0

/-- A function that has been read from a text is legible. -/
theorem legible_of_parse {source : String} {tokens : List Token} {f : Function}
    (htokens : tokenize source = .ok tokens) (h : parse tokens = .ok f) : f.Legible := by
  obtain ⟨hcanon, hprogram⟩ := parse_sound h
  have hread : ∀ k ∈ kindsRead tokens, k.Legible := by
    intro k hk
    obtain ⟨lexeme, hlexeme⟩ := exists_isLexeme_of_tokenize htokens hk
    exact legible_of_isLexeme hlexeme
  have hkinds : ∀ k ∈ Stmt.allKinds f.body, k.Legible := fun k hk =>
    hread k (hprogram.allKinds_subset hk)
  refine ⟨hcanon, ?_, ?_, hkinds⟩
  · rcases hprogram.name_mem_or with hname | himplicit
    · exact hread _ hname
    · have hword : isWord f.name.toList = true := by
        rw [himplicit]
        decide
      exact isOperand_of_isWord hword
  · -- what is declared up front is mentioned in the body
    intro x hx
    exact hkinds _ ((Stmt.allMentioned_iff [] 0 _ x).1 ((settled_of_parse h).mentioned hx))

end Function

/-- The lines of a function as one text. -/
theorem AllInline.unfused_render {lines : List Line} (h : AllInline lines) :
    Unfused (render lines).toList := by
  induction lines with
  | nil => exact .nil
  | cons line lines ih =>
      obtain ⟨hline, hlines⟩ := List.forall_mem_cons.1 h
      have hblanks : Inline (String.ofList (Text.spaces (indentWidth * line.depth))) := by
        refine .of_calm fun c hc => ?_
        rw [String.toList_ofList] at hc
        rw [List.eq_of_mem_replicate hc]
        decide
      have hending : Unfused "\n".toList := by decide
      have hrender : (render (line :: lines)).toList =
          (String.ofList (Text.spaces (indentWidth * line.depth)) ++ line.text).toList ++
            "\n".toList ++ (render lines).toList := by
        simp [render, Line.render]
      rw [hrender]
      exact ((hblanks.append hline).unfused.append hending).append (ih hlines)

/-- The program of a source has a function with these lines: the source is read as the function,
its variables have the types, and its code stands between the header lines and the entry point. -/
structure Generated (source : String) (hints : TypeMap) (p : Program) (f : Function)
    (types : TypeMap) (lines : List Line) : Prop where
  read : ∃ tokens, tokenize source = .ok tokens ∧ parse tokens = .ok f
  typed : ∃ t, check f hints = .ok t ∧ t.context.known = types
  code : f.code types p.returnType = .ok lines
  text : p.text = Assembly.headerText headers ++ render lines ++ "\n" ++
    render (entryPoint f.name p.returnType)

/-- Every conversion comes from a function and its lines. -/
theorem exists_generated {source : String} {hints : TypeMap} {p : Program}
    (h : convert source hints = .ok p) :
    ∃ f types lines, Generated source hints p f types lines := by
  obtain ⟨tokens, f, t, htokens, hf, ht, hp⟩ := exists_stages_of_convert h
  obtain rfl := function_of_check ht
  obtain ⟨lines, hlines, htext⟩ := exists_lines_of_compile hp
  exact ⟨t.function, t.context.known, lines, ⟨tokens, htokens, hf⟩, ⟨t, ht, rfl⟩, hlines, htext⟩

/-- The function of a conversion has legible names and literals. -/
theorem Generated.legible {source : String} {hints : TypeMap} {p : Program} {f : Function}
    {types : TypeMap} {lines : List Line} (h : Generated source hints p f types lines) :
    f.Legible := by
  obtain ⟨tokens, htokens, hf⟩ := h.read
  exact Function.legible_of_parse htokens hf

/-- **No two signs of a generated function are read as one.** The text of the function closes its
literals, and outside of them no two characters next to each other are a decrement, an increment,
an arrow, a shift, another sign of two characters or the mark of a comment. -/
theorem convert_never_fuses {source : String} {hints : TypeMap} {p : Program}
    (h : convert source hints = .ok p) :
    ∃ f types lines, Generated source hints p f types lines ∧
      Place.code.after (render lines).toList = .code ∧
      ∀ sign ∈ fusedSigns, ¬ sign.toList <:+: outside .code (render lines).toList := by
  obtain ⟨f, types, lines, hgenerated⟩ := exists_generated h
  have hunfused := (Function.inline_code hgenerated.legible hgenerated.code).unfused_render
  refine ⟨f, types, lines, hgenerated, hunfused.closed, ?_⟩
  intro sign hsign hinfix
  obtain ⟨c, d, hpair⟩ := exists_pair_of_mem_fusedSigns hsign
  rw [hpair] at hinfix
  have hchain := List.IsChain.infix hunfused.apart hinfix
  exact List.isChain_pair.1 hchain sign hsign hpair

/-- A source with minus signs in front of minus signs, operators and groups, with a small number,
and with signs in its literals. -/
def minusSource : String :=
  "x gets - -(- -1); c gets '\"'; s gets \"--\\\"//\" + \"->\"; " ++
    "while (!- -x <= -(x) && x > 0.00001) \x7b x gets x - - -x / -2; \x7d return -x;"

/-- The code of `minusSource`. -/
def minusProgram : Program :=
  { text := "#include <bits/stdc++.h>\nusing namespace std;\n\nint program() \x7b\n" ++
      "    int x = -(-(-(-1)));\n    char c = '\"';\n" ++
      "    string s = string(\"--\\\"//\") + string(\"->\");\n" ++
      "    while (!(-(-x) <= -(x)) && x > 1e-5) \x7b\n        x = x - -(-x) / -2;\n    \x7d\n" ++
      "    return -x;\n\x7d\n\n" ++
      "int main() \x7b\n    cout << program() << endl;\n    return 0;\n\x7d\n"
    name := "program"
    returnType := some .int }

/-- In the code of `minusSource` all signs stay apart. -/
theorem minusProgram_never_fuses :
    convert minusSource ⟨[]⟩ = .ok minusProgram ∧
    ∃ f types lines, Generated minusSource ⟨[]⟩ minusProgram f types lines ∧
      Place.code.after (render lines).toList = .code ∧
      ∀ sign ∈ fusedSigns, ¬ sign.toList <:+: outside .code (render lines).toList := by
  have hconvert : convert minusSource ⟨[]⟩ = .ok minusProgram := by decide +kernel
  exact ⟨hconvert, convert_never_fuses hconvert⟩

end Pseudocode
