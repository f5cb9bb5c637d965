import Pseudocode.Proofs.Code.Relexing

/-!
# Operands in the generated code

A string literal of the target language is an array of characters, and an arithmetic operator
between two of them does not put texts together. An operand that is a string literal is therefore
made a string. Only the operand itself is looked at: a literal in parentheses stays what it is.
-/
namespace Pseudocode

open Target

/-- An expression and all expressions in it. -/
def Expr.parts : Expr → List Expr
  | .var x => [.var x]
  | .lit value => [.lit value]
  | .neg e => .neg e :: e.parts
  | .group e => .group e :: e.parts
  | .bin op l r => .bin op l r :: (l.parts ++ r.parts)

/-- The expressions in a condition. -/
def Condition.parts : Condition → List Expr
  | .cmp _ l r => l.parts ++ r.parts
  | .logic _ l r => l.parts ++ r.parts
  | .not c => c.parts
  | .group c => c.parts

/-- The expressions in a header. -/
def Header.parts : Header → List Expr
  | .ifThen c => c.parts
  | .whileDo c => c.parts
  | .forDo init c update => init.value.parts ++ (c.parts ++ update.value.parts)

mutual

/-- The expressions in a statement. -/
def Stmt.parts : Stmt → List Expr
  | .assign a => a.value.parts
  | .block header body _ => header.parts ++ Stmt.allParts body
  | .ret value _ => value.parts

/-- The expressions in a list of statements. -/
def Stmt.allParts : List Stmt → List Expr
  | [] => []
  | stmt :: rest => stmt.parts ++ Stmt.allParts rest

end

/-- Every one of the expressions has a code, and it stands in the text. -/
def ShowsCode (types : TypeMap) (text : String) (es : List Expr) : Prop :=
  ∀ e ∈ es, ∃ part, e.code types = .ok part ∧ part.toList <:+: text.toList

namespace ShowsCode

variable {types : TypeMap} {text whole : String} {es later : List Expr}

/-- What stands in a part of a text stands in the whole. -/
theorem mono (h : ShowsCode types text es) (hwhole : text.toList <:+: whole.toList) :
    ShowsCode types whole es := by
  intro e he
  obtain ⟨part, hpart, hinfix⟩ := h e he
  exact ⟨part, hpart, hinfix.trans hwhole⟩

theorem append (h : ShowsCode types text es) (hlater : ShowsCode types text later) :
    ShowsCode types text (es ++ later) := by
  intro e he
  rcases List.mem_append.1 he with he | he
  · exact h e he
  · exact hlater e he

/-- The code of an expression shows it, and its parts as well if it shows them. -/
theorem cons {e : Expr} (hcode : e.code types = .ok text) (h : ShowsCode types text es) :
    ShowsCode types text (e :: es) := by
  intro b hb
  rcases List.mem_cons.1 hb with rfl | hb
  · exact ⟨text, hcode, List.infix_rfl⟩
  · exact h b hb

theorem nil : ShowsCode types text [] := by
  intro e he
  cases he

theorem before (h : ShowsCode types text es) (back : String) : ShowsCode types (text ++ back) es :=
  h.mono ⟨[], back.toList, by simp⟩

theorem behind (h : ShowsCode types text es) (front : String) :
    ShowsCode types (front ++ text) es :=
  h.mono ⟨front.toList, [], by simp⟩

theorem parens (h : ShowsCode types text es) : ShowsCode types (parens text) es :=
  (h.behind _).before _

/-- Two texts with an operator between them show what each of them shows. -/
theorem infixed {left right : String} (hleft : ShowsCode types left es)
    (hright : ShowsCode types right later) (sign : String) :
    ShowsCode types (left ++ " " ++ sign ++ " " ++ right) (es ++ later) :=
  .append ((((hleft.before _).before _).before _).before _) (hright.behind _)

/-- A line shows what its text shows. -/
theorem line (h : ShowsCode types text es) (depth : Nat) :
    ShowsCode types (render [⟨depth, text⟩]) es :=
  ((h.behind _).before _).before _

end ShowsCode

namespace Expr

variable {types : TypeMap} {es : List Expr} {text : String}

/-- Parentheses behind a minus sign hide nothing. -/
theorem shows_negatedText (e : Expr) (h : ShowsCode types text es) :
    ShowsCode types (e.negatedText text) es := by
  rw [negatedText.eq_def]
  split
  · exact h.parens
  · exact h

/-- The conversion of an operand hides nothing. -/
theorem shows_operandText (e : Expr) (h : ShowsCode types text es) :
    ShowsCode types (e.operandText text) es := by
  rw [operandText.eq_def]
  split
  · exact h.parens.behind _
  · exact h

/-- The code of an expression shows every expression in it. -/
theorem shows_code {e : Expr} (h : e.code types = .ok text) : ShowsCode types text e.parts := by
  induction e generalizing text with
  | var x => exact .cons h .nil
  | lit value => exact .cons h .nil
  | neg e ih =>
      refine .cons h ?_
      obtain ⟨inner, hinner, h⟩ := bind_eq_ok.1 h
      obtain rfl := Except.ok.inj h
      exact (e.shows_negatedText (ih hinner)).behind _
  | group e ih =>
      refine .cons h ?_
      obtain ⟨inner, hinner, h⟩ := bind_eq_ok.1 h
      obtain rfl := Except.ok.inj h
      exact (ih hinner).parens
  | bin op l r ihl ihr =>
      refine .cons h ?_
      obtain ⟨left, hleft, h⟩ := bind_eq_ok.1 h
      obtain ⟨right, hright, h⟩ := bind_eq_ok.1 h
      obtain rfl := Except.ok.inj h
      exact (l.shows_operandText (ihl hleft)).infixed (r.shows_operandText (ihr hright)) _

end Expr

namespace Condition

variable {types : TypeMap} {es : List Expr} {text : String}

theorem shows_negatedText (c : Condition) (h : ShowsCode types text es) :
    ShowsCode types (c.negatedText text) es := by
  cases c with
  | cmp op l r => exact h.parens
  | logic op l r => exact h.parens
  | not c => exact h
  | group c => exact h

/-- The code of a condition shows every expression in it. -/
theorem shows_code {c : Condition} (h : c.code types = .ok text) :
    ShowsCode types text c.parts := by
  induction c generalizing text with
  | cmp op l r =>
      obtain ⟨left, hleft, h⟩ := bind_eq_ok.1 h
      obtain ⟨right, hright, h⟩ := bind_eq_ok.1 h
      obtain rfl := Except.ok.inj h
      exact (l.shows_code hleft).infixed (r.shows_code hright) _
  | logic op l r ihl ihr =>
      obtain ⟨left, hleft, h⟩ := bind_eq_ok.1 h
      obtain ⟨right, hright, h⟩ := bind_eq_ok.1 h
      obtain rfl := Except.ok.inj h
      exact (ihl hleft).infixed (ihr hright) _
  | not c ih =>
      obtain ⟨inner, hinner, h⟩ := bind_eq_ok.1 h
      obtain rfl := Except.ok.inj h
      exact (c.shows_negatedText (ih hinner)).behind _
  | group c ih =>
      obtain ⟨inner, hinner, h⟩ := bind_eq_ok.1 h
      obtain rfl := Except.ok.inj h
      exact (ih hinner).parens

end Condition

section Statements

variable {types : TypeMap}

theorem Assignment.shows_code {a : Assignment} {text : String} (h : a.code types = .ok text) :
    ShowsCode types text a.value.parts := by
  obtain ⟨value, hvalue, h⟩ := bind_eq_ok.1 h
  obtain ⟨type, -, h⟩ := bind_eq_ok.1 h
  obtain rfl := Except.ok.inj h
  exact (Expr.shows_code hvalue).behind _

/-- The code of a header shows its expressions. -/
theorem Header.shows_code {header : Header} {text : String} (h : header.code types = .ok text) :
    ShowsCode types text header.parts := by
  cases header with
  | ifThen c =>
      obtain ⟨test, htest, h⟩ := bind_eq_ok.1 h
      obtain rfl := Except.ok.inj h
      exact (Condition.shows_code htest).parens.behind _
  | whileDo c =>
      obtain ⟨test, htest, h⟩ := bind_eq_ok.1 h
      obtain rfl := Except.ok.inj h
      exact (Condition.shows_code htest).parens.behind _
  | forDo init c update =>
      obtain ⟨first, hfirst, h⟩ := bind_eq_ok.1 h
      obtain ⟨test, htest, h⟩ := bind_eq_ok.1 h
      obtain ⟨next, hnext, h⟩ := bind_eq_ok.1 h
      obtain rfl := Except.ok.inj h
      have hinside : ShowsCode types (first ++ "; " ++ test ++ "; " ++ next)
          (Header.forDo init c update).parts := by
        have hfirst := Assignment.shows_code hfirst
        have htest := Condition.shows_code htest
        have hnext := Assignment.shows_code hnext
        exact .append ((((hfirst.before _).before _).before _).before _)
          (.append (((htest.behind _).before _).before _) (hnext.behind _))
      exact hinside.parens.behind _

mutual

theorem Stmt.shows_code {depth : Nat} {stmt : Stmt} {lines : List Line}
    (h : stmt.code types depth = .ok lines) : ShowsCode types (render lines) stmt.parts := by
  match stmt with
  | .assign a =>
      obtain ⟨text, htext, h⟩ := bind_eq_ok.1 h
      obtain rfl := Except.ok.inj h
      exact ((Assignment.shows_code htext).before _).line depth
  | .ret value _ =>
      obtain ⟨text, htext, h⟩ := bind_eq_ok.1 h
      obtain rfl := Except.ok.inj h
      exact (((Expr.shows_code htext).behind _).before _).line depth
  | .block header body _ =>
      obtain ⟨text, htext, h⟩ := bind_eq_ok.1 h
      obtain ⟨inside, hinside, h⟩ := bind_eq_ok.1 h
      obtain rfl := Except.ok.inj h
      -- the header stands in the first line, the body in the lines behind it
      have hheader := ((Header.shows_code htext).before " \x7b").line depth
      have hbody := Stmt.shows_allCode hinside
      rw [braced, ← List.singleton_append, render_append, render_append]
      exact .append ((hheader.before _).before _) ((hbody.behind _).before _)

/-- The code of a body shows every expression in it. -/
theorem Stmt.shows_allCode {depth : Nat} {body : List Stmt} {lines : List Line}
    (h : Stmt.allCode types depth body = .ok lines) :
    ShowsCode types (render lines) (Stmt.allParts body) := by
  match body with
  | [] => exact .nil
  | stmt :: rest =>
      obtain ⟨first, hfirst, h⟩ := bind_eq_ok.1 h
      obtain ⟨later, hlater, h⟩ := bind_eq_ok.1 h
      obtain rfl := Except.ok.inj h
      rw [render_append]
      exact .append ((Stmt.shows_code hfirst).before _) ((Stmt.shows_allCode hlater).behind _)

end

end Statements

/-- The text of a program shows the expressions of its function. -/
theorem shows_text_of_compile {t : Typed} {p : Program} (h : compile t = .ok p) :
    ShowsCode t.context.known p.text (Stmt.allParts t.function.body) := by
  obtain ⟨lines, hlines, htext⟩ := exists_lines_of_compile h
  obtain ⟨front, body, -, hbody, hrender⟩ := Function.render_code hlines
  rw [htext, hrender, Function.codeText, render_append]
  have hinside := (Stmt.shows_allCode hbody).behind (render front)
  exact (((((hinside.behind _).before _).before _).behind _).before _).before _

/-- An expression in a number of parentheses. -/
def Expr.grouped (e : Expr) : Nat → Expr
  | 0 => e
  | depth + 1 => .group (e.grouped depth)

/-- A text in a number of parentheses. -/
def Target.nested (text : String) : Nat → String
  | 0 => text
  | depth + 1 => parens (nested text depth)

/-- **What an operand of an arithmetic operator looks like.** A string literal is made a string,
but only one that is the operand itself. In parentheses it stays a literal. -/
structure IsOperandText (types : TypeMap) (e : Expr) (text : String) : Prop where
  /-- An operand that is no string literal is its own code. -/
  other : (∀ s, e ≠ .lit (.str s)) → e.code types = .ok text
  /-- A string literal is made a string. -/
  direct : ∀ s, e = .lit (.str s) → text = "string(\"" ++ s ++ "\")"
  /-- A string literal in parentheses stays a literal in as many parentheses. -/
  grouped : ∀ s depth, e = (Expr.lit (.str s)).grouped (depth + 1) →
    text = nested ("\"" ++ s ++ "\"") (depth + 1)

/-- The code of a string in parentheses is that string in parentheses. -/
theorem Expr.code_grouped (types : TypeMap) (s : String) (depth : Nat) :
    ((Expr.lit (.str s)).grouped depth).code types = .ok (nested ("\"" ++ s ++ "\"") depth) := by
  induction depth with
  | zero => rfl
  | succ depth ih =>
      rw [grouped, code, ih]
      rfl

theorem Expr.operandText_of_ne {e : Expr} (h : ∀ s, e ≠ .lit (.str s)) (text : String) :
    e.operandText text = text := by
  rw [operandText.eq_def]
  split
  · exact absurd rfl (h _)
  · rfl

/-- The code of an operand looks as it should. -/
theorem Expr.isOperandText {types : TypeMap} {e : Expr} {text : String}
    (h : e.code types = .ok text) : IsOperandText types e (e.operandText text) := by
  refine ⟨fun hne => by rwa [operandText_of_ne hne], ?_, ?_⟩
  · rintro s rfl
    obtain rfl := Except.ok.inj h
    have htext : operandText (.lit (.str s)) (Literal.str s).text =
        "string" ++ ("(" ++ ("\"" ++ s ++ "\"") ++ ")") := rfl
    have hfront : "string" ++ "(" ++ "\"" = "string(\"" := by decide
    have hback : "\"" ++ ")" = "\")" := by decide
    rw [htext, ← hfront, ← hback]
    simp only [String.append_assoc]
  · rintro s depth rfl
    rw [operandText_of_ne fun _ hs => by cases hs]
    exact Except.ok.inj (h.symm.trans (code_grouped types s (depth + 1)))

/-- **Only an operand that is a string literal itself becomes a string.** In the text of every
program, around each arithmetic operator of its function stand the operands as
`IsOperandText` describes them. -/
theorem convert_shows_operands {source : String} {hints : TypeMap} {p : Program}
    (h : convert source hints = .ok p) :
    ∃ tokens f t, tokenize source = .ok tokens ∧ parse tokens = .ok f ∧ check f hints = .ok t ∧
      ∀ op l r, .bin op l r ∈ Stmt.allParts f.body →
        ∃ left right, IsOperandText t.context.known l left ∧
          IsOperandText t.context.known r right ∧
          (left ++ " " ++ op.symbol ++ " " ++ right).toList <:+: p.text.toList := by
  obtain ⟨tokens, f, t, htokens, hf, ht, hp⟩ := exists_stages_of_convert h
  refine ⟨tokens, f, t, htokens, hf, ht, ?_⟩
  obtain rfl := function_of_check ht
  intro op l r hmem
  obtain ⟨part, hpart, hinfix⟩ := shows_text_of_compile hp _ hmem
  obtain ⟨left, hleft, hpart⟩ := bind_eq_ok.1 hpart
  obtain ⟨right, hright, hpart⟩ := bind_eq_ok.1 hpart
  obtain rfl := Except.ok.inj hpart
  exact ⟨_, _, Expr.isOperandText hleft, Expr.isOperandText hright, hinfix⟩

/-- The program whose function assigns one value to a string. -/
def stringProgram (value : String) : Program :=
  { text := "#include <bits/stdc++.h>\nusing namespace std;\n\nvoid program() \x7b\n" ++
      "    string s = " ++ value ++ ";\n\x7d\n\n" ++
      "int main() \x7b\n    program();\n    return 0;\n\x7d\n"
    name := "program"
    returnType := none }

/-- A sum of two string literals, the right one in parentheses. -/
def halfGroupedSource : String := "s gets \"a\" + (\"b\");"

/-- A string in parentheses stays one, and the one that stands alone is made a string. -/
theorem halfGroupedSource_operands :
    convert halfGroupedSource ⟨[]⟩ = .ok (stringProgram "string(\"a\") + (\"b\")") ∧
    ∃ tokens f t, tokenize halfGroupedSource = .ok tokens ∧ parse tokens = .ok f ∧
      check f ⟨[]⟩ = .ok t ∧
      ∀ op l r, .bin op l r ∈ Stmt.allParts f.body →
        ∃ left right, IsOperandText t.context.known l left ∧
          IsOperandText t.context.known r right ∧
          (left ++ " " ++ op.symbol ++ " " ++ right).toList <:+:
            (stringProgram "string(\"a\") + (\"b\")").text.toList := by
  have hconvert : convert halfGroupedSource ⟨[]⟩ =
      .ok (stringProgram "string(\"a\") + (\"b\")") := by
    decide +kernel
  exact ⟨hconvert, convert_shows_operands hconvert⟩

/-- A sum of two string literals in parentheses. -/
def groupedSource : String := "s gets (\"a\") + (\"b\");"

/-- Both operands are string literals in parentheses, and nothing in the whole program is made a
string: the sum is one of two arrays of characters. -/
theorem groupedSource_operands :
    ∃ tokens f, tokenize groupedSource = .ok tokens ∧ parse tokens = .ok f ∧
      .bin .add (.group (.lit (.str "a"))) (.group (.lit (.str "b"))) ∈ Stmt.allParts f.body ∧
      convert groupedSource ⟨[]⟩ = .ok (stringProgram "(\"a\") + (\"b\")") ∧
      ¬ "string(".toList <:+: (stringProgram "(\"a\") + (\"b\")").text.toList := by
  have htokens := eq_ok_of_isSome (x := tokenize groupedSource) (by decide +kernel) []
  have hf := eq_ok_of_isSome (x := parse ((tokenize groupedSource).toOption.getD []))
    (by decide +kernel) ⟨"", [], false, [], .start⟩
  refine ⟨_, _, htokens, hf, ?_, ?_, ?_⟩
  · decide +kernel
  · decide +kernel
  · decide +kernel

end Pseudocode
