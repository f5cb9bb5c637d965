import Pseudocode.Proofs.Code.Names
import Pseudocode.Proofs.Code.Spelling
import Pseudocode.Proofs.Conversion.Stages
import Pseudocode.Proofs.Grammar.Acceptance

/-!
# Generated code keeps the tokens of its source

The generated function can be split into tokens again. These are the tokens of the source, in
their order, with a few that are added: the declarations up front, and the types, conversions
and parentheses that `Stmt.pieces` marks. Nothing is lost, doubled or moved.
-/
namespace Pseudocode

open Target

/-- The text of a function, from its return type to its closing brace. -/
def Function.codeText (returnType : Option DataType) (f : Function) (inside : String) : String :=
  returnSpelling returnType ++ " " ++ f.name ++ "() \x7b\n" ++ inside ++ "\x7d"

/-- **The code of a program keeps the tokens of its source**: the generated function has the
tokens of the source in their order, with additions that are known token by token. -/
structure KeepsTokens (tokens : List Token) (f : Function) (types : TypeMap) (p : Program) :
    Prop where
  /-- Behind the header lines stands the function, and it can be split into tokens: its type and
  its name, a declaration for every name that is declared up front, and the code of the body. -/
  relexed : ∃ (inside : String) (found : List Token),
    p.text = Assembly.headerText headers ++ f.codeText p.returnType inside ++ "\n\n" ++
      render (entryPoint f.name p.returnType) ∧
    tokenize (f.codeText p.returnType inside) = .ok found ∧
    found.map Token.kind = f.codeKinds types p.returnType ++ [.eof]
  /-- Without what was added, the code of the body is its linear form. -/
  source_body : (Stmt.allPieces types f.body).filterMap Piece.source? = Stmt.allKinds f.body
  /-- The linear form of the body is the source, up to the head of a function. -/
  source_program : IsProgram (kindsRead tokens) f.name f.body
  /-- All tokens of the source count. -/
  source_tokens : tokens.map Token.kind = kindsRead tokens ++ [.eof]
  /-- All names of the body have a type, in particular those that are declared. -/
  typed_body : ∀ x, .name x ∈ Stmt.allKinds f.body → ∃ t, types.get? x = some t
  /-- All names that are declared up front have a type. -/
  typed_free : ∀ x ∈ f.free, ∃ t, types.get? x = some t

/-- The text of a function has the tokens of its declarations and of its body. -/
theorem Function.lexed_codeText {types : TypeMap} (returnType : Option DataType) {f : Function}
    {front body : List Line} (hname : (Kind.name f.name).Relexes)
    (hfront : Renders front (declarationKinds types f.free))
    (hbody : Renders body ((Stmt.allPieces types f.body).map Piece.kind)) :
    Lexed (f.codeText returnType (render (front ++ body))).toList
      (f.codeKinds types returnType) := by
  have hclose : Lexed ['}'] [.rightCurly] := Lexed.nil.rightCurly
  have hinside := (hfront.append hbody) _ _ hclose
  have hopen := hinside.newline.leftCurly.space.rightParen.leftParen
  have hhead := lexed_returnSpelling returnType (hname _ _ (stops_leftParen _) hopen)
  simpa [codeText, codeKinds] using hhead

/-- The code of a function is made of its declarations and its body. -/
theorem Function.render_code {types : TypeMap} {returnType : Option DataType} {f : Function}
    {lines : List Line} (h : f.code types returnType = .ok lines) :
    ∃ front body, declarations types f.free = .ok front ∧ Stmt.allCode types 1 f.body = .ok body ∧
      render lines = f.codeText returnType (render (front ++ body)) ++ "\n" := by
  obtain ⟨front, hfront, h⟩ := bind_eq_ok.1 h
  obtain ⟨body, hbody, h⟩ := bind_eq_ok.1 h
  obtain rfl := Except.ok.inj h
  refine ⟨front, body, hfront, hbody, ?_⟩
  simp [braced, render, Line.render, codeText, String.append_assoc, Text.spaces]

/-- The text of a program is made of headers, a function and an entry point. -/
theorem exists_lines_of_compile {t : Typed} {p : Program} (h : compile t = .ok p) :
    ∃ lines, t.function.code t.context.known p.returnType = .ok lines ∧
      p.text = Assembly.headerText headers ++ render lines ++ "\n" ++
        render (entryPoint t.function.name p.returnType) := by
  obtain ⟨returnType, -, h⟩ := bind_eq_ok.1 h
  obtain ⟨lines, hlines, h⟩ := bind_eq_ok.1 h
  obtain rfl := Except.ok.inj h
  exact ⟨lines, hlines, rfl⟩

/-- The tokens of a source have lexemes. -/
theorem exists_isLexeme_of_tokenize {source : String} {tokens : List Token}
    (h : tokenize source = .ok tokens) {k : Kind} (hk : k ∈ kindsRead tokens) :
    ∃ lexeme, IsLexeme k lexeme := by
  obtain ⟨ks, hlexed, hks⟩ := lexed_of_tokenize h
  have hmem : k ∈ ks ++ [.eof] := hks ▸ List.takeWhile_subset _ hk
  have hne : k ≠ .eof := by simpa using List.mem_takeWhile_imp hk
  exact exists_isLexeme_of_lexed hlexed (by simpa [hne] using hmem)

/-- The tokens of a source spell themselves if its floats are written plainly. -/
theorem relexes_of_tokenize {source : String} {tokens : List Token}
    (h : tokenize source = .ok tokens)
    (hfloat : ∀ token ∈ tokens, ∀ x, token.kind = .literal (.float x) →
      Number.IsPlain (Literal.floatText x).toList) :
    tokens.map Token.kind = kindsRead tokens ++ [.eof] ∧ ∀ k ∈ kindsRead tokens, k.Relexes := by
  obtain ⟨ks, hlexed, hks⟩ := lexed_of_tokenize h
  have hrelexes : ∀ k ∈ ks, k.Relexes := by
    refine relexes_of_lexed hlexed fun x hx => relexes_float ?_
    have hmem : Kind.literal (.float x) ∈ tokens.map Token.kind := by simp [hks, hx]
    obtain ⟨token, htoken, hkind⟩ := List.mem_map.1 hmem
    exact hfloat token htoken x hkind
  -- the end is no item of a text, so it stands only behind the last one
  have hread : kindsRead tokens = ks := by
    have hend : ∀ k ∈ ks, decide (k ≠ .eof) = true := by
      intro k hk
      refine decide_eq_true ?_
      rintro rfl
      exact hrelexes _ hk
    rw [kindsRead, hks, List.takeWhile_append_of_pos hend]
    simp
  rw [hread]
  exact ⟨hks, hrelexes⟩

/-- The name of a program spells itself, also the implicit one, which no token of the source has. -/
theorem IsProgram.name_relexes {ks : List Kind} {name : String} {body : List Stmt}
    (h : IsProgram ks name body) (hkinds : ∀ k ∈ ks, k.Relexes) : (Kind.name name).Relexes := by
  rcases h.name_mem_or with hname | rfl
  · exact hkinds _ hname
  · exact spells_word (by decide)

/-- **Code generation loses, doubles and moves nothing.** If a conversion succeeds, and every
float literal of its source is written as digits, a point and digits, then the generated function
can be split into tokens again, and these are the tokens of the source with the additions that
`Function.codeKinds` and `Stmt.pieces` list. -/
theorem convert_keeps_tokens {source : String} {hints : TypeMap} {p : Program}
    (h : convert source hints = .ok p)
    (hfloat : ∀ tokens, tokenize source = .ok tokens → ∀ token ∈ tokens, ∀ x,
      token.kind = .literal (.float x) → Number.IsPlain (Literal.floatText x).toList) :
    ∃ tokens f t, tokenize source = .ok tokens ∧ parse tokens = .ok f ∧ check f hints = .ok t ∧
      KeepsTokens tokens f t.context.known p := by
  obtain ⟨tokens, f, t, htokens, hf, ht, hp⟩ := exists_stages_of_convert h
  refine ⟨tokens, f, t, htokens, hf, ht, ?_⟩
  obtain rfl := function_of_check ht
  obtain ⟨lines, hlines, htext⟩ := exists_lines_of_compile hp
  obtain ⟨front, body, hfront, hbody, hrender⟩ := Function.render_code hlines
  obtain ⟨hend, hrelexes⟩ := relexes_of_tokenize htokens (hfloat tokens htokens)
  have hprogram := (parse_sound hf).2
  have hkinds := fun k hk => hrelexes k (hprogram.allKinds_subset hk)
  have hsettled := settled_of_parse hf
  -- what is declared up front is mentioned in the body
  have hmentioned : ∀ x ∈ t.function.free, Kind.name x ∈ Stmt.allKinds t.function.body :=
    fun x hx => (Stmt.allMentioned_iff [] 0 _ x).1 (hsettled.mentioned hx)
  have hlexed := Function.lexed_codeText p.returnType (hprogram.name_relexes hrelexes)
    (Function.renders_declarations hfront fun x hx => hkinds _ (hmentioned x hx))
    (Stmt.renders_allCode _ hbody hkinds fun m hm => hsettled.use_eq_write hm)
  have htyped : ∀ x, Kind.name x ∈ Stmt.allKinds t.function.body →
      ∃ u, t.context.known.get? x = some u := fun x => Stmt.typed_of_allCode _ hbody
  exact {
    relexed := by
      obtain ⟨found, hfound, hks⟩ := exists_tokens_of_lexed hlexed
      refine ⟨_, found, ?_, hfound, hks⟩
      rw [htext, hrender]
      simp [String.append_assoc]
    source_body := Stmt.source_allPieces _ _
    source_program := hprogram
    source_tokens := hend
    typed_body := htyped
    typed_free := fun x hx => htyped x (hmentioned x hx) }

/-- A source whose code has all four kinds of additions. -/
def negationSource : String := "x gets 1.5; if (!a < x) \x7b s gets \"n\" + - - x; \x7d return s;"

/-- The code of `negationSource` if `a` is an integer. -/
def negationProgram : Program :=
  { text := "#include <bits/stdc++.h>\nusing namespace std;\n\nstring program() \x7b\n" ++
      "    int a\x7b\x7d;\n    string s\x7b\x7d;\n    float x = 1.5;\n    if (!(a < x)) \x7b\n" ++
      "        s = string(\"n\") + -(-x);\n    \x7d\n    return s;\n\x7d\n\n" ++
      "int main() \x7b\n    cout << program() << endl;\n    return 0;\n\x7d\n"
    name := "program"
    returnType := some .string }

/-- The value of a float literal. -/
def Kind.float? : Kind → Option Number.Binary64
  | .literal (.float x) => some x
  | _ => none

/-- The code of `negationSource` has its tokens, and the additions are those of the four kinds. -/
theorem negationProgram_keeps_tokens :
    convert negationSource ⟨[("a", .int)]⟩ = .ok negationProgram ∧
    ∃ tokens f t, tokenize negationSource = .ok tokens ∧ parse tokens = .ok f ∧
      check f ⟨[("a", .int)]⟩ = .ok t ∧ KeepsTokens tokens f t.context.known negationProgram := by
  have hconvert : convert negationSource ⟨[("a", .int)]⟩ = .ok negationProgram := by
    decide +kernel
  have hfloats : ((tokenize negationSource).toOption.getD []).filterMap
      (fun token => token.kind.float?.map Literal.floatText) = ["1.5"] := by
    decide +kernel
  refine ⟨hconvert, convert_keeps_tokens hconvert ?_⟩
  intro tokens htokens token hmem x hx
  have htext : Literal.floatText x ∈ ["1.5"] := by
    rw [← hfloats, htokens]
    exact List.mem_filterMap.2 ⟨token, hmem, by rw [hx]; rfl⟩
  rw [List.mem_singleton.1 htext]
  exact ⟨['1'], ['5'], rfl, by simp, by simp, by simp, by simp⟩

end Pseudocode
