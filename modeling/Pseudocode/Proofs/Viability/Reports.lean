import Pseudocode.Proofs.Conversion.Stages
import Pseudocode.Proofs.Lexical.LongestMatch
import Pseudocode.Proofs.Lexical.Positions
import Pseudocode.Proofs.Viability.Continuations
import Pseudocode.Proofs.Viability.Stopping

/-!
# What syntax errors point at

A text whose tokens are no program is reported at a token. Everything in front of this token is
viable. A token that is called unexpected is the first one with which no program goes on, with one
exception, in a parenthesis that has been taken for an operand. A missing semicolon would be viable
behind the token it is reported at, where the next token is not. A block that is never closed is the
innermost open one, and closing all open blocks gives a program.
-/
namespace Pseudocode.Viability

open Grammar

theorem exists_row_of_tokenized {pos : Position} {text : List Char} {ts : List Token}
    (h : Tokenized pos text ts) :
    ∃ row finish, ts = row ++ [finish] ∧ finish.kind = .eof ∧ .eof ∉ row.map Token.kind := by
  induction h with
  | finish trivia => exact ⟨[], _, rfl, rfl, by simp⟩
  | @lexeme pos gap lexeme rest k ts trivia isLexeme longest later ih =>
      obtain ⟨row, finish, rfl, hfinish, hrow⟩ := ih
      have hk : k ≠ .eof := ne_eof_of_isLexeme isLexeme
      refine ⟨⟨k, String.ofList lexeme, pos.after gap⟩ :: row, finish, rfl, hfinish, ?_⟩
      rw [List.map_cons, List.mem_cons, not_or]
      exact ⟨Ne.symm hk, hrow⟩

/-- The tokens of a text end with the only end among them. -/
theorem exists_row_of_tokenize {source : String} {ts : List Token} (h : tokenize source = .ok ts) :
    ∃ row finish, ts = row ++ [finish] ∧ finish.kind = .eof ∧ .eof ∉ row.map Token.kind :=
  exists_row_of_tokenized (tokenized_of_tokenize ts h)

section Rows
variable {row : List Token} {finish : Token}

theorem ofTokens_row (hfinish : finish.kind = .eof) (hrow : .eof ∉ row.map Token.kind) :
    TokenRow.ofTokens (row ++ [finish]) = ⟨row, finish.pos⟩ := by
  have hne (t : Token) (ht : t ∈ row) : t.kind ≠ .eof := fun heq =>
    hrow (heq ▸ List.mem_map_of_mem ht)
  have htokens : (row ++ [finish]).takeWhile (·.kind ≠ .eof) = row := by
    rw [List.takeWhile_append_of_pos fun t ht => by simpa using hne t ht]
    simp [hfinish]
  have hfind : (row ++ [finish]).find? (·.kind = .eof) = some finish := by
    rw [List.find?_append, List.find?_eq_none.2 fun t ht => by simpa using hne t ht]
    simp [hfinish]
  rw [TokenRow.ofTokens, htokens, hfind]

theorem stops_of_parse {e : SyntaxError} (hfinish : finish.kind = .eof)
    (hrow : .eof ∉ row.map Token.kind) (h : parse (row ++ [finish]) = .error e) :
    ∃ base, MeetAll base [] ∧ Stops finish.pos base [.program] row e := by
  have hprogram : program finish.pos row = .error e := by
    rw [parse, ofTokens_row hfinish hrow] at h
    cases hresult : program finish.pos row with
    | error e' =>
        rw [hresult] at h
        exact congrArg _ (Except.error.inj h)
    | ok source =>
        rw [hresult] at h
        cases h
  rcases stops_of_program hrow hprogram with hstops | hstops
  · exact ⟨[], rfl, hstops⟩
  · exact ⟨[.statements], ⟨[], [], rfl, meets_nil_of_isOptional rfl, rfl⟩, hstops⟩

/-- The next token of a row, or the end behind it. -/
theorem exists_next (hfinish : finish.kind = .eof) (rest : List Token) :
    ∃ t later, rest ++ [finish] = t :: later ∧ here finish.pos rest = t.pos ∧
      nextKind rest = t.kind := by
  cases rest with
  | nil => exact ⟨finish, [], rfl, rfl, hfinish.symm⟩
  | cons t later => exact ⟨t, later ++ [finish], rfl, rfl, rfl⟩

end Rows

section Concat
variable {front : List Token} {left : List Goal} {t : Token}

theorem viable_concat (hfront : .eof ∉ front.map Token.kind)
    (hrun : run [.program] (front.map Token.kind) = some left) (ht : t.kind ≠ .eof)
    (hstep : ∃ after, step left t.kind = some after) : Viable (front ++ [t]) := by
  obtain ⟨after, hstep⟩ := hstep
  rw [viable_iff_run]
  · refine ⟨after, ?_⟩
    rw [List.map_append, List.map_singleton, run_concat hrun, hstep]
  · simpa [Ne.symm ht] using hfront

theorem not_viable_concat (hfront : .eof ∉ front.map Token.kind)
    (hrun : run [.program] (front.map Token.kind) = some left) (hstep : step left t.kind = none) :
    ¬ Viable (front ++ [t]) := by
  intro h
  by_cases ht : t.kind = .eof
  · have hend := run_eof_of_viable hfront ht h
    rw [run_concat hrun, ← ht, hstep] at hend
    cases hend
  · have hnone : .eof ∉ (front ++ [t]).map Token.kind := by simpa [Ne.symm ht] using hfront
    obtain ⟨after, hafter⟩ := exists_run_of_viable hnone h
    rw [List.map_append, List.map_singleton, run_concat hrun, hstep] at hafter
    cases hafter

/-- The goals do go on with a token that is refused too early. -/
theorem Undecided.exists_step {k : Kind} (h : Undecided left k) :
    k ≠ .eof ∧ ∃ after, step left k = some after := by
  cases h with
  | negation depth gs => exact ⟨Kind.noConfusion, _, rfl⟩
  | relation depth gs op => exact ⟨Kind.noConfusion, _, rfl⟩

end Concat

/-- **Where unexpected tokens are reported**: at a token behind viable ones, with which no program
goes on. The only exception is a negation sign or a comparison inside of a parenthesis that may
still hold a condition; such a token is reported although programs go on with it. -/
theorem unexpected_token_position {source : String} {ts : List Token} {e : SyntaxError}
    (hts : tokenize source = .ok ts) (h : parse ts = .error e)
    (hfault : isUnexpected e.fault = true) :
    ∃ front t rest left, ts = front ++ t :: rest ∧ e.pos = t.pos ∧ Viable front ∧
      run [.program] (front.map Token.kind) = some left ∧
      (Viable (front ++ [t]) ↔ Undecided left t.kind) := by
  obtain ⟨row, finish, rfl, hfinish, hrow⟩ := exists_row_of_tokenize hts
  obtain ⟨base, -, hstops⟩ := stops_of_parse hfinish hrow h
  cases hstops with
  | @unexpected fault front rest left _ hsplit hrun hnext =>
      obtain ⟨t, later, hrest, hpos, hkind⟩ := exists_next hfinish rest
      rw [hsplit, List.map_append, List.mem_append, not_or] at hrow
      rw [hkind] at hnext
      refine ⟨front, t, later, left, ?_, hpos, (viable_iff_run hrow.1).2 ⟨left, hrun⟩, hrun, ?_⟩
      · rw [hsplit, List.append_assoc, hrest]
      · rcases hnext with hnone | hundecided
        · refine iff_of_false (not_viable_concat hrow.1 hrun hnone) fun hundecided => ?_
          obtain ⟨-, after, hafter⟩ := hundecided.exists_step
          cases hnone.symm.trans hafter
        · obtain ⟨hne, hafter⟩ := hundecided.exists_step
          exact iff_of_true (viable_concat hrow.1 hrun hne hafter) hundecided
  | semicolon => cases hfault
  | unclosed => cases hfault
  | reserved => cases hfault

/-- The error of an outcome that is one. -/
def error? {ε α : Type} : Except ε α → Option ε
  | .error e => some e
  | .ok _ => none

theorem eq_error_of_error? {ε α : Type} {x : Except ε α} {e : ε} (h : error? x = some e) :
    x = .error e := by
  cases x with
  | error e' => exact congrArg _ (Option.some.inj h)
  | ok a => cases h

/-- A condition that ends behind its comparison sign. -/
def cutSource : String := "while (a <\n) \x7b \x7d"

/-- The tokens of the condition that ends too early. -/
def cutTokens : List Token :=
  [⟨.keyword .whileKw, "while", ⟨1, 1⟩⟩, ⟨.leftParen, "(", ⟨1, 7⟩⟩, ⟨.name "a", "a", ⟨1, 8⟩⟩,
    ⟨.rel .less, "<", ⟨1, 10⟩⟩, ⟨.rightParen, ")", ⟨2, 1⟩⟩, ⟨.leftCurly, "\x7b", ⟨2, 3⟩⟩,
    ⟨.rightCurly, "\x7d", ⟨2, 5⟩⟩, ⟨.eof, "", ⟨2, 6⟩⟩]

/-- The closing parenthesis is reported, and it is the first token with which no program goes on. -/
theorem cutSource_position :
    tokenize cutSource = .ok cutTokens ∧
    parse cutTokens = .error ⟨.noPrimaryExpression ")", ⟨2, 1⟩⟩ ∧
    ∃ front t rest left, cutTokens = front ++ t :: rest ∧ ⟨2, 1⟩ = t.pos ∧ Viable front ∧
      run [.program] (front.map Token.kind) = some left ∧
      (Viable (front ++ [t]) ↔ Undecided left t.kind) := by
  have htokens : tokenize cutSource = .ok cutTokens := by decide +kernel
  have herror : parse cutTokens = .error ⟨.noPrimaryExpression ")", ⟨2, 1⟩⟩ :=
    eq_error_of_error? (by decide +kernel)
  exact ⟨htokens, herror, unexpected_token_position htokens herror rfl⟩

/-- A condition in parentheses that ends behind a comparison. -/
def nestedSource : String := "if ((a\n< b\n;) \x7b \x7d"

/-- The tokens of the condition in parentheses. -/
def nestedTokens : List Token :=
  [⟨.keyword .ifKw, "if", ⟨1, 1⟩⟩, ⟨.leftParen, "(", ⟨1, 4⟩⟩, ⟨.leftParen, "(", ⟨1, 5⟩⟩,
    ⟨.name "a", "a", ⟨1, 6⟩⟩, ⟨.rel .less, "<", ⟨2, 1⟩⟩, ⟨.name "b", "b", ⟨2, 3⟩⟩,
    ⟨.semicolon, ";", ⟨3, 1⟩⟩, ⟨.rightParen, ")", ⟨3, 2⟩⟩, ⟨.leftCurly, "\x7b", ⟨3, 4⟩⟩,
    ⟨.rightCurly, "\x7d", ⟨3, 6⟩⟩, ⟨.eof, "", ⟨3, 7⟩⟩]

/-- The comparison sign is reported, but programs go on with it and with the name behind it; the
first token with which none does is the semicolon of the third line. -/
theorem nestedSource_position :
    tokenize nestedSource = .ok nestedTokens ∧
    parse nestedTokens = .error ⟨.unexpectedToken "')'" "<", ⟨2, 1⟩⟩ ∧
    Viable (nestedTokens.take 6) ∧ ¬ Viable (nestedTokens.take 7) ∧
    ¬ ∃ front t rest, nestedTokens = front ++ t :: rest ∧ Viable front ∧
      ¬ Viable (front ++ [t]) ∧ ⟨2, 1⟩ = t.pos := by
  have hviable : Viable (nestedTokens.take 6) := (viable_iff_run (by decide)).2 ⟨_, rfl⟩
  refine ⟨by decide +kernel, eq_error_of_error? (by decide +kernel), hviable, ?_, ?_⟩
  · intro h
    obtain ⟨left, hrun⟩ := exists_run_of_viable (by decide) h
    cases hrun
  · rintro ⟨front, t, rest, hsplit, -, hnone, hpos⟩
    have hindex : nestedTokens[front.length]? = some t := by simp [hsplit]
    have hlength : front.length = 4 := by
      have honly : ∀ i < 11, nestedTokens[i]?.map Token.pos = some ⟨2, 1⟩ → i = 4 := by decide
      exact honly _ (List.getElem?_eq_some_iff.1 hindex).1 (by rw [hindex, hpos]; rfl)
    have hfront : front ++ [t] = nestedTokens.take 5 := by
      have hwhole : nestedTokens = (front ++ [t]) ++ rest := by simp [hsplit]
      rw [hwhole]
      exact (List.take_left' (by simp [hlength])).symm
    rw [hfront] at hnone
    exact hnone ((viable_iff_run (by decide)).2 ⟨_, rfl⟩)

section Repairs
variable {row : List Token} {finish : Token} {base : List Goal} {pos : Position}

theorem semicolon_repair {lexeme : String} (hfinish : finish.kind = .eof)
    (hrow : .eof ∉ row.map Token.kind)
    (h : Stops finish.pos base [.program] row ⟨.missingSemicolon lexeme, pos⟩) :
    ∃ front t next rest, row ++ [finish] = front ++ t :: next :: rest ∧ t.lexeme = lexeme ∧
      pos = t.pos ∧ (∀ semicolon : Token, semicolon.kind = .semicolon →
        Viable (front ++ [t, semicolon])) ∧ ¬ Viable (front ++ [t, next]) := by
  cases h with
  | unexpected hfault => cases hfault
  | @semicolon front rest t left hsplit hrun hrepair hnext =>
      obtain ⟨next, later, hrest, -, hkind⟩ := exists_next hfinish rest
      have hfront : .eof ∉ (front ++ [t]).map Token.kind := fun hmem => hrow (by
        rw [hsplit, ← List.singleton_append, ← List.append_assoc, List.map_append]
        exact List.mem_append_left _ hmem)
      have hassoc (u : Token) : front ++ [t, u] = (front ++ [t]) ++ [u] := by simp
      refine ⟨front, t, next, later, ?_, rfl, rfl, fun semicolon hsemicolon => ?_, ?_⟩
      · rw [hsplit, List.append_assoc, List.cons_append, hrest]
      · rw [hassoc]
        refine viable_concat hfront hrun ?_ (hsemicolon ▸ hrepair)
        rw [hsemicolon]
        exact Kind.noConfusion
      · rw [hassoc]
        exact not_viable_concat hfront hrun (hkind ▸ hnext)

theorem closing_repair (hfinish : finish.kind = .eof) (hrow : .eof ∉ row.map Token.kind)
    (hbase : MeetAll base []) (h : Stops finish.pos base [.program] row ⟨.unclosedBlock, pos⟩) :
    ∃ brace outer, openBraces [] row = brace :: outer ∧ pos = brace.pos ∧
      ∀ closing : List Token,
        closing.map Token.kind = List.replicate (openBraces [] row).length .rightCurly →
          Accepted (row ++ closing ++ [finish]) := by
  cases h with
  | unexpected hfault => cases hfault
  | @unclosed brace outer left hopen hrun hrepair =>
      have hbraces : openBraces [] row = brace :: outer := by rw [hopen, List.append_nil]
      refine ⟨brace, outer, hbraces, rfl, fun closing hclosing => ?_⟩
      rw [hbraces, List.length_cons] at hclosing
      refine accepted_of_run ?_ hfinish ?_ hbase
      · rw [List.map_append, List.mem_append, not_or, hclosing]
        exact ⟨hrow, by simp⟩
      · rw [List.map_append, run_append, hrun, Option.bind_some, hclosing, hrepair]

end Repairs

/-- **The repairs that errors name**: a semicolon behind the reported token is viable, and the token
that stands there is not; and a block that is never closed is the innermost open one, and as many
closing braces as there are open ones give a program. -/
theorem repairs_are_viable {source : String} {ts : List Token} {e : SyntaxError}
    (hts : tokenize source = .ok ts) (h : parse ts = .error e) :
    (∀ lexeme, e.fault = .missingSemicolon lexeme → ∃ front t next rest,
      ts = front ++ t :: next :: rest ∧ t.lexeme = lexeme ∧ e.pos = t.pos ∧
      (∀ semicolon : Token, semicolon.kind = .semicolon → Viable (front ++ [t, semicolon])) ∧
      ¬ Viable (front ++ [t, next])) ∧
    (e.fault = .unclosedBlock → ∃ row finish brace outer,
      ts = row ++ [finish] ∧ finish.kind = .eof ∧ openBraces [] row = brace :: outer ∧
      e.pos = brace.pos ∧ ∀ closing : List Token,
        closing.map Token.kind = List.replicate (openBraces [] row).length .rightCurly →
          Accepted (row ++ closing ++ [finish])) := by
  obtain ⟨row, finish, rfl, hfinish, hrow⟩ := exists_row_of_tokenize hts
  obtain ⟨base, hbase, hstops⟩ := stops_of_parse hfinish hrow h
  obtain ⟨fault, pos⟩ := e
  constructor
  · rintro lexeme rfl
    exact semicolon_repair hfinish hrow hstops
  · rintro rfl
    obtain ⟨brace, outer, hrepair⟩ := closing_repair hfinish hrow hbase hstops
    exact ⟨row, finish, brace, outer, rfl, hfinish, hrepair⟩

/-- An assignment without a semicolon, and another one behind it. -/
def unendedSource : String := "x gets 1\ny gets 2;"

/-- A loop whose body is not closed, around a branch whose body is not closed. -/
def unclosedSource : String := "while (x < 1) \x7b\nif (x < 2) \x7b\nx gets 3;"

/-- The number is reported for the semicolon behind it, and the brace of the branch for the two
closing braces that are missing. -/
theorem unended_and_unclosed_repairs :
    (∃ ts, tokenize unendedSource = .ok ts ∧
      parse ts = .error ⟨.missingSemicolon "1", ⟨1, 8⟩⟩ ∧
      ∃ front t next rest, ts = front ++ t :: next :: rest ∧ t.lexeme = "1" ∧ ⟨1, 8⟩ = t.pos ∧
        (∀ semicolon : Token, semicolon.kind = .semicolon → Viable (front ++ [t, semicolon])) ∧
        ¬ Viable (front ++ [t, next])) ∧
    ∃ ts, tokenize unclosedSource = .ok ts ∧ parse ts = .error ⟨.unclosedBlock, ⟨2, 12⟩⟩ ∧
      ∃ row finish brace outer, ts = row ++ [finish] ∧ finish.kind = .eof ∧
        openBraces [] row = brace :: outer ∧ ⟨2, 12⟩ = brace.pos ∧ ∀ closing : List Token,
          closing.map Token.kind = List.replicate (openBraces [] row).length .rightCurly →
            Accepted (row ++ closing ++ [finish]) := by
  have hunended := eq_ok_of_isSome (x := tokenize unendedSource) (by decide +kernel) []
  have hunclosed := eq_ok_of_isSome (x := tokenize unclosedSource) (by decide +kernel) []
  refine ⟨⟨_, hunended, ?unended, (repairs_are_viable hunended ?unended).1 _ rfl⟩,
    _, hunclosed, ?unclosed, (repairs_are_viable hunclosed ?unclosed).2 rfl⟩
  case unended => exact eq_error_of_error? (by decide +kernel)
  case unclosed => exact eq_error_of_error? (by decide +kernel)

end Pseudocode.Viability
