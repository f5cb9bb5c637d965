import Mathlib.Data.List.TakeWhile
import Pseudocode.Proofs.Indexed.Following
import Pseudocode.Proofs.OnePass.Parsing

/-!
# Readers on indices make progress

A reader on indices is never out of range and its calls end, wherever in the tokens it begins. It
moves over no end token, also where one stands in the middle of the tokens, and a statement, a
condition or an expression that is read has taken a token at least. So a program is read to the
same function, or to the same error, as without indices, and no token behind the first end token
has a part in it.
-/
namespace Pseudocode.Indexed

open Machine OnePass

namespace Reader

variable {tape : Tape} {s : State tape} {r : Reader} {depth : Nat}

/-- An assignment of a name stays in place and changes what is known about names. -/
theorem At.assign (h : At s r) (x : String) :
    ∃ r', Ends (assign x) r (.ok (s.names.assign x).1) r' ∧
      At (s.withNames (s.names.assign x).2) r' ∧ Traced tape.tokens r r' := by
  have htraced := Traced.refl h.lt
  rw [← h.names]
  exact ⟨{ r with names := (r.names.assign x).2 }, rfl, ⟨h.idx, rfl⟩, htraced.here,
    htraced.visited, htraced.consumed⟩

theorem At.known (h : At s r) : Ends known r (.ok s.names) r := by
  rw [← h.names]
  rfl

/-- A program on indices reads an assignment as the reader on the tape does. -/
theorem assignment_reads (h : At s r) (hdepth : 4 * s.left + 5 < depth) :
    Reads (assignment tape.tokens depth) r (OnePass.assignment s) := by
  rw [OnePass.assignment]
  refine h.look ?_
  refine (expectName_reads _ h).bind fun target r₁ h₁ => ?_
  refine (expect_reads _ _ (by decide) h₁).bind fun sign r₂ h₂ => ?_
  have := target.nearer
  have := sign.nearer
  refine (expression_reads h₂ (by omega)).bind fun value r₃ h₃ => ?_
  obtain ⟨r₄, hends, h₄, htraced⟩ := h₃.assign target.value
  exact .after hends htraced (.ret h₄ rfl)

theorem update_reads (h : At s r) (hdepth : 4 * s.left + 5 < depth) :
    Reads (update tape.tokens depth) r (OnePass.update s) := by
  rw [OnePass.update]
  refine (assignment_reads h hdepth).bind fun a r₁ h₁ => ?_
  by_cases hdeclares : a.value.declares = true
  · rw [if_pos hdeclares, if_pos hdeclares]
    exact h₁.rename (·.withdraw a.value.target) fun r₂ h₂ => .ret h₂ rfl
  · rw [if_neg hdeclares, if_neg hdeclares]
    exact .ret h₁ rfl

theorem parenthesised_reads (h : At s r) (hdepth : 4 * s.left + 5 < depth) :
    Reads (parenthesised tape.tokens depth) r (OnePass.parenthesised s) := by
  rw [OnePass.parenthesised]
  refine (expect_reads _ _ (by decide) h).bind fun opening r₁ h₁ => ?_
  have := opening.nearer
  refine (condition_reads h₁ (by omega)).bind fun inner r₂ h₂ => ?_
  refine (expect_reads _ _ (by decide) h₂).bind fun close r₃ h₃ => ?_
  exact .ret h₃ rfl

theorem forClauses_reads (h : At s r) (hdepth : 4 * s.left + 5 < depth) :
    Reads (forClauses tape.tokens depth) r (OnePass.forClauses s) := by
  rw [OnePass.forClauses]
  refine (expect_reads _ _ (by decide) h).bind fun opening r₁ h₁ => ?_
  have := opening.nearer
  refine h₁.rename Names.enter fun r₂ h₂ => ?_
  have hinside := State.left_withNames opening.state opening.state.names.enter
  refine (assignment_reads h₂ (by omega)).bind fun init r₃ h₃ => ?_
  have := init.nearer
  refine (expectSemicolon_reads h₃).bind fun first r₄ h₄ => ?_
  have := first.nearer
  refine (condition_reads h₄ (by omega)).bind fun test r₅ h₅ => ?_
  have := test.nearer
  refine (expectSemicolon_reads h₅).bind fun second r₆ h₆ => ?_
  have := second.nearer
  refine (update_reads h₆ (by omega)).bind fun step r₇ h₇ => ?_
  refine (expect_reads _ _ (by decide) h₇).bind fun close r₈ h₈ => ?_
  exact .ret h₈ rfl

/-! ## Statements

The measures continue those of conditions. -/

mutual

/-- A statement takes the bound of its condition and one more. -/
theorem statement_reads {s : State tape} {r : Reader} {depth : Nat} (h : At s r)
    (hdepth : 4 * s.left + 6 < depth) :
    Reads (statement tape.tokens depth) r (OnePass.statement s) := by
  cases depth with
  | zero => omega
  | succ depth =>
  rw [OnePass.statement]
  split
  · next x hk =>
    refine h.look ?_
    rw [(token_kind s).trans hk]
    refine (assignment_reads h (by omega)).bind fun a r₁ h₁ => ?_
    exact (expectSemicolon_reads h₁).bind fun close r₂ h₂ => .ret h₂ rfl
  · next hk =>
    have := State.left_advance_lt (s := s) (by simp [hk])
    refine h.look ?_
    rw [(token_kind s).trans hk]
    refine h.move (by simp [hk]) fun r₁ h₁ => ?_
    refine (parenthesised_reads h₁ (by omega)).bind fun test r₂ h₂ => ?_
    have := test.nearer
    exact (block_reads h₂ (by omega)).bind fun body r₃ h₃ => .ret h₃ rfl
  · next hk =>
    have := State.left_advance_lt (s := s) (by simp [hk])
    refine h.look ?_
    rw [(token_kind s).trans hk]
    refine h.move (by simp [hk]) fun r₁ h₁ => ?_
    refine (parenthesised_reads h₁ (by omega)).bind fun test r₂ h₂ => ?_
    have := test.nearer
    exact (block_reads h₂ (by omega)).bind fun body r₃ h₃ => .ret h₃ rfl
  · next hk =>
    have := State.left_advance_lt (s := s) (by simp [hk])
    refine h.look ?_
    rw [(token_kind s).trans hk]
    refine h.move (by simp [hk]) fun r₁ h₁ => ?_
    refine (forClauses_reads h₁ (by omega)).bind fun clauses r₂ h₂ => ?_
    have := clauses.nearer
    refine (block_reads h₂ (by omega)).bind fun body r₃ h₃ => ?_
    exact h₃.rename Names.leave fun r₄ h₄ => .ret h₄ rfl
  · next hk =>
    have := State.left_advance_lt (s := s) (by simp [hk])
    refine h.look ?_
    rw [(token_kind s).trans hk]
    refine h.move (by simp [hk]) fun r₁ h₁ => ?_
    refine (expression_reads h₁ (by omega)).bind fun value r₂ h₂ => ?_
    exact (expectSemicolon_reads h₂).bind fun close r₃ h₃ => .ret h₃ rfl
  · next hname hif hwhile hfor hreturn =>
    refine h.look ?_
    rw [token_kind]
    split
    · next x hk => exact absurd hk (hname x)
    · next hk => exact absurd hk hif
    · next hk => exact absurd hk hwhile
    · next hk => exact absurd hk hfor
    · next hk => exact absurd hk hreturn
    · exact h.unexpected _
termination_by 4 * s.left + 6
decreasing_by all_goals omega

theorem block_reads {s : State tape} {r : Reader} {depth : Nat} (h : At s r)
    (hdepth : 4 * s.left + 7 < depth) :
    Reads (block tape.tokens depth) r (OnePass.block s) := by
  cases depth with
  | zero => omega
  | succ depth =>
  rw [OnePass.block]
  refine h.look ?_
  refine (expect_reads _ _ (by decide) h).bind fun opening r₁ h₁ => ?_
  have := opening.nearer
  refine h₁.rename Names.enter fun r₂ h₂ => ?_
  have hinside := State.left_withNames opening.state opening.state.names.enter
  exact (blockTail_reads _ h₂ (by omega)).carry (fun _ => rfl) (fun _ => rfl)
termination_by 4 * s.left + 7
decreasing_by all_goals omega

theorem blockTail_reads {s : State tape} {r : Reader} {depth : Nat} (opened : Position)
    (h : At s r) (hdepth : 4 * s.left + 8 < depth) :
    Reads (blockTail tape.tokens opened depth) r (OnePass.blockTail opened s) := by
  cases depth with
  | zero => omega
  | succ depth =>
  rw [OnePass.blockTail]
  refine h.look ?_
  rw [token_kind]
  by_cases hclose : s.kind = .rightCurly
  · rw [if_pos hclose, dif_pos hclose]
    refine h.move (by simp [hclose]) fun r₁ h₁ => h₁.rename Names.leave fun r₂ h₂ => ?_
    rw [State.names_advance] at h₂
    exact .ret h₂ rfl
  rw [if_neg hclose, dif_neg hclose]
  by_cases heof : s.kind = .eof
  · rw [if_pos heof, if_pos heof]
    exact .fail h _
  · rw [if_neg heof, if_neg heof]
    refine (statement_reads h (by omega)).bind fun first r₁ h₁ => ?_
    have := first.nearer
    exact (blockTail_reads opened h₁ (by omega)).bind fun later r₂ h₂ => .ret h₂ rfl
termination_by 4 * s.left + 8
decreasing_by all_goals omega

end

theorem statements_reads {s : State tape} {r : Reader} {depth : Nat} (h : At s r)
    (hdepth : 4 * s.left + 7 < depth) :
    Realizes Prod.fst Prod.snd (statements tape.tokens depth) r (OnePass.statements s) := by
  cases depth with
  | zero => omega
  | succ depth =>
  rw [OnePass.statements]
  refine h.look ?_
  rw [token_kind]
  by_cases heof : s.kind = .eof
  · rw [if_pos heof, if_pos heof]
    exact .ret h rfl
  · rw [if_neg heof, if_neg heof]
    refine (statement_reads h (by omega)).bind fun first r₁ h₁ => ?_
    have := first.nearer
    exact (statements_reads h₁ (by omega)).bind fun later r₂ h₂ => .ret h₂ rfl
termination_by s.left

theorem function_reads (h : At s r) (hdepth : 4 * s.left + 7 < depth) :
    Realizes Prod.fst Prod.snd (function tape.tokens depth) r (OnePass.function s) := by
  rw [OnePass.function]
  refine h.look ?_
  refine (expect_reads _ _ (by decide) h).bind fun keyword r₁ h₁ => ?_
  refine (expectName_reads _ h₁).bind fun name r₂ h₂ => ?_
  by_cases hreserved : name.value = Grammar.reservedName
  · rw [if_pos hreserved, if_pos hreserved]
    exact .fail h₂ _
  rw [if_neg hreserved, if_neg hreserved]
  refine (expect_reads _ _ (by decide) h₂).bind fun opening r₃ h₃ => ?_
  refine h₃.look ?_
  rw [token_kind]
  by_cases hname : opening.state.kind.name?.isSome = true
  · rw [if_pos hname, if_pos hname]
    exact .fail h₃ _
  rw [if_neg hname, if_neg hname]
  refine (expect_reads _ _ (by decide) h₃).bind fun close r₄ h₄ => ?_
  have := keyword.nearer
  have := name.nearer
  have := opening.nearer
  have := close.nearer
  refine (block_reads h₄ (by omega)).bind fun body r₅ h₅ => ?_
  exact .after h₅.known (.refl h₅.lt) (.ret h₅ rfl)

theorem implicitFunction_reads (h : At s r) (hdepth : 4 * s.left + 7 < depth) :
    Realizes Prod.fst Prod.snd (implicitFunction tape.tokens depth) r
      (OnePass.implicitFunction s) := by
  rw [OnePass.implicitFunction]
  refine h.look ?_
  refine (statements_reads h hdepth).bind fun body r₁ h₁ => ?_
  exact .after h₁.known (.refl h₁.lt) (.ret h₁ rfl)

/-- A program is read under the bound of its body. -/
theorem program_reads (h : At s r) (hdepth : 4 * s.left + 7 < depth) :
    Realizes Prod.fst Prod.snd (program tape.tokens depth) r (OnePass.program s) := by
  have hend (f : Function × State tape) (r₁ : Reader) (h₁ : At f.2 r₁) :
      Realizes Prod.fst Prod.snd
        (do
          let last ← current tape.tokens
          if last.kind ≠ .eof then fail ⟨.trailingInput last.lexeme, last.pos⟩ else return f.1)
        r₁
        (if f.2.kind ≠ .eof then
          .error ⟨⟨.trailingInput f.2.token.lexeme, f.2.token.pos⟩, f.2⟩
        else pure f) := by
    refine h₁.look ?_
    rw [token_kind]
    by_cases hlast : f.2.kind ≠ .eof
    · rw [if_pos hlast, if_pos hlast]
      exact .fail h₁ _
    · rw [if_neg hlast, if_neg hlast]
      exact .ret h₁ rfl
  rw [OnePass.program]
  refine h.look ?_
  rw [token_kind]
  by_cases hk : s.kind = .keyword .fn
  · simp only [if_pos hk]
    exact (function_reads h hdepth).bind hend
  · simp only [if_neg hk]
    exact (implicitFunction_reads h hdepth).bind hend

/-! ## Progress -/

/-- A bound on the depth of calls that is enough for every program of a reader. -/
def enough (tokens : List Token) : Nat := 4 * tokens.length + 9

/-- A program that ends with a value or an error, wherever in the tokens it begins: it is in range
all the time, and moves over no end token. -/
def Stays {α : Type} (tokens : List Token) (m : (depth : Nat) → Parsing α) : Prop :=
  ∀ r, r.idx < tokens.length → ∀ depth, enough tokens ≤ depth →
    ∃ out r', Ends (m depth) r out r' ∧ Traced tokens r r'

/-- A program that stays and that has moved over a token if it comes to a value. -/
def Progresses {α : Type} (tokens : List Token) (m : (depth : Nat) → Parsing α) : Prop :=
  ∀ r, r.idx < tokens.length → ∀ depth, enough tokens ≤ depth →
    ∃ out r', Ends (m depth) r out r' ∧ Traced tokens r r' ∧ ∀ a, out = .ok a → r.idx < r'.idx

/-- An attempt, which is made at an opening parenthesis: it stays, what it has found has taken a
token, and if it has found nothing it is back where it began. -/
def Tries {α : Type} (tokens : List Token) (m : (depth : Nat) → Parsing (Option α)) : Prop :=
  ∀ r, tokens[r.idx]?.map Token.kind = some .leftParen → ∀ depth, enough tokens ≤ depth →
    ∃ found r', Ends (m depth) r (.ok found) r' ∧ Traced tokens r r' ∧
      (r'.idx = r.idx ↔ found = none)

/-- The state on a tape at the place of a reader in range. -/
theorem exists_at {tape : Tape} {r : Reader} (h : r.idx < tape.tokens.length) :
    ∃ s : State tape, At s r ∧ s.left ≤ tape.tokens.length :=
  ⟨⟨⟨r.idx, h⟩, r.names⟩, ⟨rfl, rfl⟩, Nat.sub_le _ _⟩

/-- A program that realizes a reader ends in range, whatever comes of it. -/
theorem Realizes.stays {α β : Type} {value : β → α} {state : β → State tape} {m : Parsing α}
    {o : Except (Stuck tape) β} (h : Realizes value state m r o) :
    ∃ out r', Ends m r out r' ∧ Traced tape.tokens r r' := by
  cases h with
  | found ends place traced => exact ⟨_, _, ends, traced⟩
  | stuck ends place traced => exact ⟨_, _, ends, traced⟩

/-- A value on the tape is nearer to the end. -/
theorem Reads.progresses {α : Type} {m : Parsing α} {o : Outcome tape α s.left} (hs : At s r)
    (h : Reads m r o) :
    ∃ out r', Ends m r out r' ∧ Traced tape.tokens r r' ∧ ∀ a, out = .ok a → r.idx < r'.idx := by
  cases h with
  | @found p r' ends place traced =>
      refine ⟨_, _, ends, traced, fun _ _ => ?_⟩
      have hnearer := p.nearer
      have hidx := hs.idx
      have hidx' := place.idx
      simp only [State.left] at hnearer
      omega
  | stuck ends place traced =>
      refine ⟨_, _, ends, traced, ?_⟩
      rintro a ⟨⟩

/-- What ends in range behind every state of the tape does so at every index. -/
theorem stays_of_at {α : Type} {m : (depth : Nat) → Parsing α}
    (h : ∀ (s : State tape) r depth, At s r → 4 * s.left + 8 < depth →
      ∃ out r', Ends (m depth) r out r' ∧ Traced tape.tokens r r') : Stays tape.tokens m := by
  intro r hr depth hdepth
  obtain ⟨s, hs, hleft⟩ := exists_at hr
  rw [enough] at hdepth
  exact h s r depth hs (by omega)

theorem progresses_of_reads {α : Type} {m : (depth : Nat) → Parsing α}
    {o : (s : State tape) → Outcome tape α s.left}
    (h : ∀ s r depth, At s r → 4 * s.left + 8 < depth → Reads (m depth) r (o s)) :
    Progresses tape.tokens m := by
  intro r hr depth hdepth
  obtain ⟨s, hs, hleft⟩ := exists_at hr
  rw [enough] at hdepth
  exact (h s r depth hs (by omega)).progresses hs

theorem tryGroup_tries : Tries tape.tokens (tryGroup tape.tokens) := by
  intro r hparen depth hdepth
  obtain ⟨t, ht, hkind⟩ := Option.map_eq_some_iff.1 hparen
  obtain ⟨hr, -⟩ := List.getElem?_eq_some_iff.1 ht
  obtain ⟨s, hs, hleft⟩ := exists_at hr
  have hk : s.kind = .leftParen := by
    obtain rfl : t = s.token := Option.some.inj (ht.symm.trans hs.getElem?)
    exact hkind
  rw [enough] at hdepth
  have hgroup := tryGroup_reads hs hk (by omega : _ < depth)
  have hidx := hs.idx
  cases hgroup with
  | found ends place traced =>
      have hidx' := place.idx
      refine ⟨_, _, ends, traced, ?_⟩
      cases hattempt : OnePass.tryGroup s hk with
      | found group =>
          rw [hattempt] at hidx'
          have hnearer := group.nearer
          simp only [State.left] at hnearer
          simp only [result, reduceCtorEq, iff_false] at hidx' ⊢
          omega
      | undone back hplace =>
          rw [hattempt] at hidx'
          simp only [result] at hidx' ⊢
          rw [hidx', hplace, hidx]
          simp

/-- **Every reader stays inside of the tokens, and what it reads takes a token.** The operators
behind an operand, and the statements of a function without a heading, may be none. -/
structure AllProgress (tokens : List Token) : Prop where
  primary : Progresses tokens (primary tokens)
  unary : Progresses tokens (unary tokens)
  climb : ∀ least left, Stays tokens (climb tokens least left)
  expression : Progresses tokens (expression tokens)
  comparison : Progresses tokens (comparison tokens)
  negation : Progresses tokens (negation tokens)
  tryGroup : Tries tokens (tryGroup tokens)
  conjunction : Progresses tokens (conjunction tokens)
  condition : Progresses tokens (condition tokens)
  parenthesised : Progresses tokens (parenthesised tokens)
  assignment : Progresses tokens (assignment tokens)
  forClauses : Progresses tokens (forClauses tokens)
  block : Progresses tokens (block tokens)
  statement : Progresses tokens (statement tokens)
  function : Stays tokens (function tokens)
  implicitFunction : Stays tokens (implicitFunction tokens)
  program : Stays tokens (program tokens)

/-- All readers make progress on a tape. -/
theorem allProgress (tape : Tape) : AllProgress tape.tokens where
  primary := progresses_of_reads fun s r depth h hdepth => primary_reads h (by omega)
  unary := progresses_of_reads fun s r depth h hdepth => unary_reads h (by omega)
  climb least left :=
    stays_of_at fun s r depth h hdepth => (climb_reads least left h (by omega)).stays
  expression := progresses_of_reads fun s r depth h hdepth => expression_reads h (by omega)
  comparison := progresses_of_reads fun s r depth h hdepth => comparison_reads h (by omega)
  negation := progresses_of_reads fun s r depth h hdepth => negation_reads h (by omega)
  tryGroup := tryGroup_tries
  conjunction := progresses_of_reads fun s r depth h hdepth => conjunction_reads h (by omega)
  condition := progresses_of_reads fun s r depth h hdepth => condition_reads h (by omega)
  parenthesised := progresses_of_reads fun s r depth h hdepth => parenthesised_reads h (by omega)
  assignment := progresses_of_reads fun s r depth h hdepth => assignment_reads h (by omega)
  forClauses := progresses_of_reads fun s r depth h hdepth => forClauses_reads h (by omega)
  block := progresses_of_reads fun s r depth h hdepth => block_reads h (by omega)
  statement := progresses_of_reads fun s r depth h hdepth => statement_reads h (by omega)
  function := stays_of_at fun s r depth h hdepth => (function_reads h (by omega)).stays
  implicitFunction :=
    stays_of_at fun s r depth h hdepth => (implicitFunction_reads h (by omega)).stays
  program := stays_of_at fun s r depth h hdepth => (program_reads h (by omega)).stays

end Reader

/-- The tokens up to the first end token, with this token. -/
def upToEnd (ts : List Token) : List Token :=
  ts.takeWhile (·.kind ≠ .eof) ++ (ts.find? (·.kind = .eof)).toList

/-- Tokens behind the first end are not looked at. -/
theorem row_upToEnd (ts : List Token) :
    Grammar.TokenRow.ofTokens (upToEnd ts) = Grammar.TokenRow.ofTokens ts := by
  have hfront : ∀ t ∈ ts.takeWhile (·.kind ≠ .eof), t.kind ≠ .eof := fun t ht => by
    simpa using List.mem_takeWhile_imp ht
  have hnone : (ts.takeWhile (·.kind ≠ .eof)).find? (·.kind = .eof) = none := by
    simpa [List.find?_eq_none] using hfront
  rw [upToEnd]
  cases hfind : ts.find? (·.kind = .eof) with
  | none =>
      have hall : ts.takeWhile (·.kind ≠ .eof) = ts := by
        rw [List.takeWhile_eq_self_iff]
        simpa [List.find?_eq_none] using hfind
      rw [hall, Option.toList_none, List.append_nil]
  | some t =>
      have ht : t.kind = .eof := by simpa using List.find?_some hfind
      rw [Grammar.TokenRow.ofTokens, List.takeWhile_append_of_pos (by simpa using hfront),
        List.find?_append, hnone, Grammar.TokenRow.ofTokens, hfind]
      simp [ht]

/-- **Parsing makes progress and never passes an end token.** Under every bound that is enough for
the number of tokens, the reader on indices comes to the function or to the error that the tokens
denote. It has looked nowhere out of range, and neither its way nor what it has moved over has an
end token in it. The same holds of every single reader, wherever it begins, and what is read takes
a token. Tokens behind the first end token have no part in the result. -/
theorem parsing_progresses (ts : List Token) :
    (∀ depth, Reader.enough (Tape.ofTokens ts).tokens ≤ depth →
      ∃ r, Ends (Reader.program (Tape.ofTokens ts).tokens depth) .start (Pseudocode.parse ts) r ∧
        Traced (Tape.ofTokens ts).tokens .start r) ∧
    Reader.AllProgress (Tape.ofTokens ts).tokens ∧
    Pseudocode.parse (upToEnd ts) = Pseudocode.parse ts := by
  refine ⟨?_, Reader.allProgress _, ?_⟩
  · intro depth hdepth
    have hstart : Reader.At (State.start (.ofTokens ts)) .start := ⟨rfl, rfl⟩
    have hleft : (State.start (.ofTokens ts)).left ≤ (Tape.ofTokens ts).tokens.length :=
      Nat.sub_le _ _
    rw [Reader.enough] at hdepth
    have hprogram := Reader.program_reads hstart (by omega : _ < depth)
    rw [← OnePass.parse_eq_parse, OnePass.parse]
    generalize OnePass.program (State.start (.ofTokens ts)) = outcome at hprogram ⊢
    cases hprogram with
    | found ends place traced => exact ⟨_, ends, traced⟩
    | stuck ends place traced => exact ⟨_, ends, traced⟩
  · rw [Pseudocode.parse, row_upToEnd]
    rfl

/-- A function with an end token between its braces. -/
def cutFunction : List Token :=
  [⟨.keyword .fn, "\\Fn", ⟨1, 1⟩⟩, ⟨.name "F", "F", ⟨1, 5⟩⟩, ⟨.leftParen, "(", ⟨1, 6⟩⟩,
    ⟨.rightParen, ")", ⟨1, 7⟩⟩, ⟨.leftCurly, "\x7b", ⟨1, 9⟩⟩, ⟨.eof, "", ⟨1, 10⟩⟩,
    ⟨.rightCurly, "\x7d", ⟨1, 11⟩⟩]

/-- The brace behind the end token does not close the block. -/
theorem cutFunction_never_passed :
    (∃ r, Ends (Reader.program (Tape.ofTokens cutFunction).tokens 41) .start
        (.error ⟨.unclosedBlock, ⟨1, 9⟩⟩) r ∧ Traced (Tape.ofTokens cutFunction).tokens .start r) ∧
      Pseudocode.parse (cutFunction.take 6) = .error ⟨.unclosedBlock, ⟨1, 9⟩⟩ := by
  have herror : (match Pseudocode.parse cutFunction with
      | .ok _ => none
      | .error e => some e) = some ⟨.unclosedBlock, ⟨1, 9⟩⟩ := by decide +kernel
  obtain ⟨hprogram, -, hfront⟩ := parsing_progresses cutFunction
  split at herror
  · cases herror
  · next e hparse =>
    obtain rfl := Option.some.inj herror
    rw [hparse] at hprogram hfront
    exact ⟨hprogram 41 (by decide), hfront⟩

end Pseudocode.Indexed
