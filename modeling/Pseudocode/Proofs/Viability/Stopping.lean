import Pseudocode.Proofs.Viability.Following

/-!
# Where reading stops

Conditions, statements and programs follow the goals, as expressions do. A block is followed
together with its opening brace, so that a block which is never closed is reported with the braces
that are open where the input ends.
-/
namespace Pseudocode.Viability

open Grammar

variable {finish : Position} {base gs : List Goal} {ts : List Token}

/-! ## Conditions -/

/-- The goals behind a condition: those it stands in front of, or operators in front of these when a
comparison ends it. -/
def Behind (gs left : List Goal) : Prop := left = gs ∨ left = .operators :: gs

theorem step_behind {left : List Goal} {k : Kind} (h : Behind gs left)
    (hk : k.isArithmetic = false) : step left k = step gs k := by
  rcases h with rfl | rfl
  · rfl
  · exact step_operators hk gs

theorem step_comparison_zero_eq_none {k : Kind} (hk : k.isArithmetic = false)
    (hrel : ∀ op, k ≠ .rel op) (gs : List Goal) : step (.comparison 0 :: gs) k = none := by
  cases k with
  | arith op => cases hk
  | rel op => exact absurd rfl (hrel op)
  | _ => rfl

/-- A comparison is read along its goals. -/
theorem follows_comparison (gs : List Goal) (ts : List Token) (hbang : Lacks .bang ts) :
    Follows finish base (.condition 0 :: gs) ts
      (fun left rest => Behind gs left ∧ EndsExpr rest) (comparison finish ts) := by
  rw [comparison]
  refine (follows_first_sum 0 gs ts fun _ => hbang).bind fun l left h => ?_
  obtain ⟨rfl, hend⟩ := h
  obtain ⟨value, rest, shorter⟩ := l
  have hend := isArithmetic_of_endsExpr hend
  split
  · next op lexeme pos later heq =>
    simp only at heq
    subst heq
    refine .cons (step_of_advance rfl gs) rfl (.map ?_ fun _ => rfl)
    exact (follows_sum (fun _ => rfl) gs later).imp fun left rest h => ⟨.inr h.1, h.2⟩
  · next t later hrel heq =>
    simp only at heq
    subst heq
    refine .refuse rfl (.inl (step_comparison_zero_eq_none hend ?_ gs))
    rintro op hop
    obtain ⟨kind, lexeme, pos⟩ := t
    obtain rfl : kind = .rel op := hop
    exact hrel op lexeme pos rfl
  · next heq =>
    simp only at heq
    subst heq
    exact .refuse rfl (.inl rfl)

/-- A condition in parentheses, behind its opening one. The attempt to read it may only succeed. -/
theorem leads_group (t : Token) {ts rest : List Token} {inner : Condition} (gs : List Goal)
    (ht : t.kind = .leftParen) (h : Grouped finish ts inner rest) :
    ∃ front, t :: ts = front ++ rest ∧
      Leads (.condition 0 :: .connectives :: gs) front (.connectives :: gs) := by
  obtain ⟨close, hinner, hclose, -⟩ := h
  obtain ⟨hkinds, hcanon⟩ := disjunction_sound hinner
  obtain ⟨us, close', later, rfl, hus, hclose', -⟩ := exists_split hkinds
  -- what was read is read back, and reading has one result
  have hback : Yields (disjunction finish (us ++ close' :: later)) inner (close' :: later) :=
    disjunction_complete hcanon hus (.inl (hclose'.trans hclose))
  obtain ⟨p, hp, -, hrest⟩ := hinner
  obtain ⟨q, hq, -, hrest'⟩ := hback
  obtain rfl := Except.ok.inj (hp.symm.trans hq)
  obtain ⟨rfl, rfl⟩ := List.cons.inj (hrest.symm.trans hrest')
  have hfront : (t :: (us ++ [close])).map Token.kind = (Condition.group inner).kinds := by
    simp [Condition.kinds, ht, hus, hclose]
  refine ⟨t :: (us ++ [close]), by simp, .of_inLine ?_ ?_⟩
  · have hrun := run_condition (.group inner) 0 gs []
    rw [hfront]
    simpa [pending, closings] using hrun
  · rw [hfront]
    exact inLine_condition (.group inner)

theorem negation_of_lacks (hbang : Lacks .bang ts) (hparen : Lacks .leftParen ts) :
    negation finish ts = comparison finish ts := by
  rw [negation.eq_def]
  split
  · simp at hbang
  · simp at hparen
  · rfl

/-- A negation is read along its goals, whether a group or a comparison stands in it. -/
theorem follows_negation (gs : List Goal) (ts : List Token) :
    Follows finish base (.condition 0 :: .connectives :: gs) ts
      (fun left rest => Behind (.connectives :: gs) left ∧ EndsExpr rest)
      (negation finish ts) := by
  rcases lacks_or .bang ts with hbang | ⟨⟨kind, lexeme, pos⟩, later, hts, ht⟩
  · rcases lacks_or .leftParen ts with hparen | ⟨⟨kind, lexeme, pos⟩, later, hts, ht⟩
    · rw [negation_of_lacks hbang hparen]
      exact follows_comparison (.connectives :: gs) ts hbang
    · obtain rfl : kind = .leftParen := ht
      subst hts
      rw [negation]
      cases hgroup : group? finish later with
      | none => exact follows_comparison (.connectives :: gs) _ hbang
      | some p =>
          obtain ⟨inner, hinner, -⟩ := grouped_of_group? hgroup
          obtain ⟨front, hfront, hleads⟩ := leads_group ⟨.leftParen, lexeme, pos⟩ gs rfl hinner
          obtain ⟨-, -, -, hstop⟩ := hinner
          exact .ok hfront hleads ⟨.inl rfl, endsExpr_of_continuesOperand hstop⟩
  · have hlt : later.length < ts.length := by simp [hts]
    obtain rfl : kind = .bang := ht
    rw [hts, negation]
    refine .cons (step_of_advance rfl _) rfl ?_
    exact (follows_negation gs later).map fun _ => rfl
termination_by ts.length
decreasing_by exact hlt

theorem follows_conjunctionTail (gs : List Goal) {left : List Goal} (l : Condition)
    (ts : List Token) (hleft : Behind (.connectives :: gs) left) (hend : EndsExpr ts) :
    Follows finish base left ts
      (fun left rest => Behind (.connectives :: gs) left ∧ EndsExpr rest ∧
        Lacks (.logic .and) rest) (conjunctionTail finish l ts) := by
  rcases lacks_or (.logic .and) ts with hstop | ⟨⟨kind, lexeme, pos⟩, later, hts, ht⟩
  · have hyields : Yields (conjunctionTail finish l ts) l ts :=
      (yields_conjunctionTail_of_lacks hstop).2 ⟨rfl, rfl⟩
    exact .of_yields hyields ⟨hleft, hend, hstop⟩
  · have hlt : later.length < ts.length := by simp [hts]
    obtain rfl : kind = .logic .and := ht
    rw [hts, conjunctionTail]
    refine .cons (step_behind hleft rfl) rfl ?_
    refine (follows_negation gs later).bind fun right left h => ?_
    have hshorter := right.shorter
    exact (follows_conjunctionTail gs _ right.rest h.1 h.2).map fun _ => rfl
termination_by ts.length
decreasing_by omega

theorem follows_conjunction (gs : List Goal) (ts : List Token) :
    Follows finish base (.condition 0 :: .connectives :: gs) ts
      (fun left rest => Behind (.connectives :: gs) left ∧ EndsExpr rest ∧
        Lacks (.logic .and) rest) (conjunction finish ts) := by
  rw [conjunction]
  refine (follows_negation gs ts).bind fun first left h => ?_
  exact (follows_conjunctionTail gs first.value first.rest h.1 h.2).map fun _ => rfl

/-- The goals behind a whole condition, and what does not stand there. -/
def EndsCondition (gs left : List Goal) (rest : List Token) : Prop :=
  Behind (.connectives :: gs) left ∧ EndsExpr rest ∧ Lacks (.logic .and) rest ∧
    Lacks (.logic .or) rest

theorem follows_disjunctionTail (gs : List Goal) {left : List Goal} (l : Condition)
    (ts : List Token) (hleft : Behind (.connectives :: gs) left) (hend : EndsExpr ts)
    (hand : Lacks (.logic .and) ts) :
    Follows finish base left ts (EndsCondition gs) (disjunctionTail finish l ts) := by
  rcases lacks_or (.logic .or) ts with hstop | ⟨⟨kind, lexeme, pos⟩, later, hts, ht⟩
  · have hyields : Yields (disjunctionTail finish l ts) l ts :=
      (yields_disjunctionTail_of_lacks hstop).2 ⟨rfl, rfl⟩
    exact .of_yields hyields ⟨hleft, hend, hand, hstop⟩
  · have hlt : later.length < ts.length := by simp [hts]
    obtain rfl : kind = .logic .or := ht
    rw [hts, disjunctionTail]
    refine .cons (step_behind hleft rfl) rfl ?_
    refine (follows_conjunction gs later).bind fun right left h => ?_
    have hshorter := right.shorter
    exact (follows_disjunctionTail gs _ right.rest h.1 h.2.1 h.2.2).map fun _ => rfl
termination_by ts.length
decreasing_by omega

/-- A condition is read along its goals, and no connective stands behind it. -/
theorem follows_disjunction (gs : List Goal) (ts : List Token) :
    Follows finish base (.condition 0 :: .connectives :: gs) ts (EndsCondition gs)
      (disjunction finish ts) := by
  rw [disjunction]
  refine (follows_conjunction gs ts).bind fun first left h => ?_
  exact (follows_disjunctionTail gs first.value first.rest h.1 h.2.1 h.2.2).map fun _ => rfl

/-- Behind a condition nothing goes on but the token that has to close it. -/
theorem EndsCondition.step {kind : Kind} {left : List Goal} {rest : List Token}
    (h : EndsCondition (.token kind :: gs) left rest) (hkind : kind.isArithmetic = false)
    (hlogic : ∀ op, kind ≠ .logic op) :
    Viability.step left kind = some gs ∧
      (nextKind rest ≠ kind → Viability.step left (nextKind rest) = none) := by
  obtain ⟨hleft, hend, hand, hor⟩ := h
  have hskip {k : Kind} (hk : ∀ op, k ≠ .logic op) :
      Viability.step (.connectives :: .token kind :: gs) k =
        Viability.step (.token kind :: gs) k := by
    refine step_of_isOptional ?_ rfl _
    cases k with
    | logic op => exact absurd rfl (hk op)
    | _ => rfl
  constructor
  · rw [step_behind hleft hkind, hskip hlogic, step_token]
  · intro hne
    have hconnective : ∀ op, nextKind rest ≠ .logic op := by
      intro op
      cases op with
      | and => exact nextKind_ne hand nofun
      | or => exact nextKind_ne hor nofun
    rw [step_behind hleft (isArithmetic_of_endsExpr hend), hskip hconnective, step_token_ne hne]

/-- An assignment, from goals that go on with nothing but its target. -/
theorem follows_assignment {start : List Goal} (gs : List Goal) (ts : List Token)
    (hname : ∀ x, nextKind ts = .name x →
      step start (.name x) = some (.token .gets :: .operand :: .operators :: gs))
    (hother : (∀ x, nextKind ts ≠ .name x) → step start (nextKind ts) = none) :
    Follows finish base start ts (fun left rest => left = .operators :: gs ∧ EndsExpr rest)
      (assignment finish ts) := by
  rw [assignment]
  refine (follows_expectName hname hother).bind fun target left h => ?_
  subst h
  refine (follows_token rfl _ target.rest).bind fun sign left h => ?_
  subst h
  exact (follows_sum (fun _ => rfl) gs sign.rest).map fun _ => rfl

theorem follows_clause (gs : List Goal) (ts : List Token) :
    Follows finish base (.target :: .token .gets :: .operand :: .operators :: gs) ts
      (fun left rest => left = .operators :: gs ∧ EndsExpr rest) (assignment finish ts) := by
  refine follows_assignment gs ts (fun x _ => rfl) fun hother => step_eq_none ?_ rfl _
  cases hk : nextKind ts with
  | name x => exact absurd hk (hother x)
  | _ => rfl

theorem follows_parenthesised (gs : List Goal) (ts : List Token) :
    Follows finish base (.token .leftParen :: .condition 0 :: .connectives :: .token .rightParen ::
      gs) ts (fun left _ => left = gs) (parenthesised finish ts) := by
  rw [parenthesised]
  refine (follows_token rfl _ ts).bind fun opening left h => ?_
  subst h
  refine (follows_disjunction _ opening.rest).bind fun inner left h => ?_
  obtain ⟨hclose, hother⟩ := h.step rfl fun _ => by simp
  exact (follows_expect rfl hclose fun hne => .inl (hother hne)).map fun _ => rfl

/-- The clauses of a counting loop are read along their goals. -/
theorem follows_forClauses (gs : List Goal) (ts : List Token) :
    Follows finish base (.token .leftParen :: .target :: .token .gets :: .operand :: .operators ::
      .token .semicolon :: .condition 0 :: .connectives :: .token .semicolon :: .target ::
      .token .gets :: .operand :: .operators :: .token .rightParen :: gs) ts
      (fun left _ => left = gs) (forClauses finish ts) := by
  rw [forClauses]
  refine (follows_token rfl _ ts).bind fun opening left h => ?_
  subst h
  refine (follows_clause _ opening.rest).terminate (.condition 0 :: .connectives ::
    .token .semicolon :: .target :: .token .gets :: .operand :: .operators ::
    .token .rightParen :: gs) ?_ fun init => ?_
  · rintro left rest ⟨rfl, hend⟩
    exact ⟨rfl, fun hne => step_operators_ne hend hne _⟩
  refine (follows_disjunction _ init.rest).terminate (.target :: .token .gets :: .operand ::
    .operators :: .token .rightParen :: gs) (fun left rest h => ?_) fun test => ?_
  · exact h.step rfl fun _ => by simp
  refine (follows_clause _ test.rest).bind fun update left h => ?_
  obtain ⟨rfl, hend⟩ := h
  exact (follows_expect rfl rfl fun hne => .inl (step_operators_ne hend hne gs)).map fun _ => rfl

/-! ## Blocks -/

/-- The goals inside of a block. -/
abbrev inside (gs : List Goal) : List Goal := .statements :: .token .rightCurly :: gs

section Blocks
variable {brace : Token} {before : List Token}

theorem run_block (hbrace : brace.kind = .leftCurly)
    (hbefore : Leads (inside gs) before (inside gs)) (later : List Token) :
    run (blockGoals ++ gs) ((brace :: (before ++ later)).map Token.kind) =
      run (inside gs) (later.map Token.kind) := by
  have hopen : step (blockGoals ++ gs) brace.kind = some (inside gs) := by
    rw [hbrace]
    rfl
  rw [List.map_cons, run_cons hopen, List.map_append, run_append, hbefore.run, Option.bind_some]

theorem openBraces_block (hbrace : brace.kind = .leftCurly)
    (hbefore : Leads (inside gs) before (inside gs)) (stack later : List Token) :
    openBraces stack (brace :: (before ++ later)) = openBraces (brace :: stack) later := by
  rw [openBraces_open hbrace, openBraces_append, hbefore.braces]

/-- What stops inside of a block stops the block. A brace that is open inside is followed by that of
the block, which takes one more brace to close. -/
theorem Stops.in_block {e : SyntaxError} (hbrace : brace.kind = .leftCurly)
    (hbefore : Leads (inside gs) before (inside gs))
    (h : Stops finish (inside gs) (inside gs) ts e) :
    Stops finish gs (blockGoals ++ gs) (brace :: (before ++ ts)) e := by
  cases h with
  | @unexpected fault front rest left hfault hts hleft hnext =>
      have hwhole : brace :: (before ++ ts) = brace :: (before ++ front) ++ rest := by simp [hts]
      exact .unexpected hfault hwhole ((run_block hbrace hbefore front).trans hleft) hnext
  | @semicolon front rest last left hts hleft hrepair hnext =>
      have hwhole : brace :: (before ++ ts) = brace :: (before ++ front) ++ last :: rest := by
        simp [hts]
      refine .semicolon hwhole ?_ hrepair hnext
      rw [List.cons_append, List.append_assoc]
      exact (run_block hbrace hbefore _).trans hleft
  | @unclosed inner outer left hopen hleft hrepair =>
      have hopen' (stack : List Token) : openBraces stack (brace :: (before ++ ts)) =
          inner :: ((outer ++ [brace]) ++ stack) := by
        rw [openBraces_block hbrace hbefore, hopen, List.append_assoc, List.singleton_append]
      refine .unclosed hopen' ((run_block hbrace hbefore ts).trans hleft) ?_
      rw [List.replicate_succ', List.length_append, List.length_singleton, run_concat hrepair]
      rfl
  | reserved name pos => exact .reserved name pos

/-- A statement inside of a block, and what comes behind it. -/
theorem Follows.in_block {α β : Type} {n m : Nat} {a : Answer α n} {f : Parsed α n → Answer β m}
    {Q : List Goal → List Token → Prop} (hbrace : brace.kind = .leftCurly)
    (hbefore : Leads (inside gs) before (inside gs))
    (h : Follows finish (inside gs) (inside gs) ts (fun left _ => left = inside gs) a)
    (hf : ∀ p front, ts = front ++ p.rest → Leads (inside gs) (before ++ front) (inside gs) →
      Follows finish gs (blockGoals ++ gs) (brace :: (before ++ front ++ p.rest)) Q (f p)) :
    Follows finish gs (blockGoals ++ gs) (brace :: (before ++ ts)) Q (a >>= f) := by
  cases h with
  | @ok p front left hts hfront hleft =>
      subst hleft
      have hlater := hf p front hts (hbefore.append hfront)
      rwa [List.append_assoc, ← hts] at hlater
  | error h => exact .error (h.in_block hbrace hbefore)

end Blocks

/-! ## Statements -/

/-- A statement begins with one of its heads, or the next token is refused. -/
theorem statement_cases (finish : Position) (ts : List Token) :
    (∃ kind lexeme pos later, ts = ⟨kind, lexeme, pos⟩ :: later ∧ ((∃ x, kind = .name x) ∨
      kind = .keyword .returnKw ∨ kind = .keyword .ifKw ∨ kind = .keyword .whileKw ∨
      kind = .keyword .forKw)) ∨
    (statementGoals? (nextKind ts) = none ∧
      statement finish ts = .error (unexpected finish "statement" ts)) := by
  cases ts with
  | nil => exact .inr ⟨rfl, by rw [statement.eq_def]⟩
  | cons t later =>
      obtain ⟨kind, lexeme, pos⟩ := t
      cases kind with
      | name x => exact .inl ⟨_, _, _, _, rfl, .inl ⟨x, rfl⟩⟩
      | keyword word => cases word with
        | fn => exact .inr ⟨rfl, by rw [statement.eq_def]⟩
        | returnKw => exact .inl ⟨_, _, _, _, rfl, .inr (.inl rfl)⟩
        | ifKw => exact .inl ⟨_, _, _, _, rfl, .inr (.inr (.inl rfl))⟩
        | whileKw => exact .inl ⟨_, _, _, _, rfl, .inr (.inr (.inr (.inl rfl)))⟩
        | forKw => exact .inl ⟨_, _, _, _, rfl, .inr (.inr (.inr (.inr rfl)))⟩
      | _ => exact .inr ⟨rfl, by rw [statement.eq_def]⟩

theorem block_of_lacks (h : Lacks .leftCurly ts) :
    block finish ts = .error (unexpected finish "'\x7b'" ts) := by
  rw [block]
  cases ts with
  | nil => rfl
  | cons t later =>
      rw [expect, if_neg (lacks_cons.1 h)]
      rfl

mutual

/-- Statements are followed, from goals that go on with the first token as statements do. -/
theorem follows_statement (start gs : List Goal) (ts : List Token)
    (hstart : step start (nextKind ts) = step (.statements :: gs) (nextKind ts))
    (hstop : step gs (nextKind ts) = none) :
    Follows finish (.statements :: gs) start ts (fun left _ => left = .statements :: gs)
      (statement finish ts) := by
  obtain ⟨kind, lexeme, pos, later, hts, hhead⟩ | ⟨hgoals, herror⟩ := statement_cases finish ts
  · have hlt : later.length < ts.length := by simp [hts]
    rw [hts] at hstart ⊢
    obtain ⟨x, rfl⟩ | rfl | rfl | rfl | rfl := hhead
    · rw [statement]
      refine (follows_assignment (.token .semicolon :: .statements :: gs) _ ?_ ?_).terminate
        (.statements :: gs) ?_ fun a => .stay rfl rfl
      · intro y hy
        obtain rfl : x = y := by simpa [nextKind] using hy
        exact hstart
      · intro hother
        exact absurd rfl (hother x)
      · rintro left rest ⟨rfl, hend⟩
        exact ⟨rfl, fun hne => step_operators_ne hend hne _⟩
    · rw [statement]
      refine .cons hstart rfl ?_
      refine (follows_sum (fun _ => rfl) (.token .semicolon :: .statements :: gs) later).terminate
        (.statements :: gs) ?_ fun value => .stay rfl rfl
      rintro left rest ⟨rfl, hend⟩
      exact ⟨rfl, fun hne => step_operators_ne hend hne _⟩
    · rw [statement]
      refine .cons hstart rfl ?_
      refine (follows_parenthesised (blockGoals ++ .statements :: gs) later).bind
        fun test left h => ?_
      subst h
      have hshorter := test.shorter
      exact (follows_block (.statements :: gs) test.rest).map fun _ => rfl
    · rw [statement]
      refine .cons hstart rfl ?_
      refine (follows_parenthesised (blockGoals ++ .statements :: gs) later).bind
        fun test left h => ?_
      subst h
      have hshorter := test.shorter
      exact (follows_block (.statements :: gs) test.rest).map fun _ => rfl
    · rw [statement]
      refine .cons hstart rfl ?_
      refine (follows_forClauses (blockGoals ++ .statements :: gs) later).bind
        fun clauses left h => ?_
      subst h
      have hshorter := clauses.shorter
      exact (follows_block (.statements :: gs) clauses.rest).map fun _ => rfl
  · rw [herror]
    refine follows_unexpected (.inl ?_)
    rw [hstart, step_of_isOptional _ rfl, hstop]
    rw [Goal.advance, hgoals]
    rfl
termination_by 3 * ts.length
decreasing_by all_goals omega

/-- A block is read along its goals, and it stops inside of its braces only. -/
theorem follows_block (gs : List Goal) (ts : List Token) :
    Follows finish gs (blockGoals ++ gs) ts (fun left _ => left = gs) (block finish ts) := by
  rcases lacks_or .leftCurly ts with hcurly | ⟨brace, later, hts, hbrace⟩
  · rw [block_of_lacks hcurly]
    exact follows_unexpected (.inl (step_token_ne (nextKind_ne hcurly nofun) _))
  · have hlt : later.length < ts.length := by simp [hts]
    rw [hts, block, expect, if_pos hbrace]
    exact (follows_blockTail gs brace [] later hbrace (.nil _)).map fun _ => rfl
termination_by 3 * ts.length + 1
decreasing_by all_goals omega

/-- The rest of a block, behind its brace and the statements `before`. -/
theorem follows_blockTail (gs : List Goal) (brace : Token) (before ts : List Token)
    (hbrace : brace.kind = .leftCurly) (hbefore : Leads (inside gs) before (inside gs)) :
    Follows finish gs (blockGoals ++ gs) (brace :: (before ++ ts)) (fun left _ => left = gs)
      (blockTail finish brace.pos ts) := by
  rw [blockTail.eq_def]
  split
  · have hopen (stack : List Token) : openBraces stack (brace :: (before ++ [])) =
        brace :: ([] ++ stack) := openBraces_block hbrace hbefore stack []
    exact .error (.unclosed hopen (run_block hbrace hbefore []) rfl)
  · next lexeme pos rest =>
    let close : Token := ⟨.rightCurly, lexeme, pos⟩
    have hwhole : brace :: (before ++ close :: rest) = brace :: (before ++ [close]) ++ rest := by
      simp
    refine .ok hwhole ⟨run_block hbrace hbefore [close], fun stack => ?_⟩ rfl
    exact (openBraces_block hbrace hbefore stack [close]).trans (openBraces_close rfl _ [])
  · next hnil hclose =>
    have hne : nextKind ts ≠ .rightCurly := nextKind_ne_of_forall nofun hclose
    have hstmt := follows_statement (inside gs) (.token .rightCurly :: gs) ts rfl
      (step_token_ne hne gs)
    refine hstmt.in_block hbrace hbefore fun first front hts hfront => ?_
    have hshorter := first.shorter
    exact (follows_blockTail gs brace (before ++ front) first.rest hbrace hfront).map fun _ => rfl
termination_by 3 * ts.length + 2
decreasing_by all_goals omega

end

/-! ## Programs -/

theorem step_nil_eq_none (ht : .eof ∉ ts.map Token.kind) (hts : ts ≠ []) :
    step [] (nextKind ts) = none := by
  cases ts with
  | nil => exact absurd rfl hts
  | cons t later =>
      have hne : t.kind ≠ .eof := fun heq => ht (by simp [heq])
      exact if_neg hne

/-- A body without braces stops where it should. -/
theorem stops_of_statements (start : List Goal) (ts : List Token) {e : SyntaxError}
    (hstart : step start (nextKind ts) = step [.statements] (nextKind ts))
    (heof : .eof ∉ ts.map Token.kind) (h : statements finish ts = .error e) :
    Stops finish [.statements] start ts e := by
  by_cases hnil : ts = []
  · rw [hnil, statements_nil] at h
    cases h
  · obtain ⟨t, rest, hts⟩ := List.exists_cons_of_ne_nil hnil
    have hstmt : Follows finish [.statements] start ts (fun left _ => left = [.statements])
        (statement finish ts) :=
      follows_statement start [] ts hstart (step_nil_eq_none heof hnil)
    rw [hts, statements, ← hts] at h
    obtain herror | ⟨first, hfirst, hrest⟩ := bind_eq_error h
    · exact hstmt.stops herror
    · obtain hlater | ⟨later, -, hlater⟩ := bind_eq_error hrest
      · have hshorter := first.shorter
        obtain ⟨front, left, hsplit, hfront, rfl⟩ := hstmt.exists_front hfirst
        have hnone : .eof ∉ first.rest.map Token.kind := by
          rw [hsplit, List.map_append, List.mem_append, not_or] at heof
          exact heof.2
        rw [hsplit]
        exact (stops_of_statements [.statements] first.rest rfl hnone hlater).behind hfront
      · cases hlater
termination_by ts.length

theorem follows_functionName (pos : Position) (gs : List Goal) (ts : List Token) :
    Follows finish base (.functionName :: gs) ts (fun left _ => left = gs)
      (functionName finish pos ts) := by
  rw [functionName, expectName.eq_def]
  split
  · next x lexeme pos' rest =>
    change Follows _ _ _ _ _ (if x = reservedName then _ else _)
    split
    · exact .error (.reserved _ _)
    · next hx =>
      have hstep : Goal.functionName.advance (.name x) = some [] := if_neg hx
      exact .cons (step_of_advance hstep gs) rfl (.stay rfl rfl)
  · next hname =>
    refine follows_unexpected (.inl (step_eq_none ?_ rfl gs))
    cases hk : nextKind ts with
    | name x => exact absurd hk (nextKind_ne_of_forall (by simp) (hname x))
    | _ => rfl

theorem follows_refuseParameter {α : Type} {n : Nat} {a : Answer α n}
    {Q : List Goal → List Token → Prop} (gs : List Goal)
    (h : Follows finish base (.token .rightParen :: gs) ts Q a) :
    Follows finish base (.token .rightParen :: gs) ts Q (do refuseParameter ts; a) := by
  rw [refuseParameter.eq_def]
  split
  · exact .refuse rfl (.inl (step_token_ne Kind.noConfusion gs))
  · exact h

theorem follows_function (pos : Position) (ts : List Token) :
    Follows finish [] (.functionName :: .token .leftParen :: .token .rightParen :: blockGoals) ts
      (fun left _ => left = []) (function finish pos ts) := by
  rw [function]
  refine (follows_functionName pos _ ts).bind fun name left h => ?_
  subst h
  refine (follows_token rfl _ name.rest).bind fun opening left h => ?_
  subst h
  refine follows_refuseParameter _ ((follows_token rfl _ opening.rest).bind fun close left h => ?_)
  subst h
  exact (follows_block [] close.rest).map fun _ => rfl

/-- **Where the reader of programs stops.** Closing all blocks leads to the end of a function, or
behind a statement. -/
theorem stops_of_program {e : SyntaxError} (hts : .eof ∉ ts.map Token.kind)
    (h : program finish ts = .error e) :
    Stops finish [] [.program] ts e ∨ Stops finish [.statements] [.program] ts e := by
  rw [program.eq_def] at h
  split at h
  · next lexeme pos rest =>
    left
    have hstep : step [.program] (.keyword .fn) =
        some (.functionName :: .token .leftParen :: .token .rightParen :: blockGoals) := rfl
    have hfunction : Follows finish [] [.program] (⟨.keyword .fn, lexeme, pos⟩ :: rest)
        (fun left _ => left = []) (function finish pos rest) :=
      .cons hstep rfl (follows_function pos rest)
    obtain herror | ⟨f, hf, htrailing⟩ := bind_eq_error h
    · exact hfunction.stops herror
    · obtain ⟨front, left, hsplit, hfront, rfl⟩ := hfunction.exists_front hf
      split at htrailing
      · cases htrailing
      · next t later hrest =>
        cases htrailing
        have hnone : .eof ∉ f.rest.map Token.kind := by
          rw [hsplit, List.map_append, List.mem_append, not_or] at hts
          exact hts.2
        have hnext := step_nil_eq_none hnone (by simp [hrest])
        rw [hrest] at hsplit hnext
        exact .unexpected rfl hsplit hfront.run (.inl hnext)
  · next hfn =>
    right
    obtain hstatements | ⟨body, -, hbody⟩ := bind_eq_error h
    · have hne : nextKind ts ≠ .keyword .fn := nextKind_ne_of_forall nofun hfn
      exact stops_of_statements [.program] ts (step_program hne) hts hstatements
    · cases hbody

end Pseudocode.Viability
