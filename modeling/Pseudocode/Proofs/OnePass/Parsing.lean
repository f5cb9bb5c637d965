import Pseudocode.Proofs.OnePass.Declarations

/-!
# One pass is the parser

Reading a program in one pass and reading its tree first and marking the declarations afterwards
come to the same function or to the same error. Statements are read side by side as expressions and
conditions are; the names of the reader reflect the record of the marking all along.
-/
namespace Pseudocode.OnePass

variable {tape : Tape} {stop : Token} {later : List Token}

/-- A value and a semicolon behind it. -/
theorem expectSemicolon_agrees {α : Type} {s s' : State tape} {ts : List Token}
    {p : Grammar.Parsed α ts.length} (h : Faces s ts stop later)
    (h' : Faces s' p.rest stop later) :
    Agree stop later (fun v _ s'' => v = p.value ∧ s''.names = s'.names) (Grammar.terminated ts p)
      (expectSemicolon s') := by
  obtain ⟨value, rest, shorter⟩ := p
  have h' : Faces s' rest stop later := h'
  rw [Grammar.terminated.eq_def, expectSemicolon]
  split
  · next lexeme pos mid heq =>
    obtain rfl : rest = ⟨.semicolon, lexeme, pos⟩ :: mid := heq
    rw [dif_pos h'.kind_of_cons]
    exact .ok ⟨h'.tail, rfl, State.names_advance s'⟩
  · next hnot =>
    have hk : s'.kind ≠ .semicolon := by
      intro hk
      obtain ⟨mid, rfl, -⟩ := h'.cons_of_kind hk (by simp)
      exact hnot _ _ _ rfl
    rw [dif_neg hk, h.previous_eq h' shorter]
    exact .error _ s'

/-- The assignment with its mark, and the names behind it. -/
structure Assigned (n : Names) (a a' : Assignment) (s : State tape) : Prop where
  value : a' = { a with declares := ((n.readAll a.value.reads).assign a.target).1 }
  names : s.names = ((n.readAll a.value.reads).assign a.target).2

/-- Both readers make the same assignment. -/
theorem assignment_agrees {s : State tape} {ts : List Token} (h : Faces s ts stop later) :
    Agree stop later (Assigned s.names) (Grammar.assignment stop.pos ts) (assignment s) := by
  rw [Grammar.assignment, assignment]
  refine (expectName_agrees _ h).bind ?_
  rintro p q ⟨faces, same⟩
  refine (expect_agrees _ _ _ faces).bind ?_
  rintro p' q' ⟨faces', same'⟩
  refine (expression_agrees faces').bind ?_
  rintro p'' q'' ⟨faces'', reads⟩
  rw [same'.2, same.2] at reads
  refine .ok ⟨faces''.withNames _, ?_, ?_⟩
  · simp only [same.1, reads.value, reads.names, h.here_eq]
  · simp only [same.1, State.withNames, reads.names]

/-! ## Statements -/

theorem stack_enter_ne_nil (sc : Scopes) : sc.enter.stack ≠ [] := by simp [Scopes.enter]

/-- The value with its declarations marked, and names that reflect the record behind it. -/
structure Marked (base : List (List String)) (declared : List String) {α : Type}
    (mark : α → α × Scopes) (targets : α → List String) (a a' : α) (s : State tape) : Prop where
  value : a' = (mark a).1
  names : Reflects base (declared ++ targets a') s.names (mark a).2

section Statements
variable {base : List (List String)} {declared : List String} {sc : Scopes}

theorem Assigned.marked {n : Names} {a a' : Assignment} {s : State tape} (h : Assigned n a a' s)
    (hn : Reflects base declared n sc) (hsc : sc.stack ≠ []) :
    Marked base declared (Assignment.mark sc) Assignment.declared a a' s := by
  have hreads := hn.readAll a.value.reads
  obtain ⟨hdeclares, hassign⟩ := hreads.assign (by simpa using hsc) a.target
  have hvalue : a' = (a.mark sc).1 := by rw [h.value, hdeclares]; rfl
  refine ⟨hvalue, ?_⟩
  rw [hvalue, h.names]
  exact hassign

/-- Both readers make the same update. -/
theorem update_agrees {s : State tape} {ts : List Token} (h : Faces s ts stop later)
    (hn : Reflects base declared s.names sc) (hsc : sc.stack ≠ []) :
    Agree stop later (Marked base declared (Assignment.markUpdate sc) Assignment.declared)
      (Grammar.assignment stop.pos ts) (update s) := by
  rw [update]
  refine (assignment_agrees h).andThen ?_
  rintro p q ⟨faces, assigned⟩
  have hreads := hn.readAll p.value.value.reads
  have hupdate := hreads.update (by simpa using hsc) p.value.target
  have hdeclares : q.value.declares =
      ((s.names.readAll p.value.value.reads).assign p.value.target).1 := by rw [assigned.value]
  have htarget : q.value.target = p.value.target := by rw [assigned.value]
  rw [← hdeclares, ← assigned.names, ← List.append_nil declared] at hupdate
  split
  · -- the target is new: its declaration is withdrawn from the scope and moved to the front
    next hd =>
    rw [if_pos hd] at hupdate
    refine .ok ⟨faces.withNames _, ?_, ?_⟩
    · rw [assigned.value]
      rfl
    · rw [htarget]
      exact hupdate
  · next hd =>
    rw [if_neg hd] at hupdate
    have hvalue : q.value = (p.value.markUpdate sc).1 := by
      rw [assigned.value, ← hdeclares, Bool.eq_false_iff.2 hd]
      rfl
    refine .ok ⟨faces, hvalue, ?_⟩
    rw [hvalue]
    exact hupdate

/-- The three clauses of a counting loop. -/
theorem forClauses_agrees {s : State tape} {ts : List Token} (h : Faces s ts stop later)
    (hn : Reflects base declared s.names sc) :
    Agree stop later
      (fun header header' s' => (∃ init c update, header = .forDo init c update) ∧
        Marked base declared (Header.mark sc) Header.declared header header' s')
      (Grammar.forClauses stop.pos ts) (forClauses s) := by
  rw [Grammar.forClauses, forClauses]
  refine (expect_agrees _ _ _ h).bind ?_
  rintro opening opening' ⟨faces, same⟩
  have hinside := faces.withNames opening'.state.names.enter
  refine (assignment_agrees hinside).bind ?_
  rintro init init' ⟨faces₁, assigned⟩
  have henter : Reflects base declared opening'.state.names.enter sc.enter := by
    rw [same.2]
    exact hn.enter
  have hinit := assigned.marked henter (stack_enter_ne_nil sc)
  refine (expectSemicolon_agrees hinside faces₁).bind ?_
  rintro first first' ⟨faces₂, same₂⟩
  refine (condition_agrees faces₂).bind ?_
  rintro test test' ⟨faces₃, reads⟩
  refine (expectSemicolon_agrees faces₂ faces₃).bind ?_
  rintro second second' ⟨faces₄, same₄⟩
  have htest : Reflects base (declared ++ init'.value.declared) second'.state.names
      ((init.value.mark sc.enter).2.needAll test.value.reads) := by
    rw [same₄.2, reads.names, same₂.2]
    exact hinit.names.readAll _
  have hopen : ((init.value.mark sc.enter).2.needAll test.value.reads).stack ≠ [] := by
    rw [Scopes.stack_needAll]
    exact (init.value.grows_mark sc.enter).nonempty (stack_enter_ne_nil sc)
  refine (update_agrees faces₄ htest hopen).bind ?_
  rintro update update' ⟨faces₅, marked⟩
  refine (expect_agrees _ _ _ faces₅).map (fun _ => rfl) (fun _ => rfl) fun _ close' close => ?_
  rw [same₂.1, same₄.1]
  refine ⟨⟨_, _, _, rfl⟩, ?_, ?_⟩
  · rw [hinit.value, reads.value, marked.value]
    rfl
  · rw [close.2]
    have hnames := marked.names
    rw [List.append_assoc] at hnames
    exact hnames

/-- The condition in front of a block. -/
theorem test_agrees {s : State tape} {ts : List Token} (h : Faces s ts stop later)
    (hn : Reflects base declared s.names sc) :
    Agree stop later
      (fun c c' s' => c' = c ∧ Reflects base declared s'.names (sc.needAll c.reads))
      (Grammar.parenthesised stop.pos ts) (parenthesised s) := by
  rw [Grammar.parenthesised, parenthesised]
  refine (expect_agrees _ _ _ h).bind ?_
  rintro p q ⟨faces, same⟩
  refine (condition_agrees faces).bind ?_
  rintro p' q' ⟨faces', reads⟩
  rw [same.2] at reads
  refine (expect_agrees _ _ _ faces').map (fun _ => rfl) (fun _ => rfl) fun _ q'' close => ?_
  refine ⟨reads.value, ?_⟩
  rw [close.2, reads.names]
  exact hn.readAll _

/-- The marking of the statements of a scope, which is closed behind them. -/
def markScope (sc : Scopes) (body : List Stmt) : List Stmt × Scopes :=
  ((Stmt.markAll sc body).1, (Stmt.markAll sc body).2.leave)

theorem stack_markScope (sc : Scopes) (body : List Stmt) :
    (markScope sc.enter body).2.stack = sc.stack :=
  (Stmt.leave_markAll sc body).1

end Statements

mutual

/-- Both readers make the same statement, with the same marks on it. -/
theorem statement_agrees {base : List (List String)} {declared : List String} {sc : Scopes}
    {s : State tape} {ts : List Token} (h : Faces s ts stop later)
    (hn : Reflects base declared s.names sc) (hsc : sc.stack ≠ []) :
    Agree stop later (Marked base declared (Stmt.mark sc) Stmt.declared)
      (Grammar.statement stop.pos ts) (statement s) := by
  have hhere : Reflects base declared s.advance.names sc := by
    rw [State.names_advance]
    exact hn
  rw [statement]
  split
  · next x hk =>
    obtain ⟨rest, rfl, -⟩ := h.cons_of_kind hk (by simp)
    rw [Grammar.statement]
    refine (assignment_agrees h).bind ?_
    rintro p q ⟨faces, assigned⟩
    refine (expectSemicolon_agrees h faces).map (fun _ => rfl) (fun _ => rfl) fun p' _ same => ?_
    have hmarked := assigned.marked hn hsc
    rw [← same.1] at hmarked
    exact ⟨congrArg Stmt.assign hmarked.value, same.2 ▸ hmarked.names⟩
  · next hk =>
    obtain ⟨rest, rfl, hrest⟩ := h.cons_of_kind hk (by simp)
    have hlt := State.left_advance_lt (s := s) (by simp [hk])
    rw [Grammar.statement]
    refine (test_agrees hrest hhere).bind ?_
    rintro p q ⟨faces, hvalue, htest⟩
    have := q.nearer
    refine (block_agrees faces htest.enter (stack_enter_ne_nil _)).map (fun _ => rfl)
      (fun _ => rfl) fun p' q' body => ⟨?_, body.names⟩
    rw [hvalue, body.value]
    rfl
  · next hk =>
    obtain ⟨rest, rfl, hrest⟩ := h.cons_of_kind hk (by simp)
    have hlt := State.left_advance_lt (s := s) (by simp [hk])
    rw [Grammar.statement]
    refine (test_agrees hrest hhere).bind ?_
    rintro p q ⟨faces, hvalue, htest⟩
    have := q.nearer
    refine (block_agrees faces htest.enter (stack_enter_ne_nil _)).map (fun _ => rfl)
      (fun _ => rfl) fun p' q' body => ⟨?_, body.names⟩
    rw [hvalue, body.value]
    rfl
  · next hk =>
    obtain ⟨rest, rfl, hrest⟩ := h.cons_of_kind hk (by simp)
    have hlt := State.left_advance_lt (s := s) (by simp [hk])
    rw [Grammar.statement]
    refine (forClauses_agrees hrest hhere).bind ?_
    rintro p q ⟨faces, hheader, marked⟩
    have := q.nearer
    obtain ⟨init, c, update, hfor⟩ := hheader
    have hopen : (p.value.mark sc).2.stack ≠ [] := by
      rw [hfor]
      exact ((Header.forDo init c update).grows_mark sc).nonempty (stack_enter_ne_nil sc)
    have henter := marked.names.enter
    refine (block_agrees faces henter (stack_enter_ne_nil _)).bind ?_
    rintro p' q' ⟨faces', body⟩
    -- behind the block the scope of the clauses is closed too
    have hclose (t : Scopes) : (p.value.mark sc).1.close t = t.leave := by
      rw [hfor]
      rfl
    have hleave := body.names.leave (by rw [stack_markScope]; exact hopen)
    rw [List.append_assoc, ← hclose] at hleave
    refine .ok ⟨faces'.withNames _, ?_, hleave⟩
    rw [marked.value, body.value]
    rfl
  · next hk =>
    obtain ⟨rest, rfl, hrest⟩ := h.cons_of_kind hk (by simp)
    rw [Grammar.statement]
    refine (expression_agrees hrest).bind ?_
    rintro p q ⟨faces, reads⟩
    refine (expectSemicolon_agrees hrest faces).map (fun _ => rfl) (fun _ => rfl)
      fun p' q' same => ?_
    rw [State.names_advance, ← same.1] at reads
    have hvalue := hn.readAll p'.value.reads
    rw [← reads.names, ← same.2, ← List.append_nil declared] at hvalue
    exact ⟨congrArg (Stmt.ret · s.token.pos) reads.value, hvalue⟩
  · next hname hif hwhile hfor hreturn =>
    have herror : Grammar.statement stop.pos ts =
        .error (Grammar.unexpected stop.pos "statement" ts) := by
      rw [Grammar.statement]
      · rintro x _ _ _ rfl
        exact hname x h.kind_of_cons
      · rintro _ _ _ rfl
        exact hreturn h.kind_of_cons
      · rintro _ _ _ rfl
        exact hif h.kind_of_cons
      · rintro _ _ _ rfl
        exact hwhile h.kind_of_cons
      · rintro _ _ _ rfl
        exact hfor h.kind_of_cons
    rw [herror]
    exact agree_unexpected h "statement"
termination_by 3 * s.left
decreasing_by all_goals omega

theorem block_agrees {base : List (List String)} {declared : List String} {sc : Scopes}
    {s : State tape} {ts : List Token} (h : Faces s ts stop later)
    (hn : Reflects base declared s.names.enter sc) (hsc : sc.stack ≠ []) :
    Agree stop later (Marked base declared (markScope sc) Stmt.allDeclared)
      (Grammar.block stop.pos ts) (block s) := by
  rw [Grammar.block, block, h.here_eq]
  refine (expect_agrees _ _ _ h).bind ?_
  rintro p q ⟨faces, same⟩
  have := q.nearer
  -- the scope of the block is open before its first statement is read
  rw [← same.2] at hn
  exact (blockTail_agrees s.token.pos (faces.withNames _) hn hsc).widen
termination_by 3 * s.left + 1
decreasing_by simp only [State.left_withNames]; omega

theorem blockTail_agrees {base : List (List String)} {declared : List String} {sc : Scopes}
    {s : State tape} {ts : List Token} (opened : Position) (h : Faces s ts stop later)
    (hn : Reflects base declared s.names sc) (hsc : sc.stack ≠ []) :
    Agree stop later (Marked base declared (markScope sc) Stmt.allDeclared)
      (Grammar.blockTail stop.pos opened ts) (blockTail opened s) := by
  rw [blockTail]
  split
  · next hk =>
    obtain ⟨rest, rfl, hrest⟩ := h.cons_of_kind hk (by simp)
    rw [Grammar.blockTail]
    have hleave := hn.leave hsc
    rw [← List.append_nil declared] at hleave
    exact .ok ⟨hrest.withNames _, rfl, hleave⟩
  · next hk =>
    split
    · next heof =>
      obtain ⟨rfl, -⟩ := h.nil_of_kind heof
      rw [Grammar.blockTail]
      exact .error _ s
    · next heof =>
      rw [Grammar.blockTail]
      · refine (statement_agrees h hn hsc).bind ?_
        rintro p q ⟨faces, marked⟩
        have := q.nearer
        have hne := (Stmt.grows_mark hsc p.value).nonempty hsc
        refine (blockTail_agrees opened faces marked.names hne).map (fun _ => rfl) (fun _ => rfl)
          fun p' q' body => ⟨?_, ?_⟩
        · rw [marked.value, body.value]
          rfl
        · have hnames := body.names
          rw [List.append_assoc] at hnames
          exact hnames
      · rintro rfl
        exact heof h.kind_of_nil
      · rintro _ _ _ rfl
        exact hk h.kind_of_cons
termination_by 3 * s.left + 2
decreasing_by all_goals omega

end

/-! ## Programs -/

theorem statements_meet {base : List (List String)} {declared : List String} {sc : Scopes}
    {s : State tape} {ts : List Token} (h : Faces s ts stop later)
    (hn : Reflects base declared s.names sc) (hsc : sc.stack ≠ []) :
    Meets
      (fun body behind => behind.1 = (Stmt.markAll sc body).1 ∧ behind.2.kind = .eof ∧
        Reflects base (declared ++ Stmt.allDeclared behind.1) behind.2.names
          (Stmt.markAll sc body).2)
      (Grammar.statements stop.pos ts) (statements s) := by
  rw [statements]
  split
  · next heof =>
    obtain ⟨rfl, -⟩ := h.nil_of_kind heof
    rw [← List.append_nil declared] at hn
    rw [Grammar.statements]
    exact .ok ⟨rfl, heof, hn⟩
  · next heof =>
    obtain ⟨rest, rfl, -⟩ := h.cons_of_kind rfl heof
    rw [Grammar.statements]
    refine (statement_agrees h hn hsc).bind ?_
    rintro p q ⟨faces, marked⟩
    have := q.nearer
    have hne := (Stmt.grows_mark hsc p.value).nonempty hsc
    refine (statements_meet faces marked.names hne).bind ?_
    rintro body behind ⟨hvalue, hend, hnames⟩
    rw [List.append_assoc] at hnames
    refine .ok ⟨?_, hend, hnames⟩
    rw [marked.value, hvalue]
    rfl
termination_by s.left

/-- The function of a body whose declarations are marked. -/
theorem finish_eq {base : List (List String)} {sc : Scopes} {names : Names} {name : String}
    {pos : Position} {body body' : List Stmt} (hbody : body' = (Stmt.markAll .start body).1)
    (hn : Reflects base (Stmt.allDeclared body') names sc)
    (hfree : sc.free = (Stmt.markAll .start body).2.free) :
    finish name body' pos names = .ofSource ⟨name, body, pos⟩ := by
  rw [finish, hn.settleAll_eq, hn.free, hfree, hbody]
  rfl

/-- A parameter ahead is refused alike. -/
theorem refuseParameter_meets {s : State tape} {ts : List Token} (h : Faces s ts stop later) :
    (s.kind.name?.isSome = true ∧ Grammar.refuseParameter ts =
      .error ⟨.parametersNotSupported s.token.lexeme, s.token.pos⟩) ∨
    (¬ s.kind.name?.isSome = true ∧ Grammar.refuseParameter ts = .ok ()) := by
  rw [Grammar.refuseParameter.eq_def]
  split
  · next x lexeme pos rest =>
    left
    rw [h.kind_of_cons, h.token_of_cons]
    exact ⟨rfl, rfl⟩
  · next hnot =>
    refine .inr ⟨fun hname => ?_, rfl⟩
    cases hk : s.kind with
    | name x =>
        obtain ⟨rest, rfl, -⟩ := h.cons_of_kind hk (by simp)
        exact hnot _ _ _ _ rfl
    | _ => simp [hk, Kind.name?] at hname

/-- The body of a function stands in a scope of its own inside that of the function. -/
theorem reflects_enter_start : Reflects [[]] [] Names.start.enter .start where
  free := rfl
  scopes := rfl
  expired := reflects_start.expired
  mentioned := reflects_start.mentioned
  hidden := reflects_start.hidden
  apart := reflects_start.apart
  hoisted := reflects_start.hoisted
  owned := reflects_start.owned

/-- A function behind its keyword. -/
theorem function_meets {s : State tape} {ts : List Token} (hk : s.kind = .keyword .fn)
    (h : Faces s.advance ts stop later) (hn : s.names = .start) :
    Meets (fun f f' => Faces f'.2 f.rest stop later ∧ f'.1 = .ofSource f.value)
      (Grammar.function stop.pos s.token.pos ts) (function s) := by
  have hkeyword : expect (.keyword .fn) "'\\Fn'" s = .ok (.single () s (by simp [hk])) :=
    dif_pos hk
  rw [Grammar.function, Grammar.functionName, function, hkeyword, bind_assoc]
  refine (expectName_agrees _ h).bind ?_
  rintro name name' ⟨faces, same⟩
  obtain ⟨hvalue, hnames⟩ := same
  rw [State.names_advance, hn] at hnames
  by_cases hreserved : name.value = Grammar.reservedName
  · rw [if_pos hreserved, hvalue, if_pos hreserved]
    exact .error _ _
  rw [if_neg hreserved, hvalue, if_neg hreserved]
  refine (expect_agrees _ _ _ faces).bind ?_
  rintro opening opening' ⟨faces₁, same₁⟩
  rcases refuseParameter_meets faces₁ with ⟨hname, hrefuse⟩ | ⟨hname, hrefuse⟩
  · rw [hrefuse, if_pos hname]
    exact .error _ _
  rw [hrefuse, if_neg hname]
  refine (expect_agrees _ _ _ faces₁).bind ?_
  rintro close close' ⟨faces₂, same₂⟩
  have hbody : Reflects [[]] [] close'.state.names.enter .start := by
    rw [same₂.2, same₁.2, hnames]
    exact reflects_enter_start
  refine (block_agrees faces₂ hbody (by simp [Scopes.start])).bind ?_
  rintro body body' ⟨faces₃, marked⟩
  exact .ok ⟨faces₃, finish_eq marked.value marked.names (Scopes.free_leave _)⟩

/-- Both readers make the same program, once all marks are settled. -/
theorem program_meets {s : State tape} {ts : List Token} (h : Faces s ts stop later)
    (hn : s.names = .start) :
    Meets (fun source f => f.1 = .ofSource source) (Grammar.program stop.pos ts) (program s) := by
  rw [program]
  simp only
  by_cases hk : s.kind = .keyword .fn
  · obtain ⟨rest, rfl, hrest⟩ := h.cons_of_kind hk (by simp)
    rw [if_pos hk, Grammar.program]
    refine (function_meets hk hrest hn).bind ?_
    rintro f f' ⟨faces, hf⟩
    split
    · next hend =>
      rw [hend] at faces
      rw [if_neg (not_not.2 faces.kind_of_nil)]
      exact .ok hf
    · next t behind hend =>
      rw [hend] at faces
      rw [if_pos (faces.kind_of_cons ▸ faces.inside t List.mem_cons_self), faces.token_of_cons]
      exact .error _ _
  · rw [if_neg hk, implicitFunction, Grammar.program]
    · have hstart : Reflects [] [] s.names .start := hn ▸ reflects_start
      rw [bind_assoc]
      refine (statements_meet h hstart (by simp [Scopes.start])).bind ?_
      rintro body behind ⟨hbody, hend, hnames⟩
      rw [h.here_eq]
      change Meets _ _ (ite _ _ _)
      rw [if_neg (not_not.2 hend)]
      exact .ok (finish_eq hbody hnames rfl)
    · rintro _ _ _ rfl
      exact hk h.kind_of_cons

/-- The row of the tokens ahead of a state. -/
theorem Faces.row_eq {s : State tape} {ts : List Token} (h : Faces s ts stop later) :
    Grammar.TokenRow.ofTokens (tape.tokens.drop s.idx) = ⟨ts, stop.pos⟩ := by
  have hkeep : ∀ t ∈ ts, decide (t.kind ≠ .eof) = true := fun t ht => decide_eq_true (h.inside t ht)
  have hnone : ts.find? (·.kind = .eof) = none := by
    simpa [List.find?_eq_none] using h.inside
  rw [h.ahead, Grammar.TokenRow.ofTokens, List.takeWhile_append_of_pos hkeep, List.find?_append,
    hnone]
  simp [h.stop]

/-- The end token of a tape stands where the row of its tokens ends. -/
theorem row_tape (ts : List Token) :
    Grammar.TokenRow.ofTokens (Tape.ofTokens ts).tokens = Grammar.TokenRow.ofTokens ts := by
  rw [Tape.ofTokens]
  split
  · rfl
  · simp only [Grammar.TokenRow.ofTokens, Grammar.TokenRow.mk.injEq, List.find?_append]
    constructor
    · rw [List.takeWhile_append]
      split
      · next hall =>
        rw [(List.takeWhile_prefix _).eq_of_length hall]
        simp
      · rfl
    · cases ts.find? (·.kind = .eof) <;> simp

/-- The tokens ahead of the beginning of a tape. -/
theorem exists_faces_start (ts : List Token) :
    ∃ stop later,
      Faces (State.start (.ofTokens ts)) (Grammar.TokenRow.ofTokens ts).tokens stop later ∧
      stop.pos = (Grammar.TokenRow.ofTokens ts).finish := by
  obtain ⟨ahead, stop, later, h⟩ := exists_faces (State.start (.ofTokens ts))
  have hrow := h.row_eq
  rw [show ((State.start (.ofTokens ts)).idx : Nat) = 0 from rfl, List.drop_zero, row_tape] at hrow
  exact ⟨stop, later, by rw [hrow]; exact h, by rw [hrow]⟩

/-- **One pass denotes the same function**, and fails with the same error. -/
theorem parse_eq_parse (ts : List Token) : parse ts = Pseudocode.parse ts := by
  obtain ⟨stop, later, h, hstop⟩ := exists_faces_start ts
  have hprogram := program_meets h rfl
  rw [hstop] at hprogram
  rw [parse, Pseudocode.parse]
  generalize program (State.start (Tape.ofTokens ts)) = outcome at hprogram ⊢
  generalize Grammar.program _ _ = answer at hprogram ⊢
  cases hprogram with
  | ok hf => exact congrArg Except.ok hf
  | error e s => rfl

end Pseudocode.OnePass
