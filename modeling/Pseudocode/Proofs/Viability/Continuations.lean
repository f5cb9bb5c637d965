import Pseudocode.Proofs.Grammar.Acceptance
import Pseudocode.Proofs.Viability.Goals

/-!
# Tokens that can be continued

Tokens that some accepted list begins with are viable. Reading kinds from goals to goals decides
this: what meets the goals that are left behind a row of kinds completes the row, and there is
always something that meets them.

What meets a goal is said in terms of trees. A goal for the rest of a phrase is met by whatever
completes every tree that the phrase can have so far, so the trees are put together from the right
and no reading has to be followed.
-/
namespace Pseudocode.Viability

/-- An operator and an operand go on with any canonical expression: an operator that binds more
tightly goes into its last operand. -/
theorem exists_canonical_bin {l r : Expr} (op : ArithOp) (hl : l.Canonical) (hr : r.Canonical)
    (hnone : r.binding? = none) :
    ∃ e : Expr, e.Canonical ∧ e.kinds = l.kinds ++ .arith op :: r.kinds := by
  have hright : ∀ q, ∀ p ∈ r.binding?, q < p := by simp [hnone]
  by_cases hbind : ∀ p ∈ l.binding?, op.precedence ≤ p
  · exact ⟨.bin op l r, ⟨hbind, hright _, hl, hr⟩, rfl⟩
  · cases l with
    | bin op' l₁ l₂ =>
        obtain ⟨hfirst, hsecond, hl₁, hl₂⟩ := hl
        -- the operator binds more tightly than the last one, so there is only one way for both
        have hlt : op'.precedence < op.precedence := by simpa [Expr.binding?] using hbind
        have hop : op.precedence = ArithOp.mul.precedence ∧
            op'.precedence = ArithOp.add.precedence := by
          have hmul : ArithOp.add.precedence < ArithOp.mul.precedence := by decide
          have hlevel := Grammar.ArithOp.precedence_eq_or op
          have hlevel' := Grammar.ArithOp.precedence_eq_or op'
          omega
        have hinner : (Expr.bin op l₂ r).Canonical := by
          refine ⟨?_, hright _, hl₂, hr⟩
          rw [hop.1]
          exact Grammar.mul_le_of_add_lt (hop.2 ▸ hsecond)
        refine ⟨.bin op' l₁ (.bin op l₂ r), ⟨hfirst, ?_, hl₁, hinner⟩, ?_⟩
        · intro p hp
          obtain rfl : op.precedence = p := by simpa [Expr.binding?] using hp
          rw [hop.1, hop.2]
          decide
        · simp [Expr.kinds]
    | _ => simp [Expr.binding?] at hbind

/-- A connective and a condition without one go on with any canonical condition. -/
theorem exists_canonical_logic {l r : Condition} (op : LogicOp) (hl : l.Canonical)
    (hr : r.Canonical) (hnone : r.joint? = none) :
    ∃ c : Condition, c.Canonical ∧ c.kinds = l.kinds ++ .logic op :: r.kinds := by
  have hright : ∀ op, r.joint? ≠ some op := by simp [hnone]
  cases op with
  | or => exact ⟨.logic .or l r, ⟨hright _, hl, hr⟩, rfl⟩
  | and =>
      by_cases hor : l.joint? = some .or
      · cases l with
        | logic op l₁ l₂ =>
            obtain rfl : op = .or := by simpa [Condition.joint?] using hor
            obtain ⟨hsecond, hl₁, hl₂⟩ := hl
            have hinner : (Condition.logic .and l₂ r).Canonical :=
              ⟨hsecond, hright _, hright _, hl₂, hr⟩
            refine ⟨.logic .or l₁ (.logic .and l₂ r), ⟨?_, hl₁, hinner⟩, ?_⟩
            · simp [Condition.joint?]
            · simp [Condition.kinds]
        | _ => simp [Condition.joint?] at hor
      · exact ⟨.logic .and l r, ⟨hor, hright _, hright _, hl, hr⟩, rfl⟩

/-- The kinds that meet a goal. Where parentheses are undecided, the kinds complete a condition that
begins with these parentheses, and behind an operand they do so whatever the operand is. -/
def Goal.Meets : Goal → List Kind → Prop
  | .token kind, ks => ks = [kind]
  | .target, ks => ∃ x, ks = [.name x]
  | .functionName, ks => ∃ x, x ≠ Grammar.reservedName ∧ ks = [.name x]
  | .operand, ks => ∃ e : Expr, e.Canonical ∧ e.binding? = none ∧ ks = e.kinds
  | .operators, ks => ∀ l : Expr, l.Canonical → ∃ e : Expr, e.Canonical ∧ l.kinds ++ ks = e.kinds
  | .condition depth, ks => ∃ c : Condition, c.Canonical ∧ c.joint? = none ∧
      List.replicate depth .leftParen ++ ks = c.kinds
  | .comparison depth, ks => ∀ l : Expr, l.Canonical → ∃ c : Condition, c.Canonical ∧
      c.joint? = none ∧ List.replicate depth .leftParen ++ (l.kinds ++ ks) = c.kinds
  | .connectives, ks => ∀ l : Condition, l.Canonical →
      ∃ c : Condition, c.Canonical ∧ l.kinds ++ ks = c.kinds
  | .statements, ks => ∃ body, Stmt.AllCanonical body ∧ ks = Stmt.allKinds body
  | .program, ks => ∃ name body, Stmt.AllCanonical body ∧ IsProgram ks name body

/-- The kinds that meet a list of goals, one after the other. -/
def MeetAll : List Goal → List Kind → Prop
  | [], ks => ks = []
  | g :: gs, ks => ∃ xs ys, ks = xs ++ ys ∧ g.Meets xs ∧ MeetAll gs ys

section MeetAll
variable {gs hs : List Goal} {ks : List Kind}

theorem meetAll_append :
    MeetAll (gs ++ hs) ks ↔ ∃ xs ys, ks = xs ++ ys ∧ MeetAll gs xs ∧ MeetAll hs ys := by
  induction gs generalizing ks with
  | nil => simp [MeetAll]
  | cons g gs ih =>
      constructor
      · rintro ⟨xs, ys, rfl, hg, h⟩
        obtain ⟨ys, zs, rfl, hgs, hhs⟩ := ih.1 h
        exact ⟨xs ++ ys, zs, by simp, ⟨xs, ys, rfl, hg, hgs⟩, hhs⟩
      · rintro ⟨_, zs, rfl, ⟨xs, ys, rfl, hg, hgs⟩, hhs⟩
        exact ⟨xs, ys ++ zs, by simp, hg, ih.2 ⟨ys, zs, rfl, hgs, hhs⟩⟩

theorem meetAll_token {k : Kind} :
    MeetAll (.token k :: gs) ks ↔ ∃ ys, ks = k :: ys ∧ MeetAll gs ys := by
  constructor
  · rintro ⟨_, ys, rfl, rfl, h⟩
    exact ⟨ys, rfl, h⟩
  · rintro ⟨ys, rfl, h⟩
    exact ⟨[k], ys, rfl, rfl, h⟩

/-- What meets the goals of an expression begins with one. -/
theorem exists_expr_of_meetAll (h : MeetAll (.operand :: .operators :: gs) ks) :
    ∃ (e : Expr) (ys : List Kind), e.Canonical ∧ ks = e.kinds ++ ys ∧ MeetAll gs ys := by
  obtain ⟨_, _, rfl, ⟨l, hl, -, rfl⟩, xs, ys, rfl, hoperators, h⟩ := h
  obtain ⟨e, he, hkinds⟩ := hoperators l hl
  exact ⟨e, ys, he, by rw [← List.append_assoc, hkinds], h⟩

/-- What meets the goals of a condition begins with one. -/
theorem exists_condition_of_meetAll (h : MeetAll (.condition 0 :: .connectives :: gs) ks) :
    ∃ (c : Condition) (ys : List Kind), c.Canonical ∧ ks = c.kinds ++ ys ∧ MeetAll gs ys := by
  obtain ⟨first, _, rfl, ⟨l, hl, -, hfirst⟩, xs, ys, rfl, hconnectives, h⟩ := h
  obtain rfl : first = l.kinds := hfirst
  obtain ⟨c, hc, hkinds⟩ := hconnectives l hl
  exact ⟨c, ys, hc, by rw [← List.append_assoc, hkinds], h⟩

theorem exists_assignment_of_meetAll
    (h : MeetAll (.target :: .token .gets :: .operand :: .operators :: gs) ks) :
    ∃ (a : Assignment) (ys : List Kind), a.value.Canonical ∧ ks = a.kinds ++ ys ∧
      MeetAll gs ys := by
  obtain ⟨_, _, rfl, ⟨x, rfl⟩, hsign⟩ := h
  obtain ⟨_, rfl, hvalue⟩ := meetAll_token.1 hsign
  obtain ⟨e, ys, he, rfl, hrest⟩ := exists_expr_of_meetAll hvalue
  exact ⟨{ target := x, value := e }, ys, he, rfl, hrest⟩

theorem exists_body_of_meetAll (h : MeetAll blockGoals ks) :
    ∃ body, Stmt.AllCanonical body ∧
      ks = .leftCurly :: (Stmt.allKinds body ++ [.rightCurly]) := by
  obtain ⟨_, rfl, hbody⟩ := meetAll_token.1 h
  obtain ⟨_, _, rfl, ⟨body, hcanon, rfl⟩, hclose⟩ := hbody
  obtain ⟨_, rfl, rfl⟩ := meetAll_token.1 hclose
  exact ⟨body, hcanon, rfl⟩

theorem exists_closed_of_meetAll {depth : Nat} {c : Condition} (hc : c.Canonical)
    (hnone : c.joint? = none) (h : MeetAll (closings depth) ks) :
    ∃ whole : Condition, whole.Canonical ∧ whole.joint? = none ∧
      List.replicate depth .leftParen ++ (c.kinds ++ ks) = whole.kinds := by
  induction depth generalizing c ks with
  | zero =>
      obtain rfl : ks = [] := h
      exact ⟨c, hc, hnone, by simp⟩
  | succ depth ih =>
      obtain ⟨xs, _, rfl, hconnectives, hclose⟩ := h
      obtain ⟨ys, rfl, hrest⟩ := meetAll_token.1 hclose
      obtain ⟨inner, hinner, hkinds⟩ := hconnectives c hc
      obtain ⟨whole, hwhole, hjoint, heq⟩ := ih (c := .group inner) hinner rfl hrest
      refine ⟨whole, hwhole, hjoint, ?_⟩
      rw [← heq, List.replicate_succ', ← List.append_assoc c.kinds, hkinds]
      simp [Condition.kinds]

end MeetAll

/-! ## One step -/

section Step
variable {xs : List Kind}

/-- What meets the goals of a statement makes one, with the first kind in front. -/
theorem exists_stmt_of_meetAll {k : Kind} {new : List Goal} (hnew : statementGoals? k = some new)
    (h : MeetAll new xs) : ∃ stmt : Stmt, stmt.Canonical ∧ stmt.kinds = k :: xs := by
  have tested (header : Condition → Header) (hkinds : ∀ c, (header c).kinds =
      k :: .leftParen :: (c.kinds ++ [.rightParen])) (hcanon : ∀ c, c.Canonical →
        (header c).Canonical) (h : MeetAll testedBlockGoals xs) :
      ∃ stmt : Stmt, stmt.Canonical ∧ stmt.kinds = k :: xs := by
    obtain ⟨_, rfl, htest⟩ := meetAll_token.1 h
    obtain ⟨c, _, hc, rfl, hclose⟩ := exists_condition_of_meetAll htest
    obtain ⟨_, rfl, hblock⟩ := meetAll_token.1 hclose
    obtain ⟨body, hbody, rfl⟩ := exists_body_of_meetAll hblock
    exact ⟨.block (header c) body .start, ⟨hcanon c hc, hbody⟩, by simp [Stmt.kinds, hkinds]⟩
  rw [statementGoals?.eq_def] at hnew
  split at hnew
  · next x =>
    cases hnew
    obtain ⟨_, rfl, hvalue⟩ := meetAll_token.1 h
    obtain ⟨e, _, he, rfl, hsemi⟩ := exists_expr_of_meetAll hvalue
    obtain ⟨_, rfl, rfl⟩ := meetAll_token.1 hsemi
    exact ⟨.assign { target := x, value := e }, he, by simp [Stmt.kinds, Assignment.kinds]⟩
  · cases hnew
    obtain ⟨e, _, he, rfl, hsemi⟩ := exists_expr_of_meetAll h
    obtain ⟨_, rfl, rfl⟩ := meetAll_token.1 hsemi
    exact ⟨.ret e .start, he, by simp [Stmt.kinds]⟩
  · cases hnew
    exact tested .ifThen (fun _ => rfl) (fun _ hc => hc) h
  · cases hnew
    exact tested .whileDo (fun _ => rfl) (fun _ hc => hc) h
  · cases hnew
    obtain ⟨_, rfl, hfirst⟩ := meetAll_token.1 h
    obtain ⟨init, _, hinit, rfl, hsemi⟩ := exists_assignment_of_meetAll hfirst
    obtain ⟨_, rfl, hsecond⟩ := meetAll_token.1 hsemi
    obtain ⟨c, _, hc, rfl, hsemi'⟩ := exists_condition_of_meetAll hsecond
    obtain ⟨_, rfl, hthird⟩ := meetAll_token.1 hsemi'
    obtain ⟨update, _, hupdate, rfl, hclose⟩ := exists_assignment_of_meetAll hthird
    obtain ⟨_, rfl, hblock⟩ := meetAll_token.1 hclose
    obtain ⟨body, hbody, rfl⟩ := exists_body_of_meetAll hblock
    refine ⟨.block (.forDo init c update) body .start, ⟨⟨hinit, hc, hupdate⟩, hbody⟩, ?_⟩
    simp [Stmt.kinds, Header.kinds]
  · cases hnew

theorem exists_body_of_statementGoals? {k : Kind} {new : List Goal}
    (hnew : (statementGoals? k).map (· ++ [.statements]) = some new) (h : MeetAll new xs) :
    ∃ stmt body, Stmt.AllCanonical (stmt :: body) ∧ Stmt.allKinds (stmt :: body) = k :: xs := by
  obtain ⟨goals, hgoals, rfl⟩ := Option.map_eq_some_iff.1 hnew
  obtain ⟨ys, _, rfl, hstmt, _, _, rfl, ⟨body, hbody, rfl⟩, rfl⟩ := meetAll_append.1 h
  obtain ⟨stmt, hcanon, hkinds⟩ := exists_stmt_of_meetAll hgoals hstmt
  exact ⟨stmt, body, ⟨hcanon, hbody⟩, by simp [Stmt.allKinds, hkinds]⟩

/-- One kind in front of what meets the new goals meets the old one. -/
theorem operand_meets_of_advance {k : Kind} {new : List Goal}
    (hnew : Goal.operand.advance k = some new) (h : MeetAll new xs) :
    Goal.operand.Meets (k :: xs) := by
  cases k with
  | name x =>
      cases hnew
      obtain rfl : xs = [] := h
      exact ⟨.var x, trivial, rfl, rfl⟩
  | literal value =>
      cases hnew
      obtain rfl : xs = [] := h
      exact ⟨.lit value, trivial, rfl, rfl⟩
  | arith op => cases op with
    | sub =>
        cases hnew
        obtain ⟨_, _, rfl, ⟨e, he, hnone, rfl⟩, rfl⟩ := h
        exact ⟨.neg e, ⟨hnone, he⟩, rfl, by simp [Expr.kinds]⟩
    | _ => cases hnew
  | leftParen =>
      cases hnew
      obtain ⟨e, _, he, rfl, hclose⟩ := exists_expr_of_meetAll h
      obtain ⟨_, rfl, rfl⟩ := meetAll_token.1 hclose
      exact ⟨.group e, he, rfl, rfl⟩
  | _ => cases hnew

/-- What is behind an operand at the front of a condition. -/
theorem meets_of_comparison {depth : Nat} {l : Expr} (hl : l.Canonical) {ks : List Kind}
    (h : MeetAll [.comparison depth] ks) : (Goal.condition depth).Meets (l.kinds ++ ks) := by
  obtain ⟨_, _, rfl, hrest, rfl⟩ := h
  obtain ⟨c, hc, hnone, heq⟩ := hrest l hl
  exact ⟨c, hc, hnone, by rw [List.append_nil, heq]⟩

theorem condition_meets_of_advance {depth : Nat} {k : Kind} {new : List Goal}
    (hnew : (Goal.condition depth).advance k = some new) (h : MeetAll new xs) :
    (Goal.condition depth).Meets (k :: xs) := by
  cases k with
  | bang =>
      cases hnew
      obtain ⟨first, ys, rfl, ⟨c, hc, hnone, hfirst⟩, hclosings⟩ := h
      obtain rfl : first = c.kinds := hfirst
      exact exists_closed_of_meetAll (c := .not c) ⟨hnone, hc⟩ rfl hclosings
  | leftParen =>
      cases hnew
      obtain ⟨ys, _, rfl, ⟨c, hc, hnone, heq⟩, rfl⟩ := h
      refine ⟨c, hc, hnone, ?_⟩
      rw [← heq, List.replicate_succ']
      simp
  | name x =>
      cases hnew
      exact meets_of_comparison (l := .var x) trivial h
  | literal value =>
      cases hnew
      exact meets_of_comparison (l := .lit value) trivial h
  | arith op => cases op with
    | sub =>
        cases hnew
        obtain ⟨_, _, rfl, ⟨e, he, hnone, rfl⟩, hrest⟩ := h
        exact meets_of_comparison (l := .neg e) ⟨hnone, he⟩ hrest
    | _ => cases hnew
  | _ => cases hnew

theorem comparison_meets_of_advance {depth : Nat} {k : Kind} {new : List Goal}
    (hnew : (Goal.comparison depth).advance k = some new) (h : MeetAll new xs) :
    (Goal.comparison depth).Meets (k :: xs) := by
  intro l hl
  cases k with
  | arith op =>
      have hgoals : new = [.operand, .comparison depth] := by cases depth <;> cases hnew <;> rfl
      subst hgoals
      obtain ⟨_, _, rfl, ⟨r, hr, hnone, rfl⟩, ys, _, rfl, hrest, rfl⟩ := h
      obtain ⟨e, he, hkinds⟩ := exists_canonical_bin op hl hr hnone
      obtain ⟨c, hc, hjoint, heq⟩ := hrest e he
      refine ⟨c, hc, hjoint, ?_⟩
      rw [← heq, hkinds]
      simp
  | rel op =>
      have hgoals : new = .operand :: .operators :: closings depth := by
        cases depth <;> cases hnew <;> rfl
      subst hgoals
      obtain ⟨r, ys, hr, rfl, hclosings⟩ := exists_expr_of_meetAll h
      obtain ⟨c, hc, hjoint, heq⟩ :=
        exists_closed_of_meetAll (c := .cmp op l r) ⟨hl, hr⟩ rfl hclosings
      refine ⟨c, hc, hjoint, ?_⟩
      rw [← heq]
      simp [Condition.kinds]
  | rightParen => cases depth with
    | zero => cases hnew
    | succ depth =>
        cases hnew
        obtain ⟨ys, _, rfl, hrest, rfl⟩ := h
        obtain ⟨c, hc, hjoint, heq⟩ := hrest (.group l) hl
        refine ⟨c, hc, hjoint, ?_⟩
        rw [← heq, List.replicate_succ']
        simp [Expr.kinds]
  | _ => cases depth <;> cases hnew

theorem program_meets_of_advance {k : Kind} {new : List Goal}
    (hnew : Goal.program.advance k = some new) (h : MeetAll new xs) :
    Goal.program.Meets (k :: xs) := by
  by_cases hk : k = .keyword .fn
  · subst hk
    cases hnew
    obtain ⟨_, _, rfl, ⟨x, hx, rfl⟩, hopening⟩ := h
    obtain ⟨_, rfl, hclose⟩ := meetAll_token.1 hopening
    obtain ⟨_, rfl, hblock⟩ := meetAll_token.1 hclose
    obtain ⟨body, hbody, rfl⟩ := exists_body_of_meetAll hblock
    exact ⟨x, body, hbody, .inl ⟨rfl, hx⟩⟩
  · have hstatements : (statementGoals? k).map (· ++ [.statements]) = some new := by
      cases k with
      | keyword word => cases word with
        | fn => exact absurd rfl hk
        | _ => exact hnew
      | _ => exact hnew
    obtain ⟨stmt, body, hcanon, hkinds⟩ := exists_body_of_statementGoals? hstatements h
    exact ⟨Grammar.implicitName, stmt :: body, hcanon, .inr ⟨hkinds.symm, rfl, by simpa using hk⟩⟩

/-- A kind that goes on with a goal meets it together with what meets the goals behind. -/
theorem meets_of_advance {g : Goal} {k : Kind} {new : List Goal} (hnew : g.advance k = some new)
    (h : MeetAll new xs) : g.Meets (k :: xs) := by
  cases g with
  | token kind =>
      simp only [Goal.advance, Option.ite_none_right_eq_some] at hnew
      obtain ⟨rfl, hnil⟩ := hnew
      cases hnil
      obtain rfl : xs = [] := h
      rfl
  | target =>
      cases k <;> cases hnew
      obtain rfl : xs = [] := h
      exact ⟨_, rfl⟩
  | functionName =>
      cases k with
      | name x =>
          simp only [Goal.advance, Option.ite_none_left_eq_some] at hnew
          obtain ⟨hx, hnil⟩ := hnew
          cases hnil
          obtain rfl : xs = [] := h
          exact ⟨x, hx, rfl⟩
      | _ => cases hnew
  | operand => exact operand_meets_of_advance hnew h
  | operators =>
      cases k with
      | arith op =>
          cases hnew
          obtain ⟨_, _, rfl, ⟨r, hr, hnone, rfl⟩, ys, _, rfl, hrest, rfl⟩ := h
          intro l hl
          obtain ⟨e, he, hkinds⟩ := exists_canonical_bin op hl hr hnone
          obtain ⟨whole, hwhole, heq⟩ := hrest e he
          exact ⟨whole, hwhole, by rw [← heq, hkinds]; simp⟩
      | _ => cases hnew
  | condition depth => exact condition_meets_of_advance hnew h
  | comparison depth => exact comparison_meets_of_advance hnew h
  | connectives =>
      cases k with
      | logic op =>
          cases hnew
          obtain ⟨first, _, rfl, ⟨r, hr, hnone, hfirst⟩, ys, _, rfl, hrest, rfl⟩ := h
          obtain rfl : first = r.kinds := hfirst
          intro l hl
          obtain ⟨c, hc, hkinds⟩ := exists_canonical_logic op hl hr hnone
          obtain ⟨whole, hwhole, heq⟩ := hrest c hc
          exact ⟨whole, hwhole, by rw [← heq, hkinds]; simp⟩
      | _ => cases hnew
  | statements =>
      obtain ⟨stmt, body, hcanon, hkinds⟩ := exists_body_of_statementGoals? hnew h
      exact ⟨stmt :: body, hcanon, hkinds.symm⟩
  | program => exact program_meets_of_advance hnew h

theorem meets_nil_of_isOptional {g : Goal} (h : g.isOptional = true) : g.Meets [] := by
  cases g with
  | operators =>
      intro l hl
      exact ⟨l, hl, List.append_nil _⟩
  | connectives =>
      intro l hl
      exact ⟨l, hl, List.append_nil _⟩
  | statements => exact ⟨[], trivial, rfl⟩
  | program => exact ⟨Grammar.implicitName, [], trivial, .inr ⟨rfl, rfl, by simp⟩⟩
  | _ => cases h

/-- **One step**: a kind and what meets the goals behind it meet the goals in front of it. -/
theorem meetAll_of_step {gs left : List Goal} {k : Kind} (hk : k ≠ .eof)
    (hstep : step gs k = some left) (h : MeetAll left xs) : MeetAll gs (k :: xs) := by
  induction gs with
  | nil => simp [step, hk] at hstep
  | cons g gs ih =>
      rw [step] at hstep
      cases hnew : g.advance k with
      | some new =>
          rw [hnew] at hstep
          cases hstep
          obtain ⟨ys, zs, rfl, hfirst, hrest⟩ := meetAll_append.1 h
          exact ⟨k :: ys, zs, rfl, meets_of_advance hnew hfirst, hrest⟩
      | none =>
          rw [hnew] at hstep
          obtain ⟨hopt, hstep⟩ := Option.ite_none_right_eq_some.1 hstep
          exact ⟨[], k :: xs, rfl, meets_nil_of_isOptional hopt, ih hstep⟩

/-- What meets the goals behind a row of kinds meets the first ones with the row in front. -/
theorem meetAll_of_run {gs left : List Goal} {ks : List Kind} (hks : .eof ∉ ks)
    (hrun : run gs ks = some left) (h : MeetAll left xs) : MeetAll gs (ks ++ xs) := by
  induction ks generalizing gs with
  | nil =>
      cases hrun
      exact h
  | cons k ks ih =>
      rw [List.mem_cons, not_or] at hks
      obtain ⟨mid, hstep, hlater⟩ := Option.bind_eq_some_iff.1 hrun
      exact meetAll_of_step (Ne.symm hks.1) hstep (ih hks.2 hlater)

end Step

/-! ## Every goal is met -/

theorem meetAll_closings (depth : Nat) :
    MeetAll (closings depth) (List.replicate depth .rightParen) := by
  induction depth with
  | zero => rfl
  | succ depth ih =>
      have hconnectives : Goal.connectives.Meets [] := meets_nil_of_isOptional rfl
      exact ⟨[], _, rfl, hconnectives, meetAll_token.2 ⟨_, rfl, ih⟩⟩

theorem exists_comparison_meets (depth : Nat) : ∃ ks, (Goal.comparison depth).Meets ks := by
  have hgoals : (Goal.comparison depth).advance (.rel .less) =
      some (.operand :: .operators :: closings depth) := by cases depth <;> rfl
  have hoperand : Goal.operand.Meets [.name "x"] := ⟨.var "x", trivial, rfl, rfl⟩
  have hoperators : Goal.operators.Meets [] := meets_nil_of_isOptional rfl
  exact ⟨_, comparison_meets_of_advance hgoals
    ⟨_, _, rfl, hoperand, _, _, rfl, hoperators, meetAll_closings depth⟩⟩

/-- Every goal is met by something. -/
theorem exists_meets (g : Goal) : ∃ ks, g.Meets ks := by
  cases g with
  | token kind => exact ⟨[kind], rfl⟩
  | target => exact ⟨_, "x", rfl⟩
  | functionName => exact ⟨_, "f", by decide, rfl⟩
  | operand => exact ⟨_, .var "x", trivial, rfl, rfl⟩
  | condition depth =>
      obtain ⟨ks, hks⟩ := exists_comparison_meets depth
      exact ⟨_, meets_of_comparison (l := .var "x") trivial ⟨ks, [], rfl, hks, rfl⟩⟩
  | comparison depth => exact exists_comparison_meets depth
  | operators => exact ⟨[], meets_nil_of_isOptional rfl⟩
  | connectives => exact ⟨[], meets_nil_of_isOptional rfl⟩
  | statements => exact ⟨[], meets_nil_of_isOptional rfl⟩
  | program => exact ⟨[], meets_nil_of_isOptional rfl⟩

theorem exists_meetAll (gs : List Goal) : ∃ ks, MeetAll gs ks := by
  induction gs with
  | nil => exact ⟨[], rfl⟩
  | cons g gs ih =>
      obtain ⟨xs, hxs⟩ := exists_meets g
      obtain ⟨ys, hys⟩ := ih
      exact ⟨xs ++ ys, xs, ys, rfl, hxs, hys⟩

/-! ## Viable tokens -/

/-- Tokens that are read as a function. -/
def Accepted (ts : List Token) : Prop := ∃ f, parse ts = .ok f

/-- Tokens that some accepted list begins with. The first end token ends a list, so what comes
behind it does not count. -/
def Viable (ts : List Token) : Prop := ∃ later, Accepted (ts ++ later)

section Viable
variable {ts : List Token}

/-- Tokens without an end are read in full. -/
theorem kindsRead_of_eof_notMem (h : .eof ∉ ts.map Token.kind) (later : List Token) :
    kindsRead (ts ++ later) = ts.map Token.kind ++ kindsRead later := by
  rw [kindsRead, List.map_append, List.takeWhile_append_of_pos]
  · rfl
  · intro k hk
    have hne : k ≠ .eof := fun heq => h (heq ▸ hk)
    simpa using hne

theorem kindsRead_eof {t : Token} (ht : t.kind = .eof) (later : List Token) :
    kindsRead (t :: later) = [] := by
  simp [kindsRead, ht]

/-- What is accepted is a canonical program. -/
theorem accepted_iff : Accepted ts ↔
    ∃ name body, Stmt.AllCanonical body ∧ IsProgram (kindsRead ts) name body := by
  constructor
  · rintro ⟨f, hf⟩
    exact ⟨f.name, f.body, parse_sound hf⟩
  · rintro ⟨name, body, hcanon, h⟩
    obtain ⟨f, hf, -⟩ := parse_complete hcanon h
    exact ⟨f, hf⟩

/-- Kinds from goals to goals, with something behind them that meets these, are a program. -/
theorem exists_program_of_run {left : List Goal} {ks xs : List Kind} (hks : .eof ∉ ks)
    (hrun : run [.program] ks = some left) (h : MeetAll left xs) :
    ∃ name body, Stmt.AllCanonical body ∧ IsProgram (ks ++ xs) name body := by
  obtain ⟨whole, _, heq, ⟨name, body, hcanon, hprogram⟩, rfl⟩ := meetAll_of_run hks hrun h
  rw [heq, List.append_nil]
  exact ⟨name, body, hcanon, hprogram⟩

/-- Tokens that need nothing more are accepted, with the end behind them. -/
theorem accepted_of_run {left : List Goal} {finish : Token} (hts : .eof ∉ ts.map Token.kind)
    (hfinish : finish.kind = .eof) (hrun : run [.program] (ts.map Token.kind) = some left)
    (h : MeetAll left []) : Accepted (ts ++ [finish]) := by
  rw [accepted_iff, kindsRead_of_eof_notMem hts, kindsRead_eof hfinish]
  exact exists_program_of_run hts hrun h

/-- Viable tokens lead to goals. -/
theorem exists_run_of_viable (hts : .eof ∉ ts.map Token.kind) (h : Viable ts) :
    ∃ left, run [.program] (ts.map Token.kind) = some left := by
  obtain ⟨later, haccepted⟩ := h
  obtain ⟨name, body, -, hprogram⟩ := accepted_iff.1 haccepted
  have hrun := run_isProgram hprogram
  rw [kindsRead_of_eof_notMem hts, List.append_assoc, run_append] at hrun
  obtain ⟨left, hleft, -⟩ := Option.bind_eq_some_iff.1 hrun
  exact ⟨left, hleft⟩

/-- Tokens with the end behind them that are accepted leave no goal that needs anything. -/
theorem run_eof_of_viable {finish : Token} (hts : .eof ∉ ts.map Token.kind)
    (hfinish : finish.kind = .eof) (h : Viable (ts ++ [finish])) :
    run [.program] (ts.map Token.kind ++ [.eof]) = some [] := by
  obtain ⟨later, haccepted⟩ := h
  obtain ⟨name, body, -, hprogram⟩ := accepted_iff.1 haccepted
  rw [List.append_assoc, kindsRead_of_eof_notMem hts, List.singleton_append, kindsRead_eof hfinish,
    List.append_nil] at hprogram
  exact run_isProgram hprogram

/-- **Viable tokens are those that lead from goals to goals.** -/
theorem viable_iff_run (hts : .eof ∉ ts.map Token.kind) :
    Viable ts ↔ ∃ left, run [.program] (ts.map Token.kind) = some left := by
  constructor
  · exact exists_run_of_viable hts
  · rintro ⟨left, hrun⟩
    obtain ⟨ks, hks⟩ := exists_meetAll left
    obtain ⟨name, body, hcanon, hprogram⟩ := exists_program_of_run hts hrun hks
    have heof : .eof ∉ ks := fun hmem =>
      eof_notMem_of_isProgram hprogram (List.mem_append_right _ hmem)
    let later : List Token := ks.map fun k => ⟨k, "", .start⟩
    have hkinds : later.map Token.kind = ks := by simp [later, Function.comp_def]
    have hlater : kindsRead (later ++ []) = ks := by
      rw [kindsRead_of_eof_notMem (hkinds ▸ heof), hkinds]
      exact List.append_nil ks
    rw [List.append_nil] at hlater
    refine ⟨later, accepted_iff.2 ⟨name, body, hcanon, ?_⟩⟩
    rwa [kindsRead_of_eof_notMem hts, hlater]

end Viable

end Pseudocode.Viability
