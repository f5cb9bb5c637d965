import Pseudocode.Proofs.Grammar.Sound

/-!
# What is written is read

The readers find every canonical tree in its linear form, whatever stands behind it, as long as
that does not go on with an operator which the tree would have to take in.

A chain of operators groups to the left while a reader walks it to the right, so the law for a
chain is stated with the reader of its remainder: reading the whole is reading on with the tree
as the front. The choice between a condition and an operand in parentheses is settled by what
stands behind the closing parenthesis: in a comparison that is an operator, and behind a
condition in parentheses there is none.

## Main statements

* `sum_complete`, `disjunction_complete`, `statement_complete` — expressions, conditions and
  statements are read back.
* `program_complete` — programs are read back in both of their forms.
-/
namespace Pseudocode.Grammar

variable {finish : Position} {us rest : List Token}

/-- Tokens of a row of kinds, parted at one of them. -/
theorem exists_split {us : List Token} {xs ys : List Kind} {k : Kind}
    (h : us.map Token.kind = xs ++ k :: ys) :
    ∃ vs t ws, us = vs ++ t :: ws ∧ vs.map Token.kind = xs ∧ t.kind = k ∧
      ws.map Token.kind = ys := by
  obtain ⟨vs, ws, rfl, hvs, hws⟩ := List.map_eq_append_iff.1 h
  obtain ⟨t, ws, rfl, ht, hws⟩ := List.map_eq_cons_iff.1 hws
  exact ⟨vs, t, ws, rfl, hvs, ht, hws⟩

/-! ## Expressions -/

/-- An expression is read back on every level of the grammar on which it can stand. -/
structure ExprReadBack (finish : Position) (e : Expr) : Prop where
  unary : ∀ us rest : List Token, us.map Token.kind = e.kinds → e.binding? = none →
    Yields (unary finish (us ++ rest)) e rest
  product : ∀ (us rest : List Token) (v : Expr) (later : List Token),
    us.map Token.kind = e.kinds → (∀ p ∈ e.binding?, ArithOp.mul.precedence ≤ p) →
    Yields (productTail finish e rest) v later → Yields (product finish (us ++ rest)) v later
  sum : ∀ (us rest : List Token) (v : Expr) (later : List Token),
    us.map Token.kind = e.kinds → Unbound ArithOp.mul.precedence rest →
    Yields (sumTail finish e rest) v later → Yields (sum finish (us ++ rest)) v later

/-- An expression without an operator is read back at every level if it is at the lowest. -/
theorem ExprReadBack.of_unary {e : Expr}
    (h : ∀ us rest : List Token, us.map Token.kind = e.kinds →
      Yields (Grammar.unary finish (us ++ rest)) e rest) :
    ExprReadBack finish e where
  unary us rest hus _ := h us rest hus
  product us rest _ _ hus _ htail := yields_product.2 ⟨e, rest, h us rest hus, htail⟩
  sum us rest _ _ hus hstop htail := by
    have hproduct : Yields (Grammar.product finish (us ++ rest)) e rest :=
      yields_product.2 ⟨e, rest, h us rest hus, (yields_productTail_of_unbound hstop).2 ⟨rfl, rfl⟩⟩
    exact yields_sum.2 ⟨e, rest, hproduct, htail⟩

/-- There are two levels of operators. -/
theorem ArithOp.precedence_eq_or (op : ArithOp) :
    op.precedence = ArithOp.add.precedence ∨ op.precedence = ArithOp.mul.precedence := by
  cases op <;> decide

/-- Two levels of operators leave no room: what binds more tightly than one of them binds as
tightly as the other, and nothing binds more tightly than the other. -/
theorem mul_le_of_add_lt {e : Expr} (h : ∀ p ∈ e.binding?, ArithOp.add.precedence < p) :
    ∀ p ∈ e.binding?, ArithOp.mul.precedence ≤ p := by
  cases e with
  | bin op l r => cases op <;> simp_all [Expr.binding?, ArithOp.precedence]
  | _ => simp [Expr.binding?]

theorem binding?_of_mul_lt {e : Expr} (h : ∀ p ∈ e.binding?, ArithOp.mul.precedence < p) :
    e.binding? = none := by
  cases e with
  | bin op l r => cases op <;> simp_all [Expr.binding?, ArithOp.precedence]
  | _ => rfl

/-- A product is read back from its operands. -/
theorem ExprReadBack.bin_product {op : ArithOp} {l r : Expr} (hl : ExprReadBack finish l)
    (hr : ExprReadBack finish r) (hop : op.precedence = ArithOp.mul.precedence)
    (hcanon : (Expr.bin op l r).Canonical) : ExprReadBack finish (.bin op l r) := by
  obtain ⟨hleft, hright, -, -⟩ := hcanon
  have hproduct : ∀ (us rest : List Token) (v : Expr) (later : List Token),
      us.map Token.kind = (Expr.bin op l r).kinds →
      Yields (productTail finish (.bin op l r) rest) v later →
      Yields (Grammar.product finish (us ++ rest)) v later := by
    intro us rest v later hus htail
    obtain ⟨us, t, vs, rfl, hus, ht, hvs⟩ := exists_split hus
    have operand := hr.unary vs rest hvs (binding?_of_mul_lt (hop ▸ hright))
    have whole := hl.product us (t :: (vs ++ rest)) v later hus (hop ▸ hleft)
      ((yields_productTail_cons ht hop).2 ⟨r, rest, operand, htail⟩)
    rwa [List.append_assoc, List.cons_append]
  refine ⟨?_, ?_, ?_⟩
  · intro us rest _ hnone
    cases hnone
  · intro us rest v later hus _
    exact hproduct us rest v later hus
  · intro us rest v later hus hstop htail
    refine yields_sum.2 ⟨_, rest, hproduct us rest _ rest hus ?_, htail⟩
    exact (yields_productTail_of_unbound hstop).2 ⟨rfl, rfl⟩

/-- A sum is read back from its operands, the right one of which is a product at most. -/
theorem ExprReadBack.bin_sum {op : ArithOp} {l r : Expr} (hl : ExprReadBack finish l)
    (hr : ExprReadBack finish r) (hop : op.precedence = ArithOp.add.precedence)
    (hcanon : (Expr.bin op l r).Canonical) : ExprReadBack finish (.bin op l r) := by
  obtain ⟨-, hright, -, -⟩ := hcanon
  refine ⟨?_, ?_, ?_⟩
  · intro us rest _ hnone
    cases hnone
  · intro us rest v later _ hlevel
    exact absurd (hlevel _ rfl) (by rw [hop]; decide)
  · intro us rest v later hus hstop htail
    obtain ⟨us, t, vs, rfl, hus, ht, hvs⟩ := exists_split hus
    have operand := hr.product vs rest r rest hvs (mul_le_of_add_lt (hop ▸ hright))
      ((yields_productTail_of_unbound hstop).2 ⟨rfl, rfl⟩)
    have hnext : Unbound ArithOp.mul.precedence (t :: (vs ++ rest)) := by
      rw [unbound_cons, ht]
      rintro _ ⟨⟩
      rw [hop]
      decide
    have whole := hl.sum us (t :: (vs ++ rest)) v later hus hnext
      ((yields_sumTail_cons ht hop).2 ⟨r, rest, operand, htail⟩)
    rwa [List.append_assoc, List.cons_append]

/-- Canonical expressions are read back. -/
theorem exprReadBack {e : Expr} (hcanon : e.Canonical) : ExprReadBack finish e := by
  induction e with
  | var x =>
      refine .of_unary fun us rest hus => ?_
      obtain ⟨t, rfl, ht⟩ := List.map_eq_singleton_iff.1 hus
      refine (yields_unary_primary (by simp [ht])).2 ?_
      exact yields_primary.2 (.inl ⟨t, x, ht, rfl, rfl⟩)
  | lit value =>
      refine .of_unary fun us rest hus => ?_
      obtain ⟨t, rfl, ht⟩ := List.map_eq_singleton_iff.1 hus
      refine (yields_unary_primary (by simp [ht])).2 ?_
      exact yields_primary.2 (.inr (.inl ⟨t, value, ht, rfl, rfl⟩))
  | neg e ih =>
      refine .of_unary fun us rest hus => ?_
      obtain ⟨t, us, rfl, ht, hus⟩ := List.map_eq_cons_iff.1 hus
      have operand := (ih hcanon.2).unary us rest hus hcanon.1
      exact (yields_unary_minus ht).2 ⟨e, operand, rfl⟩
  | group e ih =>
      refine .of_unary fun us rest hus => ?_
      obtain ⟨t, us, rfl, ht, hinside⟩ := List.map_eq_cons_iff.1 hus
      obtain ⟨vs, close, ws, rfl, hvs, hclose, hws⟩ := exists_split hinside
      obtain rfl : ws = [] := List.map_eq_nil_iff.1 hws
      have inner : Yields (sum finish (vs ++ [close] ++ rest)) e (close :: rest) := by
        rw [List.append_assoc]
        refine (ih hcanon).sum vs (close :: rest) e _ hvs (by simp [unbound_cons, hclose]) ?_
        exact (yields_sumTail_of_unbound (by simp [unbound_cons, hclose])).2 ⟨rfl, rfl⟩
      refine (yields_unary_primary (by simp [ht])).2 ((yields_primary_paren ht).2 ?_)
      exact ⟨e, close, inner, hclose, rfl⟩
  | bin op l r ihl ihr =>
      have hl := ihl hcanon.2.2.1
      have hr := ihr hcanon.2.2.2
      rcases ArithOp.precedence_eq_or op with hop | hop
      · exact hl.bin_sum hr hop hcanon
      · exact hl.bin_product hr hop hcanon

/-- No operator of an expression stands here. -/
def EndsExpr (ts : List Token) : Prop := ∀ p, Unbound p ts

theorem endsExpr_cons {t : Token} (h : t.kind.isArithmetic = false) (ts : List Token) :
    EndsExpr (t :: ts) := by
  intro p
  rw [unbound_cons]
  intro op hop
  simp [hop, Kind.isArithmetic] at h

/-- Expressions are read back. -/
theorem sum_complete {e : Expr} (hcanon : e.Canonical) (hus : us.map Token.kind = e.kinds)
    (hrest : EndsExpr rest) : Yields (sum finish (us ++ rest)) e rest :=
  (exprReadBack hcanon).sum us rest e rest hus (hrest _)
    ((yields_sumTail_of_unbound (hrest _)).2 ⟨rfl, rfl⟩)

/-! ## Conditions -/

theorem endsExpr_of_continuesOperand (h : continuesOperand rest = false) : EndsExpr rest := by
  cases rest with
  | nil => exact unbound_nil
  | cons t later =>
      simp only [continuesOperand, Bool.or_eq_false_iff] at h
      exact endsExpr_cons h.2 later

/-- Where a comparison begins with a parenthesis, no condition in parentheses stands: behind the
closing parenthesis there is an operator. -/
theorem not_grouped_of_comparison {l : Expr} {op : RelOp} {ts : List Token} {ks tail : List Kind}
    (hl : l.kinds = .leftParen :: ks) (hts : ts.map Token.kind = ks ++ .rel op :: tail)
    (inner : Condition) (later : List Token) : ¬ Grouped finish ts inner later := by
  rintro ⟨close, hinner, hclose, hstop⟩
  have hread := (disjunction_sound hinner).1
  rw [hts, List.map_cons, hclose] at hread
  have hbehind := congrArg (behindClosing 0) hread
  rw [inner.behindClosing_kinds] at hbehind
  have hlater : behindClosing 0 (ks ++ .rel op :: tail) = later.map Token.kind := hbehind
  rcases Expr.behindClosing_of_kinds hl (.rel op :: tail) with h | ⟨op', tail', h⟩
  · obtain ⟨t, _, rfl, ht, -⟩ := List.map_eq_cons_iff.1 (hlater.symm.trans h)
    simp [continuesOperand, ht, Kind.isRelational] at hstop
  · obtain ⟨t, _, rfl, ht, -⟩ := List.map_eq_cons_iff.1 (hlater.symm.trans h)
    simp [continuesOperand, ht, Kind.isArithmetic] at hstop

/-- An expression begins with a token, which is no negation sign. -/
theorem exists_head_of_expr_kinds (e : Expr) : ∃ k ks, e.kinds = k :: ks ∧ k ≠ .bang := by
  induction e with
  | var x => exact ⟨_, _, rfl, by simp⟩
  | lit value => exact ⟨_, _, rfl, by simp⟩
  | neg e ih => exact ⟨_, _, rfl, by simp⟩
  | group e ih => exact ⟨_, _, rfl, by simp⟩
  | bin op l r ihl ihr =>
      obtain ⟨k, ks, hl, hk⟩ := ihl
      exact ⟨k, ks ++ .arith op :: r.kinds, by simp [Expr.kinds, hl], hk⟩

/-- A comparison is read back in front of all that does not go on with its right side. -/
theorem comparison_complete {op : RelOp} {l r : Expr} (hcanon : (Condition.cmp op l r).Canonical)
    (hus : us.map Token.kind = (Condition.cmp op l r).kinds)
    (hrest : continuesOperand rest = false) :
    Yields (negation finish (us ++ rest)) (.cmp op l r) rest := by
  obtain ⟨vs, t, ws, rfl, hvs, ht, hws⟩ := exists_split hus
  have left : Yields (sum finish (vs ++ t :: (ws ++ rest))) l (t :: (ws ++ rest)) :=
    sum_complete hcanon.1 hvs (endsExpr_cons (by simp [ht, Kind.isArithmetic]) _)
  have right : Yields (sum finish (ws ++ rest)) r rest :=
    sum_complete hcanon.2 hws (endsExpr_of_continuesOperand hrest)
  have whole : Yields (comparison finish (vs ++ t :: (ws ++ rest))) (.cmp op l r) rest :=
    yields_comparison.2 ⟨l, t, ws ++ rest, op, r, left, ht, right, rfl⟩
  rw [List.append_assoc, List.cons_append]
  obtain ⟨k, ks, hl, hk⟩ := exists_head_of_expr_kinds l
  obtain ⟨first, vs, rfl, hfirst, hvs⟩ := List.map_eq_cons_iff.1 (hvs.trans hl)
  by_cases hparen : k = .leftParen
  · have hbehind : (vs ++ t :: (ws ++ rest)).map Token.kind =
        ks ++ .rel op :: (r.kinds ++ rest.map Token.kind) := by simp [hvs, ht, hws]
    refine (yields_negation_paren (hfirst.trans hparen)).2 (.inr ⟨?_, whole⟩)
    exact not_grouped_of_comparison (hparen ▸ hl) hbehind
  · refine (yields_negation_comparison ?_ ?_).2 whole
    · simpa [hfirst] using hk
    · simpa [hfirst] using hparen

/-- A condition is read back on every level of the grammar on which it can stand. -/
structure ConditionReadBack (finish : Position) (c : Condition) : Prop where
  negation : ∀ us rest : List Token, us.map Token.kind = c.kinds →
    continuesOperand rest = false → c.joint? = none → Yields (negation finish (us ++ rest)) c rest
  conjunction : ∀ (us rest : List Token) (v : Condition) (later : List Token),
    us.map Token.kind = c.kinds → continuesOperand rest = false → c.joint? ≠ some .or →
    Yields (conjunctionTail finish c rest) v later →
    Yields (conjunction finish (us ++ rest)) v later
  disjunction : ∀ (us rest : List Token) (v : Condition) (later : List Token),
    us.map Token.kind = c.kinds → continuesOperand rest = false → Lacks (.logic .and) rest →
    Yields (disjunctionTail finish c rest) v later →
    Yields (disjunction finish (us ++ rest)) v later

/-- A condition without a connective is read back at every level if it is at the lowest. -/
theorem ConditionReadBack.of_negation {c : Condition}
    (h : ∀ us rest : List Token, us.map Token.kind = c.kinds → continuesOperand rest = false →
      Yields (Grammar.negation finish (us ++ rest)) c rest) :
    ConditionReadBack finish c where
  negation us rest hus hrest _ := h us rest hus hrest
  conjunction us rest _ _ hus hrest _ htail :=
    yields_conjunction.2 ⟨c, rest, h us rest hus hrest, htail⟩
  disjunction us rest _ _ hus hrest hstop htail := by
    have hconjunction : Yields (Grammar.conjunction finish (us ++ rest)) c rest :=
      yields_conjunction.2
        ⟨c, rest, h us rest hus hrest, (yields_conjunctionTail_of_lacks hstop).2 ⟨rfl, rfl⟩⟩
    exact yields_disjunction.2 ⟨c, rest, hconjunction, htail⟩

theorem continuesOperand_logic {t : Token} {op : LogicOp} (ht : t.kind = .logic op)
    (ts : List Token) : continuesOperand (t :: ts) = false := by
  simp [continuesOperand, ht, Kind.isRelational, Kind.isArithmetic]

/-- A conjunction is read back from its sides. -/
theorem ConditionReadBack.logic_and {l r : Condition} (hl : ConditionReadBack finish l)
    (hr : ConditionReadBack finish r) (hcanon : (Condition.logic .and l r).Canonical) :
    ConditionReadBack finish (.logic .and l r) := by
  obtain ⟨hlor, hror, hrand, -, -⟩ := hcanon
  have hnone : r.joint? = none := by
    cases hj : r.joint? with
    | none => rfl
    | some op => cases op <;> simp_all
  have hconjunction : ∀ (us rest : List Token) (v : Condition) (later : List Token),
      us.map Token.kind = (Condition.logic .and l r).kinds → continuesOperand rest = false →
      Yields (conjunctionTail finish (.logic .and l r) rest) v later →
      Yields (Grammar.conjunction finish (us ++ rest)) v later := by
    intro us rest v later hus hrest htail
    obtain ⟨us, t, vs, rfl, hus, ht, hvs⟩ := exists_split hus
    have operand := hr.negation vs rest hvs hrest hnone
    have whole := hl.conjunction us (t :: (vs ++ rest)) v later hus (continuesOperand_logic ht _)
      hlor ((yields_conjunctionTail_cons ht).2 ⟨r, rest, operand, htail⟩)
    rwa [List.append_assoc, List.cons_append]
  refine ⟨?_, ?_, ?_⟩
  · intro us rest _ _ hnone
    cases hnone
  · intro us rest v later hus hrest _
    exact hconjunction us rest v later hus hrest
  · intro us rest v later hus hrest hstop htail
    refine yields_disjunction.2 ⟨_, rest, hconjunction us rest _ rest hus hrest ?_, htail⟩
    exact (yields_conjunctionTail_of_lacks hstop).2 ⟨rfl, rfl⟩

/-- A disjunction is read back from its sides, the right one of which is a conjunction at most. -/
theorem ConditionReadBack.logic_or {l r : Condition} (hl : ConditionReadBack finish l)
    (hr : ConditionReadBack finish r) (hcanon : (Condition.logic .or l r).Canonical) :
    ConditionReadBack finish (.logic .or l r) := by
  obtain ⟨hror, -, -⟩ := hcanon
  refine ⟨?_, ?_, ?_⟩
  · intro us rest _ _ hnone
    cases hnone
  · intro us rest v later _ _ hor
    exact absurd rfl hor
  · intro us rest v later hus hrest hstop htail
    obtain ⟨us, t, vs, rfl, hus, ht, hvs⟩ := exists_split hus
    have operand := hr.conjunction vs rest r rest hvs hrest hror
      ((yields_conjunctionTail_of_lacks hstop).2 ⟨rfl, rfl⟩)
    have whole := hl.disjunction us (t :: (vs ++ rest)) v later hus (continuesOperand_logic ht _)
      (by simp [ht]) ((yields_disjunctionTail_cons ht).2 ⟨r, rest, operand, htail⟩)
    rwa [List.append_assoc, List.cons_append]

/-- Canonical conditions are read back. -/
theorem conditionReadBack {c : Condition} (hcanon : c.Canonical) :
    ConditionReadBack finish c := by
  induction c with
  | cmp op l r => exact .of_negation fun us rest hus hrest => comparison_complete hcanon hus hrest
  | logic op l r ihl ihr =>
      cases op with
      | and => exact (ihl hcanon.2.2.2.1).logic_and (ihr hcanon.2.2.2.2) hcanon
      | or => exact (ihl hcanon.2.1).logic_or (ihr hcanon.2.2) hcanon
  | not c ih =>
      refine .of_negation fun us rest hus hrest => ?_
      obtain ⟨t, us, rfl, ht, hus⟩ := List.map_eq_cons_iff.1 hus
      have operand := (ih hcanon.2).negation us rest hus hrest hcanon.1
      exact (yields_negation_bang ht).2 ⟨c, operand, rfl⟩
  | group c ih =>
      refine .of_negation fun us rest hus hrest => ?_
      obtain ⟨t, us, rfl, ht, hinside⟩ := List.map_eq_cons_iff.1 hus
      obtain ⟨vs, close, ws, rfl, hvs, hclose, hws⟩ := exists_split hinside
      obtain rfl : ws = [] := List.map_eq_nil_iff.1 hws
      have inner : Yields (disjunction finish (vs ++ [close] ++ rest)) c (close :: rest) := by
        rw [List.append_assoc]
        refine (ih hcanon).disjunction vs (close :: rest) c _ hvs ?_ (by simp [hclose]) ?_
        · simp [continuesOperand, hclose, Kind.isRelational, Kind.isArithmetic]
        · exact (yields_disjunctionTail_of_lacks (by simp [hclose])).2 ⟨rfl, rfl⟩
      exact (yields_negation_paren ht).2 (.inl ⟨c, ⟨close, inner, hclose, hrest⟩, rfl⟩)

/-- Conditions are read back. -/
theorem disjunction_complete {c : Condition} {t : Token} (hcanon : c.Canonical)
    (hus : us.map Token.kind = c.kinds) (ht : t.kind = .rightParen ∨ t.kind = .semicolon) :
    Yields (disjunction finish (us ++ t :: rest)) c (t :: rest) := by
  refine (conditionReadBack hcanon).disjunction us (t :: rest) c _ hus ?_ ?_ ?_
  · rcases ht with ht | ht <;> simp [continuesOperand, ht, Kind.isRelational, Kind.isArithmetic]
  · rcases ht with ht | ht <;> simp [ht]
  · exact (yields_disjunctionTail_of_lacks (by rcases ht with ht | ht <;> simp [ht])).2 ⟨rfl, rfl⟩

/-! ## Statements -/

theorem assignment_complete {a : Assignment} {t : Token} (hcanon : a.value.Canonical)
    (hus : us.map Token.kind = a.kinds) (ht : t.kind = .rightParen ∨ t.kind = .semicolon) :
    ∃ b, Yields (assignment finish (us ++ t :: rest)) b (t :: rest) ∧ b.bare = a.bare := by
  obtain ⟨target, us, rfl, htarget, hus⟩ := List.map_eq_cons_iff.1 hus
  obtain ⟨sign, us, rfl, hsign, hus⟩ := List.map_eq_cons_iff.1 hus
  have hend : EndsExpr (t :: rest) :=
    endsExpr_cons (by rcases ht with ht | ht <;> simp [ht, Kind.isArithmetic]) rest
  have hvalue : Yields (sum finish (us ++ t :: rest)) a.value (t :: rest) :=
    sum_complete hcanon hus hend
  refine ⟨{ target := a.target, value := a.value, pos := target.pos }, ?_, rfl⟩
  exact yields_assignment.2
    ⟨target, sign, us ++ t :: rest, a.target, a.value, rfl, htarget, hsign, hvalue, rfl⟩

theorem parenthesised_complete {c : Condition} (hcanon : c.Canonical)
    (hus : us.map Token.kind = .leftParen :: (c.kinds ++ [.rightParen])) :
    Yields (parenthesised finish (us ++ rest)) c rest := by
  obtain ⟨t, us, rfl, ht, hinside⟩ := List.map_eq_cons_iff.1 hus
  obtain ⟨vs, close, ws, rfl, hvs, hclose, hws⟩ := exists_split hinside
  obtain rfl : ws = [] := List.map_eq_nil_iff.1 hws
  have inner : Yields (disjunction finish (vs ++ [close] ++ rest)) c (close :: rest) := by
    rw [List.append_assoc]
    exact disjunction_complete hcanon hvs (.inl hclose)
  exact yields_parenthesised.2 ⟨t, _, close, rfl, ht, inner, hclose⟩

theorem forClauses_complete {init update : Assignment} {c : Condition}
    (hcanon : (Header.forDo init c update).Canonical)
    (hus : .keyword .forKw :: us.map Token.kind = (Header.forDo init c update).kinds) :
    ∃ header, Yields (forClauses finish (us ++ rest)) header rest ∧
      header.bare = (Header.forDo init c update).bare := by
  obtain ⟨hinit, hc, hupdate⟩ := hcanon
  obtain ⟨t, clauses, rfl, ht, hclauses⟩ := List.map_eq_cons_iff.1 (List.cons.inj hus).2
  obtain ⟨xs, semi, clauses, rfl, hxs, hsemi, hclauses⟩ := exists_split hclauses
  obtain ⟨ys, semi', clauses, rfl, hys, hsemi', hclauses⟩ := exists_split hclauses
  obtain ⟨zs, close, clauses, rfl, hzs, hclose, hclauses⟩ := exists_split hclauses
  obtain rfl : clauses = [] := List.map_eq_nil_iff.1 hclauses
  have hthird : ∃ b, Yields (assignment finish (zs ++ close :: rest)) b (close :: rest) ∧
      b.bare = update.bare := assignment_complete hupdate hzs (.inl hclose)
  have hsecond : Yields (disjunction finish (ys ++ semi' :: (zs ++ close :: rest))) c
      (semi' :: (zs ++ close :: rest)) := disjunction_complete hc hys (.inr hsemi')
  have hfirst : ∃ b, Yields (assignment finish
      (xs ++ semi :: (ys ++ semi' :: (zs ++ close :: rest)))) b
        (semi :: (ys ++ semi' :: (zs ++ close :: rest))) ∧ b.bare = init.bare :=
    assignment_complete hinit hxs (.inr hsemi)
  obtain ⟨first, hfirst, hbare⟩ := hfirst
  obtain ⟨third, hthird, hbare'⟩ := hthird
  refine ⟨.forDo first c third, ?_, by simp [Header.bare, hbare, hbare']⟩
  have hassoc : t :: (xs ++ semi :: (ys ++ semi' :: (zs ++ [close]))) ++ rest =
      t :: (xs ++ semi :: (ys ++ semi' :: (zs ++ close :: rest))) := by simp
  rw [hassoc]
  exact yields_forClauses.2 ⟨t, _, rfl, ht, first, semi, _, hfirst, hsemi, c, semi', _, hsecond,
    hsemi', third, close, hthird, hclose, rfl⟩

/-- A statement begins with a token that neither closes a block nor begins a function. -/
theorem exists_head_of_stmt_kinds (stmt : Stmt) :
    ∃ k ks, stmt.kinds = k :: ks ∧ k ≠ .rightCurly ∧ k ≠ .keyword .fn := by
  cases stmt with
  | assign a => exact ⟨_, _, rfl, by simp, by simp⟩
  | ret value pos => exact ⟨_, _, rfl, by simp, by simp⟩
  | block header body pos => cases header <;> exact ⟨_, _, rfl, by simp, by simp⟩

/-- A block is read back if its statements are, up to the closing brace. -/
theorem block_complete {body : List Stmt}
    (hus : us.map Token.kind = .leftCurly :: (Stmt.allKinds body ++ [.rightCurly]))
    (htail : ∀ (opened : Position) (vs : List Token),
      vs.map Token.kind = Stmt.allKinds body ++ [.rightCurly] →
      ∃ read, Yields (blockTail finish opened (vs ++ rest)) read rest ∧
        Stmt.allBare read = Stmt.allBare body) :
    ∃ read, Yields (block finish (us ++ rest)) read rest ∧
      Stmt.allBare read = Stmt.allBare body := by
  obtain ⟨t, vs, rfl, ht, hvs⟩ := List.map_eq_cons_iff.1 hus
  obtain ⟨read, hread, hbare⟩ := htail t.pos vs hvs
  exact ⟨read, yields_block.2 ⟨t, vs ++ rest, rfl, ht, hread⟩, hbare⟩

mutual

/-- Canonical statements are read back, up to marks and positions. -/
theorem statement_complete {us rest : List Token} (stmt : Stmt) (hcanon : stmt.Canonical)
    (hus : us.map Token.kind = stmt.kinds) :
    ∃ read, Yields (statement finish (us ++ rest)) read rest ∧ read.bare = stmt.bare := by
  match stmt with
  | .assign a =>
    obtain ⟨xs, semi, us, rfl, hxs, hsemi, hus⟩ := exists_split hus
    obtain rfl : us = [] := List.map_eq_nil_iff.1 hus
    have ha : ∃ b, Yields (assignment finish (xs ++ semi :: rest)) b (semi :: rest) ∧
        b.bare = a.bare := assignment_complete hcanon hxs (.inr hsemi)
    obtain ⟨b, hb, hbare⟩ := ha
    obtain ⟨t, xs, rfl, ht, -⟩ := List.map_eq_cons_iff.1 hxs
    refine ⟨.assign b, ?_, by simp [Stmt.bare, hbare]⟩
    rw [List.append_assoc]
    exact (yields_statement_assign ht).2 ⟨b, semi, hb, hsemi, rfl⟩
  | .ret value pos =>
    obtain ⟨t, us, rfl, ht, hus⟩ := List.map_eq_cons_iff.1 hus
    obtain ⟨xs, semi, us, rfl, hxs, hsemi, hus⟩ := exists_split hus
    obtain rfl : us = [] := List.map_eq_nil_iff.1 hus
    have hend : EndsExpr (semi :: rest) := endsExpr_cons (by simp [hsemi, Kind.isArithmetic]) rest
    have hvalue : Yields (sum finish (xs ++ [semi] ++ rest)) value (semi :: rest) := by
      rw [List.append_assoc]
      exact sum_complete hcanon hxs hend
    exact ⟨.ret value t.pos, (yields_statement_ret ht).2 ⟨value, semi, hvalue, hsemi, rfl⟩, rfl⟩
  | .block header body pos =>
    obtain ⟨hheader, hbody⟩ := hcanon
    obtain ⟨front, us, rfl, hfront, hus⟩ := List.map_eq_append_iff.1 hus
    have hblock : ∃ read, Yields (block finish (us ++ rest)) read rest ∧
        Stmt.allBare read = Stmt.allBare body :=
      block_complete hus fun opened vs hvs => blockTail_complete opened body hbody hvs
    obtain ⟨read, hread, hbare⟩ := hblock
    rw [List.append_assoc]
    match header with
    | .ifThen c =>
      obtain ⟨t, front, rfl, ht, hfront⟩ := List.map_eq_cons_iff.1 hfront
      have hc : Yields (parenthesised finish (front ++ (us ++ rest))) c (us ++ rest) :=
        parenthesised_complete hheader hfront
      refine ⟨.block (.ifThen c) read t.pos, ?_, by simp [Stmt.bare, hbare]⟩
      exact (yields_statement_ifThen ht).2 ⟨c, _, hc, read, hread, rfl⟩
    | .whileDo c =>
      obtain ⟨t, front, rfl, ht, hfront⟩ := List.map_eq_cons_iff.1 hfront
      have hc : Yields (parenthesised finish (front ++ (us ++ rest))) c (us ++ rest) :=
        parenthesised_complete hheader hfront
      refine ⟨.block (.whileDo c) read t.pos, ?_, by simp [Stmt.bare, hbare]⟩
      exact (yields_statement_whileDo ht).2 ⟨c, _, hc, read, hread, rfl⟩
    | .forDo init c update =>
      obtain ⟨t, front, rfl, ht, hclauses⟩ := List.map_eq_cons_iff.1 hfront
      have hclauses : ∃ header, Yields (forClauses finish (front ++ (us ++ rest))) header
          (us ++ rest) ∧ header.bare = (Header.forDo init c update).bare :=
        forClauses_complete hheader (congrArg _ hclauses)
      obtain ⟨clauses, hclauses, hbare'⟩ := hclauses
      refine ⟨.block clauses read t.pos, ?_, by simp [Stmt.bare, hbare, hbare']⟩
      exact (yields_statement_forDo ht).2 ⟨clauses, _, hclauses, read, hread, rfl⟩

theorem blockTail_complete {us rest : List Token} (opened : Position) (body : List Stmt)
    (hcanon : Stmt.AllCanonical body)
    (hus : us.map Token.kind = Stmt.allKinds body ++ [.rightCurly]) :
    ∃ read, Yields (blockTail finish opened (us ++ rest)) read rest ∧
      Stmt.allBare read = Stmt.allBare body := by
  match body with
  | [] =>
    obtain ⟨t, rfl, ht⟩ := List.map_eq_singleton_iff.1 hus
    exact ⟨[], (yields_blockTail_close ht).2 ⟨rfl, rfl⟩, rfl⟩
  | stmt :: body =>
    rw [Stmt.allKinds, List.append_assoc] at hus
    obtain ⟨front, us, rfl, hfront, hus⟩ := List.map_eq_append_iff.1 hus
    have hstmt : ∃ read, Yields (statement finish (front ++ (us ++ rest))) read (us ++ rest) ∧
        read.bare = stmt.bare := statement_complete stmt hcanon.1 hfront
    have hlater : ∃ read, Yields (blockTail finish opened (us ++ rest)) read rest ∧
        Stmt.allBare read = Stmt.allBare body := blockTail_complete opened body hcanon.2 hus
    obtain ⟨first, hfirst, hbare⟩ := hstmt
    obtain ⟨later, hlater, hbare'⟩ := hlater
    obtain ⟨k, ks, hkinds, hcurly, -⟩ := exists_head_of_stmt_kinds stmt
    obtain ⟨t, front, rfl, ht, -⟩ := List.map_eq_cons_iff.1 (hfront.trans hkinds)
    refine ⟨first :: later, ?_, by simp [Stmt.allBare, hbare, hbare']⟩
    rw [List.append_assoc]
    have hopen : Lacks .rightCurly (t :: front ++ (us ++ rest)) := lacks_cons.2 (ht ▸ hcurly)
    exact (yields_blockTail_cons hopen).2 ⟨first, _, hfirst, later, hlater, rfl⟩

end

/-! ## Programs -/

theorem statements_complete {body : List Stmt} (hcanon : Stmt.AllCanonical body)
    (hus : us.map Token.kind = Stmt.allKinds body) :
    ∃ read, statements finish us = .ok read ∧ Stmt.allBare read = Stmt.allBare body := by
  induction body generalizing us with
  | nil =>
      obtain rfl : us = [] := List.map_eq_nil_iff.1 hus
      exact ⟨[], statements_nil, rfl⟩
  | cons stmt body ih =>
      obtain ⟨front, us, rfl, hfront, hus⟩ := List.map_eq_append_iff.1 hus
      have hstmt : ∃ read, Yields (statement finish (front ++ us)) read us ∧
          read.bare = stmt.bare := statement_complete stmt hcanon.1 hfront
      obtain ⟨first, hfirst, hbare⟩ := hstmt
      obtain ⟨later, hlater, hbare'⟩ := ih hcanon.2 hus
      obtain ⟨k, ks, hkinds, -, -⟩ := exists_head_of_stmt_kinds stmt
      obtain ⟨t, front, rfl, -, -⟩ := List.map_eq_cons_iff.1 (hfront.trans hkinds)
      refine ⟨first :: later, ?_, by simp [Stmt.allBare, hbare, hbare']⟩
      exact statements_eq_ok.2 ⟨first, us, hfirst, later, hlater, rfl⟩

/-- A canonical program is read back, with its name. -/
theorem program_complete {name : String} {body : List Stmt} (hcanon : Stmt.AllCanonical body)
    (h : IsProgram (us.map Token.kind) name body) :
    ∃ source, program finish us = .ok source ∧ source.name = name ∧
      Stmt.allBare source.body = Stmt.allBare body := by
  rcases h with ⟨hus, hname⟩ | ⟨hus, rfl, hhead⟩
  · obtain ⟨t, us, rfl, ht, hus⟩ := List.map_eq_cons_iff.1 hus
    obtain ⟨x, us, rfl, hx, hus⟩ := List.map_eq_cons_iff.1 hus
    obtain ⟨opening, us, rfl, hopening, hus⟩ := List.map_eq_cons_iff.1 hus
    obtain ⟨close, us, rfl, hclose, hus⟩ := List.map_eq_cons_iff.1 hus
    have hblock : ∃ read, Yields (block finish (us ++ [])) read [] ∧
        Stmt.allBare read = Stmt.allBare body :=
      block_complete hus fun opened vs hvs => blockTail_complete opened body hcanon hvs
    obtain ⟨read, hread, hbare⟩ := hblock
    rw [List.append_nil] at hread
    refine ⟨⟨name, read, t.pos⟩, (program_fn_eq_ok ht).2 (yields_function.2 ?_), rfl, hbare⟩
    exact ⟨name, _, ⟨x, hx, rfl, hname⟩, opening, _, rfl, hopening, close, us, rfl, hclose, read,
      hread, rfl⟩
  · have hbody : ∃ read, statements finish us = .ok read ∧
        Stmt.allBare read = Stmt.allBare body := statements_complete hcanon hus
    obtain ⟨read, hread, hbare⟩ := hbody
    have hbegin : Lacks (.keyword .fn) us := by
      cases us with
      | nil => exact lacks_nil _
      | cons t us => simpa using hhead
    exact ⟨_, (program_bare_eq_ok hbegin).2 ⟨read, hread, rfl⟩, rfl, hbare⟩

end Pseudocode.Grammar
