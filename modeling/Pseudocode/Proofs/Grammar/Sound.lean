import Pseudocode.Proofs.Grammar.Linear
import Pseudocode.Proofs.Grammar.Readers

/-!
# What is read was written

Whatever a reader yields is a canonical tree, and the tokens it has read are the linear form of
that tree.
-/
namespace Pseudocode.Grammar

variable {finish : Position}

/-- No operator binds more loosely than an addition. -/
theorem le_of_mem_binding? (e : Expr) : ∀ p ∈ e.binding?, ArithOp.add.precedence ≤ p := by
  intro p hp
  cases e with
  | bin op l r =>
      obtain rfl : op.precedence = p := by simpa [Expr.binding?] using hp
      cases op <;> decide
  | _ => simp [Expr.binding?] at hp

mutual

/-- What is read as a sum is its linear form, and the tree is canonical. -/
theorem sum_sound {ts rest : List Token} {e : Expr} (h : Yields (sum finish ts) e rest) :
    ts.map Token.kind = e.kinds ++ rest.map Token.kind ∧ e.Canonical := by
  obtain ⟨l, mid, hl, he⟩ := yields_sum.1 h
  have hmid := hl.shorter
  obtain ⟨hts, hcanon, -⟩ := product_sound hl
  obtain ⟨hrest, he⟩ := sumTail_sound he hcanon
  exact ⟨hts.trans hrest, he⟩
termination_by 4 * ts.length + 3
decreasing_by all_goals omega

theorem sumTail_sound {ts rest : List Token} {e l : Expr}
    (h : Yields (sumTail finish l ts) e rest) (hl : l.Canonical) :
    l.kinds ++ ts.map Token.kind = e.kinds ++ rest.map Token.kind ∧ e.Canonical := by
  rcases unbound_or ArithOp.add.precedence ts with hstop | ⟨t, later, op, hts, ht, hop⟩
  · obtain ⟨rfl, rfl⟩ := (yields_sumTail_of_unbound hstop).1 h
    exact ⟨rfl, hl⟩
  · have hlt : later.length < ts.length := by simp [hts]
    rw [hts] at h ⊢
    obtain ⟨r, mid, hr, he⟩ := (yields_sumTail_cons ht hop).1 h
    have hmid := hr.shorter
    obtain ⟨hlater, hcanon, hbinding⟩ := product_sound hr
    have hbin : (Expr.bin op l r).Canonical := by
      refine ⟨hop ▸ le_of_mem_binding? l, fun p hp => ?_, hl, hcanon⟩
      exact Nat.lt_of_lt_of_le (hop ▸ by decide) (hbinding p hp)
    obtain ⟨hrest, he⟩ := sumTail_sound he hbin
    refine ⟨?_, he⟩
    rw [← hrest]
    simp [Expr.kinds, ht, hlater]
termination_by 4 * ts.length + 3
decreasing_by all_goals omega

/-- What is read as a product is its linear form, and its outermost operator is no addition. -/
theorem product_sound {ts rest : List Token} {e : Expr} (h : Yields (product finish ts) e rest) :
    ts.map Token.kind = e.kinds ++ rest.map Token.kind ∧ e.Canonical ∧
      ∀ p ∈ e.binding?, ArithOp.mul.precedence ≤ p := by
  obtain ⟨l, mid, hl, he⟩ := yields_product.1 h
  have hmid := hl.shorter
  obtain ⟨hts, hcanon, hbinding⟩ := unary_sound hl
  obtain ⟨hrest, he⟩ := productTail_sound he hcanon (by simp [hbinding])
  exact ⟨hts.trans hrest, he⟩
termination_by 4 * ts.length + 2
decreasing_by all_goals omega

theorem productTail_sound {ts rest : List Token} {e l : Expr}
    (h : Yields (productTail finish l ts) e rest)
    (hl : l.Canonical) (hbinding : ∀ p ∈ l.binding?, ArithOp.mul.precedence ≤ p) :
    l.kinds ++ ts.map Token.kind = e.kinds ++ rest.map Token.kind ∧ e.Canonical ∧
      ∀ p ∈ e.binding?, ArithOp.mul.precedence ≤ p := by
  rcases unbound_or ArithOp.mul.precedence ts with hstop | ⟨t, later, op, hts, ht, hop⟩
  · obtain ⟨rfl, rfl⟩ := (yields_productTail_of_unbound hstop).1 h
    exact ⟨rfl, hl, hbinding⟩
  · have hlt : later.length < ts.length := by simp [hts]
    rw [hts] at h ⊢
    obtain ⟨r, mid, hr, he⟩ := (yields_productTail_cons ht hop).1 h
    have hmid := hr.shorter
    obtain ⟨hlater, hcanon, hnone⟩ := unary_sound hr
    have hbin : (Expr.bin op l r).Canonical := ⟨hop ▸ hbinding, by simp [hnone], hl, hcanon⟩
    obtain ⟨hrest, he⟩ := productTail_sound he hbin (by simp [Expr.binding?, hop])
    refine ⟨?_, he⟩
    rw [← hrest]
    simp [Expr.kinds, ht, hlater]
termination_by 4 * ts.length + 3
decreasing_by all_goals omega

/-- A unary expression has no operator outside of parentheses. -/
theorem unary_sound {ts rest : List Token} {e : Expr} (h : Yields (unary finish ts) e rest) :
    ts.map Token.kind = e.kinds ++ rest.map Token.kind ∧ e.Canonical ∧ e.binding? = none := by
  rcases lacks_or (.arith .sub) ts with hstop | ⟨t, later, hts, ht⟩
  · exact primary_sound ((yields_unary_primary hstop).1 h)
  · have hlt : later.length < ts.length := by simp [hts]
    rw [hts] at h ⊢
    obtain ⟨operand, hoperand, rfl⟩ := (yields_unary_minus ht).1 h
    obtain ⟨hlater, hcanon, hnone⟩ := unary_sound hoperand
    exact ⟨by simp [Expr.kinds, ht, hlater], ⟨hnone, hcanon⟩, rfl⟩
termination_by 4 * ts.length + 1
decreasing_by all_goals omega

theorem primary_sound {ts rest : List Token} {e : Expr} (h : Yields (primary finish ts) e rest) :
    ts.map Token.kind = e.kinds ++ rest.map Token.kind ∧ e.Canonical ∧ e.binding? = none := by
  obtain ⟨t, x, ht, hts, rfl⟩ | ⟨t, value, ht, hts, rfl⟩ |
    ⟨t, later, inner, close, ht, hts, hinner, hclose, rfl⟩ := yields_primary.1 h
  · exact ⟨by simp [hts, Expr.kinds, ht], trivial, rfl⟩
  · exact ⟨by simp [hts, Expr.kinds, ht], trivial, rfl⟩
  · have hlt : later.length < ts.length := by simp [hts]
    obtain ⟨hlater, hcanon⟩ := sum_sound hinner
    exact ⟨by simp [hts, Expr.kinds, ht, hlater, hclose], hcanon, rfl⟩
termination_by 4 * ts.length
decreasing_by all_goals omega

end

theorem comparison_sound {ts rest : List Token} {c : Condition}
    (h : Yields (comparison finish ts) c rest) :
    ts.map Token.kind = c.kinds ++ rest.map Token.kind ∧ c.Canonical ∧ c.joint? = none := by
  obtain ⟨l, t, mid, op, r, hl, ht, hr, rfl⟩ := yields_comparison.1 h
  obtain ⟨hts, hlcanon⟩ := sum_sound hl
  obtain ⟨hmid, hrcanon⟩ := sum_sound hr
  exact ⟨by simp [hts, Condition.kinds, ht, hmid], ⟨hlcanon, hrcanon⟩, rfl⟩

mutual

/-- What is read as a condition is its linear form, and the tree is canonical. -/
theorem disjunction_sound {ts rest : List Token} {c : Condition}
    (h : Yields (disjunction finish ts) c rest) :
    ts.map Token.kind = c.kinds ++ rest.map Token.kind ∧ c.Canonical := by
  obtain ⟨l, mid, hl, hc⟩ := yields_disjunction.1 h
  have hmid := hl.shorter
  obtain ⟨hts, hcanon, -⟩ := conjunction_sound hl
  obtain ⟨hrest, hc⟩ := disjunctionTail_sound hc hcanon
  exact ⟨hts.trans hrest, hc⟩
termination_by 4 * ts.length + 3
decreasing_by all_goals omega

theorem disjunctionTail_sound {ts rest : List Token} {c front : Condition}
    (h : Yields (disjunctionTail finish front ts) c rest) (hfront : front.Canonical) :
    front.kinds ++ ts.map Token.kind = c.kinds ++ rest.map Token.kind ∧ c.Canonical := by
  rcases lacks_or (.logic .or) ts with hstop | ⟨t, later, hts, ht⟩
  · obtain ⟨rfl, rfl⟩ := (yields_disjunctionTail_of_lacks hstop).1 h
    exact ⟨rfl, hfront⟩
  · have hlt : later.length < ts.length := by simp [hts]
    rw [hts] at h ⊢
    obtain ⟨r, mid, hr, hc⟩ := (yields_disjunctionTail_cons ht).1 h
    have hmid := hr.shorter
    obtain ⟨hlater, hcanon, hor⟩ := conjunction_sound hr
    obtain ⟨hrest, hc⟩ := disjunctionTail_sound hc ⟨hor, hfront, hcanon⟩
    refine ⟨?_, hc⟩
    rw [← hrest]
    simp [Condition.kinds, ht, hlater]
termination_by 4 * ts.length + 3
decreasing_by all_goals omega

/-- What is read as a conjunction is its linear form, and its outermost connective is no
disjunction. -/
theorem conjunction_sound {ts rest : List Token} {c : Condition}
    (h : Yields (conjunction finish ts) c rest) :
    ts.map Token.kind = c.kinds ++ rest.map Token.kind ∧ c.Canonical ∧
      c.joint? ≠ some .or := by
  obtain ⟨l, mid, hl, hc⟩ := yields_conjunction.1 h
  have hmid := hl.shorter
  obtain ⟨hts, hcanon, hnone⟩ := negation_sound hl
  obtain ⟨hrest, hc⟩ := conjunctionTail_sound hc hcanon (by simp [hnone])
  exact ⟨hts.trans hrest, hc⟩
termination_by 4 * ts.length + 2
decreasing_by all_goals omega

theorem conjunctionTail_sound {ts rest : List Token} {c front : Condition}
    (h : Yields (conjunctionTail finish front ts) c rest) (hfront : front.Canonical)
    (hor : front.joint? ≠ some .or) :
    front.kinds ++ ts.map Token.kind = c.kinds ++ rest.map Token.kind ∧ c.Canonical ∧
      c.joint? ≠ some .or := by
  rcases lacks_or (.logic .and) ts with hstop | ⟨t, later, hts, ht⟩
  · obtain ⟨rfl, rfl⟩ := (yields_conjunctionTail_of_lacks hstop).1 h
    exact ⟨rfl, hfront, hor⟩
  · have hlt : later.length < ts.length := by simp [hts]
    rw [hts] at h ⊢
    obtain ⟨r, mid, hr, hc⟩ := (yields_conjunctionTail_cons ht).1 h
    have hmid := hr.shorter
    obtain ⟨hlater, hcanon, hnone⟩ := negation_sound hr
    have hand : (Condition.logic .and front r).Canonical :=
      ⟨hor, by simp [hnone], by simp [hnone], hfront, hcanon⟩
    obtain ⟨hrest, hc⟩ := conjunctionTail_sound hc hand (by simp [Condition.joint?])
    refine ⟨?_, hc⟩
    rw [← hrest]
    simp [Condition.kinds, ht, hlater]
termination_by 4 * ts.length + 3
decreasing_by all_goals omega

/-- A negation has no connective outside of parentheses. -/
theorem negation_sound {ts rest : List Token} {c : Condition}
    (h : Yields (negation finish ts) c rest) :
    ts.map Token.kind = c.kinds ++ rest.map Token.kind ∧ c.Canonical ∧ c.joint? = none := by
  rcases lacks_or .bang ts with hbang | ⟨t, later, hts, ht⟩
  · rcases lacks_or .leftParen ts with hparen | ⟨t, later, hts, ht⟩
    · exact comparison_sound ((yields_negation_comparison hbang hparen).1 h)
    · have hlt : later.length < ts.length := by simp [hts]
      rw [hts] at h ⊢
      obtain ⟨inner, ⟨close, hinner, hclose, -⟩, rfl⟩ | ⟨-, h⟩ := (yields_negation_paren ht).1 h
      · obtain ⟨hlater, hcanon⟩ := disjunction_sound hinner
        exact ⟨by simp [Condition.kinds, ht, hlater, hclose], hcanon, rfl⟩
      · exact comparison_sound h
  · have hlt : later.length < ts.length := by simp [hts]
    rw [hts] at h ⊢
    obtain ⟨operand, hoperand, rfl⟩ := (yields_negation_bang ht).1 h
    obtain ⟨hlater, hcanon, hnone⟩ := negation_sound hoperand
    exact ⟨by simp [Condition.kinds, ht, hlater], ⟨hnone, hcanon⟩, rfl⟩
termination_by 4 * ts.length + 1
decreasing_by all_goals omega

end

theorem assignment_sound {ts rest : List Token} {a : Assignment}
    (h : Yields (assignment finish ts) a rest) :
    ts.map Token.kind = a.kinds ++ rest.map Token.kind ∧ a.value.Canonical := by
  obtain ⟨t, sign, later, x, value, rfl, ht, hsign, hvalue, rfl⟩ := yields_assignment.1 h
  obtain ⟨hlater, hcanon⟩ := sum_sound hvalue
  exact ⟨by simp [Assignment.kinds, ht, hsign, hlater], hcanon⟩

theorem parenthesised_sound {ts rest : List Token} {c : Condition}
    (h : Yields (parenthesised finish ts) c rest) :
    ts.map Token.kind = .leftParen :: (c.kinds ++ .rightParen :: rest.map Token.kind) ∧
      c.Canonical := by
  obtain ⟨t, later, close, rfl, ht, hc, hclose⟩ := yields_parenthesised.1 h
  obtain ⟨hlater, hcanon⟩ := disjunction_sound hc
  exact ⟨by simp [ht, hlater, hclose], hcanon⟩

theorem forClauses_sound {ts rest : List Token} {header : Header}
    (h : Yields (forClauses finish ts) header rest) :
    .keyword .forKw :: ts.map Token.kind = header.kinds ++ rest.map Token.kind ∧
      header.Canonical := by
  obtain ⟨t, first, rfl, ht, init, semi, second, hinit, hsemi, test, semi', third, htest, hsemi',
    update, close, hupdate, hclose, rfl⟩ := yields_forClauses.1 h
  obtain ⟨hfirst, hinit⟩ := assignment_sound hinit
  obtain ⟨hsecond, htest⟩ := disjunction_sound htest
  obtain ⟨hthird, hupdate⟩ := assignment_sound hupdate
  refine ⟨?_, hinit, htest, hupdate⟩
  simp [Header.kinds, ht, hfirst, hsemi, hsecond, hsemi', hthird, hclose]

mutual

/-- What is read as a statement is its linear form, and the tree is canonical. -/
theorem statement_sound {ts rest : List Token} {stmt : Stmt}
    (h : Yields (statement finish ts) stmt rest) :
    ts.map Token.kind = stmt.kinds ++ rest.map Token.kind ∧ stmt.Canonical := by
  obtain ⟨t, later, hts, hhead⟩ := exists_head_of_yields_statement h
  have hlt : later.length < ts.length := by simp [hts]
  rw [hts] at h ⊢
  rcases hhead with ⟨x, ht⟩ | ht | ht | ht | ht
  · obtain ⟨a, semi, ha, hsemi, rfl⟩ := (yields_statement_assign ht).1 h
    obtain ⟨hread, hcanon⟩ := assignment_sound ha
    exact ⟨by simp [hread, Stmt.kinds, hsemi], hcanon⟩
  · obtain ⟨value, semi, hvalue, hsemi, rfl⟩ := (yields_statement_ret ht).1 h
    obtain ⟨hlater, hcanon⟩ := sum_sound hvalue
    exact ⟨by simp [ht, hlater, Stmt.kinds, hsemi], hcanon⟩
  · obtain ⟨c, mid, hc, body, hbody, rfl⟩ := (yields_statement_ifThen ht).1 h
    have hmid := hc.shorter
    obtain ⟨hlater, hc⟩ := parenthesised_sound hc
    obtain ⟨hread, hbody⟩ := block_sound hbody
    exact ⟨by simp [ht, hlater, hread, Stmt.kinds, Header.kinds], hc, hbody⟩
  · obtain ⟨c, mid, hc, body, hbody, rfl⟩ := (yields_statement_whileDo ht).1 h
    have hmid := hc.shorter
    obtain ⟨hlater, hc⟩ := parenthesised_sound hc
    obtain ⟨hread, hbody⟩ := block_sound hbody
    exact ⟨by simp [ht, hlater, hread, Stmt.kinds, Header.kinds], hc, hbody⟩
  · obtain ⟨header, mid, hheader, body, hbody, rfl⟩ := (yields_statement_forDo ht).1 h
    have hmid := hheader.shorter
    obtain ⟨hlater, hheader⟩ := forClauses_sound hheader
    obtain ⟨hread, hbody⟩ := block_sound hbody
    refine ⟨?_, hheader, hbody⟩
    rw [List.map_cons, ht, hlater, hread]
    simp [Stmt.kinds]
termination_by 3 * ts.length
decreasing_by all_goals omega

theorem block_sound {ts rest : List Token} {body : List Stmt}
    (h : Yields (block finish ts) body rest) :
    ts.map Token.kind =
      .leftCurly :: (Stmt.allKinds body ++ .rightCurly :: rest.map Token.kind) ∧
      Stmt.AllCanonical body := by
  obtain ⟨t, later, hts, ht, hbody⟩ := yields_block.1 h
  have hlt : later.length < ts.length := by simp [hts]
  obtain ⟨hread, hcanon⟩ := blockTail_sound hbody
  exact ⟨by simp [hts, ht, hread], hcanon⟩
termination_by 3 * ts.length + 1
decreasing_by all_goals omega

theorem blockTail_sound {opened : Position} {ts rest : List Token} {body : List Stmt}
    (h : Yields (blockTail finish opened ts) body rest) :
    ts.map Token.kind = Stmt.allKinds body ++ .rightCurly :: rest.map Token.kind ∧
      Stmt.AllCanonical body := by
  rcases lacks_or .rightCurly ts with hstop | ⟨t, later, hts, ht⟩
  · obtain ⟨stmt, mid, hstmt, later, hlater, rfl⟩ := (yields_blockTail_cons hstop).1 h
    have hmid := hstmt.shorter
    obtain ⟨hts, hstmt⟩ := statement_sound hstmt
    obtain ⟨hread, hlater⟩ := blockTail_sound hlater
    exact ⟨by simp [hts, hread, Stmt.allKinds], hstmt, hlater⟩
  · rw [hts] at h ⊢
    obtain ⟨rfl, rfl⟩ := (yields_blockTail_close ht).1 h
    exact ⟨by simp [ht, Stmt.allKinds], trivial⟩
termination_by 3 * ts.length + 2
decreasing_by all_goals omega

end

theorem statements_sound {ts : List Token} {body : List Stmt}
    (h : statements finish ts = .ok body) :
    ts.map Token.kind = Stmt.allKinds body ∧ Stmt.AllCanonical body := by
  by_cases hnil : ts = []
  · rw [hnil] at h ⊢
    obtain rfl : [] = body := Except.ok.inj (statements_nil.symm.trans h)
    exact ⟨rfl, trivial⟩
  · obtain ⟨t, later, hts⟩ := List.exists_cons_of_ne_nil hnil
    rw [hts] at h
    obtain ⟨stmt, mid, hstmt, rest, hrest, rfl⟩ := statements_eq_ok.1 h
    rw [← hts] at hstmt
    have hmid := hstmt.shorter
    obtain ⟨hread, hstmt⟩ := statement_sound hstmt
    obtain ⟨hlater, hrest⟩ := statements_sound hrest
    exact ⟨by rw [hread, hlater, Stmt.allKinds], hstmt, hrest⟩
termination_by ts.length
decreasing_by exact hmid

/-- What is read as a program is one, and its body is canonical. -/
theorem program_sound {ts : List Token} {source : Source} (h : program finish ts = .ok source) :
    IsProgram (ts.map Token.kind) source.name source.body ∧ Stmt.AllCanonical source.body := by
  rcases lacks_or (.keyword .fn) ts with hbare | ⟨t, later, rfl, ht⟩
  · obtain ⟨body, hbody, rfl⟩ := (program_bare_eq_ok hbare).1 h
    obtain ⟨hread, hcanon⟩ := statements_sound hbody
    refine ⟨.inr ⟨hread, rfl, ?_⟩, hcanon⟩
    cases ts with
    | nil => simp
    | cons t later => simpa using hbare
  · obtain ⟨x, _, ⟨name, hname, rfl, hx⟩, opening, _, rfl, hopening, close, block, rfl, hclose,
      body, hbody, rfl⟩ := yields_function.1 ((program_fn_eq_ok ht).1 h)
    obtain ⟨hread, hcanon⟩ := block_sound hbody
    refine ⟨.inl ⟨?_, hx⟩, hcanon⟩
    simp [ht, hname, hopening, hclose, hread]

end Pseudocode.Grammar
