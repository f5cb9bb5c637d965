import Pseudocode.Proofs.Layout.Unplaced
import Mathlib.Data.List.Forall2

/-!
# Readers look at kinds only

Two rows of tokens with the same kinds are read side by side. At every reader the two runs stay in
step: both go on with trees that differ in positions only and with rows that have the same kinds
again, or both stop with the same fault at tokens with the same index. Choices are made by kinds,
so this holds of the attempt to read a condition in parentheses too, which may fail without an
error.

## Main definitions

* `Counterparts` — tokens of the same kind with the same index in two lists.
* `SameError` — one fault, reported at counterparts.
* `Alike` — results that agree, or one error in both.

## Main statements

* `Grammar.alike_sum`, `Grammar.alike_disjunction`, `Grammar.alike_statement` — expressions,
  conditions and statements are read alike.
* `Grammar.alike_program` — programs are read alike.
-/
namespace Pseudocode

/-- The fault with another lexeme in its message. -/
def SyntaxFault.quoting (lexeme : String) : SyntaxFault → SyntaxFault
  | .unexpectedToken expected _ => .unexpectedToken expected lexeme
  | .missingSemicolon _ => .missingSemicolon lexeme
  | .noPrimaryExpression _ => .noPrimaryExpression lexeme
  | .missingRelationalOperator _ => .missingRelationalOperator lexeme
  | .parametersNotSupported _ => .parametersNotSupported lexeme
  | .unclosedBlock => .unclosedBlock
  | .trailingInput _ => .trailingInput lexeme
  | .reservedName name => .reservedName name
  | .unexpectedEnd => .unexpectedEnd

/-- The error of a fault that is reported at a token. -/
def SyntaxFault.reportedAt (fault : SyntaxFault) (t : Token) : SyntaxError :=
  ⟨fault.quoting t.lexeme, t.pos⟩

/-- Tokens of the same kind that have the same index in two lists. -/
structure Counterparts (left right : List Token) (t u : Token) : Prop where
  kind : t.kind = u.kind
  index : ∃ i : Nat, left[i]? = some t ∧ right[i]? = some u

/-- Counterparts have one kind between them. -/
theorem Counterparts.exists_kind {left right : List Token} {t u : Token}
    (h : Counterparts left right t u) :
    ∃ kind lexeme lexeme' pos pos', t = ⟨kind, lexeme, pos⟩ ∧ u = ⟨kind, lexeme', pos'⟩ :=
  ⟨u.kind, t.lexeme, u.lexeme, t.pos, u.pos, by rw [← h.kind], rfl⟩

/-- Rows of counterparts. -/
abbrev SameRow (left right : List Token) : List Token → List Token → Prop :=
  List.Forall₂ (Counterparts left right)

/-- Errors of the same fault, reported at counterparts. -/
inductive SameError (left right : List Token) : SyntaxError → SyntaxError → Prop where
  | report {t u : Token} (fault : SyntaxFault) (at_token : Counterparts left right t u) :
      SameError left right (fault.reportedAt t) (fault.reportedAt u)

/-- The positions of counterparts. -/
def SamePlace (left right : List Token) (p q : Position) : Prop :=
  ∃ t u, Counterparts left right t u ∧ t.pos = p ∧ u.pos = q

/-- Results that agree, or the same error in both. -/
inductive Alike (left right : List Token) {α β : Type} (R : α → β → Prop) :
    Except SyntaxError α → Except SyntaxError β → Prop where
  | ok {a : α} {b : β} (same : R a b) : Alike left right R (.ok a) (.ok b)
  | error {e e' : SyntaxError} (same : SameError left right e e') :
      Alike left right R (.error e) (.error e')

/-- Readers in a row are alike if each of them is. -/
theorem Alike.bind {left right : List Token} {α β γ δ : Type} {R : α → β → Prop} {T : γ → δ → Prop}
    {x : Except SyntaxError α} {y : Except SyntaxError β} {f : α → Except SyntaxError γ}
    {g : β → Except SyntaxError δ} (h : Alike left right R x y)
    (hfg : ∀ a b, R a b → Alike left right T (f a) (g b)) :
    Alike left right T (x >>= f) (y >>= g) := by
  cases h with
  | ok same => exact hfg _ _ same
  | error same => exact .error same

theorem Alike.map {left right : List Token} {α β γ δ : Type} {R : α → β → Prop} {T : γ → δ → Prop}
    {x : Except SyntaxError α} {y : Except SyntaxError β} {f : α → γ} {g : β → δ}
    (h : Alike left right R x y) (hfg : ∀ a b, R a b → T (f a) (g b)) :
    Alike left right T (x.map f) (y.map g) := by
  cases h with
  | ok same => exact .ok (hfg _ _ same)
  | error same => exact .error same

namespace Grammar

/-- Values that agree, and counterparts behind them. -/
structure SameParsed (left right : List Token) {α : Type} (S : α → α → Prop) {n m : Nat}
    (p : Parsed α n) (q : Parsed α m) : Prop where
  value : S p.value q.value
  rest : SameRow left right p.rest q.rest

variable {left right ts us : List Token} {finish finish' : Position}

/-- A fault that quotes no lexeme, reported at the positions of counterparts. -/
theorem sameError_of_samePlace (fault : SyntaxFault)
    (hfault : ∀ lexeme, fault.quoting lexeme = fault) {p q : Position}
    (h : SamePlace left right p q) : SameError left right ⟨fault, p⟩ ⟨fault, q⟩ := by
  obtain ⟨t, u, hsame, rfl, rfl⟩ := h
  have hreport := SameError.report fault hsame
  rwa [SyntaxFault.reportedAt, SyntaxFault.reportedAt, hfault, hfault] at hreport

/-- Rows of counterparts begin at the same place. -/
theorem samePlace_here (hfinish : SamePlace left right finish finish')
    (h : SameRow left right ts us) :
    SamePlace left right (here finish ts) (here finish' us) := by
  cases h with
  | nil => exact hfinish
  | cons hsame _ => exact ⟨_, _, hsame, rfl, rfl⟩

/-- Errors at the front of such rows are the same error. -/
theorem sameError_unexpected (hfinish : SamePlace left right finish finish') (expected : String)
    (h : SameRow left right ts us) :
    SameError left right (unexpected finish expected ts) (unexpected finish' expected us) := by
  cases h with
  | nil => exact sameError_of_samePlace .unexpectedEnd (fun _ => rfl) hfinish
  | cons hsame _ => exact .report (.unexpectedToken expected "") hsame

/-- An expected token is met in both rows or in none. -/
theorem alike_expect (hfinish : SamePlace left right finish finish') (kind : Kind)
    (expected : String) (h : SameRow left right ts us) :
    Alike left right (SameParsed left right Eq) (expect finish kind expected ts)
      (expect finish' kind expected us) := by
  cases h with
  | nil => exact .error (sameError_unexpected hfinish expected .nil)
  | @cons t u ts us hsame hrest =>
      rw [expect, expect, hsame.kind]
      by_cases hkind : u.kind = kind
      · rw [if_pos hkind, if_pos hkind]
        exact .ok ⟨rfl, hrest⟩
      · rw [if_neg hkind, if_neg hkind]
        exact .error (sameError_unexpected hfinish expected (.cons hsame hrest))

theorem alike_expectName (hfinish : SamePlace left right finish finish') (expected : String)
    (h : SameRow left right ts us) :
    Alike left right (SameParsed left right Eq) (expectName finish expected ts)
      (expectName finish' expected us) := by
  have herror := sameError_unexpected hfinish expected h
  cases h with
  | nil => exact .error herror
  | @cons t u ts us hsame hrest =>
      obtain ⟨kind, lexeme, lexeme', pos, pos', rfl, rfl⟩ := hsame.exists_kind
      cases kind with
      | name x => exact .ok ⟨rfl, hrest⟩
      | _ => exact .error herror

/-- The last tokens before remainders that are counterparts are counterparts. -/
theorem counterparts_lastBefore {rest rest' : List Token}
    (h : SameRow left right ts us)
    (hrest : SameRow left right rest rest')
    (hshort : rest.length < ts.length) (hshort' : rest'.length < us.length) :
    Counterparts left right (lastBefore ts rest hshort) (lastBefore us rest' hshort') := by
  have hlast := h.get (i := ts.length - rest.length - 1) (by omega) (by rw [← h.length_eq]; omega)
  have hindex : us.length - rest'.length - 1 = ts.length - rest.length - 1 := by
    rw [h.length_eq, hrest.length_eq]
  simpa [lastBefore, hindex] using hlast

/-- A semicolon that is missed in one row is missed in the other, behind counterparts. -/
theorem alike_terminated {α : Type} {S : α → α → Prop} (h : SameRow left right ts us)
    {p : Parsed α ts.length} {q : Parsed α us.length} (hpq : SameParsed left right S p q) :
    Alike left right (SameParsed left right S) (terminated ts p) (terminated us q) := by
  have hlast := counterparts_lastBefore h hpq.rest p.shorter q.shorter
  have herror := SameError.report (.missingSemicolon "") hlast
  have hrest := hpq.rest
  rw [terminated.eq_def, terminated.eq_def]
  split
  · next lexeme pos later heq =>
    rw [heq] at hrest
    split
    · next lexeme' pos' later' heq' =>
      rw [heq'] at hrest
      cases hrest with
      | cons _ hlater => exact .ok ⟨hpq.value, hlater⟩
    · next hnot =>
      obtain ⟨u, later', hu, -, heq'⟩ := List.forall₂_cons_left_iff.1 hrest
      obtain ⟨kind, lexeme', pos'⟩ := u
      obtain rfl : Kind.semicolon = kind := hu.kind
      exact absurd heq' (hnot _ _ _)
  · next hnot =>
    split
    · next lexeme' pos' later' heq' =>
      rw [heq'] at hrest
      obtain ⟨t, later, ht, -, heq⟩ := List.forall₂_cons_right_iff.1 hrest
      obtain ⟨kind, lexeme, pos⟩ := t
      obtain rfl : kind = Kind.semicolon := ht.kind
      exact absurd heq (hnot _ _ _)
    · exact .error herror

/-! ## Expressions

The recursion is that of the readers, with the same measures. -/

mutual

theorem alike_sum {ts us : List Token} (hfinish : SamePlace left right finish finish')
    (h : SameRow left right ts us) :
    Alike left right (SameParsed left right Eq) (sum finish ts) (sum finish' us) := by
  rw [sum, sum]
  refine (alike_product hfinish h).bind fun p q hpq => ?_
  have := p.shorter
  rw [hpq.value]
  refine (alike_sumTail hfinish q.value hpq.rest).bind fun _ _ hwhole => ?_
  exact .ok ⟨hwhole.value, hwhole.rest⟩
termination_by 4 * ts.length + 3
decreasing_by all_goals omega

theorem alike_sumTail {ts us : List Token} (hfinish : SamePlace left right finish finish')
    (e : Expr) (h : SameRow left right ts us) :
    Alike left right (SameParsed left right Eq) (sumTail finish e ts) (sumTail finish' e us) := by
  cases h with
  | nil =>
      rw [sumTail.eq_def finish, sumTail.eq_def finish']
      exact .ok ⟨rfl, .nil⟩
  | @cons t u ts us hsame hrest =>
      obtain ⟨kind, lexeme, lexeme', pos, pos', rfl, rfl⟩ := hsame.exists_kind
      rw [sumTail.eq_def finish, sumTail.eq_def finish']
      cases kind with
      | arith op =>
          dsimp only
          split
          · refine (alike_product hfinish hrest).bind fun p q hpq => ?_
            have := p.shorter
            rw [hpq.value]
            refine (alike_sumTail hfinish (.bin op e q.value) hpq.rest).bind fun _ _ hwhole => ?_
            exact .ok ⟨hwhole.value, hwhole.rest⟩
          · exact .ok ⟨rfl, .cons hsame hrest⟩
      | _ => exact .ok ⟨rfl, .cons hsame hrest⟩
termination_by 4 * ts.length + 3
decreasing_by all_goals simp only [List.length_cons]; omega

theorem alike_product {ts us : List Token} (hfinish : SamePlace left right finish finish')
    (h : SameRow left right ts us) :
    Alike left right (SameParsed left right Eq) (product finish ts) (product finish' us) := by
  rw [product, product]
  refine (alike_unary hfinish h).bind fun p q hpq => ?_
  have := p.shorter
  rw [hpq.value]
  refine (alike_productTail hfinish q.value hpq.rest).bind fun _ _ hwhole => ?_
  exact .ok ⟨hwhole.value, hwhole.rest⟩
termination_by 4 * ts.length + 2
decreasing_by all_goals omega

theorem alike_productTail {ts us : List Token} (hfinish : SamePlace left right finish finish')
    (e : Expr) (h : SameRow left right ts us) :
    Alike left right (SameParsed left right Eq) (productTail finish e ts)
      (productTail finish' e us) := by
  cases h with
  | nil =>
      rw [productTail.eq_def finish, productTail.eq_def finish']
      exact .ok ⟨rfl, .nil⟩
  | @cons t u ts us hsame hrest =>
      obtain ⟨kind, lexeme, lexeme', pos, pos', rfl, rfl⟩ := hsame.exists_kind
      rw [productTail.eq_def finish, productTail.eq_def finish']
      cases kind with
      | arith op =>
          dsimp only
          split
          · refine (alike_unary hfinish hrest).bind fun p q hpq => ?_
            have := p.shorter
            rw [hpq.value]
            refine (alike_productTail hfinish (.bin op e q.value) hpq.rest).bind
              fun _ _ hwhole => ?_
            exact .ok ⟨hwhole.value, hwhole.rest⟩
          · exact .ok ⟨rfl, .cons hsame hrest⟩
      | _ => exact .ok ⟨rfl, .cons hsame hrest⟩
termination_by 4 * ts.length + 3
decreasing_by all_goals simp only [List.length_cons]; omega

theorem alike_unary {ts us : List Token} (hfinish : SamePlace left right finish finish')
    (h : SameRow left right ts us) :
    Alike left right (SameParsed left right Eq) (unary finish ts) (unary finish' us) := by
  have hprimary := alike_primary hfinish h
  cases h with
  | nil =>
      rw [unary.eq_def finish, unary.eq_def finish']
      exact hprimary
  | @cons t u ts us hsame hrest =>
      obtain ⟨kind, lexeme, lexeme', pos, pos', rfl, rfl⟩ := hsame.exists_kind
      rw [unary.eq_def finish, unary.eq_def finish']
      cases kind with
      | arith op =>
          cases op with
          | sub =>
              refine (alike_unary hfinish hrest).bind fun _ _ hoperand => ?_
              exact .ok ⟨congrArg Expr.neg hoperand.value, hoperand.rest⟩
          | _ => exact hprimary
      | _ => exact hprimary
termination_by 4 * ts.length + 1
decreasing_by
  · omega
  · simp only [List.length_cons]; omega

theorem alike_primary {ts us : List Token} (hfinish : SamePlace left right finish finish')
    (h : SameRow left right ts us) :
    Alike left right (SameParsed left right Eq) (primary finish ts) (primary finish' us) := by
  cases h with
  | nil =>
      rw [primary.eq_def finish, primary.eq_def finish']
      exact .error (sameError_of_samePlace .unexpectedEnd (fun _ => rfl) hfinish)
  | @cons t u ts us hsame hrest =>
      obtain ⟨kind, lexeme, lexeme', pos, pos', rfl, rfl⟩ := hsame.exists_kind
      rw [primary.eq_def finish, primary.eq_def finish']
      cases kind with
      | name x => exact .ok ⟨rfl, hrest⟩
      | literal value => exact .ok ⟨rfl, hrest⟩
      | leftParen =>
          refine (alike_sum hfinish hrest).bind fun p q hpq => ?_
          refine (alike_expect hfinish .rightParen _ hpq.rest).bind fun _ _ hclose => ?_
          exact .ok ⟨congrArg Expr.group hpq.value, hclose.rest⟩
      | _ => exact .error (.report (.noPrimaryExpression "") hsame)
termination_by 4 * ts.length
decreasing_by simp only [List.length_cons]; omega

end

/-! ## Conditions -/

theorem alike_comparison (hfinish : SamePlace left right finish finish')
    (h : SameRow left right ts us) :
    Alike left right (SameParsed left right Eq) (comparison finish ts) (comparison finish' us) := by
  rw [comparison, comparison]
  refine (alike_sum hfinish h).bind fun p q hpq => ?_
  obtain ⟨value, rest, shorter⟩ := p
  obtain ⟨value', rest', shorter'⟩ := q
  obtain rfl : value = value' := hpq.value
  have hrest : SameRow left right rest rest' := hpq.rest
  clear hpq
  cases hrest with
  | nil => exact .error (sameError_of_samePlace .unexpectedEnd (fun _ => rfl) hfinish)
  | @cons t u later later' hsame hlater =>
      obtain ⟨kind, lexeme, lexeme', pos, pos', rfl, rfl⟩ := hsame.exists_kind
      cases kind with
      | rel op =>
          refine (alike_sum hfinish hlater).bind fun _ _ hright => ?_
          exact .ok ⟨congrArg (Condition.cmp op value) hright.value, hright.rest⟩
      | _ => exact .error (.report (.missingRelationalOperator "") hsame)

theorem continuesOperand_eq (h : SameRow left right ts us) :
    continuesOperand ts = continuesOperand us := by
  cases h with
  | nil => rfl
  | cons hsame _ => rw [continuesOperand, continuesOperand, hsame.kind]

mutual

theorem alike_disjunction {ts us : List Token} (hfinish : SamePlace left right finish finish')
    (h : SameRow left right ts us) :
    Alike left right (SameParsed left right Eq) (disjunction finish ts)
      (disjunction finish' us) := by
  rw [disjunction, disjunction]
  refine (alike_conjunction hfinish h).bind fun p q hpq => ?_
  have := p.shorter
  rw [hpq.value]
  refine (alike_disjunctionTail hfinish q.value hpq.rest).bind fun _ _ hwhole => ?_
  exact .ok ⟨hwhole.value, hwhole.rest⟩
termination_by 4 * ts.length + 3
decreasing_by all_goals omega

theorem alike_disjunctionTail {ts us : List Token} (hfinish : SamePlace left right finish finish')
    (c : Condition) (h : SameRow left right ts us) :
    Alike left right (SameParsed left right Eq) (disjunctionTail finish c ts)
      (disjunctionTail finish' c us) := by
  cases h with
  | nil =>
      rw [disjunctionTail.eq_def finish, disjunctionTail.eq_def finish']
      exact .ok ⟨rfl, .nil⟩
  | @cons t u ts us hsame hrest =>
      obtain ⟨kind, lexeme, lexeme', pos, pos', rfl, rfl⟩ := hsame.exists_kind
      rw [disjunctionTail.eq_def finish, disjunctionTail.eq_def finish']
      cases kind with
      | logic op =>
          cases op with
          | or =>
              refine (alike_conjunction hfinish hrest).bind fun p q hpq => ?_
              have := p.shorter
              rw [hpq.value]
              refine (alike_disjunctionTail hfinish (.logic .or c q.value) hpq.rest).bind
                fun _ _ hwhole => ?_
              exact .ok ⟨hwhole.value, hwhole.rest⟩
          | and => exact .ok ⟨rfl, .cons hsame hrest⟩
      | _ => exact .ok ⟨rfl, .cons hsame hrest⟩
termination_by 4 * ts.length + 3
decreasing_by all_goals simp only [List.length_cons]; omega

theorem alike_conjunction {ts us : List Token} (hfinish : SamePlace left right finish finish')
    (h : SameRow left right ts us) :
    Alike left right (SameParsed left right Eq) (conjunction finish ts)
      (conjunction finish' us) := by
  rw [conjunction, conjunction]
  refine (alike_negation hfinish h).bind fun p q hpq => ?_
  have := p.shorter
  rw [hpq.value]
  refine (alike_conjunctionTail hfinish q.value hpq.rest).bind fun _ _ hwhole => ?_
  exact .ok ⟨hwhole.value, hwhole.rest⟩
termination_by 4 * ts.length + 2
decreasing_by all_goals omega

theorem alike_conjunctionTail {ts us : List Token} (hfinish : SamePlace left right finish finish')
    (c : Condition) (h : SameRow left right ts us) :
    Alike left right (SameParsed left right Eq) (conjunctionTail finish c ts)
      (conjunctionTail finish' c us) := by
  cases h with
  | nil =>
      rw [conjunctionTail.eq_def finish, conjunctionTail.eq_def finish']
      exact .ok ⟨rfl, .nil⟩
  | @cons t u ts us hsame hrest =>
      obtain ⟨kind, lexeme, lexeme', pos, pos', rfl, rfl⟩ := hsame.exists_kind
      rw [conjunctionTail.eq_def finish, conjunctionTail.eq_def finish']
      cases kind with
      | logic op =>
          cases op with
          | and =>
              refine (alike_negation hfinish hrest).bind fun p q hpq => ?_
              have := p.shorter
              rw [hpq.value]
              refine (alike_conjunctionTail hfinish (.logic .and c q.value) hpq.rest).bind
                fun _ _ hwhole => ?_
              exact .ok ⟨hwhole.value, hwhole.rest⟩
          | or => exact .ok ⟨rfl, .cons hsame hrest⟩
      | _ => exact .ok ⟨rfl, .cons hsame hrest⟩
termination_by 4 * ts.length + 3
decreasing_by all_goals simp only [List.length_cons]; omega

theorem alike_negation {ts us : List Token} (hfinish : SamePlace left right finish finish')
    (h : SameRow left right ts us) :
    Alike left right (SameParsed left right Eq) (negation finish ts) (negation finish' us) := by
  have hcomparison := alike_comparison hfinish h
  cases h with
  | nil =>
      rw [negation.eq_def finish, negation.eq_def finish']
      exact hcomparison
  | @cons t u ts us hsame hrest =>
      obtain ⟨kind, lexeme, lexeme', pos, pos', rfl, rfl⟩ := hsame.exists_kind
      rw [negation.eq_def finish, negation.eq_def finish']
      cases kind with
      | bang =>
          refine (alike_negation hfinish hrest).bind fun _ _ hoperand => ?_
          exact .ok ⟨congrArg Condition.not hoperand.value, hoperand.rest⟩
      | leftParen =>
          -- a group in one row is a group in the other, and so is its absence
          have hgroup := sameGroup hfinish hrest
          dsimp only
          generalize group? finish ts = group at hgroup ⊢
          generalize group? finish' us = group' at hgroup ⊢
          cases hgroup with
          | some same => exact .ok ⟨same.value, same.rest⟩
          | none => exact hcomparison
      | _ => exact hcomparison
termination_by 4 * ts.length + 1
decreasing_by all_goals simp only [List.length_cons]; omega

/-- An attempt at a group succeeds in both rows or in none. -/
theorem sameGroup {ts us : List Token} (hfinish : SamePlace left right finish finish')
    (h : SameRow left right ts us) :
    Option.Rel (SameParsed left right Eq) (group? finish ts) (group? finish' us) := by
  have hinner := alike_disjunction hfinish h
  rw [group?.eq_def finish, group?.eq_def finish']
  generalize disjunction finish ts = inner at hinner ⊢
  generalize disjunction finish' us = inner' at hinner ⊢
  cases hinner with
  | error _ => exact .none
  | @ok p q hpq =>
      obtain ⟨value, rest, shorter⟩ := p
      obtain ⟨value', rest', shorter'⟩ := q
      obtain rfl : value = value' := hpq.value
      have hrest : SameRow left right rest rest' := hpq.rest
      clear hpq
      cases hrest with
      | nil => exact .none
      | @cons t u later later' hsame hlater =>
          obtain ⟨kind, lexeme, lexeme', pos, pos', rfl, rfl⟩ := hsame.exists_kind
          cases kind with
          | rightParen =>
              dsimp only
              rw [continuesOperand_eq hlater]
              split
              · exact .none
              · exact .some ⟨rfl, hlater⟩
          | _ => exact .none
termination_by 4 * ts.length + 4
decreasing_by omega

end

/-! ## Statements -/

theorem alike_assignment (hfinish : SamePlace left right finish finish')
    (h : SameRow left right ts us) :
    Alike left right (SameParsed left right (InvImage Eq Assignment.unplaced))
      (assignment finish ts) (assignment finish' us) := by
  rw [assignment, assignment]
  refine (alike_expectName hfinish _ h).bind fun _ _ htarget => ?_
  refine (alike_expect hfinish .gets _ htarget.rest).bind fun _ _ hsign => ?_
  refine (alike_sum hfinish hsign.rest).bind fun _ _ hvalue => .ok ⟨?_, hvalue.rest⟩
  simp only [InvImage, Assignment.unplaced, htarget.value, hvalue.value]

theorem alike_parenthesised (hfinish : SamePlace left right finish finish')
    (h : SameRow left right ts us) :
    Alike left right (SameParsed left right Eq) (parenthesised finish ts)
      (parenthesised finish' us) := by
  rw [parenthesised, parenthesised]
  refine (alike_expect hfinish .leftParen _ h).bind fun _ _ hopening => ?_
  refine (alike_disjunction hfinish hopening.rest).bind fun _ _ hinner => ?_
  refine (alike_expect hfinish .rightParen _ hinner.rest).bind fun _ _ hclose => ?_
  exact .ok ⟨hinner.value, hclose.rest⟩

theorem alike_forClauses (hfinish : SamePlace left right finish finish')
    (h : SameRow left right ts us) :
    Alike left right (SameParsed left right (InvImage Eq Header.unplaced)) (forClauses finish ts)
      (forClauses finish' us) := by
  rw [forClauses, forClauses]
  refine (alike_expect hfinish .leftParen _ h).bind fun _ _ hopening => ?_
  refine (alike_assignment hfinish hopening.rest).bind fun _ _ hinit => ?_
  refine (alike_terminated hopening.rest hinit).bind fun _ _ hinit => ?_
  refine (alike_disjunction hfinish hinit.rest).bind fun _ _ htest => ?_
  refine (alike_terminated hinit.rest htest).bind fun _ _ htest => ?_
  refine (alike_assignment hfinish htest.rest).bind fun _ _ hupdate => ?_
  refine (alike_expect hfinish .rightParen _ hupdate.rest).bind fun _ _ hclose => ?_
  refine .ok ⟨?_, hclose.rest⟩
  have hinit := hinit.value
  have hupdate := hupdate.value
  simp only [InvImage] at hinit hupdate ⊢
  simp only [Header.unplaced, hinit, htest.value, hupdate]

mutual

/-- Statements are alike up to their positions. -/
theorem alike_statement {ts us : List Token} (hfinish : SamePlace left right finish finish')
    (h : SameRow left right ts us) :
    Alike left right (SameParsed left right (InvImage Eq Stmt.unplaced)) (statement finish ts)
      (statement finish' us) := by
  have hassignment := alike_assignment hfinish h
  cases h with
  | nil =>
      rw [statement.eq_def finish, statement.eq_def finish']
      exact .error (sameError_unexpected hfinish _ .nil)
  | @cons t u ts us hsame hrest =>
      obtain ⟨kind, lexeme, lexeme', pos, pos', rfl, rfl⟩ := hsame.exists_kind
      rw [statement.eq_def finish, statement.eq_def finish']
      cases kind with
      | name x =>
          refine hassignment.bind fun _ _ ha => ?_
          refine (alike_terminated (.cons hsame hrest) ha).bind fun _ _ ha => ?_
          exact .ok ⟨congrArg Stmt.assign ha.value, ha.rest⟩
      | keyword word =>
          cases word with
          | fn => exact .error (sameError_unexpected hfinish _ (.cons hsame hrest))
          | returnKw =>
              refine (alike_sum hfinish hrest).bind fun _ _ hvalue => ?_
              refine (alike_terminated hrest hvalue).bind fun _ _ hvalue => ?_
              exact .ok ⟨congrArg (Stmt.ret · .start) hvalue.value, hvalue.rest⟩
          | ifKw =>
              refine (alike_parenthesised hfinish hrest).bind fun p _ htest => ?_
              have := p.shorter
              refine (alike_block hfinish htest.rest).bind fun _ _ hbody => .ok ⟨?_, hbody.rest⟩
              exact congrArg₂ (Stmt.block · · .start) (congrArg Header.ifThen htest.value)
                hbody.value
          | whileKw =>
              refine (alike_parenthesised hfinish hrest).bind fun p _ htest => ?_
              have := p.shorter
              refine (alike_block hfinish htest.rest).bind fun _ _ hbody => .ok ⟨?_, hbody.rest⟩
              exact congrArg₂ (Stmt.block · · .start) (congrArg Header.whileDo htest.value)
                hbody.value
          | forKw =>
              refine (alike_forClauses hfinish hrest).bind fun p _ hclauses => ?_
              have := p.shorter
              refine (alike_block hfinish hclauses.rest).bind fun _ _ hbody => .ok ⟨?_, hbody.rest⟩
              exact congrArg₂ (Stmt.block · · .start) hclauses.value hbody.value
      | _ => exact .error (sameError_unexpected hfinish _ (.cons hsame hrest))
termination_by 3 * ts.length
decreasing_by all_goals simp only [List.length_cons]; omega

theorem alike_block {ts us : List Token} (hfinish : SamePlace left right finish finish')
    (h : SameRow left right ts us) :
    Alike left right (SameParsed left right (InvImage Eq Stmt.allUnplaced)) (block finish ts)
      (block finish' us) := by
  rw [block, block]
  refine (alike_expect hfinish .leftCurly _ h).bind fun p _ hopening => ?_
  have := p.shorter
  refine (alike_blockTail hfinish (samePlace_here hfinish h) hopening.rest).bind
    fun _ _ hbody => ?_
  exact .ok ⟨hbody.value, hbody.rest⟩
termination_by 3 * ts.length + 1
decreasing_by omega

theorem alike_blockTail {ts us : List Token} {opened opened' : Position}
    (hfinish : SamePlace left right finish finish') (hopened : SamePlace left right opened opened')
    (h : SameRow left right ts us) :
    Alike left right (SameParsed left right (InvImage Eq Stmt.allUnplaced))
      (blockTail finish opened ts) (blockTail finish' opened' us) := by
  have statements (h : SameRow left right ts us) :
      Alike left right (SameParsed left right (InvImage Eq Stmt.allUnplaced)) (do
        let first ← statement finish ts
        let later ← blockTail finish opened first.rest
        return (⟨first.value :: later.value, later.rest,
          Nat.lt_trans later.shorter first.shorter⟩ : Parsed (List Stmt) ts.length)) (do
        let first ← statement finish' us
        let later ← blockTail finish' opened' first.rest
        return (⟨first.value :: later.value, later.rest,
          Nat.lt_trans later.shorter first.shorter⟩ : Parsed (List Stmt) us.length)) := by
    refine (alike_statement hfinish h).bind fun p _ hfirst => ?_
    have := p.shorter
    refine (alike_blockTail hfinish hopened hfirst.rest).bind fun _ _ hlater => ?_
    exact .ok ⟨congrArg₂ List.cons hfirst.value hlater.value, hlater.rest⟩
  cases h with
  | nil =>
      rw [blockTail.eq_def finish, blockTail.eq_def finish']
      exact .error (sameError_of_samePlace .unclosedBlock (fun _ => rfl) hopened)
  | @cons t u ts us hsame hrest =>
      obtain ⟨kind, lexeme, lexeme', pos, pos', rfl, rfl⟩ := hsame.exists_kind
      rw [blockTail.eq_def finish, blockTail.eq_def finish']
      cases kind with
      | rightCurly => exact .ok ⟨rfl, hrest⟩
      | _ => exact statements (.cons hsame hrest)
termination_by 3 * ts.length + 2
decreasing_by all_goals omega

end

theorem alike_statements {ts us : List Token} (hfinish : SamePlace left right finish finish')
    (h : SameRow left right ts us) :
    Alike left right (InvImage Eq Stmt.allUnplaced) (statements finish ts)
      (statements finish' us) := by
  cases h with
  | nil =>
      rw [statements, statements]
      exact .ok rfl
  | @cons t u ts us hsame hrest =>
      rw [statements, statements]
      refine (alike_statement hfinish (.cons hsame hrest)).bind fun p _ hfirst => ?_
      have := p.shorter
      refine (alike_statements hfinish hfirst.rest).bind fun _ _ hlater => ?_
      exact .ok (congrArg₂ List.cons hfirst.value hlater)
termination_by ts.length
decreasing_by assumption

/-! ## Programs -/

theorem alike_functionName {pos pos' : Position} (hfinish : SamePlace left right finish finish')
    (hpos : SamePlace left right pos pos') (h : SameRow left right ts us) :
    Alike left right (SameParsed left right Eq) (functionName finish pos ts)
      (functionName finish' pos' us) := by
  rw [functionName, functionName]
  refine (alike_expectName hfinish _ h).bind fun p q hname => ?_
  rw [hname.value]
  split
  · exact .error (sameError_of_samePlace (.reservedName q.value) (fun _ => rfl) hpos)
  · exact .ok hname

theorem alike_refuseParameter (h : SameRow left right ts us) :
    Alike left right Eq (refuseParameter ts) (refuseParameter us) := by
  cases h with
  | nil => exact .ok rfl
  | @cons t u ts us hsame hrest =>
      obtain ⟨kind, lexeme, lexeme', pos, pos', rfl, rfl⟩ := hsame.exists_kind
      cases kind with
      | name x => exact .error (.report (.parametersNotSupported "") hsame)
      | _ => exact .ok rfl

theorem alike_function {pos pos' : Position} (hfinish : SamePlace left right finish finish')
    (hpos : SamePlace left right pos pos') (h : SameRow left right ts us) :
    Alike left right (SameParsed left right (InvImage Eq Source.unplaced))
      (function finish pos ts) (function finish' pos' us) := by
  rw [function, function]
  refine (alike_functionName hfinish hpos h).bind fun _ _ hname => ?_
  refine (alike_expect hfinish .leftParen _ hname.rest).bind fun _ _ hopening => ?_
  refine (alike_refuseParameter hopening.rest).bind fun _ _ _ => ?_
  refine (alike_expect hfinish .rightParen _ hopening.rest).bind fun _ _ hclose => ?_
  refine (alike_block hfinish hclose.rest).bind fun _ _ hbody => .ok ⟨?_, hbody.rest⟩
  exact congrArg₂ (Source.mk · · .start) hname.value hbody.value

/-- Programs whose tokens have the same kinds are read alike. -/
theorem alike_program (hfinish : SamePlace left right finish finish')
    (h : SameRow left right ts us) :
    Alike left right (InvImage Eq Source.unplaced) (program finish ts) (program finish' us) := by
  have hstatements : Alike left right (InvImage Eq Source.unplaced)
      (statements finish ts >>= fun body => pure ⟨implicitName, body, here finish ts⟩)
      (statements finish' us >>= fun body => pure ⟨implicitName, body, here finish' us⟩) := by
    refine (alike_statements hfinish h).bind fun _ _ hbody => .ok ?_
    exact congrArg (Source.mk implicitName · .start) hbody
  cases h with
  | nil => exact hstatements
  | @cons t u ts us hsame hrest =>
      obtain ⟨kind, lexeme, lexeme', pos, pos', rfl, rfl⟩ := hsame.exists_kind
      cases kind with
      | keyword word =>
          cases word with
          | fn =>
              refine (alike_function hfinish ⟨_, _, hsame, rfl, rfl⟩ hrest).bind fun p q hf => ?_
              obtain ⟨f, rest, shorter⟩ := p
              obtain ⟨g, rest', shorter'⟩ := q
              have hbehind : SameRow left right rest rest' := hf.rest
              cases hbehind with
              | nil => exact .ok hf.value
              | cons hsame _ => exact .error (.report (.trailingInput "") hsame)
          | _ => exact hstatements
      | _ => exact hstatements

end Grammar

end Pseudocode
