import Mathlib.Logic.Basic
import Pseudocode.Grammar.Statements
import Pseudocode.Proofs.Results

/-!
# What readers yield

A reader yields a tree and the tokens behind it. For every reader of the grammar one law says
when it does so, in terms of what the readers below it yield; the bounds that make the readers
terminate, and the wording of errors, are out of sight behind these laws.

## Main definitions

* `Yields` — an answer that is a given tree with given tokens behind it.
* `Unbound` — no operator of a given precedence stands here.
-/
namespace Pseudocode

namespace Grammar

/-- The answer is a value with the tokens behind it. -/
def Yields {α : Type} {n : Nat} (a : Answer α n) (value : α) (rest : List Token) : Prop :=
  ∃ p, a = .ok p ∧ p.value = value ∧ p.rest = rest

section Yields
variable {α β : Type} {n m : Nat} {a : Answer α n} {v : α} {w : β} {rest : List Token}

theorem Yields.shorter (h : Yields a v rest) : rest.length < n := by
  obtain ⟨p, -, -, rfl⟩ := h
  exact p.shorter

@[simp] theorem yields_ok {p : Parsed α n} :
    Yields (.ok p) v rest ↔ p.value = v ∧ p.rest = rest := by
  constructor
  · rintro ⟨q, hq, h⟩
    obtain rfl := Except.ok.inj hq
    exact h
  · intro h
    exact ⟨p, rfl, h⟩

@[simp] theorem yields_pure {p : Parsed α n} :
    Yields (pure p) v rest ↔ p.value = v ∧ p.rest = rest :=
  yields_ok

@[simp] theorem not_yields_error {e : SyntaxError} :
    ¬ Yields (.error e : Answer α n) v rest := by
  rintro ⟨p, hp, -⟩
  cases hp

/-- What a sequence of two readers yields, when the second one depends on the first through its
value and its rest only. -/
theorem yields_bind {f : Parsed α n → Answer β m} {P : α → List Token → Prop}
    (hf : ∀ p, Yields (f p) w rest ↔ P p.value p.rest) :
    Yields (a >>= f) w rest ↔ ∃ v mid, Yields a v mid ∧ P v mid := by
  cases a with
  | error e =>
      have hbind : ((Except.error e : Answer α n) >>= f) = .error e := rfl
      simp [hbind]
  | ok p =>
      have hbind : ((Except.ok p : Answer α n) >>= f) = f p := rfl
      rw [hbind, hf]
      constructor
      · intro h
        exact ⟨p.value, p.rest, by simp, h⟩
      · rintro ⟨v, mid, hp, h⟩
        obtain ⟨rfl, rfl⟩ := yields_ok.1 hp
        exact h

/-- A result that is handed on under another bound. -/
theorem yields_return {f : Parsed α n → Parsed α m}
    (hf : ∀ p, (f p).value = p.value ∧ (f p).rest = p.rest) :
    Yields (a >>= fun p => pure (f p)) v rest ↔ Yields a v rest := by
  rw [yields_bind (P := fun u mid => u = v ∧ mid = rest) fun p => by simp [hf p]]
  simp

/-- A result that is handed on with its value changed. -/
theorem yields_return_map {f : Parsed α n → Parsed β m} {g : α → β}
    (hf : ∀ p, (f p).value = g p.value ∧ (f p).rest = p.rest) :
    Yields (a >>= fun p => pure (f p)) w rest ↔ ∃ v, Yields a v rest ∧ g v = w := by
  rw [yields_bind (P := fun u mid => g u = w ∧ mid = rest) fun p => by simp [hf p]]
  constructor
  · rintro ⟨v, _, h, hv, rfl⟩
    exact ⟨v, h, hv⟩
  · rintro ⟨v, h, hv⟩
    exact ⟨v, rest, h, hv, rfl⟩

end Yields

variable {finish : Position} {ts rest : List Token}

/-- A token that is expected is the next one. -/
theorem yields_expect {kind : Kind} {expected : String} {u : Unit} :
    Yields (expect finish kind expected ts) u rest ↔ ∃ t, t.kind = kind ∧ ts = t :: rest := by
  cases ts with
  | nil => simp [expect]
  | cons t ts =>
      by_cases h : t.kind = kind
      · simp only [expect, h, if_true, yields_ok, Parsed.single, true_and, List.cons.injEq]
        constructor
        · intro hrest
          exact ⟨t, h, rfl, hrest⟩
        · rintro ⟨-, -, -, hrest⟩
          exact hrest
      · simp only [expect, h, if_false, not_yields_error, false_iff]
        rintro ⟨t', ht', heq⟩
        obtain ⟨rfl, -⟩ := List.cons.inj heq
        exact h ht'

theorem yields_expectName {expected x : String} :
    Yields (expectName finish expected ts) x rest ↔ ∃ t, t.kind = .name x ∧ ts = t :: rest := by
  constructor
  · intro h
    rw [expectName.eq_def] at h
    split at h
    · obtain ⟨rfl, rfl⟩ := yields_ok.1 h
      exact ⟨_, rfl, rfl⟩
    · exact absurd h not_yields_error
  · rintro ⟨⟨kind, lexeme, pos⟩, rfl, rfl⟩
    simp [expectName, Parsed.single]

theorem yields_bind_expect {β : Type} {m : Nat} {w : β} {kind : Kind} {expected : String}
    {f : Parsed Unit ts.length → Answer β m} {P : List Token → Prop}
    (hf : ∀ p, Yields (f p) w rest ↔ P p.rest) :
    Yields (expect finish kind expected ts >>= f) w rest ↔
      ∃ t later, ts = t :: later ∧ t.kind = kind ∧ P later := by
  rw [yields_bind (P := fun _ mid => P mid) hf]
  simp only [yields_expect]
  constructor
  · rintro ⟨-, mid, ⟨t, ht, rfl⟩, h⟩
    exact ⟨t, mid, rfl, ht, h⟩
  · rintro ⟨t, mid, rfl, ht, h⟩
    exact ⟨(), mid, ⟨t, ht, rfl⟩, h⟩

/-- A semicolon stands behind the tree. -/
theorem yields_terminated {α : Type} {p : Parsed α ts.length} {v : α} :
    Yields (terminated ts p) v rest ↔
      p.value = v ∧ ∃ t, t.kind = .semicolon ∧ p.rest = t :: rest := by
  obtain ⟨value, left, shorter⟩ := p
  rw [terminated.eq_def]
  split
  · next lexeme pos later heq =>
    simp only at heq
    subst heq
    simp only [yields_ok, List.cons.injEq]
    refine and_congr_right fun _ => ?_
    constructor
    · rintro rfl
      exact ⟨_, rfl, rfl, rfl⟩
    · rintro ⟨t, -, -, h⟩
      exact h
  · next hnot =>
    simp only [not_yields_error, false_iff, not_and, not_exists]
    rintro - ⟨kind, lexeme, pos⟩ rfl heq
    exact hnot _ _ _ heq

/-- A value and a semicolon behind it. -/
theorem yields_bind_terminated {α β : Type} {m : Nat} {a : Answer α ts.length} {w : β}
    {f : Parsed α ts.length → Answer β m} {P : α → List Token → Prop}
    (hf : ∀ p, Yields (f p) w rest ↔ P p.value p.rest) :
    Yields (do let p ← a; let p ← terminated ts p; f p) w rest ↔
      ∃ v t mid, Yields a v (t :: mid) ∧ t.kind = .semicolon ∧ P v mid := by
  have step : ∀ p : Parsed α ts.length, Yields (terminated ts p >>= f) w rest ↔
      ∃ t mid, t.kind = .semicolon ∧ p.rest = t :: mid ∧ P p.value mid := by
    intro p
    rw [yields_bind hf]
    simp only [yields_terminated]
    constructor
    · rintro ⟨_, mid, ⟨rfl, t, ht, hrest⟩, h⟩
      exact ⟨t, mid, ht, hrest, h⟩
    · rintro ⟨t, mid, ht, hrest, h⟩
      exact ⟨p.value, mid, ⟨rfl, t, ht, hrest⟩, h⟩
  rw [yields_bind (P := fun v left => ∃ t mid, t.kind = .semicolon ∧ left = t :: mid ∧ P v mid)
    step]
  constructor
  · rintro ⟨v, _, ha, t, mid, ht, rfl, h⟩
    exact ⟨v, t, mid, ha, ht, h⟩
  · rintro ⟨v, t, mid, ha, ht, h⟩
    exact ⟨v, _, ha, t, mid, ht, rfl, h⟩

/-- A value and a token behind it that closes what it stands in. -/
theorem yields_bind_close {α β : Type} {n m : Nat} {a : Answer α n} {w : β} {kind : Kind}
    {expected : String} {g : α → β} {f : (p : Parsed α n) → Parsed Unit p.rest.length → Parsed β m}
    (hf : ∀ p close, (f p close).value = g p.value ∧ (f p close).rest = close.rest) :
    Yields (do let p ← a; let close ← expect finish kind expected p.rest; pure (f p close)) w rest ↔
      ∃ v t, Yields a v (t :: rest) ∧ t.kind = kind ∧ g v = w := by
  have step : ∀ p : Parsed α n,
      Yields (expect finish kind expected p.rest >>= fun close => pure (f p close)) w rest ↔
        ∃ t, t.kind = kind ∧ p.rest = t :: rest ∧ g p.value = w := by
    intro p
    rw [yields_return_map (g := fun _ => g p.value) (hf p)]
    constructor
    · rintro ⟨u, h, hg⟩
      obtain ⟨t, ht, hrest⟩ := yields_expect.1 h
      exact ⟨t, ht, hrest, hg⟩
    · rintro ⟨t, ht, hrest, hg⟩
      exact ⟨(), yields_expect.2 ⟨t, ht, hrest⟩, hg⟩
  rw [yields_bind (P := fun v mid => ∃ t, t.kind = kind ∧ mid = t :: rest ∧ g v = w) step]
  constructor
  · rintro ⟨v, _, ha, t, ht, rfl, hg⟩
    exact ⟨v, t, ha, ht, hg⟩
  · rintro ⟨v, t, ha, ht, hg⟩
    exact ⟨v, _, ha, t, ht, rfl, hg⟩

/-! ## Expressions -/

/-- No operator of the given precedence stands here. -/
def Unbound (precedence : Nat) (ts : List Token) : Prop :=
  ∀ t ∈ ts.head?, ∀ op, t.kind = .arith op → op.precedence ≠ precedence

theorem unbound_nil (p : Nat) : Unbound p [] := by simp [Unbound]

theorem unbound_cons {p : Nat} {t : Token} :
    Unbound p (t :: ts) ↔ ∀ op, t.kind = .arith op → op.precedence ≠ p := by
  simp [Unbound]

variable {e left : Expr}

/-- A sum is a product and what follows it. -/
theorem yields_sum : Yields (sum finish ts) e rest ↔
    ∃ l mid, Yields (product finish ts) l mid ∧ Yields (sumTail finish l mid) e rest := by
  rw [sum]
  exact yields_bind fun p => yields_return fun _ => ⟨rfl, rfl⟩

/-- A product is a unary expression and what follows it. -/
theorem yields_product : Yields (product finish ts) e rest ↔
    ∃ l mid, Yields (unary finish ts) l mid ∧ Yields (productTail finish l mid) e rest := by
  rw [product]
  exact yields_bind fun p => yields_return fun _ => ⟨rfl, rfl⟩

/-- An operator of this level takes the sum so far for its left operand. -/
theorem yields_sumTail_cons {t : Token} {op : ArithOp} (ht : t.kind = .arith op)
    (hop : op.precedence = ArithOp.add.precedence) :
    Yields (sumTail finish left (t :: ts)) e rest ↔
      ∃ r mid, Yields (product finish ts) r mid ∧
        Yields (sumTail finish (.bin op left r) mid) e rest := by
  obtain ⟨kind, lexeme, pos⟩ := t
  obtain rfl : kind = .arith op := ht
  rw [sumTail, if_pos hop]
  exact yields_bind fun p => yields_return fun _ => ⟨rfl, rfl⟩

theorem yields_productTail_cons {t : Token} {op : ArithOp} (ht : t.kind = .arith op)
    (hop : op.precedence = ArithOp.mul.precedence) :
    Yields (productTail finish left (t :: ts)) e rest ↔
      ∃ r mid, Yields (unary finish ts) r mid ∧
        Yields (productTail finish (.bin op left r) mid) e rest := by
  obtain ⟨kind, lexeme, pos⟩ := t
  obtain rfl : kind = .arith op := ht
  rw [productTail, if_pos hop]
  exact yields_bind fun p => yields_return fun _ => ⟨rfl, rfl⟩

/-- In front of anything else the sum has ended. -/
theorem yields_sumTail_of_unbound (h : Unbound ArithOp.add.precedence ts) :
    Yields (sumTail finish left ts) e rest ↔ e = left ∧ rest = ts := by
  rw [sumTail.eq_def]
  split
  · next op lexeme pos later =>
    have hop : op.precedence ≠ ArithOp.add.precedence := unbound_cons.1 h op rfl
    simp [if_neg hop, Parsed.stay, eq_comm]
  · simp [Parsed.stay, eq_comm]

theorem yields_productTail_of_unbound (h : Unbound ArithOp.mul.precedence ts) :
    Yields (productTail finish left ts) e rest ↔ e = left ∧ rest = ts := by
  rw [productTail.eq_def]
  split
  · next op lexeme pos later =>
    have hop : op.precedence ≠ ArithOp.mul.precedence := unbound_cons.1 h op rfl
    simp [if_neg hop, Parsed.stay, eq_comm]
  · simp [Parsed.stay, eq_comm]

/-- Either no operator of a precedence stands here, or one does. -/
theorem unbound_or (p : Nat) (ts : List Token) :
    Unbound p ts ∨ ∃ t later op, ts = t :: later ∧ t.kind = .arith op ∧ op.precedence = p := by
  by_cases h : Unbound p ts
  · exact .inl h
  · right
    cases ts with
    | nil => exact absurd (unbound_nil p) h
    | cons t later =>
        rw [unbound_cons] at h
        simp only [not_forall, not_not] at h
        obtain ⟨op, ht, hop⟩ := h
        exact ⟨t, later, op, rfl, ht, hop⟩

/-- A minus sign negates the unary expression behind it. -/
theorem yields_unary_minus {t : Token} (ht : t.kind = .arith .sub) :
    Yields (unary finish (t :: ts)) e rest ↔
      ∃ operand, Yields (unary finish ts) operand rest ∧ .neg operand = e := by
  obtain ⟨kind, lexeme, pos⟩ := t
  obtain rfl : kind = .arith .sub := ht
  rw [unary]
  exact yields_return_map fun _ => ⟨rfl, rfl⟩

theorem yields_unary_primary (h : ∀ t ∈ ts.head?, t.kind ≠ .arith .sub) :
    Yields (unary finish ts) e rest ↔ Yields (primary finish ts) e rest := by
  rw [unary.eq_def]
  split
  · simp at h
  · rfl

theorem yields_primary_paren {t : Token} (ht : t.kind = .leftParen) :
    Yields (primary finish (t :: ts)) e rest ↔
      ∃ inner close, Yields (sum finish ts) inner (close :: rest) ∧ close.kind = .rightParen ∧
        .group inner = e := by
  obtain ⟨kind, lexeme, pos⟩ := t
  obtain rfl : kind = .leftParen := ht
  rw [primary]
  exact yields_bind_close fun _ _ => ⟨rfl, rfl⟩

/-- A primary expression is a name, a literal, or a sum in parentheses. -/
theorem yields_primary : Yields (primary finish ts) e rest ↔
    (∃ t x, t.kind = .name x ∧ ts = t :: rest ∧ .var x = e) ∨
    (∃ t value, t.kind = .literal value ∧ ts = t :: rest ∧ .lit value = e) ∨
    (∃ t later inner close, t.kind = .leftParen ∧ ts = t :: later ∧
      Yields (sum finish later) inner (close :: rest) ∧ close.kind = .rightParen ∧
      .group inner = e) := by
  constructor
  · intro h
    rw [primary.eq_def] at h
    split at h
    · obtain ⟨rfl, rfl⟩ := yields_ok.1 h
      exact .inl ⟨_, _, rfl, rfl, rfl⟩
    · obtain ⟨rfl, rfl⟩ := yields_ok.1 h
      exact .inr (.inl ⟨_, _, rfl, rfl, rfl⟩)
    · obtain ⟨inner, close, hinner, hclose, he⟩ :=
        (yields_bind_close (g := Expr.group) fun _ _ => ⟨rfl, rfl⟩).1 h
      exact .inr (.inr ⟨_, _, inner, close, rfl, rfl, hinner, hclose, he⟩)
    · exact absurd h not_yields_error
    · exact absurd h not_yields_error
  · rintro (⟨⟨kind, lexeme, pos⟩, x, rfl, rfl, rfl⟩ | ⟨⟨kind, lexeme, pos⟩, value, rfl, rfl, rfl⟩ |
      ⟨t, later, inner, close, ht, rfl, hinner, hclose, he⟩)
    · simp [primary, Parsed.single]
    · simp [primary, Parsed.single]
    · exact (yields_primary_paren ht).2 ⟨inner, close, hinner, hclose, he⟩

/-! ## Conditions -/

variable {c front : Condition}

/-- A comparison has a sum on either side. -/
theorem yields_comparison : Yields (comparison finish ts) c rest ↔
    ∃ l t mid op r, Yields (sum finish ts) l (t :: mid) ∧ t.kind = .rel op ∧
      Yields (sum finish mid) r rest ∧ .cmp op l r = c := by
  rw [comparison, yields_bind (P := fun l mid => ∃ t later op r, mid = t :: later ∧
    t.kind = .rel op ∧ Yields (sum finish later) r rest ∧ .cmp op l r = c)]
  · constructor
    · rintro ⟨l, _, hl, t, later, op, r, rfl, ht, hr, hc⟩
      exact ⟨l, t, later, op, r, hl, ht, hr, hc⟩
    · rintro ⟨l, t, later, op, r, hl, ht, hr, hc⟩
      exact ⟨l, _, hl, t, later, op, r, rfl, ht, hr, hc⟩
  · rintro ⟨l, mid, shorter⟩
    constructor
    · intro h
      split at h
      · next op lexeme pos later heq =>
        obtain ⟨r, hr, hc⟩ := (yields_return_map (g := Condition.cmp op l) fun _ => ⟨rfl, rfl⟩).1 h
        exact ⟨_, later, op, r, heq, rfl, hr, hc⟩
      · exact absurd h not_yields_error
      · exact absurd h not_yields_error
    · rintro ⟨⟨kind, lexeme, pos⟩, later, op, r, rfl, rfl, hr, hc⟩
      exact (yields_return_map (g := Condition.cmp op l) fun _ => ⟨rfl, rfl⟩).2 ⟨r, hr, hc⟩

/-- A disjunction is a conjunction and what follows it. -/
theorem yields_disjunction : Yields (disjunction finish ts) c rest ↔
    ∃ l mid, Yields (conjunction finish ts) l mid ∧
      Yields (disjunctionTail finish l mid) c rest := by
  rw [disjunction]
  exact yields_bind fun p => yields_return fun _ => ⟨rfl, rfl⟩

/-- A conjunction is a negation and what follows it. -/
theorem yields_conjunction : Yields (conjunction finish ts) c rest ↔
    ∃ l mid, Yields (negation finish ts) l mid ∧ Yields (conjunctionTail finish l mid) c rest := by
  rw [conjunction]
  exact yields_bind fun p => yields_return fun _ => ⟨rfl, rfl⟩

theorem yields_disjunctionTail_cons {t : Token} (ht : t.kind = .logic .or) :
    Yields (disjunctionTail finish front (t :: ts)) c rest ↔
      ∃ r mid, Yields (conjunction finish ts) r mid ∧
        Yields (disjunctionTail finish (.logic .or front r) mid) c rest := by
  obtain ⟨kind, lexeme, pos⟩ := t
  obtain rfl : kind = .logic .or := ht
  rw [disjunctionTail]
  exact yields_bind fun p => yields_return fun _ => ⟨rfl, rfl⟩

theorem yields_conjunctionTail_cons {t : Token} (ht : t.kind = .logic .and) :
    Yields (conjunctionTail finish front (t :: ts)) c rest ↔
      ∃ r mid, Yields (negation finish ts) r mid ∧
        Yields (conjunctionTail finish (.logic .and front r) mid) c rest := by
  obtain ⟨kind, lexeme, pos⟩ := t
  obtain rfl : kind = .logic .and := ht
  rw [conjunctionTail]
  exact yields_bind fun p => yields_return fun _ => ⟨rfl, rfl⟩

/-- No token of the given kind stands here. -/
def Lacks (kind : Kind) (ts : List Token) : Prop := ∀ t ∈ ts.head?, t.kind ≠ kind

@[simp] theorem lacks_nil (kind : Kind) : Lacks kind [] := by simp [Lacks]

@[simp] theorem lacks_cons {kind : Kind} {t : Token} : Lacks kind (t :: ts) ↔ t.kind ≠ kind := by
  simp [Lacks]

theorem lacks_or (kind : Kind) (ts : List Token) :
    Lacks kind ts ∨ ∃ t later, ts = t :: later ∧ t.kind = kind := by
  cases ts with
  | nil => exact .inl (lacks_nil kind)
  | cons t later =>
      by_cases h : t.kind = kind
      · exact .inr ⟨t, later, rfl, h⟩
      · exact .inl (lacks_cons.2 h)

theorem yields_disjunctionTail_of_lacks (h : Lacks (.logic .or) ts) :
    Yields (disjunctionTail finish front ts) c rest ↔ c = front ∧ rest = ts := by
  rw [disjunctionTail.eq_def]
  split
  · simp at h
  · simp [Parsed.stay, eq_comm]

theorem yields_conjunctionTail_of_lacks (h : Lacks (.logic .and) ts) :
    Yields (conjunctionTail finish front ts) c rest ↔ c = front ∧ rest = ts := by
  rw [conjunctionTail.eq_def]
  split
  · simp at h
  · simp [Parsed.stay, eq_comm]

theorem yields_negation_bang {t : Token} (ht : t.kind = .bang) :
    Yields (negation finish (t :: ts)) c rest ↔
      ∃ operand, Yields (negation finish ts) operand rest ∧ .not operand = c := by
  obtain ⟨kind, lexeme, pos⟩ := t
  obtain rfl : kind = .bang := ht
  rw [negation]
  exact yields_return_map fun _ => ⟨rfl, rfl⟩

/-- A condition in parentheses stands here, behind its opening parenthesis. -/
def Grouped (finish : Position) (ts : List Token) (inner : Condition) (rest : List Token) : Prop :=
  ∃ close, Yields (disjunction finish ts) inner (close :: rest) ∧ close.kind = .rightParen ∧
    continuesOperand rest = false

theorem grouped_of_group? {p : Parsed Condition ts.length} (h : group? finish ts = some p) :
    ∃ inner, Grouped finish ts inner p.rest ∧ .group inner = p.value := by
  rw [group?.eq_def] at h
  split at h
  · next inner heq =>
    obtain ⟨value, left, shorter⟩ := inner
    split at h
    · next lexeme pos later hleft =>
      simp only at hleft
      subst hleft
      split at h
      · cases h
      · next hstop =>
        obtain rfl := Option.some.inj h
        exact ⟨value, ⟨_, ⟨_, heq, rfl, rfl⟩, rfl, by simpa using hstop⟩, rfl⟩
    · cases h
  · cases h

theorem group?_of_grouped {inner : Condition} (h : Grouped finish ts inner rest) :
    ∃ p, group? finish ts = some p ∧ p.value = .group inner ∧ p.rest = rest := by
  obtain ⟨⟨kind, lexeme, pos⟩, ⟨⟨value, left, shorter⟩, heq, rfl, rfl⟩, rfl, hstop⟩ := h
  rw [group?.eq_def, heq]
  simp [hstop]

/-- A parenthesis opens a group if it can, and a comparison if it cannot. -/
theorem yields_negation_paren {t : Token} (ht : t.kind = .leftParen) :
    Yields (negation finish (t :: ts)) c rest ↔
      (∃ inner, Grouped finish ts inner rest ∧ .group inner = c) ∨
      ((∀ inner later, ¬ Grouped finish ts inner later) ∧
        Yields (comparison finish (t :: ts)) c rest) := by
  obtain ⟨kind, lexeme, pos⟩ := t
  obtain rfl : kind = .leftParen := ht
  rw [negation]
  cases hg : group? finish ts with
  | some p =>
      obtain ⟨inner, hinner, hvalue⟩ := grouped_of_group? hg
      simp only [yields_ok, Parsed.widen, ← hvalue]
      constructor
      · rintro ⟨rfl, rfl⟩
        exact .inl ⟨inner, hinner, rfl⟩
      · rintro (⟨other, hother, rfl⟩ | ⟨hnone, -⟩)
        · obtain ⟨q, hq, hv, hr⟩ := group?_of_grouped hother
          obtain rfl := Option.some.inj (hg.symm.trans hq)
          exact ⟨hvalue.trans hv, hr⟩
        · exact absurd hinner (hnone inner p.rest)
  | none =>
      have hnone : ∀ inner later, ¬ Grouped finish ts inner later := by
        intro inner later h
        obtain ⟨q, hq, -⟩ := group?_of_grouped h
        cases hg.symm.trans hq
      simp [hnone]

theorem yields_negation_comparison (hbang : Lacks .bang ts) (hparen : Lacks .leftParen ts) :
    Yields (negation finish ts) c rest ↔ Yields (comparison finish ts) c rest := by
  rw [negation.eq_def]
  split
  · simp at hbang
  · simp at hparen
  · rfl

/-! ## Statements -/

/-- An assignment is a name, the sign, and a sum. -/
theorem yields_assignment {a : Assignment} : Yields (assignment finish ts) a rest ↔
    ∃ t sign later x value, ts = t :: sign :: later ∧ t.kind = .name x ∧ sign.kind = .gets ∧
      Yields (sum finish later) value rest ∧ { target := x, value, pos := t.pos } = a := by
  rw [assignment, yields_bind (P := fun x mid => ∃ sign later value, mid = sign :: later ∧
    sign.kind = .gets ∧ Yields (sum finish later) value rest ∧
    { target := x, value, pos := here finish ts } = a)]
  · simp only [yields_expectName]
    constructor
    · rintro ⟨x, _, ⟨t, ht, rfl⟩, sign, later, value, rfl, hsign, hvalue, ha⟩
      exact ⟨t, sign, later, x, value, rfl, ht, hsign, hvalue, ha⟩
    · rintro ⟨t, sign, later, x, value, rfl, ht, hsign, hvalue, ha⟩
      exact ⟨x, _, ⟨t, ht, rfl⟩, sign, later, value, rfl, hsign, hvalue, ha⟩
  · intro p
    rw [yields_bind_expect (P := fun later => ∃ value, Yields (sum finish later) value rest ∧
      Assignment.mk p.value value false (here finish ts) = a)]
    · constructor
      · rintro ⟨sign, later, hrest, hsign, value, hvalue, ha⟩
        exact ⟨sign, later, value, hrest, hsign, hvalue, ha⟩
      · rintro ⟨sign, later, value, hrest, hsign, hvalue, ha⟩
        exact ⟨sign, later, hrest, hsign, value, hvalue, ha⟩
    · intro q
      exact yields_return_map fun _ => ⟨rfl, rfl⟩

theorem yields_parenthesised : Yields (parenthesised finish ts) c rest ↔
    ∃ t later close, ts = t :: later ∧ t.kind = .leftParen ∧
      Yields (disjunction finish later) c (close :: rest) ∧ close.kind = .rightParen := by
  rw [parenthesised, yields_bind_expect (P := fun later => ∃ inner close,
    Yields (disjunction finish later) inner (close :: rest) ∧ close.kind = .rightParen ∧
    id inner = c)]
  · constructor
    · rintro ⟨t, later, rfl, ht, _, close, hc, hclose, rfl⟩
      exact ⟨t, later, close, rfl, ht, hc, hclose⟩
    · rintro ⟨t, later, close, rfl, ht, hc, hclose⟩
      exact ⟨t, later, rfl, ht, c, close, hc, hclose, rfl⟩
  · intro p
    exact yields_bind_close fun _ _ => ⟨rfl, rfl⟩

/-- The clauses of a counting loop are two assignments with a condition between them. -/
theorem yields_forClauses {header : Header} : Yields (forClauses finish ts) header rest ↔
    ∃ t first, ts = t :: first ∧ t.kind = .leftParen ∧
      ∃ init semi second, Yields (assignment finish first) init (semi :: second) ∧
        semi.kind = .semicolon ∧
      ∃ test semi third, Yields (disjunction finish second) test (semi :: third) ∧
        semi.kind = .semicolon ∧
      ∃ update close, Yields (assignment finish third) update (close :: rest) ∧
        close.kind = .rightParen ∧ .forDo init test update = header := by
  rw [forClauses]
  refine yields_bind_expect fun opening => yields_bind_terminated fun init => ?_
  refine yields_bind_terminated (P := fun test later => ∃ update close,
    Yields (assignment finish later) update (close :: rest) ∧ close.kind = .rightParen ∧
      Header.forDo init.value test update = header) fun test => ?_
  exact yields_bind_close fun _ _ => ⟨rfl, rfl⟩

variable {stmt : Stmt} {body : List Stmt}

theorem yields_statement_assign {t : Token} {x : String} (ht : t.kind = .name x) :
    Yields (statement finish (t :: ts)) stmt rest ↔
      ∃ a semi, Yields (assignment finish (t :: ts)) a (semi :: rest) ∧ semi.kind = .semicolon ∧
        .assign a = stmt := by
  obtain ⟨kind, lexeme, pos⟩ := t
  obtain rfl : kind = .name x := ht
  rw [statement, yields_bind_terminated (P := fun a mid => Stmt.assign a = stmt ∧ mid = rest)
    fun p => by simp [Parsed.map]]
  constructor
  · rintro ⟨a, semi, _, ha, hsemi, hstmt, rfl⟩
    exact ⟨a, semi, ha, hsemi, hstmt⟩
  · rintro ⟨a, semi, ha, hsemi, hstmt⟩
    exact ⟨a, semi, rest, ha, hsemi, hstmt, rfl⟩

theorem yields_statement_ret {t : Token} (ht : t.kind = .keyword .returnKw) :
    Yields (statement finish (t :: ts)) stmt rest ↔
      ∃ value semi, Yields (sum finish ts) value (semi :: rest) ∧ semi.kind = .semicolon ∧
        .ret value t.pos = stmt := by
  obtain ⟨kind, lexeme, pos⟩ := t
  obtain rfl : kind = .keyword .returnKw := ht
  rw [statement, yields_bind_terminated (P := fun v mid => Stmt.ret v pos = stmt ∧ mid = rest)
    fun p => by simp [Parsed.map, Parsed.widen]]
  constructor
  · rintro ⟨value, semi, _, hvalue, hsemi, hstmt, rfl⟩
    exact ⟨value, semi, hvalue, hsemi, hstmt⟩
  · rintro ⟨value, semi, hvalue, hsemi, hstmt⟩
    exact ⟨value, semi, rest, hvalue, hsemi, hstmt, rfl⟩

theorem yields_statement_ifThen {t : Token} (ht : t.kind = .keyword .ifKw) :
    Yields (statement finish (t :: ts)) stmt rest ↔
      ∃ c mid, Yields (parenthesised finish ts) c mid ∧
        ∃ body, Yields (block finish mid) body rest ∧ .block (.ifThen c) body t.pos = stmt := by
  obtain ⟨kind, lexeme, pos⟩ := t
  obtain rfl : kind = .keyword .ifKw := ht
  rw [statement]
  exact yields_bind fun _ => yields_return_map fun _ => ⟨rfl, rfl⟩

theorem yields_statement_whileDo {t : Token} (ht : t.kind = .keyword .whileKw) :
    Yields (statement finish (t :: ts)) stmt rest ↔
      ∃ c mid, Yields (parenthesised finish ts) c mid ∧
        ∃ body, Yields (block finish mid) body rest ∧ .block (.whileDo c) body t.pos = stmt := by
  obtain ⟨kind, lexeme, pos⟩ := t
  obtain rfl : kind = .keyword .whileKw := ht
  rw [statement]
  exact yields_bind fun _ => yields_return_map fun _ => ⟨rfl, rfl⟩

theorem yields_statement_forDo {t : Token} (ht : t.kind = .keyword .forKw) :
    Yields (statement finish (t :: ts)) stmt rest ↔
      ∃ header mid, Yields (forClauses finish ts) header mid ∧
        ∃ body, Yields (block finish mid) body rest ∧ .block header body t.pos = stmt := by
  obtain ⟨kind, lexeme, pos⟩ := t
  obtain rfl : kind = .keyword .forKw := ht
  rw [statement]
  exact yields_bind fun _ => yields_return_map fun _ => ⟨rfl, rfl⟩

/-- A statement begins with a name or with one of four keywords. -/
theorem exists_head_of_yields_statement (h : Yields (statement finish ts) stmt rest) :
    ∃ t later, ts = t :: later ∧ ((∃ x, t.kind = .name x) ∨ t.kind = .keyword .returnKw ∨
      t.kind = .keyword .ifKw ∨ t.kind = .keyword .whileKw ∨ t.kind = .keyword .forKw) := by
  rw [statement.eq_def] at h
  split at h
  · exact ⟨_, _, rfl, .inl ⟨_, rfl⟩⟩
  · exact ⟨_, _, rfl, .inr (.inl rfl)⟩
  · exact ⟨_, _, rfl, .inr (.inr (.inl rfl))⟩
  · exact ⟨_, _, rfl, .inr (.inr (.inr (.inl rfl)))⟩
  · exact ⟨_, _, rfl, .inr (.inr (.inr (.inr rfl)))⟩
  · exact absurd h not_yields_error

/-- A block is opened by a brace, and its position is that of the brace. -/
theorem yields_block : Yields (block finish ts) body rest ↔
    ∃ t later, ts = t :: later ∧ t.kind = .leftCurly ∧
      Yields (blockTail finish (here finish ts) later) body rest := by
  rw [block]
  exact yields_bind_expect fun _ => yields_return fun _ => ⟨rfl, rfl⟩

variable {opened : Position}

theorem yields_blockTail_close {t : Token} (ht : t.kind = .rightCurly) :
    Yields (blockTail finish opened (t :: ts)) body rest ↔ body = [] ∧ rest = ts := by
  obtain ⟨kind, lexeme, pos⟩ := t
  obtain rfl : kind = .rightCurly := ht
  rw [blockTail]
  simp [Parsed.single, eq_comm]

/-- In front of anything but a closing brace a block goes on with a statement. -/
theorem yields_blockTail_cons (h : Lacks .rightCurly ts) :
    Yields (blockTail finish opened ts) body rest ↔
      ∃ stmt mid, Yields (statement finish ts) stmt mid ∧
        ∃ later, Yields (blockTail finish opened mid) later rest ∧ stmt :: later = body := by
  rw [blockTail.eq_def]
  split
  · simp only [not_yields_error, false_iff]
    rintro ⟨stmt, mid, hstmt, -⟩
    exact absurd hstmt.shorter (Nat.not_lt_zero _)
  · simp at h
  · exact yields_bind fun _ => yields_return_map fun _ => ⟨rfl, rfl⟩

theorem statements_nil : statements finish [] = .ok [] := by
  rw [statements]

/-- A body without braces goes on up to the end. -/
theorem statements_eq_ok {t : Token} :
    statements finish (t :: ts) = .ok body ↔
      ∃ stmt mid, Yields (statement finish (t :: ts)) stmt mid ∧
        ∃ later, statements finish mid = .ok later ∧ stmt :: later = body := by
  rw [statements, bind_eq_ok]
  simp only [bind_eq_ok]
  constructor
  · rintro ⟨p, hp, later, hlater, h⟩
    exact ⟨p.value, p.rest, ⟨p, hp, rfl, rfl⟩, later, hlater, Except.ok.inj h⟩
  · rintro ⟨_, _, ⟨p, hp, rfl, rfl⟩, later, hlater, h⟩
    exact ⟨p, hp, later, hlater, congrArg _ h⟩

/-! ## Programs -/

variable {pos : Position} {source : Source}

/-- A function has any name but the reserved one. -/
theorem yields_functionName {x : String} : Yields (functionName finish pos ts) x rest ↔
    ∃ t, t.kind = .name x ∧ ts = t :: rest ∧ x ≠ reservedName := by
  rw [functionName, yields_bind (P := fun y mid => y ≠ reservedName ∧ y = x ∧ mid = rest)]
  · simp only [yields_expectName]
    constructor
    · rintro ⟨y, mid, ⟨t, ht, hts⟩, hy, rfl, rfl⟩
      exact ⟨t, ht, hts, hy⟩
    · rintro ⟨t, ht, hts, hx⟩
      exact ⟨x, rest, ⟨t, ht, hts⟩, hx, rfl, rfl⟩
  · intro p
    by_cases h : p.value = reservedName <;> simp [h]

/-- A closing parenthesis is no parameter. -/
theorem yields_refuseParameter {α : Type} {m : Nat} {f : Parsed Unit ts.length → Answer α m}
    {v : α} {expected : String} {P : List Token → Prop}
    (hf : ∀ p, Yields (f p) v rest ↔ P p.rest) :
    Yields (do refuseParameter ts; let p ← expect finish .rightParen expected ts; f p) v rest ↔
      ∃ t later, ts = t :: later ∧ t.kind = .rightParen ∧ P later := by
  refine Iff.trans ?_ (yields_bind_expect hf : Yields (expect finish _ expected ts >>= f) _ _ ↔ _)
  rw [refuseParameter.eq_def]
  split
  · constructor
    · exact fun h => absurd h not_yields_error
    · intro h
      obtain ⟨t, later, hts, ht, -⟩ := (yields_bind_expect hf).1 h
      obtain ⟨rfl, -⟩ := List.cons.inj hts
      cases ht
  · rfl

/-- A function is its name, two parentheses and a block. -/
theorem yields_function : Yields (function finish pos ts) source rest ↔
    ∃ x mid, (∃ t, t.kind = .name x ∧ ts = t :: mid ∧ x ≠ reservedName) ∧
      ∃ opening later, mid = opening :: later ∧ opening.kind = .leftParen ∧
      ∃ close block', later = close :: block' ∧ close.kind = .rightParen ∧
      ∃ body, Yields (block finish block') body rest ∧ ⟨x, body, pos⟩ = source := by
  rw [function, yields_bind (P := fun x mid => ∃ opening later, mid = opening :: later ∧
    opening.kind = .leftParen ∧ ∃ close block', later = close :: block' ∧
    close.kind = .rightParen ∧ ∃ body, Yields (block finish block') body rest ∧
    ⟨x, body, pos⟩ = source)]
  · simp only [yields_functionName]
  · intro name
    refine yields_bind_expect fun opening => ?_
    refine yields_refuseParameter (P := fun later => ∃ body,
      Yields (block finish later) body rest ∧ Source.mk name.value body pos = source) fun close => ?_
    exact yields_return_map fun _ => ⟨rfl, rfl⟩

/-- A program that begins with the keyword is one function. -/
theorem program_fn_eq_ok {t : Token} (ht : t.kind = .keyword .fn) :
    program finish (t :: ts) = .ok source ↔ Yields (function finish t.pos ts) source [] := by
  obtain ⟨kind, lexeme, pos⟩ := t
  obtain rfl : kind = .keyword .fn := ht
  rw [program, bind_eq_ok]
  constructor
  · rintro ⟨p, hp, h⟩
    split at h
    · next hrest => exact ⟨p, hp, Except.ok.inj h, hrest⟩
    · cases h
  · rintro ⟨p, hp, rfl, hrest⟩
    refine ⟨p, hp, ?_⟩
    rw [hrest]
    rfl

/-- Any other program is a body with an implicit name. -/
theorem program_bare_eq_ok (h : Lacks (.keyword .fn) ts) :
    program finish ts = .ok source ↔
      ∃ body, statements finish ts = .ok body ∧
        ⟨implicitName, body, here finish ts⟩ = source := by
  rw [program.eq_def]
  split
  · simp at h
  · rw [bind_eq_ok]
    constructor
    · rintro ⟨body, hbody, h⟩
      exact ⟨body, hbody, Except.ok.inj h⟩
    · rintro ⟨body, hbody, h⟩
      exact ⟨body, hbody, congrArg _ h⟩

end Grammar

end Pseudocode
