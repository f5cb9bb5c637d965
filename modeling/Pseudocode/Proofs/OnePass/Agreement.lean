import Pseudocode.Proofs.OnePass.Speculation
import Pseudocode.Proofs.Grammar.Complete

/-!
# One pass reads the same trees

The readers that work on a state are compared with those that work on the tokens ahead. Where the
tokens ahead of a state are `ts`, both come to the same tree and to places that have the same
tokens ahead, or both come to the same error; and the names are then those behind the reads of the
tree, from left to right.

Precedence climbing has one function where the grammar has two levels: from the least precedence on
it reads what the tails of a product and of a sum read one after the other, and from above the
precedence of additions on what the tail of a product reads.

## Main definitions

* `Faces` — the tokens ahead of a state, up to the next end token.
* `Meets`, `Agree` — an answer and an outcome that say the same.
* `Names.readAll` — reads of several names.

## Main statements

* `expression_agrees`, `condition_agrees` — expressions and conditions are read alike.
* `tryGroup_found`, `tryGroup_undone` — an attempt finds a group where one can be read, and is
  undone elsewhere.
-/
namespace Pseudocode.OnePass

variable {tape : Tape}

/-- Ahead of the state are the tokens `ts`, none of which is an end token, then the end token
`stop`, and then `later`. -/
structure Faces (s : State tape) (ts : List Token) (stop : Token) (later : List Token) : Prop where
  ahead : tape.tokens.drop s.idx = ts ++ stop :: later
  inside : ∀ t ∈ ts, t.kind ≠ .eof
  stop : stop.kind = .eof

theorem State.drop_idx (s : State tape) :
    tape.tokens.drop s.idx = s.token :: tape.tokens.drop (s.idx + 1) :=
  List.drop_eq_getElem_cons s.idx.isLt

/-- Ahead of every state there is an end token. -/
theorem exists_faces (s : State tape) : ∃ ts stop later, Faces s ts stop later := by
  by_cases hk : s.kind = .eof
  · exact ⟨[], s.token, _, s.drop_idx, by simp, hk⟩
  · have hlt := State.left_advance_lt hk
    obtain ⟨ts, stop, later, h⟩ := exists_faces s.advance
    refine ⟨s.token :: ts, stop, later, ?_, ?_, h.stop⟩
    · rw [s.drop_idx, ← State.idx_advance hk, h.ahead]
      rfl
    · intro t ht
      rcases List.mem_cons.1 ht with rfl | ht
      · exact hk
      · exact h.inside t ht
termination_by s.left

section Faces
variable {s : State tape} {ts later : List Token} {stop : Token}

theorem Faces.withNames (h : Faces s ts stop later) (names : Names) :
    Faces (s.withNames names) ts stop later :=
  ⟨h.ahead, h.inside, h.stop⟩

theorem Faces.token_of_cons {t : Token} (h : Faces s (t :: ts) stop later) : s.token = t := by
  have hahead := h.ahead
  rw [s.drop_idx] at hahead
  exact (List.cons.inj hahead).1

theorem Faces.kind_of_cons {t : Token} (h : Faces s (t :: ts) stop later) : s.kind = t.kind :=
  congrArg Token.kind h.token_of_cons

theorem Faces.token_of_nil (h : Faces s [] stop later) : s.token = stop := by
  have hahead := h.ahead
  rw [s.drop_idx] at hahead
  exact (List.cons.inj hahead).1

theorem Faces.kind_of_nil (h : Faces s [] stop later) : s.kind = .eof :=
  (congrArg Token.kind h.token_of_nil).trans h.stop

/-- A step of the reader passes the first token ahead. -/
theorem Faces.tail {t : Token} (h : Faces s (t :: ts) stop later) :
    Faces s.advance ts stop later := by
  refine ⟨?_, fun u hu => h.inside u (.tail _ hu), h.stop⟩
  have hahead := h.ahead
  rw [s.drop_idx] at hahead
  rw [State.idx_advance (h.kind_of_cons ▸ h.inside t List.mem_cons_self)]
  exact (List.cons.inj hahead).2

/-- A kind that is not the end is that of the first token ahead. -/
theorem Faces.cons_of_kind {k : Kind} (h : Faces s ts stop later) (hk : s.kind = k)
    (hne : k ≠ .eof) :
    ∃ rest, ts = ⟨k, s.token.lexeme, s.token.pos⟩ :: rest ∧ Faces s.advance rest stop later := by
  cases ts with
  | nil => exact absurd (hk.symm.trans h.kind_of_nil) hne
  | cons t rest =>
      refine ⟨rest, ?_, h.tail⟩
      rw [← hk, h.kind_of_cons, h.token_of_cons]

/-- At the end no token is ahead. -/
theorem Faces.nil_of_kind (h : Faces s ts stop later) (hk : s.kind = .eof) :
    ts = [] ∧ s.token = stop := by
  cases ts with
  | nil => exact ⟨rfl, h.token_of_nil⟩
  | cons t rest => exact absurd (h.kind_of_cons.symm.trans hk) (h.inside t List.mem_cons_self)

theorem Faces.here_eq (h : Faces s ts stop later) : Grammar.here stop.pos ts = s.token.pos := by
  by_cases hk : s.kind = .eof
  · obtain ⟨rfl, rfl⟩ := h.nil_of_kind hk
    rfl
  · obtain ⟨rest, rfl, -⟩ := h.cons_of_kind rfl hk
    rfl

/-- Both readers report the same token. -/
theorem Faces.unexpected_eq (h : Faces s ts stop later) (expected : String) :
    Grammar.unexpected stop.pos expected ts = s.unexpected expected := by
  rw [State.unexpected]
  split
  · next hk =>
    obtain ⟨rfl, rfl⟩ := h.nil_of_kind hk
    rfl
  · next hk =>
    obtain ⟨rest, rfl, -⟩ := h.cons_of_kind rfl hk
    rfl

/-- The token before a state is the last one that was read on the way to it. -/
theorem Faces.previous_eq {s' : State tape} {rest : List Token} (h : Faces s ts stop later)
    (h' : Faces s' rest stop later) (hlt : rest.length < ts.length) :
    s'.previous = Grammar.lastBefore ts rest hlt := by
  have hlength := congrArg List.length h.ahead
  have hlength' := congrArg List.length h'.ahead
  simp only [List.length_drop, List.length_append, List.length_cons] at hlength hlength'
  have hidx : (s'.idx : Nat) - 1 = s.idx + (ts.length - rest.length - 1) := by omega
  have hget : tape.tokens[(s'.idx : Nat) - 1]? = ts[ts.length - rest.length - 1]? := by
    rw [hidx, ← List.getElem?_drop, h.ahead, List.getElem?_append_left (by omega)]
  have hlast : ts[ts.length - rest.length - 1]? = some (Grammar.lastBefore ts rest hlt) :=
    List.getElem?_eq_getElem (by omega)
  have hprevious : tape.tokens[(s'.idx : Nat) - 1]? = some s'.previous :=
    List.getElem?_eq_getElem (by omega)
  rw [hlast, hprevious] at hget
  exact Option.some.inj hget

end Faces

/-! ## Answers and outcomes -/

/-- Both are values in the relation `R`, or both are the same error. -/
inductive Meets {α β : Type} (R : α → β → Prop) :
    Except SyntaxError α → Except (Stuck tape) β → Prop where
  | ok {a : α} {b : β} (related : R a b) : Meets R (.ok a) (.ok b)
  | error (e : SyntaxError) (s : State tape) : Meets R (.error e) (.error ⟨e, s⟩)

/-- Readers in a row agree if each of them does. -/
theorem Meets.bind {α β γ δ : Type} {R : α → β → Prop} {T : γ → δ → Prop}
    {x : Except SyntaxError α} {y : Except (Stuck tape) β} {f : α → Except SyntaxError γ}
    {g : β → Except (Stuck tape) δ} (h : Meets R x y)
    (hfg : ∀ a b, R a b → Meets T (f a) (g b)) : Meets T (x >>= f) (y >>= g) := by
  cases h with
  | ok related => exact hfg _ _ related
  | error e s => exact .error e s

/-- A further step on one side. -/
theorem Meets.andThen {α β δ : Type} {R : α → β → Prop} {T : α → δ → Prop}
    {x : Except SyntaxError α} {y : Except (Stuck tape) β} {g : β → Except (Stuck tape) δ}
    (h : Meets R x y) (hg : ∀ a b, R a b → Meets T (.ok a) (g b)) : Meets T x (y >>= g) := by
  cases h with
  | ok related => exact hg _ _ related
  | error e s => exact .error e s

/-- Values in the relation `R`, with the same tokens ahead. -/
structure SameEnd (stop : Token) (later : List Token) {α β : Type} {n m : Nat}
    (R : α → β → State tape → Prop) (p : Grammar.Parsed α n) (q : Moved tape β m) : Prop where
  faces : Faces q.state p.rest stop later
  same : R p.value q.value q.state

/-- An answer and an outcome that say the same. -/
abbrev Agree (stop : Token) (later : List Token) {α β : Type} {n m : Nat}
    (R : α → β → State tape → Prop) (a : Grammar.Answer α n) (o : Outcome tape β m) : Prop :=
  Meets (SameEnd stop later R) a o

section Agree
variable {α β γ δ : Type} {n m n' m' : Nat} {stop : Token} {later : List Token}
  {R : α → β → State tape → Prop} {T : γ → δ → State tape → Prop}
  {a : Grammar.Answer α n} {o : Outcome tape β m}

/-- Results that are handed on in their places. -/
theorem Meets.map {f : Grammar.Parsed α n → Grammar.Parsed γ n'}
    {g : Moved tape β m → Moved tape δ m'} (h : Agree stop later R a o)
    (hf : ∀ p, (f p).rest = p.rest) (hg : ∀ q, (g q).state = q.state)
    (hfg : ∀ p q, R p.value q.value q.state → T (f p).value (g q).value q.state) :
    Agree stop later T (a >>= fun p => pure (f p)) (o >>= fun q => pure (g q)) := by
  refine h.bind fun p q hpq => .ok ⟨?_, ?_⟩
  · rw [hf, hg]
    exact hpq.faces
  · rw [hg]
    exact hfg p q hpq.same

/-- Results under weaker bounds. -/
theorem Meets.widen {hn : n ≤ n'} {hm : m ≤ m'} (h : Agree stop later R a o) :
    Agree stop later R (a >>= fun p => pure (p.widen hn)) (o >>= fun q => pure (q.widen hm)) :=
  h.map (fun _ => rfl) (fun _ => rfl) fun _ _ same => same

/-- Where one reader yields a tree, so does the other. -/
theorem Meets.of_yields {v : α} {rest : List Token} (h : Agree stop later R a o)
    (hyields : Grammar.Yields a v rest) :
    ∃ q, o = .ok q ∧ Faces q.state rest stop later ∧ R v q.value q.state := by
  obtain ⟨p, rfl, rfl, rfl⟩ := hyields
  cases h with
  | ok related => exact ⟨_, rfl, related.faces, related.same⟩

theorem Meets.of_ok {q : Moved tape β m} (h : Agree stop later R a (.ok q)) :
    ∃ v rest, Grammar.Yields a v rest ∧ Faces q.state rest stop later ∧ R v q.value q.state := by
  cases h with
  | @ok p _ related => exact ⟨p.value, p.rest, ⟨p, rfl, rfl, rfl⟩, related.faces, related.same⟩

end Agree

section Tokens
variable {s : State tape} {ts later : List Token} {stop : Token}

/-- The same value, and the names as they were. -/
def Same {α : Type} (n : Names) (a b : α) (s : State tape) : Prop := b = a ∧ s.names = n

theorem agree_unexpected {α β : Type} {n m : Nat} {R : α → β → State tape → Prop}
    (h : Faces s ts stop later) (expected : String) :
    Agree stop later R (.error (Grammar.unexpected stop.pos expected ts) : Grammar.Answer α n)
      (s.fail (s.unexpected expected) : Outcome tape β m) := by
  rw [h.unexpected_eq]
  exact .error _ s

/-- Both readers take the same expected token. -/
theorem expect_agrees (kind : Kind) (expected : String) (hkind : kind ≠ .eof)
    (h : Faces s ts stop later) :
    Agree stop later (Same s.names) (Grammar.expect stop.pos kind expected ts)
      (expect kind expected s hkind) := by
  rw [expect]
  split
  · next hk =>
    obtain ⟨rest, rfl, hrest⟩ := h.cons_of_kind hk hkind
    rw [Grammar.expect, if_pos rfl]
    exact .ok ⟨hrest, ⟨rfl, State.names_advance s⟩⟩
  · next hk =>
    have herror : Grammar.expect stop.pos kind expected ts =
        .error (Grammar.unexpected stop.pos expected ts) := by
      by_cases heof : s.kind = .eof
      · obtain ⟨rfl, -⟩ := h.nil_of_kind heof
        rfl
      · obtain ⟨rest, rfl, -⟩ := h.cons_of_kind rfl heof
        rw [Grammar.expect, if_neg hk]
    rw [herror]
    exact agree_unexpected h expected

theorem expectName_agrees (expected : String) (h : Faces s ts stop later) :
    Agree stop later (Same s.names) (Grammar.expectName stop.pos expected ts)
      (expectName expected s) := by
  rw [expectName]
  split
  · next x hk =>
    obtain ⟨rest, rfl, hrest⟩ := h.cons_of_kind hk (by simp)
    exact .ok ⟨hrest, ⟨rfl, State.names_advance s⟩⟩
  · next hk =>
    have herror : Grammar.expectName stop.pos expected ts =
        .error (Grammar.unexpected stop.pos expected ts) := by
      by_cases heof : s.kind = .eof
      · obtain ⟨rfl, -⟩ := h.nil_of_kind heof
        rfl
      · obtain ⟨rest, rfl, -⟩ := h.cons_of_kind rfl heof
        rw [Grammar.expectName]
        intro x lexeme pos behind heq
        exact hk x (congrArg Token.kind (List.cons.inj heq).1)
    rw [herror]
    exact agree_unexpected h expected

end Tokens

/-! ## Expressions -/

/-- Reads of several names. -/
def Names.readAll (n : Names) (xs : List String) : Names := xs.foldl Names.read n

theorem Names.readAll_append (n : Names) (xs ys : List String) :
    n.readAll (xs ++ ys) = (n.readAll xs).readAll ys :=
  List.foldl_append

/-- The same value, and the names behind the reads of it. -/
structure Reads {α : Type} (reads : α → List String) (n : Names) (a b : α) (s : State tape) :
    Prop where
  value : b = a
  names : s.names = n.readAll (reads a)

/-- Reads behind a token add to those in front of it. -/
theorem Reads.behind {α : Type} {reads : α → List String} {n : Names} {front : List String}
    {a b : α} {s s' : State tape} (h : Reads reads s.advance.names a b s')
    (hn : s.names = n.readAll front) : s'.names = n.readAll (front ++ reads a) := by
  rw [h.names, State.names_advance, hn, Names.readAll_append]

section Expressions
variable {later : List Token} {stop : Token}

/-- The tails of a product and of a sum, one after the other. -/
def operators (finish : Position) (left : Expr) (ts : List Token) :
    Grammar.Answer Expr (ts.length + 1) := do
  let front ← Grammar.productTail finish left ts
  let whole ← Grammar.sumTail finish front.value front.rest
  return whole.widen front.shorter

/-- A sum is a row of operators of both levels. -/
theorem sum_eq_operators (finish : Position) (ts : List Token) :
    Grammar.sum finish ts = (do
      let first ← Grammar.unary finish ts
      let whole ← operators finish first.value first.rest
      return whole.widen first.shorter) := by
  rw [Grammar.sum, Grammar.product]
  simp only [operators, bind_assoc, pure_bind]
  rfl

/-- A multiplication is claimed by the tail of a product. -/
theorem operators_mul {finish : Position} {op : ArithOp} {lexeme : String} {pos : Position}
    {left : Expr} {ts : List Token} (hop : op.precedence = ArithOp.mul.precedence) :
    operators finish left (⟨.arith op, lexeme, pos⟩ :: ts) = (do
      let right ← Grammar.unary finish ts
      let whole ← operators finish (.bin op left right.value) right.rest
      return whole.widen (by have := right.shorter; simp only [List.length_cons]; omega)) := by
  rw [operators, Grammar.productTail, if_pos hop]
  simp only [operators, bind_assoc, pure_bind]
  rfl

/-- No operator of a product is ahead, so the product has ended. -/
theorem productTail_of_unbound {finish : Position} {left : Expr} {ts : List Token}
    (h : Grammar.Unbound ArithOp.mul.precedence ts) :
    Grammar.productTail finish left ts = .ok (.stay left ts) := by
  rw [Grammar.productTail.eq_def]
  split
  · next op lexeme pos rest =>
    rw [if_neg (Grammar.unbound_cons.1 h op rfl)]
  · rfl

theorem sumTail_of_unbound {finish : Position} {left : Expr} {ts : List Token}
    (h : Grammar.Unbound ArithOp.add.precedence ts) :
    Grammar.sumTail finish left ts = .ok (.stay left ts) := by
  rw [Grammar.sumTail.eq_def]
  split
  · next op lexeme pos rest =>
    rw [if_neg (Grammar.unbound_cons.1 h op rfl)]
  · rfl

/-- Behind a product the tail of the sum is all there is. -/
theorem operators_of_unbound {finish : Position} {left : Expr} {ts : List Token}
    (h : Grammar.Unbound ArithOp.mul.precedence ts) :
    operators finish left ts = Grammar.sumTail finish left ts := by
  rw [operators, productTail_of_unbound h]
  change (Grammar.sumTail finish left ts >>= _) = _
  cases Grammar.sumTail finish left ts <;> rfl

/-- An operator that does not bind as tightly as the token ahead is not ahead. -/
theorem Faces.unbound {s : State tape} {ts : List Token} {p : Nat} (h : Faces s ts stop later)
    (hp : s.kind.precedence ≠ p) : Grammar.Unbound p ts := by
  by_cases hk : s.kind = .eof
  · obtain ⟨rfl, -⟩ := h.nil_of_kind hk
    exact Grammar.unbound_nil p
  · obtain ⟨rest, rfl, -⟩ := h.cons_of_kind rfl hk
    rw [Grammar.unbound_cons]
    intro op hop
    have hop : s.kind = .arith op := hop
    rw [hop] at hp
    exact fun heq => hp (by simp [Kind.precedence, heq])

theorem climb_of_lt {least : Int} {left : Expr} {s : State tape}
    (h : s.kind.precedence < 0 ∨ s.kind.precedence < least) :
    climb least left s = .ok (.stay left s) := by
  rw [climb, if_pos h]

/-- Climbing takes an operator that binds tightly enough. -/
theorem climb_of_arith {op : ArithOp} {least : Int} {left : Expr} {s : State tape}
    (h : s.kind = .arith op) (hle : least ≤ op.precedence) :
    climb least left s = (do
      let right ← operand op.precedence s.advance
      let whole ← climb least (.bin op left right.value) right.state
      return whole.widen (by
        have := right.nearer
        have := State.left_advance_lt (s := s) (by simp [h])
        omega)) := by
  have hprec : s.kind.precedence = op.precedence := by rw [h]; rfl
  rw [climb, if_neg (by omega)]
  split
  · next op' h' =>
    obtain rfl : op' = op := by simpa [h] using h'.symm
    rw [hprec]
  · next hnot => exact absurd h (hnot op)

theorem exists_arith {k : Kind} (h : 0 ≤ k.precedence) : ∃ op, k = .arith op := by
  cases k with
  | arith op => exact ⟨op, rfl⟩
  | _ => exact absurd h (by decide : ¬ (0 : Int) ≤ -1)

theorem precedence_le (k : Kind) : k.precedence ≤ ArithOp.mul.precedence := by
  cases k with
  | arith op => cases op <;> decide
  | _ => exact Int.le_of_lt (by decide : (-1 : Int) < ArithOp.mul.precedence)

/-- Nothing binds more tightly than a multiplication. -/
theorem operand_mul (s : State tape) : operand ArithOp.mul.precedence s = unary s := by
  rw [operand]
  cases unary s with
  | error stuck => rfl
  | ok right => exact if_neg (not_lt.2 (precedence_le _))

/-! The recursion is that of the readers, with the same measures. -/

mutual

/-- Climbing reads what the grammar calls a sum, and the same names. -/
theorem expression_agrees {s : State tape} {ts : List Token} (h : Faces s ts stop later) :
    Agree stop later (Reads Expr.reads s.names) (Grammar.sum stop.pos ts) (expression s) := by
  rw [sum_eq_operators, expression]
  refine (unary_agrees h).bind ?_
  rintro p q ⟨faces, same⟩
  have := q.nearer
  rw [same.value]
  exact (climb_agrees s.names p.value faces same.names).widen
termination_by 4 * s.left + 2
decreasing_by all_goals omega

/-- From the least precedence on, climbing reads the tails of a product and of a sum. -/
theorem climb_agrees {s : State tape} {ts : List Token} (n : Names) (left : Expr)
    (h : Faces s ts stop later) (hn : s.names = n.readAll left.reads) :
    Agree stop later (Reads Expr.reads n) (operators stop.pos left ts) (climb 0 left s) := by
  rcases lt_or_ge s.kind.precedence 0 with hneg | hnonneg
  · have hadd : Grammar.Unbound ArithOp.add.precedence ts := h.unbound (by omega)
    have hmul : Grammar.Unbound ArithOp.mul.precedence ts := h.unbound (by omega)
    rw [operators_of_unbound hmul, sumTail_of_unbound hadd, climb_of_lt (.inl hneg)]
    exact .ok ⟨h, ⟨rfl, hn⟩⟩
  · obtain ⟨op, hk⟩ := exists_arith hnonneg
    have hlt := State.left_advance_lt (s := s) (by simp [hk])
    obtain ⟨rest, rfl, hrest⟩ := h.cons_of_kind hk (by simp)
    rw [climb_of_arith hk (by omega)]
    rcases Grammar.ArithOp.precedence_eq_or op with hop | hop
    · -- an addition: its right operand is a product, and the tail of the sum goes on behind it
      have hmul : Grammar.Unbound ArithOp.mul.precedence (⟨.arith op, _, _⟩ :: rest) :=
        h.unbound (by rw [hk, Kind.precedence, hop]; decide)
      rw [operators_of_unbound hmul, Grammar.sumTail, if_pos hop, hop]
      refine (operand_agrees hrest).bind ?_
      rintro p q ⟨faces, same, hstop⟩
      have := q.nearer
      have hright : Grammar.Unbound ArithOp.mul.precedence p.rest :=
        faces.unbound (fun heq => absurd (heq ▸ hstop) (by decide))
      rw [same.value, ← operators_of_unbound hright]
      exact (climb_agrees n (.bin op left p.value) faces (same.behind hn)).widen
    · -- a multiplication: its right operand claims nothing, and the tail of the product goes on
      rw [operators_mul hop, hop, operand_mul]
      refine (unary_agrees hrest).bind ?_
      rintro p q ⟨faces, same⟩
      have := q.nearer
      rw [same.value]
      exact (climb_agrees n (.bin op left p.value) faces (same.behind hn)).widen
termination_by 4 * s.left + 3
decreasing_by all_goals omega

/-- From above the precedence of additions on, climbing reads the tail of a product. -/
theorem climb_product_agrees {s : State tape} {ts : List Token} (n : Names) (left : Expr)
    (h : Faces s ts stop later) (hn : s.names = n.readAll left.reads) :
    Agree stop later
      (fun e e' s' => Reads Expr.reads n e e' s' ∧ s'.kind.precedence ≤ ArithOp.add.precedence)
      (Grammar.productTail stop.pos left ts) (climb (ArithOp.add.precedence + 1) left s) := by
  rcases le_or_gt s.kind.precedence ArithOp.add.precedence with hle | hgt
  · have hmul : Grammar.Unbound ArithOp.mul.precedence ts :=
      h.unbound (fun heq => absurd (heq ▸ hle) (by decide))
    rw [productTail_of_unbound hmul, climb_of_lt (.inr (by omega))]
    exact .ok ⟨h, ⟨⟨rfl, hn⟩, hle⟩⟩
  · obtain ⟨op, hk⟩ := exists_arith (Int.le_of_lt (Int.lt_of_le_of_lt (by decide) hgt))
    have hlt := State.left_advance_lt (s := s) (by simp [hk])
    obtain ⟨rest, rfl, hrest⟩ := h.cons_of_kind hk (by simp)
    have hop : op.precedence = ArithOp.mul.precedence := by
      rcases Grammar.ArithOp.precedence_eq_or op with hop | hop
      · rw [hk, Kind.precedence, hop] at hgt
        exact absurd hgt (Int.lt_irrefl _)
      · exact hop
    rw [Grammar.productTail, if_pos hop, climb_of_arith hk (by rw [hop]; decide), hop, operand_mul]
    refine (unary_agrees hrest).bind ?_
    rintro p q ⟨faces, same⟩
    have := q.nearer
    rw [same.value]
    exact (climb_product_agrees n (.bin op left p.value) faces (same.behind hn)).widen
termination_by 4 * s.left + 3
decreasing_by all_goals omega

theorem operand_agrees {s : State tape} {ts : List Token} (h : Faces s ts stop later) :
    Agree stop later
      (fun e e' s' => Reads Expr.reads s.names e e' s' ∧
        s'.kind.precedence ≤ ArithOp.add.precedence)
      (Grammar.product stop.pos ts) (operand ArithOp.add.precedence s) := by
  rw [Grammar.product, operand]
  refine (unary_agrees h).bind ?_
  rintro p q ⟨faces, same⟩
  have := q.nearer
  rw [same.value]
  split
  · exact (climb_product_agrees s.names p.value faces same.names).widen
  · next hle =>
    have hmul : Grammar.Unbound ArithOp.mul.precedence p.rest :=
      faces.unbound (fun heq => hle (heq ▸ by decide))
    rw [productTail_of_unbound hmul]
    exact .ok ⟨faces, ⟨same, not_lt.1 hle⟩⟩
termination_by 4 * s.left + 2
decreasing_by all_goals omega

theorem unary_agrees {s : State tape} {ts : List Token} (h : Faces s ts stop later) :
    Agree stop later (Reads Expr.reads s.names) (Grammar.unary stop.pos ts) (unary s) := by
  rw [unary]
  split
  · next hk =>
    have := State.left_advance_lt (s := s) (by simp [hk])
    obtain ⟨rest, rfl, hrest⟩ := h.cons_of_kind hk (by simp)
    rw [Grammar.unary]
    refine (unary_agrees hrest).map (fun _ => rfl) (fun _ => rfl) fun p q same => ?_
    rw [State.names_advance] at same
    exact ⟨congrArg Expr.neg same.value, same.names⟩
  · next hk =>
    have hprimary : Grammar.unary stop.pos ts = Grammar.primary stop.pos ts := by
      rw [Grammar.unary.eq_def]
      split
      · next lexeme pos rest => exact absurd (h.kind_of_cons) hk
      · rfl
    rw [hprimary]
    exact primary_agrees h
termination_by 4 * s.left + 1
decreasing_by all_goals omega

theorem primary_agrees {s : State tape} {ts : List Token} (h : Faces s ts stop later) :
    Agree stop later (Reads Expr.reads s.names) (Grammar.primary stop.pos ts) (primary s) := by
  rw [primary]
  split
  · next x hk =>
    obtain ⟨rest, rfl, hrest⟩ := (h.withNames (s.names.read x)).cons_of_kind hk (by simp)
    rw [Grammar.primary]
    exact .ok ⟨hrest, ⟨rfl, State.names_advance _⟩⟩
  · next value hk =>
    obtain ⟨rest, rfl, hrest⟩ := h.cons_of_kind hk (by simp)
    rw [Grammar.primary]
    exact .ok ⟨hrest, ⟨rfl, State.names_advance s⟩⟩
  · next hk =>
    have := State.left_advance_lt (s := s) (by simp [hk])
    obtain ⟨rest, rfl, hrest⟩ := h.cons_of_kind hk (by simp)
    rw [Grammar.primary]
    refine (expression_agrees hrest).bind ?_
    rintro p q ⟨faces, same⟩
    refine (expect_agrees _ _ _ faces).map (fun _ => rfl) (fun _ => rfl) fun _ r hclose => ?_
    rw [State.names_advance] at same
    exact ⟨congrArg Expr.group same.value, hclose.2.trans same.names⟩
  · next hk =>
    obtain ⟨rfl, rfl⟩ := h.nil_of_kind hk
    rw [Grammar.primary, State.unexpected, if_pos hk]
    exact .error _ s
  · next hname hliteral hparen heof =>
    obtain ⟨rest, rfl, -⟩ := h.cons_of_kind rfl heof
    rw [Grammar.primary]
    · exact .error _ s
    · exact fun x _ _ heq => hname x (congrArg Token.kind heq)
    · exact fun value _ _ heq => hliteral value (congrArg Token.kind heq)
    · exact fun _ _ heq => hparen (congrArg Token.kind heq)
termination_by 4 * s.left
decreasing_by all_goals omega

end

end Expressions

/-! ## Conditions -/

section Conditions
variable {later : List Token} {stop : Token}

theorem comparison_agrees {s : State tape} {ts : List Token} (h : Faces s ts stop later) :
    Agree stop later (Reads Condition.reads s.names) (Grammar.comparison stop.pos ts)
      (comparison s) := by
  rw [Grammar.comparison, comparison]
  refine (expression_agrees h).bind ?_
  rintro ⟨value, rest, shorter⟩ q ⟨faces, same⟩
  have faces : Faces q.state rest stop later := faces
  split
  · next op lexeme pos mid heq =>
    obtain rfl : rest = ⟨.rel op, lexeme, pos⟩ :: mid := heq
    have hk : q.state.kind = .rel op := faces.kind_of_cons
    split
    · next op' hk' =>
      obtain rfl : op' = op := by simpa [hk] using hk'.symm
      refine (expression_agrees faces.tail).map (fun _ => rfl) (fun _ => rfl) fun p r hright => ?_
      exact ⟨congrArg₂ (Condition.cmp op') same.value hright.value, hright.behind same.names⟩
    · next hk' => cases hk.symm.trans hk'
    · next hrel _ => exact absurd hk (hrel op)
  · next t mid hrel heq =>
    obtain rfl : rest = t :: mid := heq
    have hk : q.state.kind = t.kind := faces.kind_of_cons
    split
    · next op hk' => exact (hrel op t.lexeme t.pos (by rw [← hk', hk])).elim
    · next hk' => exact absurd (hk.symm.trans hk') (faces.inside t List.mem_cons_self)
    · rw [faces.token_of_cons]
      exact .error _ q.state
  · next heq =>
    obtain rfl : rest = [] := heq
    have hk : q.state.kind = .eof := faces.kind_of_nil
    split
    · next hk' => cases hk.symm.trans hk'
    · rw [State.unexpected, if_pos hk, faces.token_of_nil]
      exact .error _ q.state
    · next heof => exact absurd hk heof

/-- Whether what stands behind a parenthesis makes it an operand. -/
theorem Faces.continuesOperand_iff {s : State tape} {ts : List Token}
    (h : Faces s ts stop later) :
    Grammar.continuesOperand ts = false ↔
      s.kind.isRelational = false ∧ s.kind.precedence < 0 := by
  have harith (k : Kind) : k.isArithmetic = false ↔ k.precedence < 0 := by
    rw [← Bool.not_eq_true, Kind.isArithmetic_iff_precedence_nonneg, not_le]
  by_cases hk : s.kind = .eof
  · obtain ⟨rfl, -⟩ := h.nil_of_kind hk
    simp [Grammar.continuesOperand, hk, Kind.isRelational, Kind.precedence]
  · obtain ⟨rest, rfl, -⟩ := h.cons_of_kind rfl hk
    simp [Grammar.continuesOperand, harith]

mutual

/-- Conditions are read alike, groups included. -/
theorem condition_agrees {s : State tape} {ts : List Token} (h : Faces s ts stop later) :
    Agree stop later (Reads Condition.reads s.names) (Grammar.disjunction stop.pos ts)
      (condition s) := by
  rw [Grammar.disjunction, condition]
  refine (conjunction_agrees h).bind ?_
  rintro p q ⟨faces, same⟩
  have := q.nearer
  rw [same.value]
  exact (conditionTail_agrees s.names p.value faces same.names).widen
termination_by 4 * s.left + 3
decreasing_by all_goals omega

theorem conditionTail_agrees {s : State tape} {ts : List Token} (n : Names) (left : Condition)
    (h : Faces s ts stop later) (hn : s.names = n.readAll left.reads) :
    Agree stop later (Reads Condition.reads n) (Grammar.disjunctionTail stop.pos left ts)
      (conditionTail left s) := by
  rw [conditionTail]
  split
  · next hk =>
    have hlt := State.left_advance_lt (s := s) (by simp [hk])
    obtain ⟨rest, rfl, hrest⟩ := h.cons_of_kind hk (by simp)
    rw [Grammar.disjunctionTail]
    refine (conjunction_agrees hrest).bind ?_
    rintro p q ⟨faces, same⟩
    have := q.nearer
    rw [same.value]
    exact (conditionTail_agrees n (.logic .or left p.value) faces (same.behind hn)).widen
  · next hk =>
    rw [Grammar.disjunctionTail]
    · exact .ok ⟨h, ⟨rfl, hn⟩⟩
    · rintro _ _ _ rfl
      exact hk h.kind_of_cons
termination_by 4 * s.left + 3
decreasing_by all_goals omega

theorem conjunction_agrees {s : State tape} {ts : List Token} (h : Faces s ts stop later) :
    Agree stop later (Reads Condition.reads s.names) (Grammar.conjunction stop.pos ts)
      (conjunction s) := by
  rw [Grammar.conjunction, conjunction]
  refine (negation_agrees h).bind ?_
  rintro p q ⟨faces, same⟩
  have := q.nearer
  rw [same.value]
  exact (conjunctionTail_agrees s.names p.value faces same.names).widen
termination_by 4 * s.left + 2
decreasing_by all_goals omega

theorem conjunctionTail_agrees {s : State tape} {ts : List Token} (n : Names) (left : Condition)
    (h : Faces s ts stop later) (hn : s.names = n.readAll left.reads) :
    Agree stop later (Reads Condition.reads n) (Grammar.conjunctionTail stop.pos left ts)
      (conjunctionTail left s) := by
  rw [conjunctionTail]
  split
  · next hk =>
    have hlt := State.left_advance_lt (s := s) (by simp [hk])
    obtain ⟨rest, rfl, hrest⟩ := h.cons_of_kind hk (by simp)
    rw [Grammar.conjunctionTail]
    refine (negation_agrees hrest).bind ?_
    rintro p q ⟨faces, same⟩
    have := q.nearer
    rw [same.value]
    exact (conjunctionTail_agrees n (.logic .and left p.value) faces (same.behind hn)).widen
  · next hk =>
    rw [Grammar.conjunctionTail]
    · exact .ok ⟨h, ⟨rfl, hn⟩⟩
    · rintro _ _ _ rfl
      exact hk h.kind_of_cons
termination_by 4 * s.left + 3
decreasing_by all_goals omega

theorem negation_agrees {s : State tape} {ts : List Token} (h : Faces s ts stop later) :
    Agree stop later (Reads Condition.reads s.names) (Grammar.negation stop.pos ts)
      (negation s) := by
  rw [negation]
  split
  · next hk =>
    have hlt := State.left_advance_lt (s := s) (by simp [hk])
    obtain ⟨rest, rfl, hrest⟩ := h.cons_of_kind hk (by simp)
    rw [Grammar.negation]
    refine (negation_agrees hrest).map (fun _ => rfl) (fun _ => rfl) fun p q same => ?_
    rw [State.names_advance] at same
    exact ⟨congrArg Condition.not same.value, same.names⟩
  · next hk =>
    obtain ⟨rest, rfl, hrest⟩ := h.cons_of_kind hk (by simp)
    rw [Grammar.negation]
    cases hgroup : Grammar.group? stop.pos rest with
    | some p =>
        obtain ⟨inner, hinner, hvalue⟩ := Grammar.grouped_of_group? hgroup
        obtain ⟨q, hfound, faces, same⟩ := tryGroup_found hk hrest hinner
        rw [hfound]
        exact .ok ⟨faces, hvalue ▸ same⟩
    | none =>
        have hnone : ∀ inner mid, ¬ Grammar.Grouped stop.pos rest inner mid := by
          intro inner mid hinner
          obtain ⟨p, hp, -⟩ := Grammar.group?_of_grouped hinner
          cases hgroup.symm.trans hp
        rw [tryGroup_undone hk hrest hnone]
        exact (comparison_agrees h).andThen fun _ _ whole => .ok ⟨whole.faces, whole.same⟩
  · next hbang hparen =>
    rw [Grammar.negation]
    · exact comparison_agrees h
    · rintro _ _ _ rfl
      exact hbang h.kind_of_cons
    · rintro _ _ _ rfl
      exact hparen h.kind_of_cons
termination_by 4 * s.left + 1
decreasing_by all_goals omega

/-- An attempt finds a group where one can be read. -/
theorem tryGroup_found {s : State tape} {ts rest : List Token} {inner : Condition}
    (hk : s.kind = .leftParen) (h : Faces s.advance ts stop later)
    (hgroup : Grammar.Grouped stop.pos ts inner rest) :
    ∃ q, tryGroup s hk = .found q ∧ Faces q.state rest stop later ∧
      Reads Condition.reads s.names (.group inner) q.value q.state := by
  have hlt := State.left_advance_lt (s := s) (by simp [hk])
  obtain ⟨close, hinner, hclose, hstop⟩ := hgroup
  obtain ⟨q, hq, faces, same⟩ := (condition_agrees h).of_yields hinner
  rw [State.names_advance] at same
  rw [tryGroup, hq]
  dsimp only
  rw [dif_pos (faces.kind_of_cons.trans hclose), if_pos (faces.tail.continuesOperand_iff.1 hstop)]
  refine ⟨_, rfl, faces.tail, congrArg Condition.group same.value, ?_⟩
  exact (State.names_advance _).trans same.names
termination_by 4 * s.left
decreasing_by all_goals omega

/-- An attempt is undone where no group can be read. -/
theorem tryGroup_undone {s : State tape} {ts : List Token}
    (hk : s.kind = .leftParen) (h : Faces s.advance ts stop later)
    (hnone : ∀ inner rest, ¬ Grammar.Grouped stop.pos ts inner rest) :
    tryGroup s hk = .undone s rfl := by
  have hlt := State.left_advance_lt (s := s) (by simp [hk])
  have hinside := condition_agrees h
  refine tryGroup_eq_undone ?_
  rw [tryGroup]
  cases hcondition : condition s.advance with
  | error stuck => exact ⟨stuck.state.restore s.checkpoint, rfl, rfl⟩
  | ok q =>
      rw [hcondition] at hinside
      obtain ⟨inner, rest, hinner, faces, -⟩ := hinside.of_ok
      dsimp only
      split
      · next hclose =>
        obtain ⟨mid, rfl, hmid⟩ := faces.cons_of_kind hclose (by simp)
        split
        · -- this way out would be a group
          next hstop =>
          exact absurd ⟨_, hinner, rfl, hmid.continuesOperand_iff.2 hstop⟩ (hnone inner mid)
        · exact ⟨q.state.advance.restore s.checkpoint, rfl, rfl⟩
      · exact ⟨q.state.restore s.checkpoint, rfl, rfl⟩
termination_by 4 * s.left
decreasing_by all_goals omega

end

end Conditions

end Pseudocode.OnePass
