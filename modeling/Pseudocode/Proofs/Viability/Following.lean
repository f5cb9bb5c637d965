import Pseudocode.Proofs.Grammar.Complete
import Pseudocode.Proofs.Viability.Goals

/-!
# Readers follow the goals

Every reader goes from goals to goals while it succeeds. Where it fails, the tokens in front of the
reported place lead to goals that the reported token does not go on with.

There is one exception. The readers decide what a parenthesis at the front of a condition opens by
trying, and they report what is wrong with the second attempt, which takes the parenthesis for an
operand. A negation sign or a comparison inside of it is reported then, although the goals have left
the question open and would go on with it.

## Main definitions

* `openBraces` — the opening braces that have no closing one.
* `Leads` — tokens that lead from goals to goals and close every brace they open.
* `Undecided` — goals that go on with a token which the readers refuse.
* `Stops` — where a reader fails, for each kind of error.
* `Follows` — an answer that leads to goals, or that stops.

## Main statements

* `follows_sum` — expressions are followed.
* `follows_first_sum` — expressions at the front of a condition are followed.
-/
namespace Pseudocode.Viability

open Grammar

/-- The opening braces without a closing one behind a row of tokens, the innermost first, when those
of `stack` stand in front of it. -/
def openBraces (stack : List Token) : List Token → List Token
  | [] => stack
  | t :: ts =>
    match t.kind with
    | .leftCurly => openBraces (t :: stack) ts
    | .rightCurly => openBraces stack.tail ts
    | _ => openBraces stack ts

/-- Braces can be followed part by part. -/
theorem openBraces_append (stack xs ys : List Token) :
    openBraces stack (xs ++ ys) = openBraces (openBraces stack xs) ys := by
  induction xs generalizing stack with
  | nil => rfl
  | cons t xs ih =>
      rw [List.cons_append, openBraces, openBraces]
      split <;> exact ih _

theorem openBraces_open {t : Token} (ht : t.kind = .leftCurly) (stack ts : List Token) :
    openBraces stack (t :: ts) = openBraces (t :: stack) ts := by
  rw [openBraces, ht]

theorem openBraces_close {t : Token} (ht : t.kind = .rightCurly) (stack ts : List Token) :
    openBraces stack (t :: ts) = openBraces stack.tail ts := by
  rw [openBraces, ht]

theorem openBraces_of_inLine {ts : List Token} (h : ∀ k ∈ ts.map Token.kind, inLine k = true)
    (stack : List Token) : openBraces stack ts = stack := by
  induction ts with
  | nil => rfl
  | cons t ts ih =>
      rw [List.map_cons, List.forall_mem_cons] at h
      rw [openBraces]
      split
      · next ht => simp [ht, inLine] at h
      · next ht => simp [ht, inLine] at h
      · exact ih h.2

/-- The tokens lead from goals to goals, and they close every brace they open. -/
structure Leads (gs : List Goal) (front : List Token) (left : List Goal) : Prop where
  run : run gs (front.map Token.kind) = some left
  braces : ∀ stack, openBraces stack front = stack

section Leads
variable {gs mid left : List Goal} {xs ys : List Token}

theorem Leads.nil (gs : List Goal) : Leads gs [] gs := ⟨rfl, fun _ => rfl⟩

/-- Tokens that lead on can be put together. -/
theorem Leads.append (h : Leads gs xs mid) (h' : Leads mid ys left) : Leads gs (xs ++ ys) left := by
  constructor
  · rw [List.map_append, run_append, h.run, Option.bind_some, h'.run]
  · intro stack
    rw [openBraces_append, h.braces, h'.braces]

theorem Leads.of_inLine (h : Viability.run gs (xs.map Token.kind) = some left)
    (hline : ∀ k ∈ xs.map Token.kind, inLine k = true) : Leads gs xs left :=
  ⟨h, openBraces_of_inLine hline⟩

theorem Leads.single {t : Token} (h : step gs t.kind = some left) (hline : inLine t.kind = true) :
    Leads gs [t] left :=
  .of_inLine (by rw [List.map_singleton, run_cons h, run_nil]) (by simpa using hline)

end Leads

/-! ## Errors -/

/-- The kind of the next token. Where none is left, the end comes next. -/
def nextKind : List Token → Kind
  | [] => .eof
  | t :: _ => t.kind

section NextKind
variable {ts : List Token} {kind : Kind}

/-- A kind that the tokens do not begin with, whatever its lexeme and its place, comes not next. -/
theorem nextKind_ne_of_forall (hkind : kind ≠ .eof)
    (h : ∀ lexeme pos later, ts = ⟨kind, lexeme, pos⟩ :: later → False) : nextKind ts ≠ kind := by
  rintro rfl
  cases ts with
  | nil => exact hkind rfl
  | cons t later => exact h t.lexeme t.pos later rfl

theorem nextKind_ne (h : Lacks kind ts) (hkind : kind ≠ .eof) : nextKind ts ≠ kind := by
  refine nextKind_ne_of_forall hkind ?_
  rintro lexeme pos later rfl
  exact lacks_cons.1 h rfl

end NextKind

/-- Whether a fault is that a token stands where it cannot. -/
def isUnexpected : SyntaxFault → Bool
  | .missingSemicolon _ => false
  | .unclosedBlock => false
  | .reservedName _ => false
  | _ => true

/-- The goals go on with a token of this kind, but a reader that has taken the innermost open
parenthesis for an operand does not. -/
inductive Undecided : List Goal → Kind → Prop where
  | negation (depth : Nat) (gs : List Goal) : Undecided (.condition (depth + 1) :: gs) .bang
  | relation (depth : Nat) (gs : List Goal) (op : RelOp) :
      Undecided (.comparison (depth + 1) :: gs) (.rel op)

/-- Where a reader that starts from `gs` stops in `ts`. A missing semicolon is one the goals would
go on with, in place of a token with which they do not. A block that is not closed goes on to the
end, and closing it with all blocks around it leads to the goals `base`. -/
inductive Stops (finish : Position) (base gs : List Goal) (ts : List Token) :
    SyntaxError → Prop where
  | unexpected {fault : SyntaxFault} {front rest : List Token} {left : List Goal}
      (hfault : isUnexpected fault = true) (hts : ts = front ++ rest)
      (hrun : run gs (front.map Token.kind) = some left)
      (hnext : step left (nextKind rest) = none ∨ Undecided left (nextKind rest)) :
      Stops finish base gs ts ⟨fault, here finish rest⟩
  | semicolon {front rest : List Token} {last : Token} {left : List Goal}
      (hts : ts = front ++ last :: rest)
      (hrun : run gs ((front ++ [last]).map Token.kind) = some left)
      (hrepair : ∃ after, step left .semicolon = some after)
      (hnext : step left (nextKind rest) = none) :
      Stops finish base gs ts ⟨.missingSemicolon last.lexeme, last.pos⟩
  | unclosed {brace : Token} {outer : List Token} {left : List Goal}
      (hopen : ∀ stack, openBraces stack ts = brace :: (outer ++ stack))
      (hrun : run gs (ts.map Token.kind) = some left)
      (hrepair : run left (List.replicate (outer.length + 1) .rightCurly) = some base) :
      Stops finish base gs ts ⟨.unclosedBlock, brace.pos⟩
  | reserved (name : String) (pos : Position) : Stops finish base gs ts ⟨.reservedName name, pos⟩

/-- An answer that leads from `gs` to goals of which `Q` holds together with the tokens behind, or
that stops on the way. -/
inductive Follows (finish : Position) (base gs : List Goal) (ts : List Token)
    (Q : List Goal → List Token → Prop) {α : Type} {n : Nat} : Answer α n → Prop where
  | ok {p : Parsed α n} {front : List Token} {left : List Goal} (hts : ts = front ++ p.rest)
      (hfront : Leads gs front left) (h : Q left p.rest) : Follows finish base gs ts Q (.ok p)
  | error {e : SyntaxError} (h : Stops finish base gs ts e) : Follows finish base gs ts Q (.error e)

variable {finish : Position} {base gs : List Goal} {ts : List Token}
  {Q Q' : List Goal → List Token → Prop}

section Laws
variable {α β : Type} {n m : Nat} {a : Answer α n}

/-- What stops behind tokens that lead to its goals stops for the goals in front of them. -/
theorem Stops.behind {mid : List Goal} {front : List Token} {e : SyntaxError}
    (hfront : Leads gs front mid) (h : Stops finish base mid ts e) :
    Stops finish base gs (front ++ ts) e := by
  have hrun (later : List Token) : run gs ((front ++ later).map Token.kind) =
      run mid (later.map Token.kind) := by
    rw [List.map_append, run_append, hfront.run, Option.bind_some]
  cases h with
  | unexpected hfault hts hleft hnext =>
      exact .unexpected hfault (by rw [hts, List.append_assoc]) ((hrun _).trans hleft) hnext
  | @semicolon xs rest last left hts hleft hrepair hnext =>
      have hwhole : front ++ ts = (front ++ xs) ++ last :: rest := by rw [hts, List.append_assoc]
      refine .semicolon hwhole ?_ hrepair hnext
      rw [List.append_assoc]
      exact (hrun _).trans hleft
  | unclosed hopen hleft hrepair =>
      refine .unclosed (fun stack => ?_) ((hrun _).trans hleft) hrepair
      rw [openBraces_append, hfront.braces, hopen]
  | reserved name pos => exact .reserved name pos

/-- A reader that starts behind tokens is judged with these in front. -/
theorem Follows.behind {mid : List Goal} {front later : List Token} (hfront : Leads gs front mid)
    (hts : ts = front ++ later) (h : Follows finish base mid later Q a) :
    Follows finish base gs ts Q a := by
  cases h with
  | ok hlater hleads hQ =>
      exact .ok (by rw [hts, hlater, List.append_assoc]) (hfront.append hleads) hQ
  | error h => exact .error (hts ▸ h.behind hfront)

/-- One token, and what follows the goals behind it. -/
theorem Follows.cons {mid : List Goal} {t : Token} (hstep : step gs t.kind = some mid)
    (hline : inLine t.kind = true) (h : Follows finish base mid ts Q a) :
    Follows finish base gs (t :: ts) Q a :=
  .behind (.single hstep hline) rfl h

/-- Two readers, one after the other. -/
theorem Follows.bind {f : Parsed α n → Answer β m} (h : Follows finish base gs ts Q a)
    (hf : ∀ p left, Q left p.rest → Follows finish base left p.rest Q' (f p)) :
    Follows finish base gs ts Q' (a >>= f) := by
  cases h with
  | @ok p front left hts hfront hQ => exact .behind hfront hts (hf p left hQ)
  | error h => exact .error h

/-- A result that is handed on. -/
theorem Follows.map {f : Parsed α n → Parsed β m} (h : Follows finish base gs ts Q a)
    (hf : ∀ p, (f p).rest = p.rest) : Follows finish base gs ts Q (a >>= fun p => pure (f p)) := by
  cases h with
  | @ok p front left hts hfront hQ =>
      exact .ok (by rw [hts, hf p]) hfront (by rwa [hf p])
  | error h => exact .error h

theorem Follows.imp (h : Follows finish base gs ts Q a)
    (hQ : ∀ left rest, Q left rest → Q' left rest) : Follows finish base gs ts Q' a := by
  cases h with
  | ok hts hfront h => exact .ok hts hfront (hQ _ _ h)
  | error h => exact .error h

/-- A reader that fails stops where it should. -/
theorem Follows.stops {e : SyntaxError} (h : Follows finish base gs ts Q a) (ha : a = .error e) :
    Stops finish base gs ts e := by
  subst ha
  cases h with
  | error h => exact h

/-- A reader that succeeds has led to the goals behind its tree. -/
theorem Follows.exists_front {p : Parsed α n} (h : Follows finish base gs ts Q a) (ha : a = .ok p) :
    ∃ front left, ts = front ++ p.rest ∧ Leads gs front left ∧ Q left p.rest := by
  subst ha
  cases h with
  | ok hts hfront hQ => exact ⟨_, _, hts, hfront, hQ⟩

/-- A reader that reads nothing. -/
theorem Follows.stay {p : Parsed α n} (hp : p.rest = ts) (h : Q gs ts) :
    Follows finish base gs ts Q (.ok p) :=
  .ok (by rw [hp, List.nil_append]) (.nil gs) (by rwa [hp])

/-- A reader that is known to read nothing. -/
theorem Follows.of_yields {value : α} (ha : Yields a value ts) (h : Q gs ts) :
    Follows finish base gs ts Q a := by
  obtain ⟨p, rfl, -, hrest⟩ := ha
  exact .stay hrest h

/-- A reader that refuses the next token. -/
theorem Follows.refuse {fault : SyntaxFault} (hfault : isUnexpected fault = true)
    (hnext : step gs (nextKind ts) = none ∨ Undecided gs (nextKind ts)) :
    Follows finish base gs ts Q (.error ⟨fault, here finish ts⟩ : Answer α n) :=
  .error (.unexpected hfault (List.nil_append ts).symm rfl hnext)

end Laws

/-! ## Single tokens -/

theorem unexpected_eq (finish : Position) (expected : String) (ts : List Token) :
    ∃ fault, isUnexpected fault = true ∧
      unexpected finish expected ts = ⟨fault, here finish ts⟩ := by
  cases ts with
  | nil => exact ⟨_, rfl, rfl⟩
  | cons t ts => exact ⟨_, rfl, rfl⟩

/-- A token is called unexpected where it does not go on with the goals. -/
theorem follows_unexpected {α : Type} {n : Nat} {expected : String}
    (hnext : step gs (nextKind ts) = none ∨ Undecided gs (nextKind ts)) :
    Follows finish base gs ts Q (.error (unexpected finish expected ts) : Answer α n) := by
  obtain ⟨fault, hfault, heq⟩ := unexpected_eq finish expected ts
  rw [heq]
  exact .refuse hfault hnext

/-- A token that has to stand here, where the goals go on with no other one. -/
theorem follows_expect {kind : Kind} {expected : String} {left : List Goal}
    (hkind : inLine kind = true) (hstep : step gs kind = some left)
    (hnext : nextKind ts ≠ kind → step gs (nextKind ts) = none ∨ Undecided gs (nextKind ts)) :
    Follows finish base gs ts (fun gs' _ => gs' = left) (expect finish kind expected ts) := by
  cases ts with
  | nil =>
      refine follows_unexpected (hnext ?_)
      rintro rfl
      cases hkind
  | cons t ts =>
      rw [expect]
      split
      · next ht =>
        subst ht
        exact .cons hstep hkind (.stay rfl rfl)
      · next ht => exact follows_unexpected (hnext ht)

theorem follows_token {kind : Kind} {expected : String} (hkind : inLine kind = true)
    (gs : List Goal) (ts : List Token) : Follows finish base (.token kind :: gs) ts
      (fun left _ => left = gs) (expect finish kind expected ts) :=
  follows_expect hkind (step_token kind gs) fun hne => .inl (step_token_ne hne gs)

theorem follows_expectName {expected : String} {left : List Goal}
    (hstep : ∀ x, nextKind ts = .name x → step gs (.name x) = some left)
    (hnext : (∀ x, nextKind ts ≠ .name x) → step gs (nextKind ts) = none) :
    Follows finish base gs ts (fun gs' _ => gs' = left) (expectName finish expected ts) := by
  rw [expectName.eq_def]
  split
  · next x lexeme pos rest => exact .cons (hstep x rfl) rfl (.stay rfl rfl)
  · next hname =>
    exact follows_unexpected (.inl (hnext fun x => nextKind_ne_of_forall (by simp) (hname x)))

theorem lastBefore_eq {front rest : List Token} {last : Token} (hts : ts = front ++ last :: rest)
    (h : rest.length < ts.length) : lastBefore ts rest h = last := by
  subst hts
  have hindex : (front ++ last :: rest).length - rest.length - 1 = front.length := by
    rw [List.length_append, List.length_cons]
    omega
  simp only [lastBefore, hindex]
  simp

/-- A value and a semicolon behind it. -/
theorem Follows.terminate {α β : Type} {m : Nat} {a : Answer α ts.length}
    {f : Parsed α ts.length → Answer β m} (after : List Goal) (h : Follows finish base gs ts Q a)
    (hQ : ∀ left rest, Q left rest → step left .semicolon = some after ∧
      (nextKind rest ≠ .semicolon → step left (nextKind rest) = none))
    (hf : ∀ p, Follows finish base after p.rest Q' (f p)) :
    Follows finish base gs ts Q' (do let p ← a; let p ← terminated ts p; f p) := by
  cases h with
  | error h => exact .error h
  | @ok p front left hts hfront hpQ =>
      obtain ⟨value, rest, shorter⟩ := p
      obtain ⟨hsemi, hother⟩ := hQ left rest hpQ
      change Follows finish base gs ts Q' (terminated ts ⟨value, rest, shorter⟩ >>= f)
      rw [terminated.eq_def]
      split
      · next lexeme pos later heq =>
        simp only at heq hts
        subst heq
        have hlater := hf ⟨value, later, Nat.lt_of_succ_lt shorter⟩
        exact .behind hfront hts (.cons hsemi rfl hlater)
      · next hnot =>
        simp only at hnot hts
        obtain ⟨xs, last, rfl⟩ : ∃ xs last, front = xs ++ [last] := by
          refine (List.eq_nil_or_concat' front).resolve_left ?_
          rintro rfl
          rw [hts] at shorter
          exact absurd shorter (Nat.lt_irrefl _)
        have hwhole : ts = xs ++ last :: rest := by simpa using hts
        refine .error ?_
        rw [lastBefore_eq hwhole]
        exact .semicolon hwhole hfront.run ⟨after, hsemi⟩
          (hother (nextKind_ne_of_forall (by simp) hnot))

/-! ## Expressions -/

theorem endsExpr_of_unbound (hadd : Unbound ArithOp.add.precedence ts)
    (hmul : Unbound ArithOp.mul.precedence ts) : EndsExpr ts := by
  intro p t ht op hop heq
  rcases ArithOp.precedence_eq_or op with h | h
  · exact hadd t ht op hop h
  · exact hmul t ht op hop h

theorem isArithmetic_of_endsExpr (h : EndsExpr ts) : (nextKind ts).isArithmetic = false := by
  cases ts with
  | nil => rfl
  | cons t ts =>
      cases ht : t.kind with
      | arith op => exact absurd rfl (unbound_cons.1 (h op.precedence) op ht)
      | _ => simp [nextKind, ht, Kind.isArithmetic]

/-- Behind an expression nothing goes on but an operator and the token that has to close it. -/
theorem step_operators_ne {kind : Kind} (hend : EndsExpr ts) (hne : nextKind ts ≠ kind)
    (gs : List Goal) : step (.operators :: .token kind :: gs) (nextKind ts) = none := by
  rw [step_operators (isArithmetic_of_endsExpr hend), step_token_ne hne]

theorem unary_of_lacks (h : Lacks (.arith .sub) ts) : unary finish ts = primary finish ts := by
  rw [unary.eq_def]
  split
  · simp at h
  · rfl

/-- Whether a kind is an operand of its own. -/
def isAtom : Kind → Bool
  | .name _ => true
  | .literal _ => true
  | _ => false

theorem inLine_of_isAtom {k : Kind} (h : isAtom k = true) : inLine k = true := by
  cases k with
  | name x => rfl
  | literal value => rfl
  | _ => cases h

/-- Without a parenthesis, a primary expression is one token. -/
theorem primary_of_lacks (finish : Position) (h : Lacks .leftParen ts) :
    (∃ t rest p, ts = t :: rest ∧ isAtom t.kind = true ∧ primary finish ts = .ok p ∧
      p.rest = rest) ∨
    (∃ fault, isUnexpected fault = true ∧ isAtom (nextKind ts) = false ∧
      primary finish ts = .error ⟨fault, here finish ts⟩) := by
  rw [primary.eq_def]
  split
  · exact .inl ⟨_, _, _, rfl, rfl, rfl, rfl⟩
  · exact .inl ⟨_, _, _, rfl, rfl, rfl, rfl⟩
  · simp at h
  · next t rest hname hliteral hparen =>
    refine .inr ⟨_, rfl, ?_, rfl⟩
    obtain ⟨kind, lexeme, pos⟩ := t
    cases kind with
    | name x => exact absurd rfl (hname x lexeme pos)
    | literal value => exact absurd rfl (hliteral value lexeme pos)
    | _ => rfl
  · exact .inr ⟨_, rfl, rfl, rfl⟩

theorem follows_atom {left : List Goal} (hparen : Lacks .leftParen ts)
    (hatom : ∀ k, isAtom k = true → step gs k = some left)
    (hother : isAtom (nextKind ts) = false →
      step gs (nextKind ts) = none ∨ Undecided gs (nextKind ts)) :
    Follows finish base gs ts (fun gs' _ => gs' = left) (primary finish ts) := by
  obtain ⟨t, rest, p, rfl, ht, heq, hp⟩ | ⟨fault, hfault, ht, heq⟩ :=
    primary_of_lacks finish hparen
  · rw [heq]
    exact .cons (hatom _ ht) (inLine_of_isAtom ht) (.stay hp rfl)
  · rw [heq]
    exact .refuse hfault (hother ht)

theorem step_operand_atom {k : Kind} (h : isAtom k = true) (gs : List Goal) :
    step (.operand :: gs) k = some gs := by
  cases k with
  | name x => rfl
  | literal value => rfl
  | _ => cases h

theorem step_operand_eq_none {k : Kind} (hatom : isAtom k = false) (hsub : k ≠ .arith .sub)
    (hparen : k ≠ .leftParen) (gs : List Goal) : step (.operand :: gs) k = none := by
  refine step_eq_none ?_ rfl gs
  cases k with
  | name x => cases hatom
  | literal value => cases hatom
  | leftParen => exact absurd rfl hparen
  | arith op => cases op with
    | sub => exact absurd rfl hsub
    | _ => rfl
  | _ => rfl

mutual

/-- A sum is read along the goals for its operands and operators. -/
theorem follows_sum {X : Goal} (hX : TakesOperators X) (gs : List Goal) (ts : List Token) :
    Follows finish base (.operand :: X :: gs) ts
      (fun left rest => left = X :: gs ∧ EndsExpr rest) (sum finish ts) := by
  rw [sum]
  refine (follows_product hX gs ts).bind fun first left h => ?_
  obtain ⟨rfl, hmul⟩ := h
  have hshorter := first.shorter
  exact (follows_sumTail hX gs first.value first.rest hmul).map fun _ => rfl
termination_by 4 * ts.length + 3
decreasing_by all_goals omega

theorem follows_sumTail {X : Goal} (hX : TakesOperators X) (gs : List Goal) (l : Expr)
    (ts : List Token) (hmul : Unbound ArithOp.mul.precedence ts) :
    Follows finish base (X :: gs) ts (fun left rest => left = X :: gs ∧ EndsExpr rest)
      (sumTail finish l ts) := by
  obtain hadd | ⟨⟨kind, lexeme, pos⟩, later, op, hts, ht, hop⟩ :=
    unbound_or ArithOp.add.precedence ts
  · have hyields : Yields (sumTail finish l ts) l ts :=
      (yields_sumTail_of_unbound hadd).2 ⟨rfl, rfl⟩
    exact .of_yields hyields ⟨rfl, endsExpr_of_unbound hadd hmul⟩
  · have hlt : later.length < ts.length := by simp [hts]
    obtain rfl : kind = .arith op := ht
    rw [hts, sumTail, if_pos hop]
    refine .cons (step_of_advance (hX op) gs) rfl ?_
    refine (follows_product hX gs later).bind fun right left h => ?_
    obtain ⟨rfl, hmul⟩ := h
    have hshorter := right.shorter
    exact (follows_sumTail hX gs _ right.rest hmul).map fun _ => rfl
termination_by 4 * ts.length + 3
decreasing_by all_goals omega

theorem follows_product {X : Goal} (hX : TakesOperators X) (gs : List Goal) (ts : List Token) :
    Follows finish base (.operand :: X :: gs) ts
      (fun left rest => left = X :: gs ∧ Unbound ArithOp.mul.precedence rest)
      (product finish ts) := by
  rw [product]
  refine (follows_unary (X :: gs) ts).bind fun first left h => ?_
  subst h
  have hshorter := first.shorter
  exact (follows_productTail hX gs first.value first.rest).map fun _ => rfl
termination_by 4 * ts.length + 2
decreasing_by all_goals omega

theorem follows_productTail {X : Goal} (hX : TakesOperators X) (gs : List Goal) (l : Expr)
    (ts : List Token) :
    Follows finish base (X :: gs) ts
      (fun left rest => left = X :: gs ∧ Unbound ArithOp.mul.precedence rest)
      (productTail finish l ts) := by
  obtain hmul | ⟨⟨kind, lexeme, pos⟩, later, op, hts, ht, hop⟩ :=
    unbound_or ArithOp.mul.precedence ts
  · have hyields : Yields (productTail finish l ts) l ts :=
      (yields_productTail_of_unbound hmul).2 ⟨rfl, rfl⟩
    exact .of_yields hyields ⟨rfl, hmul⟩
  · have hlt : later.length < ts.length := by simp [hts]
    obtain rfl : kind = .arith op := ht
    rw [hts, productTail, if_pos hop]
    refine .cons (step_of_advance (hX op) gs) rfl ?_
    refine (follows_unary (X :: gs) later).bind fun right left h => ?_
    subst h
    have hshorter := right.shorter
    exact (follows_productTail hX gs _ right.rest).map fun _ => rfl
termination_by 4 * ts.length + 3
decreasing_by all_goals omega

theorem follows_unary (gs : List Goal) (ts : List Token) :
    Follows finish base (.operand :: gs) ts (fun left _ => left = gs) (unary finish ts) := by
  rcases lacks_or (.arith .sub) ts with hsub | ⟨⟨kind, lexeme, pos⟩, later, hts, ht⟩
  · rw [unary_of_lacks hsub]
    exact follows_primary gs ts hsub
  · have hlt : later.length < ts.length := by simp [hts]
    obtain rfl : kind = .arith .sub := ht
    rw [hts, unary]
    refine .cons (step_of_advance rfl gs) rfl ?_
    exact (follows_unary gs later).map fun _ => rfl
termination_by 4 * ts.length + 1
decreasing_by all_goals omega

theorem follows_primary (gs : List Goal) (ts : List Token) (hsub : Lacks (.arith .sub) ts) :
    Follows finish base (.operand :: gs) ts (fun left _ => left = gs) (primary finish ts) := by
  rcases lacks_or .leftParen ts with hparen | ⟨⟨kind, lexeme, pos⟩, later, hts, ht⟩
  · refine follows_atom hparen (fun k hk => step_operand_atom hk gs) fun hother => .inl ?_
    exact step_operand_eq_none hother (nextKind_ne hsub nofun) (nextKind_ne hparen nofun) gs
  · have hlt : later.length < ts.length := by simp [hts]
    obtain rfl : kind = .leftParen := ht
    rw [hts, primary]
    refine .cons (step_of_advance rfl gs) rfl ?_
    refine (follows_sum (fun _ => rfl) (.token .rightParen :: gs) later).bind fun inner left h => ?_
    obtain ⟨rfl, hend⟩ := h
    refine (follows_expect rfl rfl fun hne => .inl ?_).map fun _ => rfl
    exact step_operators_ne hend hne gs
termination_by 4 * ts.length
decreasing_by all_goals omega

end

theorem step_condition_atom {k : Kind} (h : isAtom k = true) (depth : Nat) (gs : List Goal) :
    step (.condition depth :: gs) k = some (.comparison depth :: gs) := by
  cases k with
  | name x => rfl
  | literal value => rfl
  | _ => cases h

theorem step_condition_eq_none {k : Kind} {depth : Nat} (hatom : isAtom k = false)
    (hsub : k ≠ .arith .sub) (hparen : k ≠ .leftParen) (hbang : depth = 0 → k ≠ .bang)
    (gs : List Goal) :
    step (.condition depth :: gs) k = none ∨ Undecided (.condition depth :: gs) k := by
  cases k with
  | name x => cases hatom
  | literal value => cases hatom
  | leftParen => exact absurd rfl hparen
  | bang => cases depth with
    | zero => exact absurd rfl (hbang rfl)
    | succ depth => exact .inr (.negation depth gs)
  | arith op => cases op with
    | sub => exact absurd rfl hsub
    | _ => exact .inl rfl
  | _ => exact .inl rfl

/-- Behind the first operand of a comparison in an open parenthesis, the goals go on with a
comparison, and so the parenthesis would have to be closed. -/
theorem step_comparison_eq_none {k : Kind} (hk : k.isArithmetic = false) (hclose : k ≠ .rightParen)
    (depth : Nat) (gs : List Goal) :
    step (.comparison (depth + 1) :: gs) k = none ∨
      Undecided (.comparison (depth + 1) :: gs) k := by
  cases k with
  | rightParen => exact absurd rfl hclose
  | arith op => cases hk
  | rel op => exact .inr (.relation depth gs op)
  | _ => exact .inl rfl

theorem takesOperators_comparison (depth : Nat) : TakesOperators (.comparison depth) := by
  intro op
  cases depth <;> rfl

mutual

/-- At the front of a condition a sum is read along goals that leave open what its parentheses are.
-/
theorem follows_first_sum (depth : Nat) (gs : List Goal) (ts : List Token)
    (hbang : depth = 0 → Lacks .bang ts) : Follows finish base (.condition depth :: gs) ts
      (fun left rest => left = .comparison depth :: gs ∧ EndsExpr rest) (sum finish ts) := by
  rw [sum]
  refine (follows_first_product depth gs ts hbang).bind fun first left h => ?_
  obtain ⟨rfl, hmul⟩ := h
  exact (follows_sumTail (takesOperators_comparison depth) gs first.value first.rest hmul).map
    fun _ => rfl
termination_by 4 * ts.length + 3
decreasing_by all_goals omega

theorem follows_first_product (depth : Nat) (gs : List Goal) (ts : List Token)
    (hbang : depth = 0 → Lacks .bang ts) : Follows finish base (.condition depth :: gs) ts
      (fun left rest => left = .comparison depth :: gs ∧ Unbound ArithOp.mul.precedence rest)
      (product finish ts) := by
  rw [product]
  refine (follows_first_unary depth gs ts hbang).bind fun first left h => ?_
  subst h
  exact (follows_productTail (takesOperators_comparison depth) gs first.value first.rest).map
    fun _ => rfl
termination_by 4 * ts.length + 2
decreasing_by all_goals omega

theorem follows_first_unary (depth : Nat) (gs : List Goal) (ts : List Token)
    (hbang : depth = 0 → Lacks .bang ts) : Follows finish base (.condition depth :: gs) ts
      (fun left _ => left = .comparison depth :: gs) (unary finish ts) := by
  rcases lacks_or (.arith .sub) ts with hsub | ⟨⟨kind, lexeme, pos⟩, later, hts, ht⟩
  · rw [unary_of_lacks hsub]
    exact follows_first_primary depth gs ts hbang hsub
  · obtain rfl : kind = .arith .sub := ht
    rw [hts, unary]
    refine .cons (step_of_advance rfl gs) rfl ?_
    exact (follows_unary (.comparison depth :: gs) later).map fun _ => rfl
termination_by 4 * ts.length + 1
decreasing_by all_goals omega

theorem follows_first_primary (depth : Nat) (gs : List Goal) (ts : List Token)
    (hbang : depth = 0 → Lacks .bang ts) (hsub : Lacks (.arith .sub) ts) :
    Follows finish base (.condition depth :: gs) ts
      (fun left _ => left = .comparison depth :: gs) (primary finish ts) := by
  rcases lacks_or .leftParen ts with hparen | ⟨⟨kind, lexeme, pos⟩, later, hts, ht⟩
  · refine follows_atom hparen (fun k hk => step_condition_atom hk depth gs) fun hother => ?_
    exact step_condition_eq_none hother (nextKind_ne hsub nofun) (nextKind_ne hparen nofun)
      (fun hzero => nextKind_ne (hbang hzero) nofun) gs
  · have hlt : later.length < ts.length := by simp [hts]
    obtain rfl : kind = .leftParen := ht
    rw [hts, primary]
    refine .cons (step_of_advance rfl gs) rfl ?_
    refine (follows_first_sum (depth + 1) gs later fun hzero => nomatch hzero).bind
      fun inner left h => ?_
    obtain ⟨rfl, hend⟩ := h
    refine (follows_expect rfl rfl fun hne => ?_).map fun _ => rfl
    exact step_comparison_eq_none (isArithmetic_of_endsExpr hend) hne depth gs
termination_by 4 * ts.length
decreasing_by all_goals omega

end

end Pseudocode.Viability
