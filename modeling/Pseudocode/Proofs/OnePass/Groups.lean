import Pseudocode.Proofs.OnePass.Parsing

/-!
# What an attempt at a group comes to

A condition closes every parenthesis that it opens, and no other. So an attempt that finds a group
stops just behind the parenthesis that closes the first one; and by then it has changed no open
scope. An attempt that finds none has changed nothing.
-/
namespace Pseudocode

/-- Every front part opens at least as many parentheses as it closes, and the whole opens as many
as it closes. -/
structure Balanced (ks : List Kind) : Prop where
  fronts : ∀ n, (ks.take n).count .rightParen ≤ (ks.take n).count .leftParen
  whole : ks.count .rightParen = ks.count .leftParen

theorem balanced_singleton {k : Kind} (hleft : k ≠ .leftParen) (hright : k ≠ .rightParen) :
    Balanced [k] := by
  refine ⟨fun n => ?_, by simp [hleft, hright]⟩
  cases n <;> simp [hright]

/-- Balanced rows can be put together. -/
theorem Balanced.append {ks ks' : List Kind} (h : Balanced ks) (h' : Balanced ks') :
    Balanced (ks ++ ks') := by
  refine ⟨fun n => ?_, ?_⟩
  · simp only [List.take_append, List.count_append]
    exact Nat.add_le_add (h.fronts n) (h'.fronts _)
  · simp only [List.count_append, h.whole, h'.whole]

theorem Balanced.cons {ks : List Kind} (h : Balanced ks) {k : Kind} (hleft : k ≠ .leftParen)
    (hright : k ≠ .rightParen) : Balanced (k :: ks) :=
  (balanced_singleton hleft hright).append h

/-- A balanced part in parentheses. -/
theorem Balanced.wrap {ks : List Kind} (h : Balanced ks) :
    Balanced (.leftParen :: (ks ++ [.rightParen])) := by
  refine ⟨fun n => ?_, by simp [List.count_append, h.whole]⟩
  cases n with
  | zero => simp
  | succ n =>
      have hfront := h.fronts n
      have hlast : ([Kind.rightParen].take (n - ks.length)).count .rightParen ≤ 1 :=
        List.count_le_length.trans (List.length_take_le' _ _)
      simp only [List.take_succ_cons, List.take_append, List.count_cons, List.count_append,
        beq_self_eq_true, if_true, reduceCtorEq, beq_iff_eq, if_false]
      omega

/-- Expressions are balanced. -/
theorem Expr.balanced_kinds (e : Expr) : Balanced e.kinds := by
  induction e with
  | var x => exact balanced_singleton (by simp) (by simp)
  | lit value => exact balanced_singleton (by simp) (by simp)
  | neg e ih => exact ih.cons (by simp) (by simp)
  | group e ih => exact ih.wrap
  | bin op l r ihl ihr => exact ihl.append (ihr.cons (by simp) (by simp))

/-- Conditions close every parenthesis that they open, and no other. -/
theorem Condition.balanced_kinds (c : Condition) : Balanced c.kinds := by
  induction c with
  | cmp op l r => exact l.balanced_kinds.append (r.balanced_kinds.cons (by simp) (by simp))
  | logic op l r ihl ihr => exact ihl.append (ihr.cons (by simp) (by simp))
  | not c ih => exact ih.cons (by simp) (by simp)
  | group c ih => exact ih.wrap

namespace OnePass

variable {tape : Tape}

/-- The state `s'` stands just behind the parenthesis that closes the one at `s`: what stands
between the two parentheses is balanced. -/
def BehindClosing (s s' : State tape) : Prop :=
  ∃ inside close, tape.tokens.drop s.idx = s.token :: (inside ++ close :: tape.tokens.drop s'.idx) ∧
    close.kind = .rightParen ∧ Balanced (inside.map Token.kind)

/-- Of two states that face the same end, the later one faces the last tokens of the earlier. -/
theorem Faces.drop_eq {s s' : State tape} {front back rest later : List Token} {stop : Token}
    (h : Faces s (front ++ back) stop later) (h' : Faces s' rest stop later)
    (hlength : back.length = rest.length) :
    tape.tokens.drop s.idx = front ++ tape.tokens.drop s'.idx := by
  have hahead := h.ahead
  rw [List.append_assoc] at hahead
  have hidx : (s'.idx : Nat) = s.idx + front.length := by
    have hleft := congrArg List.length h.ahead
    have hright := congrArg List.length h'.ahead
    simp only [List.length_drop, List.length_append, List.length_cons] at hleft hright
    omega
  rw [hidx, ← List.drop_drop, hahead, List.drop_left]

/-- A group that can be read ends at the parenthesis that closes the first one. -/
theorem behindClosing_of_grouped {s s' : State tape} {ts rest later : List Token} {stop : Token}
    {inner : Condition} (hk : s.kind = .leftParen) (h : Faces s.advance ts stop later)
    (h' : Faces s' rest stop later) (hgroup : Grammar.Grouped stop.pos ts inner rest) :
    BehindClosing s s' := by
  obtain ⟨close, hinner, hclose, -⟩ := hgroup
  have hkinds := (Grammar.disjunction_sound hinner).1
  obtain ⟨inside, back, rfl, hinside, hback⟩ := List.map_eq_append_iff.1 hkinds
  obtain ⟨close', back, rfl, hclose', hrest⟩ := List.map_eq_cons_iff.1 hback
  have hlength : back.length = rest.length := by simpa using congrArg List.length hrest
  have hsplit : inside ++ close' :: back = (inside ++ [close']) ++ back := by simp
  rw [hsplit] at h
  refine ⟨inside, close', ?_, hclose'.trans hclose, hinside ▸ inner.balanced_kinds⟩
  rw [s.drop_idx, ← State.idx_advance (by simp [hk]), h.drop_eq h' hlength]
  simp

/-- An attempt that finds a group ends behind its closing parenthesis. -/
theorem behindClosing_of_found {s : State tape} {hk : s.kind = .leftParen}
    {q : Moved tape Condition s.left} (hfound : tryGroup s hk = .found q) :
    BehindClosing s q.state := by
  obtain ⟨ts, stop, later, h⟩ := exists_faces s.advance
  by_cases hgroup : ∃ inner rest, Grammar.Grouped stop.pos ts inner rest
  · obtain ⟨inner, rest, hgroup⟩ := hgroup
    obtain ⟨q', hfound', h', -⟩ := tryGroup_found hk h hgroup
    obtain rfl : q' = q := Attempt.found.inj (hfound'.symm.trans hfound)
    exact behindClosing_of_grouped hk h h' hgroup
  · have hundone := tryGroup_undone hk h fun inner rest hinner => hgroup ⟨inner, rest, hinner⟩
    exact absurd (hundone.symm.trans hfound) (by simp)

/-- **An attempt at a group leaves no trace if it fails, and stops at the closing parenthesis if it
succeeds.** It is an attempt of the reader in one pass, which denotes what the parser denotes. From
whatever state at an opening parenthesis it starts, an attempt that is undone ends in that very
state: in its place, and with all that was known about names. An attempt that finds a group ends
just behind the closing parenthesis, with the open scopes as they were. -/
theorem group_attempt_leaves_no_trace :
    (∀ ts, parse ts = Pseudocode.parse ts) ∧
    ∀ (tape : Tape) (s : State tape) (hk : s.kind = .leftParen),
      (∀ back place, tryGroup s hk = .undone back place → back = s) ∧
      ∀ q, tryGroup s hk = .found q →
        BehindClosing s q.state ∧ q.state.names.scopes = s.names.scopes := by
  refine ⟨parse_eq_parse, fun tape s hk => ?_⟩
  have hkeeps := tryGroup_keeps s hk
  refine ⟨fun back place hundone => ?_, fun q hfound => ?_⟩
  · rw [hundone] at hkeeps
    exact hkeeps
  · have hextends : Extends s q.state := by
      rw [hfound] at hkeeps
      exact hkeeps
    exact ⟨behindClosing_of_found hfound, hextends.scopes⟩

/-- A condition whose second parenthesis opens a group and whose third one opens an operand. -/
def nestedTape : Tape where
  tokens :=
    [⟨.keyword .ifKw, "if", ⟨1, 1⟩⟩, ⟨.leftParen, "(", ⟨1, 4⟩⟩, ⟨.leftParen, "(", ⟨1, 5⟩⟩,
      ⟨.leftParen, "(", ⟨1, 6⟩⟩, ⟨.name "i", "i", ⟨1, 7⟩⟩, ⟨.arith .add, "+", ⟨1, 9⟩⟩,
      ⟨.literal (.int 1), "1", ⟨1, 11⟩⟩, ⟨.rightParen, ")", ⟨1, 12⟩⟩, ⟨.rel .less, "<", ⟨1, 14⟩⟩,
      ⟨.name "b", "b", ⟨1, 16⟩⟩, ⟨.rightParen, ")", ⟨1, 17⟩⟩, ⟨.rightParen, ")", ⟨1, 18⟩⟩,
      ⟨.leftCurly, "\x7b", ⟨1, 20⟩⟩, ⟨.rightCurly, "\x7d", ⟨1, 22⟩⟩, ⟨.eof, "", ⟨1, 23⟩⟩]
  ended := rfl

/-- What is known about names behind a loop that counted with `i`. -/
def Names.behindLoop : Names := ⟨{"i"}, [], [[]], {"i"}, ∅⟩

/-- The parenthesis of the group. -/
def atGroup : State nestedTape := ⟨⟨2, by decide⟩, .behindLoop⟩

/-- The parenthesis of the operand. -/
def atOperand : State nestedTape := ⟨⟨3, by decide⟩, .behindLoop⟩

/-- At the operand the attempt gets as far as to hoist `i`, and nothing of that stays. At the group
it gets behind the closing parenthesis, although the attempt at the operand inside is undone. -/
theorem nestedTape_attempts :
    ((∃ stuck, condition atOperand.advance = .error stuck ∧ stuck.state.names.free = ["i"]) ∧
      ∃ back place, tryGroup atOperand rfl = .undone back place ∧ back = atOperand) ∧
    ∃ q, tryGroup atGroup rfl = .found q ∧ (q.state.idx : Nat) = 11 ∧
      BehindClosing atGroup q.state ∧ q.state.names.scopes = atGroup.names.scopes := by
  have hstuck : (match condition atOperand.advance with
      | .ok _ => none
      | .error stuck => some stuck.state.names.free) = some ["i"] := by decide +kernel
  have hundone : (match tryGroup atOperand rfl with
      | .found _ => false
      | .undone _ _ => true) = true := by decide +kernel
  have hfound : (match tryGroup atGroup rfl with
      | .found q => some (q.state.idx : Nat)
      | .undone _ _ => none) = some 11 := by decide +kernel
  have hoperand := (group_attempt_leaves_no_trace.2 nestedTape atOperand rfl).1
  have hgroup := (group_attempt_leaves_no_trace.2 nestedTape atGroup rfl).2
  refine ⟨⟨?_, ?_⟩, ?_⟩
  · split at hstuck
    · cases hstuck
    · next stuck heq => exact ⟨stuck, heq, Option.some.inj hstuck⟩
  · split at hundone
    · cases hundone
    · next back place heq => exact ⟨back, place, heq, hoperand back place heq⟩
  · split at hfound
    · next q heq => exact ⟨q, heq, Option.some.inj hfound, hgroup q heq⟩
    · cases hfound

end OnePass

end Pseudocode
