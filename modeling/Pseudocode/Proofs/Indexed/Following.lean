import Pseudocode.Proofs.Indexed.Reader

/-!
# Readers on indices follow readers on tapes

A reader on a tape cannot leave the tape, because its index is one of the tape, and its calls end,
because each result comes with a proof that it is nearer to the end. A reader on indices that is at
the same place comes to the same value or fault, and it is at the same place afterwards. On its way
it is always inside of the tokens and moves over no end token. A bound on the depth of its calls
that is enough grows with the number of tokens ahead.
-/
namespace Pseudocode.Indexed

open Machine OnePass

/-- An index of a token that is reached from `start` over no end token. -/
structure Within (tokens : List Token) (start i : Nat) : Prop where
  le : start ≤ i
  lt : i < tokens.length
  passed : ∀ j, start ≤ j → j < i → ∀ t ∈ tokens[j]?, t.kind ≠ .eof

/-- What a reader has written down between two of its states: indices that it has reached over no
end token, and tokens of which none is an end token. -/
structure Traced (tokens : List Token) (r r' : Reader) : Prop where
  here : Within tokens r.idx r'.idx
  visited : ∃ later, r'.visited = later ++ r.visited ∧ ∀ i ∈ later, Within tokens r.idx i
  consumed : ∃ later, r'.consumed = later ++ r.consumed ∧ ∀ t ∈ later, t.kind ≠ .eof

section Diaries
variable {tokens : List Token} {i j k : Nat} {r r' r'' : Reader}

theorem Within.refl (h : i < tokens.length) : Within tokens i i where
  le := le_rfl
  lt := h
  passed := by
    intro j hle hlt
    omega

theorem Within.trans (h : Within tokens i j) (h' : Within tokens j k) : Within tokens i k where
  le := h.le.trans h'.le
  lt := h'.lt
  passed := by
    intro n hle hlt
    by_cases hn : n < j
    · exact h.passed n hle hn
    · exact h'.passed n (Nat.le_of_not_lt hn) hlt

theorem Traced.refl (h : r.idx < tokens.length) : Traced tokens r r where
  here := .refl h
  visited := ⟨[], rfl, by simp⟩
  consumed := ⟨[], rfl, by simp⟩

theorem Traced.trans (h : Traced tokens r r') (h' : Traced tokens r' r'') :
    Traced tokens r r'' where
  here := h.here.trans h'.here
  visited := by
    obtain ⟨front, hfront, hmem⟩ := h.visited
    obtain ⟨later, hlater, hmem'⟩ := h'.visited
    refine ⟨later ++ front, by rw [hlater, hfront, List.append_assoc], ?_⟩
    intro i hi
    rcases List.mem_append.1 hi with hi | hi
    · exact h.here.trans (hmem' i hi)
    · exact hmem i hi
  consumed := by
    obtain ⟨front, hfront, hmem⟩ := h.consumed
    obtain ⟨later, hlater, hmem'⟩ := h'.consumed
    refine ⟨later ++ front, by rw [hlater, hfront, List.append_assoc], ?_⟩
    intro t ht
    rcases List.mem_append.1 ht with ht | ht
    · exact hmem' t ht
    · exact hmem t ht

end Diaries

namespace Reader

variable {tape : Tape} {s : State tape} {r r' : Reader}

/-- The reader is at the place of a state on a tape, and knows as much about names. -/
structure At (s : State tape) (r : Reader) : Prop where
  idx : r.idx = s.idx
  names : r.names = s.names

theorem token_kind (s : State tape) : s.token.kind = s.kind := rfl

theorem At.lt (h : At s r) : r.idx < tape.tokens.length := by
  rw [h.idx]
  exact s.idx.isLt

theorem At.getElem? (h : At s r) : tape.tokens[r.idx]? = some s.token := by
  rw [h.idx]
  exact List.getElem?_eq_getElem s.idx.isLt

/-- The token here is in range, and it is that of the state. -/
theorem At.current (h : At s r) : Ends (current tape.tokens) r (.ok s.token) r := by
  rw [Ends, Reader.current, h.getElem?]
  exact ends_found _ r

theorem At.previous (h : At s r) : Ends (previous tape.tokens) r (.ok s.previous) r := by
  have hprevious : tape.tokens[r.idx - 1]? = some s.previous := by
    rw [h.idx]
    exact List.getElem?_eq_getElem _
  rw [Ends, Reader.previous, hprevious]
  exact ends_found _ r

/-- A reader that is not at an end token moves over a token that is none. -/
theorem At.advance (h : At s r) (hs : s.kind ≠ .eof) :
    ∃ r', Ends (advance tape.tokens) r (.ok ()) r' ∧ At s.advance r' ∧
      Traced tape.tokens r r' := by
  have hadvance := State.idx_advance hs
  have hlt := s.advance.idx.isLt
  have hidx := h.idx
  have hmove : (if r.idx + 1 < tape.tokens.length then r.idx + 1 else r.idx) = r.idx + 1 :=
    if_pos (by omega)
  have hwithin : Within tape.tokens r.idx (r.idx + 1) := by
    refine ⟨Nat.le_succ _, by omega, ?_⟩
    intro j hle hj t ht
    obtain rfl : j = r.idx := by omega
    rw [h.getElem?] at ht
    cases ht
    exact hs
  refine ⟨{ r with
    idx := r.idx + 1
    visited := (r.idx + 1) :: r.visited
    consumed := s.token :: r.consumed }, ?_, ⟨by rw [hadvance, ← hidx], ?_⟩, hwithin, ?_, ?_⟩
  · rw [Ends, Reader.advance, hmove, h.getElem?]
    rfl
  · rw [State.names_advance]
    exact h.names
  · exact ⟨[r.idx + 1], rfl, List.forall_mem_singleton.2 hwithin⟩
  · exact ⟨[s.token], rfl, List.forall_mem_singleton.2 hs⟩

/-- What is known about names changes nothing else. -/
theorem At.change (h : At s r) (f : Names → Names) :
    ∃ r', Ends (change f) r (.ok ()) r' ∧ At (s.withNames (f s.names)) r' ∧
      Traced tape.tokens r r' := by
  have htraced := Traced.refl h.lt
  exact ⟨{ r with names := f r.names }, rfl, ⟨h.idx, congrArg f h.names⟩, htraced.here,
    htraced.visited, htraced.consumed⟩

/-! ## The same outcome -/

section Realizes
variable {α β γ δ : Type}

/-- A program that comes to an outcome on the tape: to the same value or the same error, at the
place of the same state. An outcome with a value is given by what its value and its state are. -/
inductive Realizes (value : β → α) (state : β → State tape) (m : Parsing α) (r : Reader) :
    Except (Stuck tape) β → Prop where
  | found {p : β} {r' : Reader} (ends : Ends m r (.ok (value p)) r') (place : At (state p) r')
      (traced : Traced tape.tokens r r') : Realizes value state m r (.ok p)
  | stuck {k : Stuck tape} {r' : Reader} (ends : Ends m r (.error k.error) r')
      (place : At k.state r') (traced : Traced tape.tokens r r') :
      Realizes value state m r (.error k)

section Rules
variable {value : β → α} {state : β → State tape} {value' : γ → δ} {state' : γ → State tape}
  {m : Parsing α} {f : α → Parsing δ} {g : β → Except (Stuck tape) γ} {o : Except (Stuck tape) β}

theorem Realizes.ret {p : β} {a : α} (h : At (state p) r) (ha : value p = a) :
    Realizes value state (pure a) r (pure p) := by
  subst ha
  exact .found (ends_pure _ _) h (.refl h.lt)

theorem Realizes.fail (h : At s r) (e : SyntaxError) :
    Realizes value state (fail e) r (.error ⟨e, s⟩) :=
  .stuck (ends_fail _ _) h (.refl h.lt)

/-- What has been traced before. -/
theorem Realizes.after {a : δ} {m : Parsing δ} {f : δ → Parsing α}
    (h : Ends m r (.ok a) r') (htraced : Traced tape.tokens r r')
    (hf : Realizes value state (f a) r' o) : Realizes value state (m >>= f) r o := by
  cases hf with
  | found ends place traced => exact .found (h.bind ends) place (htraced.trans traced)
  | stuck ends place traced => exact .stuck (h.bind ends) place (htraced.trans traced)

/-- Programs in a row do what the readers in a row do. -/
theorem Realizes.bind (h : Realizes value state m r o)
    (hf : ∀ p r', At (state p) r' → Realizes value' state' (f (value p)) r' (g p)) :
    Realizes value' state' (m >>= f) r (o >>= g) := by
  cases h with
  | found ends place traced => exact .after ends traced (hf _ _ place)
  | stuck ends place traced => exact .stuck ends.bind_error place traced

/-- A result that is handed on with its value and in its state. -/
theorem Realizes.carry {value' : γ → α} {g : β → γ} (h : Realizes value state m r o)
    (hvalue : ∀ p, value' (g p) = value p) (hstate : ∀ p, state' (g p) = state p) :
    Realizes value' state' m r (o >>= fun p => pure (g p)) := by
  cases h with
  | @found p r' ends place traced =>
      rw [← hvalue] at ends
      rw [← hstate] at place
      exact .found ends place traced
  | stuck ends place traced => exact .stuck ends place traced

/-- A look at the token. -/
theorem At.look {f : Token → Parsing α} (h : At s r)
    (hf : Realizes value state (f s.token) r o) :
    Realizes value state (do let t ← Reader.current tape.tokens; f t) r o :=
  .after h.current (.refl h.lt) hf

/-- A move over a token. -/
theorem At.move {f : Unit → Parsing α} (h : At s r) (hs : s.kind ≠ .eof)
    (hf : ∀ r', At s.advance r' → Realizes value state (f ()) r' o) :
    Realizes value state (Reader.advance tape.tokens >>= f) r o := by
  obtain ⟨r', hends, hplace, htraced⟩ := h.advance hs
  exact .after hends htraced (hf r' hplace)

/-- A change of what is known about names. -/
theorem At.rename {f : Unit → Parsing α} (h : At s r) (change : Names → Names)
    (hf : ∀ r', At (s.withNames (change s.names)) r' → Realizes value state (f ()) r' o) :
    Realizes value state (Reader.change change >>= f) r o := by
  obtain ⟨r', hends, hplace, htraced⟩ := h.change change
  exact .after hends htraced (hf r' hplace)

/-- The error that is raised is that of the state. -/
theorem At.unexpected (h : At s r) (expected : String) :
    Realizes value state (Reader.unexpected tape.tokens expected) r
      (.error ⟨s.unexpected expected, s⟩) := by
  refine h.look ?_
  rw [token_kind, State.unexpected]
  by_cases heof : s.kind = .eof
  · rw [if_pos heof, if_pos heof]
    exact .fail h _
  · rw [if_neg heof, if_neg heof]
    exact .fail h _

end Rules

end Realizes

/-- A program that comes to the outcome of a reader on the tape. -/
abbrev Reads {α : Type} {n : Nat} (m : Parsing α) (r : Reader) (o : Outcome tape α n) : Prop :=
  Realizes Moved.value Moved.state m r o

/-- An expected token is looked up in range. -/
theorem expect_reads (kind : Kind) (expected : String) (hkind : kind ≠ .eof) (h : At s r) :
    Reads (expect tape.tokens kind expected) r (OnePass.expect kind expected s hkind) := by
  refine h.look ?_
  rw [token_kind, OnePass.expect]
  by_cases hk : s.kind = kind
  · rw [if_pos hk, dif_pos hk]
    obtain ⟨r', hends, hplace, htraced⟩ := h.advance (hk ▸ hkind)
    exact .found hends hplace htraced
  · rw [if_neg hk, dif_neg hk]
    exact h.unexpected expected

theorem expectName_reads (expected : String) (h : At s r) :
    Reads (expectName tape.tokens expected) r (OnePass.expectName expected s) := by
  rw [OnePass.expectName.eq_def]
  split
  · next x hk =>
    refine h.look ?_
    rw [(token_kind s).trans hk]
    exact h.move (by simp [hk]) fun r' h' => .ret h' rfl
  · next hk =>
    refine h.look ?_
    rw [token_kind]
    split
    · next x hname => exact absurd hname (hk x)
    · exact h.unexpected expected

theorem expectSemicolon_reads (h : At s r) :
    Reads (expectSemicolon tape.tokens) r (OnePass.expectSemicolon s) := by
  refine h.look ?_
  rw [token_kind, OnePass.expectSemicolon]
  by_cases hk : s.kind = .semicolon
  · rw [if_pos hk, dif_pos hk]
    obtain ⟨r', hends, hplace, htraced⟩ := h.advance (by simp [hk])
    exact .found hends hplace htraced
  · rw [if_neg hk, dif_neg hk]
    exact .after h.previous (.refl h.lt) (.fail h _)

/-! ## Expressions

The recursion is that of the readers on the tape, with the same measures, and a bound above the
measure is enough: every call takes one off the bound, and it lowers the measure by one at least. -/

mutual

/-- A program on indices reads an expression as the reader on the tape does. -/
theorem expression_reads {s : State tape} {r : Reader} {depth : Nat} (h : At s r)
    (hdepth : 4 * s.left + 2 < depth) :
    Reads (expression tape.tokens depth) r (OnePass.expression s) := by
  cases depth with
  | zero => omega
  | succ depth =>
  rw [OnePass.expression]
  refine (unary_reads h (by omega)).bind fun first r₁ h₁ => ?_
  have := first.nearer
  exact (climb_reads 0 first.value h₁ (by omega)).carry (fun _ => rfl) (fun _ => rfl)
termination_by 4 * s.left + 2
decreasing_by all_goals omega

theorem climb_reads {s : State tape} {r : Reader} {depth : Nat} (least : Int) (left : Expr)
    (h : At s r) (hdepth : 4 * s.left + 3 < depth) :
    Reads (climb tape.tokens least left depth) r (OnePass.climb least left s) := by
  cases depth with
  | zero => omega
  | succ depth =>
  rw [OnePass.climb]
  by_cases hleast : s.kind.precedence < 0 ∨ s.kind.precedence < least
  · rw [if_pos hleast]
    refine h.look ?_
    rw [token_kind, if_pos hleast]
    exact .ret h rfl
  rw [if_neg hleast]
  split
  · next op hk =>
    have := State.left_advance_lt (s := s) (by simp [hk])
    refine h.look ?_
    rw [token_kind, if_neg hleast]
    simp only [hk]
    refine h.move (by simp [hk]) fun r₁ h₁ => ?_
    refine (operand_reads _ h₁ (by omega)).bind fun right r₂ h₂ => ?_
    have := right.nearer
    exact (climb_reads least _ h₂ (by omega)).carry (fun _ => rfl) (fun _ => rfl)
  · next hk =>
    refine h.look ?_
    rw [token_kind, if_neg hleast]
    split
    · next op hop => exact absurd hop (hk op)
    · exact h.unexpected _
termination_by 4 * s.left + 3
decreasing_by all_goals omega

theorem operand_reads {s : State tape} {r : Reader} {depth : Nat} (bound : Int) (h : At s r)
    (hdepth : 4 * s.left + 2 < depth) :
    Reads (operand tape.tokens bound depth) r (OnePass.operand bound s) := by
  cases depth with
  | zero => omega
  | succ depth =>
  rw [OnePass.operand]
  refine (unary_reads h (by omega)).bind fun right r₁ h₁ => ?_
  have := right.nearer
  refine h₁.look ?_
  rw [token_kind]
  by_cases hbound : bound < right.state.kind.precedence
  · rw [if_pos hbound, if_pos hbound]
    exact (climb_reads _ right.value h₁ (by omega)).carry (fun _ => rfl) (fun _ => rfl)
  · rw [if_neg hbound, if_neg hbound]
    exact .ret h₁ rfl
termination_by 4 * s.left + 2
decreasing_by all_goals omega

theorem unary_reads {s : State tape} {r : Reader} {depth : Nat} (h : At s r)
    (hdepth : 4 * s.left + 1 < depth) : Reads (unary tape.tokens depth) r (OnePass.unary s) := by
  cases depth with
  | zero => omega
  | succ depth =>
  rw [OnePass.unary]
  refine h.look ?_
  rw [token_kind]
  by_cases hk : s.kind = .arith .sub
  · have := State.left_advance_lt (s := s) (by simp [hk])
    rw [if_pos hk, dif_pos hk]
    refine h.move (by simp [hk]) fun r₁ h₁ => ?_
    refine (unary_reads h₁ (by omega)).bind fun inner r₂ h₂ => ?_
    exact .ret h₂ rfl
  · rw [if_neg hk, dif_neg hk]
    exact primary_reads h (by omega)
termination_by 4 * s.left + 1
decreasing_by all_goals omega

theorem primary_reads {s : State tape} {r : Reader} {depth : Nat} (h : At s r)
    (hdepth : 4 * s.left < depth) : Reads (primary tape.tokens depth) r (OnePass.primary s) := by
  cases depth with
  | zero => omega
  | succ depth =>
  rw [OnePass.primary]
  split
  · next x hk =>
    refine h.look ?_
    rw [(token_kind s).trans hk]
    refine h.rename (·.read x) fun r₁ h₁ => ?_
    exact h₁.move (by simp [hk]) fun r₂ h₂ => .ret h₂ rfl
  · next value hk =>
    refine h.look ?_
    rw [(token_kind s).trans hk]
    exact h.move (by simp [hk]) fun r₁ h₁ => .ret h₁ rfl
  · next hk =>
    have := State.left_advance_lt (s := s) (by simp [hk])
    refine h.look ?_
    rw [(token_kind s).trans hk]
    refine h.move (by simp [hk]) fun r₁ h₁ => ?_
    refine (expression_reads h₁ (by omega)).bind fun inner r₂ h₂ => ?_
    refine (expect_reads _ _ (by decide) h₂).bind fun close r₃ h₃ => ?_
    exact .ret h₃ rfl
  · next hk =>
    refine h.look ?_
    rw [(token_kind s).trans hk]
    exact h.unexpected _
  · next hname hliteral hparen heof =>
    refine h.look ?_
    rw [token_kind]
    split
    · next x hk => exact absurd hk (hname x)
    · next value hk => exact absurd hk (hliteral value)
    · next hk => exact absurd hk hparen
    · next hk => exact absurd hk heof
    · exact .fail h _
termination_by 4 * s.left
decreasing_by all_goals omega

end

/-! ## Conditions

The measures are greater by two than those on the tape, so that the bound for a condition is also
one for the expressions of a comparison at the same place. -/

theorem comparison_reads {depth : Nat} (h : At s r) (hdepth : 4 * s.left + 2 < depth) :
    Reads (comparison tape.tokens depth) r (OnePass.comparison s) := by
  rw [OnePass.comparison]
  refine (expression_reads h hdepth).bind fun left r₁ h₁ => ?_
  have := left.nearer
  split
  · next op hk =>
    have := State.left_advance_lt (s := left.state) (by simp [hk])
    refine h₁.look ?_
    rw [(token_kind _).trans hk]
    refine h₁.move (by simp [hk]) fun r₂ h₂ => ?_
    refine (expression_reads h₂ (by omega)).bind fun right r₃ h₃ => ?_
    exact .ret h₃ rfl
  · next hk =>
    refine h₁.look ?_
    rw [(token_kind _).trans hk]
    exact h₁.unexpected _
  · next hrel heof =>
    refine h₁.look ?_
    rw [token_kind]
    split
    · next op hk => exact absurd hk (hrel op)
    · next hk => exact absurd hk heof
    · exact .fail h₁ _

/-- The way back to a record of an earlier state. -/
theorem At.restore {s' : State tape} (h : At s r) (h' : At s' r')
    (htraced : Traced tape.tokens r r') :
    ∃ r'', Ends (restore r.record) r' (.ok ()) r'' ∧ At (s'.restore s.checkpoint) r'' ∧
      Traced tape.tokens r r'' := by
  obtain ⟨later, hvisited, hmem⟩ := htraced.visited
  have hhere : Within tape.tokens r.idx r.idx := .refl h.lt
  refine ⟨_, rfl, ⟨h.idx, ?_⟩, hhere, ⟨r.idx :: later, ?_, ?_⟩, htraced.consumed⟩
  · rw [record, h.names, h'.names]
    rfl
  · rw [hvisited]
    rfl
  · intro i hi
    rcases List.mem_cons.1 hi with rfl | hi
    · exact hhere
    · exact hmem i hi

/-- What an attempt comes to: a value if it has found one, and the state. -/
def result {α : Type} : Attempt s α → Option α × State tape
  | .found moved => (some moved.value, moved.state)
  | .undone back _ => (none, back)

mutual

theorem condition_reads {s : State tape} {r : Reader} {depth : Nat} (h : At s r)
    (hdepth : 4 * s.left + 5 < depth) :
    Reads (condition tape.tokens depth) r (OnePass.condition s) := by
  cases depth with
  | zero => omega
  | succ depth =>
  rw [OnePass.condition]
  refine (conjunction_reads h (by omega)).bind fun first r₁ h₁ => ?_
  have := first.nearer
  exact (conditionTail_reads first.value h₁ (by omega)).carry (fun _ => rfl) (fun _ => rfl)
termination_by 4 * s.left + 5
decreasing_by all_goals omega

theorem conditionTail_reads {s : State tape} {r : Reader} {depth : Nat} (left : Condition)
    (h : At s r) (hdepth : 4 * s.left + 5 < depth) :
    Reads (conditionTail tape.tokens left depth) r (OnePass.conditionTail left s) := by
  cases depth with
  | zero => omega
  | succ depth =>
  rw [OnePass.conditionTail]
  refine h.look ?_
  rw [token_kind]
  by_cases hk : s.kind = .logic .or
  · have := State.left_advance_lt (s := s) (by simp [hk])
    rw [if_pos hk, dif_pos hk]
    refine h.move (by simp [hk]) fun r₁ h₁ => ?_
    refine (conjunction_reads h₁ (by omega)).bind fun right r₂ h₂ => ?_
    have := right.nearer
    exact (conditionTail_reads _ h₂ (by omega)).carry (fun _ => rfl) (fun _ => rfl)
  · rw [if_neg hk, dif_neg hk]
    exact .ret h rfl
termination_by 4 * s.left + 5
decreasing_by all_goals omega

theorem conjunction_reads {s : State tape} {r : Reader} {depth : Nat} (h : At s r)
    (hdepth : 4 * s.left + 4 < depth) :
    Reads (conjunction tape.tokens depth) r (OnePass.conjunction s) := by
  cases depth with
  | zero => omega
  | succ depth =>
  rw [OnePass.conjunction]
  refine (negation_reads h (by omega)).bind fun first r₁ h₁ => ?_
  have := first.nearer
  exact (conjunctionTail_reads first.value h₁ (by omega)).carry (fun _ => rfl) (fun _ => rfl)
termination_by 4 * s.left + 4
decreasing_by all_goals omega

theorem conjunctionTail_reads {s : State tape} {r : Reader} {depth : Nat} (left : Condition)
    (h : At s r) (hdepth : 4 * s.left + 5 < depth) :
    Reads (conjunctionTail tape.tokens left depth) r (OnePass.conjunctionTail left s) := by
  cases depth with
  | zero => omega
  | succ depth =>
  rw [OnePass.conjunctionTail]
  refine h.look ?_
  rw [token_kind]
  by_cases hk : s.kind = .logic .and
  · have := State.left_advance_lt (s := s) (by simp [hk])
    rw [if_pos hk, dif_pos hk]
    refine h.move (by simp [hk]) fun r₁ h₁ => ?_
    refine (negation_reads h₁ (by omega)).bind fun right r₂ h₂ => ?_
    have := right.nearer
    exact (conjunctionTail_reads _ h₂ (by omega)).carry (fun _ => rfl) (fun _ => rfl)
  · rw [if_neg hk, dif_neg hk]
    exact .ret h rfl
termination_by 4 * s.left + 5
decreasing_by all_goals omega

theorem negation_reads {s : State tape} {r : Reader} {depth : Nat} (h : At s r)
    (hdepth : 4 * s.left + 3 < depth) :
    Reads (negation tape.tokens depth) r (OnePass.negation s) := by
  cases depth with
  | zero => omega
  | succ depth =>
  rw [OnePass.negation]
  split
  · next hk =>
    have := State.left_advance_lt (s := s) (by simp [hk])
    refine h.look ?_
    rw [(token_kind s).trans hk]
    refine h.move (by simp [hk]) fun r₁ h₁ => ?_
    refine (negation_reads h₁ (by omega)).bind fun inner r₂ h₂ => ?_
    exact .ret h₂ rfl
  · next hk =>
    have hgroup := tryGroup_reads h hk (by omega : 4 * s.left + 2 < depth)
    refine h.look ?_
    rw [(token_kind s).trans hk]
    cases hattempt : OnePass.tryGroup s hk with
    | found group =>
        rw [hattempt] at hgroup
        cases hgroup with
        | found ends place traced => exact .after ends traced (.ret place rfl)
    | undone back hplace =>
        rw [hattempt] at hgroup
        have hleft := State.left_le_of_idx_eq hplace
        cases hgroup with
        | found ends place traced =>
            have hback : At back _ := place
            have hwhole := comparison_reads hback (by omega : 4 * back.left + 2 < depth)
            exact .after ends traced (hwhole.carry (fun _ => rfl) (fun _ => rfl))
  · next hbang hparen =>
    refine h.look ?_
    rw [token_kind]
    split
    · next hk => exact absurd hk hbang
    · next hk => exact absurd hk hparen
    · exact comparison_reads h (by omega)
termination_by 4 * s.left + 3
decreasing_by all_goals omega

/-- An attempt, which goes back to its record wherever it gives up. -/
theorem tryGroup_reads {s : State tape} {r : Reader} {depth : Nat} (h : At s r)
    (hk : s.kind = .leftParen) (hdepth : 4 * s.left + 2 < depth) :
    Realizes Prod.fst Prod.snd (tryGroup tape.tokens depth) r
      (.ok (result (OnePass.tryGroup s hk))) := by
  have := State.left_advance_lt (s := s) (by simp [hk])
  cases depth with
  | zero => omega
  | succ depth =>
  have hcheckpoint : Ends checkpoint r (.ok r.record) r := rfl
  obtain ⟨r₁, hends₁, h₁, ht₁⟩ := h.advance (by simp [hk])
  have hinside := condition_reads h₁ (by omega : 4 * s.advance.left + 5 < depth)
  rw [OnePass.tryGroup]
  cases hcondition : OnePass.condition s.advance with
  | error k =>
      rw [hcondition] at hinside
      cases hinside with
      | stuck ends place traced =>
          obtain ⟨r₂, hends₂, h₂, ht₂⟩ := h.restore place (ht₁.trans traced)
          exact .found (hcheckpoint.bind (hends₁.bind (ends.attempt_error.bind
            (hends₂.bind (ends_pure _ _))))) h₂ ht₂
  | ok inner =>
      rw [hcondition] at hinside
      cases hinside with
      | found ends place traced =>
          have htraced := ht₁.trans traced
          by_cases hclose : inner.state.kind = .rightParen
          · obtain ⟨r₂, hends₂, h₂, ht₂⟩ := place.advance (by simp [hclose])
            by_cases hbehind : inner.state.advance.kind.isRelational = false ∧
                inner.state.advance.kind.precedence < 0
            · simp only [dif_pos hclose, if_pos hbehind]
              refine .found (hcheckpoint.bind (hends₁.bind (ends.attempt_ok.bind
                (place.current.bind ?_)))) h₂ (htraced.trans ht₂)
              rw [if_pos ((token_kind _).trans hclose)]
              refine hends₂.bind (h₂.current.bind ?_)
              rw [token_kind, if_pos hbehind]
              exact ends_pure _ _
            · -- an operator behind the closing parenthesis
              obtain ⟨r₃, hends₃, h₃, ht₃⟩ := h.restore h₂ (htraced.trans ht₂)
              simp only [dif_pos hclose, if_neg hbehind]
              refine .found (hcheckpoint.bind (hends₁.bind (ends.attempt_ok.bind
                (place.current.bind ?_)))) h₃ ht₃
              rw [if_pos ((token_kind _).trans hclose)]
              refine hends₂.bind (h₂.current.bind ?_)
              rw [token_kind, if_neg hbehind]
              exact hends₃.bind (ends_pure _ _)
          · -- no closing parenthesis
            obtain ⟨r₂, hends₂, h₂, ht₂⟩ := h.restore place htraced
            simp only [dif_neg hclose]
            refine .found (hcheckpoint.bind (hends₁.bind (ends.attempt_ok.bind
              (place.current.bind ?_)))) h₂ ht₂
            rw [token_kind, if_neg hclose]
            exact hends₂.bind (ends_pure _ _)
termination_by 4 * s.left + 2
decreasing_by all_goals omega

end

end Reader

end Pseudocode.Indexed
