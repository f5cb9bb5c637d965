import Pseudocode.Proofs.Conversion.Totality
import Pseudocode.Session

/-!
# Questions of a conversion

A conversion that lacks a type asks for one name and starts again from scratch with the answer.
The names it asks for are those that its source reads first, one after the other: the order in
which types are resolved is the order of the mentions, and an answer settles its name for good.
-/
namespace Pseudocode

section Parsed
variable {tokens : List Token} {f : Function}

/-- What is declared up front is mentioned, so looking it up again meets nothing new. -/
theorem firstReads_with_free (h : parse tokens = .ok f) :
    firstReads (f.mentions ++ readMentions [] f.free) = f.firstReads := by
  have hold : newReads (f.mentions.map (·.name)) (readMentions [] f.free) = [] := by
    apply newReads_eq_nil
    intro m hm
    obtain ⟨x, hx, rfl⟩ := List.mem_map.1 hm
    obtain ⟨k, hk, hname⟩ := (settled_of_parse h).mentioned hx
    exact List.mem_map.2 ⟨k, hk, hname⟩
  rw [firstReads_append, hold, List.append_nil]
  rfl

theorem requireAll_eq_self {Γ : Context} {xs : List String}
    (h : ∀ x ∈ xs, Γ.known.lacks x = false) : Γ.requireAll xs = .ok Γ := by
  induction xs with
  | nil => rfl
  | cons x xs ih =>
      rw [List.forall_mem_cons] at h
      obtain ⟨t, ht⟩ := TypeMap.lacks_eq_false.1 h.1
      have hx : Γ.require x = .ok (t, Γ) := by rw [Context.require, ht]
      rw [Context.requireAll, hx]
      exact ih h.2

/-- The look-up of the names declared up front neither fails nor adds a type. -/
theorem requireAll_free_of_resolve (h : parse tokens = .ok f) {hints : TypeMap} {r : Resolved}
    (hr : (f.resolve hints).outcome = .ok r) : r.context.requireAll f.free = .ok r.context := by
  have hwalked := resolve_walked f hints
  rw [hr] at hwalked
  cases hwalked with
  | resolved behind =>
      apply requireAll_eq_self
      intro x hx
      obtain ⟨m, hm, rfl⟩ := (settled_of_parse h).mentioned hx
      exact (behind.known _).2 (List.mem_map_of_mem hm)

end Parsed

/-- The conversions of a source ask for the first of these names that has no type, and succeed if
all of them have one. -/
structure AsksFor (source : String) (names : List String) : Prop where
  succeeds : ∀ hints : TypeMap, names.find? hints.lacks = none → ∃ p, convert source hints = .ok p
  missing : ∀ (hints : TypeMap) (x : String), names.find? hints.lacks = some x →
    convert source hints = .error (.missingType x)

/-- A conversion asks for the names that are read first, in their order. -/
theorem asksFor_firstReads {source : String} {tokens : List Token} {f : Function}
    (htokens : tokenize source = .ok tokens) (hparse : parse tokens = .ok f) :
    AsksFor source f.firstReads where
  succeeds hints hnone := by
    have hwalked := check_walked f hints
    generalize hcheck : check f hints = out at hwalked
    cases hwalked with
    | resolved behind =>
        obtain ⟨p, -, hp⟩ := convert_of_check htokens hparse hcheck
        exact ⟨p, hp⟩
    | missing first =>
        rw [firstReads_with_free hparse, hnone] at first
        cases first
  missing hints x hx := by
    have hwalked := check_walked f hints
    generalize hcheck : check f hints = out at hwalked
    cases hwalked with
    | resolved behind =>
        have hanswered := behind.answered x
          (by rw [firstReads_with_free hparse]; exact List.mem_of_find?_eq_some hx)
        have hlacks : hints.lacks x = true := List.find?_some hx
        exact absurd (hanswered.symm.trans hlacks) (by simp)
    | missing first =>
        rw [firstReads_with_free hparse, hx] at first
        obtain rfl := Option.some.inj first
        exact convert_of_missing htokens hparse hcheck

/-- A conversion succeeds exactly if all the names that it asks for have types. -/
theorem AsksFor.succeeds_iff {source : String} {names : List String} (h : AsksFor source names)
    (hints : TypeMap) : (∃ p, convert source hints = .ok p) ↔
      ∀ x ∈ names, ∃ t, hints.get? x = some t := by
  constructor
  · rintro ⟨p, hp⟩ x hx
    by_contra hnone
    have hfound : (names.find? hints.lacks).isSome = true := by
      rw [List.find?_isSome]
      refine ⟨x, hx, ?_⟩
      rwa [← TypeMap.lacks_eq_false, Bool.not_eq_false] at hnone
    obtain ⟨y, hy⟩ := Option.isSome_iff_exists.1 hfound
    have hmissing := h.missing hints y hy
    rw [hp] at hmissing
    cases hmissing
  · intro hall
    apply h.succeeds hints
    rw [List.find?_eq_none]
    intro x hx
    simp [TypeMap.lacks_eq_false.2 (hall x hx)]

/-- An answer settles the first open name and no other. -/
theorem filter_lacks_insert {names open' : List String} {hints : TypeMap} {x : String}
    (hnodup : names.Nodup) (h : names.filter hints.lacks = x :: open') (t : DataType) :
    names.filter (hints.insert x t).lacks = open' := by
  have hfilter : names.filter (hints.insert x t).lacks =
      (names.filter hints.lacks).filter (fun y => decide (y ≠ x)) := by
    rw [List.filter_filter]
    apply List.filter_congr
    intro y _
    exact TypeMap.lacks_insert hints x y t
  have hopen : (x :: open').Nodup := by
    rw [← h]
    exact hnodup.filter _
  have hx : ∀ y ∈ open', y ≠ x := by
    rintro y hy rfl
    exact (List.nodup_cons.1 hopen).1 hy
  rw [hfilter, h]
  simpa using hx

namespace Session

/-- The types named so far, and those that answer the questions. -/
def answered (hints : TypeMap) (answers : List (String × DataType)) : TypeMap :=
  answers.foldl (fun hints answer => hints.insert answer.1 answer.2) hints

/-- **The right questions**: a row of conversions with answers of these types, from a session to
its end, when the source needs the types of `names`. -/
structure AsksExactly (names : List String) (types : List DataType) (s : Session)
    (finish : Retries × Session) : Prop where
  /-- The first names without a type are asked for, as many as there are answers for. -/
  asked : finish.1.asked = (names.filter s.hints.lacks).take
    (min types.length (names.filter s.hints.lacks).length)
  /-- No name is asked for twice. -/
  nodup : finish.1.asked.Nodup
  /-- Every answer names the type of the name that was asked for, and nothing else changes. -/
  session : finish.2 = ⟨s.source, answered s.hints (finish.1.asked.zip types)⟩
  /-- The last conversion is made with all the answers. -/
  result : finish.1.result = .ok finish.2.run
  /-- It succeeds if every name has a type. -/
  succeeds : (∃ p, finish.2.run.outcome = .ok p) ↔
    ∀ x ∈ names, ∃ t, finish.2.hints.get? x = some t
  /-- Otherwise it asks for the first name that still has none. -/
  missing : ∀ x, names.find? finish.2.hints.lacks = some x →
    finish.2.run.outcome = .error (.missingType x)

/-- A session in which nothing is missing makes one conversion. -/
theorem retry_of_done {s : Session} {p : Program} (h : s.run.outcome = .ok p)
    (answers : List String) : s.retry answers = (⟨[], .ok s.run⟩, s) := by
  cases answers with
  | nil => rfl
  | cons answer rest => rw [retry, h]

/-- A question takes the next answer, and the session goes on with it. -/
theorem retry_of_missing {s : Session} {x answer : String} {t : DataType}
    (h : s.run.outcome = .error (.missingType x)) (ht : DataType.ofName answer = .ok t)
    (rest : List String) :
    s.retry (answer :: rest) =
      (⟨x :: ((s.hint x t).2.retry rest).1.asked, ((s.hint x t).2.retry rest).1.result⟩,
        ((s.hint x t).2.retry rest).2) := by
  rw [retry, h]
  simp only [ht]

/-- What is asked, remembered and given back by a row of conversions. -/
theorem retry_eq {source : String} {names : List String} (h : AsksFor source names)
    (hnodup : names.Nodup) {answers : List String} {types : List DataType}
    (hanswers : answers.map DataType.ofName = types.map .ok) (hints : TypeMap) :
    (retry ⟨source, hints⟩ answers).1.asked = (names.filter hints.lacks).take types.length ∧
    (retry ⟨source, hints⟩ answers).2 =
      ⟨source, answered hints ((retry ⟨source, hints⟩ answers).1.asked.zip types)⟩ ∧
    (retry ⟨source, hints⟩ answers).1.result = .ok (retry ⟨source, hints⟩ answers).2.run := by
  -- induction on the answers: each of them shortens the list of open names by its first one
  induction answers generalizing hints types with
  | nil =>
      obtain rfl : types = [] := by simpa using hanswers.symm
      exact ⟨by simp [retry], rfl, rfl⟩
  | cons answer rest ih =>
      obtain ⟨t, types, rfl, ht, hrest⟩ : ∃ t types', types = t :: types' ∧
          DataType.ofName answer = .ok t ∧ rest.map DataType.ofName = types'.map .ok := by
        cases types with
        | nil => simp at hanswers
        | cons t types => exact ⟨t, types, rfl, by simpa using hanswers⟩
      cases hopen : names.filter hints.lacks with
      | nil =>
          have hnone : names.find? hints.lacks = none := by
            rw [← List.head?_filter, hopen]
            rfl
          obtain ⟨p, hp⟩ := h.succeeds hints hnone
          rw [retry_of_done (s := ⟨source, hints⟩) hp]
          exact ⟨rfl, rfl, rfl⟩
      | cons x later =>
          have hfound : names.find? hints.lacks = some x := by
            rw [← List.head?_filter, hopen]
            rfl
          have hmissing := h.missing hints x hfound
          have hlater := filter_lacks_insert hnodup hopen t
          obtain ⟨hasked, hsession, hresult⟩ := ih hrest (hints.insert x t)
          rw [hlater] at hasked
          rw [retry_of_missing (s := ⟨source, hints⟩) hmissing ht]
          refine ⟨?_, hsession, hresult⟩
          rw [List.length_cons, List.take_succ_cons, ← hasked]
          rfl

/-- A session asks for the names that are left, one for each answer. -/
theorem retry_asksExactly {source : String} {names : List String} (h : AsksFor source names)
    (hnodup : names.Nodup) {answers : List String} {types : List DataType}
    (hanswers : answers.map DataType.ofName = types.map .ok) (hints : TypeMap) :
    AsksExactly names types ⟨source, hints⟩ (retry ⟨source, hints⟩ answers) := by
  obtain ⟨hasked, hsession, hresult⟩ := retry_eq h hnodup hanswers hints
  have hsource : (retry ⟨source, hints⟩ answers).2.source = source := by rw [hsession]
  have hrun : (retry ⟨source, hints⟩ answers).2.run.outcome =
      convert source (retry ⟨source, hints⟩ answers).2.hints := by
    rw [run, hsource]
    rfl
  exact {
    asked := by rw [hasked, ← List.take_eq_take_min]
    nodup := by
      rw [hasked]
      exact (hnodup.filter _).sublist (List.take_sublist _ _)
    session := hsession
    result := hresult
    succeeds := by
      rw [hrun]
      exact h.succeeds_iff _
    missing := by
      intro x hx
      rw [hrun]
      exact h.missing _ x hx }

end Session

/-- **A conversion asks exactly the right questions.** Let a source be read as a function. The names
that the function reads first are those whose first mention is a read, in the order of these reads.
Whatever types are known at the start and whatever types are answered, the names asked for are those
of them without a type, in order and each of them once, as long as there are answers; the row of
conversions ends well exactly if all of them have a type. The look-up of the names declared up
front, which come last in every resolution, changes nothing. -/
theorem asks_for_first_reads {source : String} {tokens : List Token} {f : Function}
    (htokens : tokenize source = .ok tokens) (hparse : parse tokens = .ok f) :
    ReadFirst f.mentions f.firstReads ∧
    (∀ (hints : TypeMap) (answers : List String) (types : List DataType),
      answers.map DataType.ofName = types.map .ok →
      Session.AsksExactly f.firstReads types ⟨source, hints⟩
        (Session.retry ⟨source, hints⟩ answers)) ∧
    (∀ (hints : TypeMap) (r : Resolved), (f.resolve hints).outcome = .ok r →
      r.context.requireAll f.free = .ok r.context) := by
  have hreads : ReadFirst f.mentions f.firstReads := readFirst_firstReads f.mentions
  refine ⟨hreads, ?_, ?_⟩
  · intro hints answers types hanswers
    exact Session.retry_asksExactly (asksFor_firstReads htokens hparse) hreads.nodup hanswers hints
  · intro hints r hr
    exact requireAll_free_of_resolve hparse hr

/-- A source that declares `x` up front without asking for it, because it is assigned first. -/
def hoistedSource : String := "if (a < b) \x7b x gets 1; \x7d y gets x + c;"

/-- Two of its three questions are open, blanks around the name of a type do not count, and with all
types at hand the look-up of the names declared up front finds `x` resolved. -/
theorem hoistedSource_asks :
    ∃ tokens f r, tokenize hoistedSource = .ok tokens ∧ parse tokens = .ok f ∧
      f.free = ["a", "b", "x", "c"] ∧ f.firstReads = ["a", "b", "c"] ∧
      (Session.retry ⟨hoistedSource, ⟨[("b", .int)]⟩⟩ ["long", " float "]).1.asked = ["a", "c"] ∧
      Session.AsksExactly f.firstReads [.long, .float] ⟨hoistedSource, ⟨[("b", .int)]⟩⟩
        (Session.retry ⟨hoistedSource, ⟨[("b", .int)]⟩⟩ ["long", " float "]) ∧
      (f.resolve ⟨[("a", .long), ("b", .int), ("c", .float)]⟩).outcome = .ok r ∧
      r.context.requireAll f.free = .ok r.context := by
  have hlexed := eq_ok_of_isSome (x := tokenize hoistedSource) (by decide +kernel) []
  have hparsed := eq_ok_of_isSome (x := parse ((tokenize hoistedSource).toOption.getD []))
    (by decide +kernel) ⟨"", [], false, [], .start⟩
  refine ⟨_, _, ?r, hlexed, hparsed, ?free, ?reads, ?asked,
    (asks_for_first_reads hlexed hparsed).2.1 _ _ _ ?answers, ?resolved,
    (asks_for_first_reads hlexed hparsed).2.2 _ _ ?resolved⟩
  case resolved =>
    refine eq_ok_of_isSome ?_ (Resolved.mk (.ofHints .empty) none)
    decide +kernel
  case free => decide +kernel
  case reads => decide +kernel
  case asked => decide +kernel
  case answers => decide +kernel

end Pseudocode
