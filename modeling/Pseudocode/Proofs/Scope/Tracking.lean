import Pseudocode.Proofs.Scope.Locality
import Mathlib.Data.List.Forall2

/-!
# The declarations in progress follow the mentions

Marking a body threads a record of the declarations made so far. This module says what that
record is in terms of the mentions already passed: the free names are those that some mention
has freed, and an open or closed scope holds the names that are local to it. There is one
lemma for each kind of step, and from these the record of a whole body.
-/
namespace Pseudocode

/-- The record `s` says of every name what the mentions `ms` say, seen from the scope `p`. -/
structure Tracks (s : Scopes) (ms : List Mention) (p : List Nat) : Prop where
  free : ∀ x, x ∈ s.free ↔ Freed ms x
  /-- One list of names per open scope: the scope `p` and the ones around it. -/
  stack : List.Forall₂ (fun names q => ∀ x, x ∈ names ↔ LocalTo ms q x) s.stack p.tails
  expired : ∀ x, x ∈ s.expired ↔ ∃ q, LocalTo ms q x ∧ ¬ q <:+ p
  freedAt : ∀ x ∈ s.free, ∃ i, FreedAt ms x i
  ordered : s.free.Pairwise fun x y => ∃ i j, FreedAt ms x i ∧ FreedAt ms y j ∧ i < j
  /-- So far every first assignment declares. -/
  declares : ∀ (i : Nat) (m : Mention), ms[i]? = some m →
    (m.declares = true ↔ m.use = .write ∧ ∀ k ∈ ms.take i, k.name ≠ m.name)

theorem tracks_start : Tracks .start [] [] where
  free := by simp [Scopes.start, Freed, firstMention?]
  stack := by
    refine .cons ?_ .nil
    intro x
    simp [LocalTo, firstMention?]
  expired := by simp [Scopes.start, LocalTo, firstMention?]
  freedAt := by simp [Scopes.start]
  ordered := .nil
  declares := by simp

/-- The names of the open scopes are those that are local to one of them. -/
theorem Tracks.mem_stack {s : Scopes} {ms : List Mention} {p : List Nat} (h : Tracks s ms p)
    (x : String) : (∃ names ∈ s.stack, x ∈ names) ↔ ∃ q, LocalTo ms q x ∧ q <:+ p := by
  have key : ∀ (stack : List (List String)) (paths : List (List Nat)),
      List.Forall₂ (fun names q => ∀ x, x ∈ names ↔ LocalTo ms q x) stack paths →
      ((∃ names ∈ stack, x ∈ names) ↔ ∃ q ∈ paths, LocalTo ms q x) := by
    intro stack paths hs
    induction hs with
    | nil => simp
    | cons hhead _ ih => simp [hhead x, ih]
  rw [key _ _ h.stack]
  constructor
  · rintro ⟨q, hq, hl⟩
    exact ⟨q, hl, (List.mem_tails _ _).1 hq⟩
  · rintro ⟨q, hl, hq⟩
    exact ⟨q, (List.mem_tails _ _).2 hq, hl⟩

/-- A name can be seen if it is free or local to an open scope. -/
theorem Tracks.isVisible_iff {s : Scopes} {ms : List Mention} {p : List Nat} (h : Tracks s ms p)
    (x : String) : s.isVisible x = true ↔ Freed ms x ∨ ∃ q, LocalTo ms q x ∧ q <:+ p := by
  rw [← h.mem_stack x, ← h.free x]
  simp [Scopes.isVisible]

/-- A name that cannot be seen is new, or local to a scope that is closed. -/
theorem Tracks.new_or_expired {s : Scopes} {ms : List Mention} {p : List Nat} (h : Tracks s ms p)
    {x : String} (hv : ¬ s.isVisible x = true) :
    firstMention? ms x = none ∨ ∃ q, LocalTo ms q x ∧ ¬ q <:+ p := by
  rw [h.isVisible_iff, not_or] at hv
  cases hf : firstMention? ms x with
  | none => exact .inl rfl
  | some m =>
      right
      rcases freed_or_localTo hf with hfreed | hl
      · exact absurd hfreed hv.1
      · exact ⟨m.scope, hl, fun hq => hv.2 ⟨m.scope, hl, hq⟩⟩

/-- The names of the open scopes are the same if the mentions say the same about them. -/
theorem stack_congr {ms ms' : List Mention} {stack : List (List String)} {paths : List (List Nat)}
    (h : List.Forall₂ (fun names q => ∀ x, x ∈ names ↔ LocalTo ms q x) stack paths)
    (hl : ∀ q ∈ paths, ∀ x, LocalTo ms' q x ↔ LocalTo ms q x) :
    List.Forall₂ (fun names q => ∀ x, x ∈ names ↔ LocalTo ms' q x) stack paths := by
  induction h with
  | nil => exact .nil
  | cons hhead _ ih =>
      refine .cons ?_ (ih fun q hq => hl q (List.mem_cons_of_mem _ hq))
      intro x
      rw [hhead, hl _ List.mem_cons_self]

theorem not_cons_suffix (i : Nat) (p : List Nat) : ¬ (i :: p) <:+ p := by
  intro h
  have := h.length_le
  rw [List.length_cons] at this
  omega

/-- The open scopes are the innermost one and the ones around it. -/
theorem tails_eq_cons (p : List Nat) : ∃ around, p.tails = p :: around ∧ ∀ q ∈ around, q ≠ p := by
  cases p with
  | nil => exact ⟨[], rfl, by simp⟩
  | cons i p =>
      refine ⟨p.tails, List.tails_cons i p, ?_⟩
      rintro q hq rfl
      exact not_cons_suffix i p ((List.mem_tails _ _).1 hq)

/-! ## One mention -/

section Step
variable {s : Scopes} {ms : List Mention} {p : List Nat} {m : Mention}

/-- The order in which names were freed is not disturbed by later mentions. -/
theorem Tracks.ordered_append (h : Tracks s ms p) (more : List Mention) :
    s.free.Pairwise fun x y =>
      ∃ i j, FreedAt (ms ++ more) x i ∧ FreedAt (ms ++ more) y j ∧ i < j :=
  h.ordered.imp fun ⟨i, j, hi, hj, hlt⟩ => ⟨i, j, hi.append more, hj.append more, hlt⟩

theorem Tracks.freedAt_append (h : Tracks s ms p) (more : List Mention) :
    ∀ x ∈ s.free, ∃ i, FreedAt (ms ++ more) x i := by
  intro x hx
  obtain ⟨i, hi⟩ := h.freedAt x hx
  exact ⟨i, hi.append more⟩

theorem Tracks.declares_concat (h : Tracks s ms p)
    (hm : m.declares = true ↔ m.use = .write ∧ firstMention? ms m.name = none) :
    ∀ (i : Nat) (k : Mention), (ms ++ [m])[i]? = some k →
      (k.declares = true ↔ k.use = .write ∧ ∀ l ∈ (ms ++ [m]).take i, l.name ≠ k.name) := by
  intro i k hk
  rcases Nat.lt_or_ge i ms.length with hi | hi
  · rw [List.getElem?_append_left hi] at hk
    rw [List.take_append_of_le_length hi.le]
    exact h.declares i k hk
  · have hlen := (List.getElem?_eq_some_iff.1 hk).1
    rw [List.length_append, List.length_singleton] at hlen
    obtain rfl : i = ms.length := by omega
    obtain rfl : m = k := by simpa using hk
    rw [List.take_left, hm, firstMention?_eq_none]

/-- A mention of a name that can be seen needs no new declaration. -/
theorem Tracks.stay (h : Tracks s ms p) (hp : m.scope = p) (hv : s.isVisible m.name = true)
    (hd : m.declares = false) : Tracks s (ms ++ [m]) p := by
  have hvis := (h.isVisible_iff m.name).1 hv
  obtain ⟨hfreed, hlocal⟩ := concat_of_visible (hp ▸ hvis)
  refine ⟨?_, ?_, ?_, h.freedAt_append [m], h.ordered_append [m], h.declares_concat ?_⟩
  · simpa only [hfreed] using h.free
  · simpa only [hlocal] using h.stack
  · simpa only [hlocal] using h.expired
  · have hne : firstMention? ms m.name ≠ none := by
      rcases hvis with hf | ⟨q, hl, -⟩
      · exact hf.mentioned
      · exact hl.mentioned
    simp [hd, hne]

/-- A mention of a name that has to be declared up front. -/
theorem Tracks.toFront (h : Tracks s ms p) (hv : ¬ s.isVisible m.name = true)
    (hat : FreedAt (ms ++ [m]) m.name ms.length) (hf : Freed (ms ++ [m]) m.name)
    (hd : m.declares = false) (hm : ¬ (m.use = .write ∧ firstMention? ms m.name = none)) :
    Tracks (s.toFront m.name) (ms ++ [m]) p := by
  obtain ⟨hfree, hlocal⟩ := concat_of_freed hf
  refine ⟨?_, ?_, ?_, ?_, ?_, h.declares_concat (by simp [hd, hm])⟩
  · intro x
    rw [hfree, ← h.free]
    simp [Scopes.toFront]
  · refine stack_congr h.stack ?_
    intro q hq x
    rw [hlocal]
    refine ⟨fun hl => hl.1, fun hl => ⟨hl, ?_⟩⟩
    rintro rfl
    exact hv ((h.isVisible_iff m.name).2 (.inr ⟨q, hl, (List.mem_tails _ _).1 hq⟩))
  · intro x
    simp only [Scopes.toFront, ne_eq, decide_not, List.mem_filter, h.expired, Bool.not_eq_eq_eq_not,
      Bool.not_true, decide_eq_false_iff_not, hlocal]
    constructor
    · rintro ⟨⟨q, hl, hq⟩, hx⟩
      exact ⟨q, ⟨hl, hx⟩, hq⟩
    · rintro ⟨q, ⟨hl, hx⟩, hq⟩
      exact ⟨⟨q, hl, hq⟩, hx⟩
  · intro x hx
    rcases List.mem_append.1 hx with hx | hx
    · exact h.freedAt_append [m] x hx
    · exact ⟨ms.length, List.mem_singleton.1 hx ▸ hat⟩
  · refine List.pairwise_append.2 ⟨h.ordered_append [m], List.pairwise_singleton _ _, ?_⟩
    intro x hx y hy
    obtain ⟨i, hi⟩ := h.freedAt x hx
    exact ⟨i, ms.length, hi.append [m], List.mem_singleton.1 hy ▸ hat, hi.lt_length⟩

/-- A mention that declares a name in the innermost scope. -/
theorem Tracks.declareHere (h : Tracks s ms p) (hp : m.scope = p) (hu : m.use = .write)
    (hnew : firstMention? ms m.name = none) (hd : m.declares = true) :
    Tracks (s.declareHere m.name) (ms ++ [m]) p := by
  obtain ⟨hfree, hlocal⟩ := concat_of_local hnew hu
  obtain ⟨around, htails, haround⟩ := tails_eq_cons p
  have hstack := h.stack
  rw [htails] at hstack
  obtain ⟨names, outer, hnames, houter, hs⟩ := List.forall₂_cons_right_iff.1 hstack
  have hdecl : s.declareHere m.name = { s with stack := (names ++ [m.name]) :: outer } := by
    simp [Scopes.declareHere, hs]
  rw [hdecl]
  refine ⟨?_, ?_, ?_, h.freedAt_append [m], h.ordered_append [m],
    h.declares_concat (by simp [hd, hu, hnew])⟩
  · simpa only [hfree] using h.free
  · rw [htails]
    refine .cons ?_ (stack_congr houter ?_)
    · intro x
      simp [hlocal, hnames, hp]
    · intro q hq x
      rw [hlocal, hp]
      refine or_iff_left ?_
      rintro ⟨-, rfl⟩
      exact haround q hq rfl
  · intro x
    rw [h.expired]
    constructor
    · rintro ⟨q, hl, hq⟩
      exact ⟨q, (hlocal q x).2 (.inl hl), hq⟩
    · rintro ⟨q, hl, hq⟩
      rcases (hlocal q x).1 hl with hl | ⟨-, rfl⟩
      · exact ⟨q, hl, hq⟩
      · exact absurd (hp ▸ List.suffix_refl _) hq

/-- A mention that cannot declare. -/
theorem Tracks.need (h : Tracks s ms p) (hp : m.scope = p) (hu : m.use ≠ .write)
    (hd : m.declares = false) : Tracks (s.need m.name) (ms ++ [m]) p := by
  rw [Scopes.need]
  split
  next hv => exact h.stay hp hv hd
  next hv =>
    have hm : ¬ (m.use = .write ∧ firstMention? ms m.name = none) := fun hm => hu hm.1
    rcases h.new_or_expired hv with hnew | ⟨q, hl, hout⟩
    · exact h.toFront hv (freedAt_concat_of_new hnew hu) (freed_concat_of_new hnew hu) hd hm
    · have hout : ¬ q <:+ m.scope := hp ▸ hout
      exact h.toFront hv (hl.freedAt_concat hout) (hl.freed_concat hout) hd hm

/-- A mention that may declare, and does so if the name is new. -/
theorem Tracks.assign (h : Tracks s ms p) (hp : m.scope = p) (hu : m.use = .write)
    (hd : m.declares = (s.assign m.name).1) : Tracks (s.assign m.name).2 (ms ++ [m]) p := by
  by_cases hv : s.isVisible m.name = true
  · simp only [Scopes.assign, hv, if_true] at hd ⊢
    exact h.stay hp hv hd
  · rcases h.new_or_expired hv with hnew | ⟨q, hl, hout⟩
    · have hexp : ¬ m.name ∈ s.expired := by
        rw [h.expired]
        rintro ⟨q, hl, -⟩
        exact hl.mentioned hnew
      simp only [Scopes.assign, hv, if_false, List.contains_eq_mem, hexp, decide_false,
        Bool.false_eq_true] at hd ⊢
      exact h.declareHere hp hu hnew hd
    · have hexp : m.name ∈ s.expired := (h.expired m.name).2 ⟨q, hl, hout⟩
      have hout : ¬ q <:+ m.scope := hp ▸ hout
      simp only [Scopes.assign, hv, if_false, List.contains_eq_mem, hexp, decide_true, if_true,
        Bool.false_eq_true] at hd ⊢
      exact h.toFront hv (hl.freedAt_concat hout) (hl.freed_concat hout) hd
        fun hm => hl.mentioned hm.2

end Step

/-! ## Opening and closing a scope -/

/-- No mention lies in a scope opened from the `i`-th statement of `p` on. -/
def FreshFrom (ms : List Mention) (p : List Nat) (i : Nat) : Prop :=
  ∀ m ∈ ms, ∀ j, i ≤ j → ¬ (j :: p) <:+ m.scope

section Scoping
variable {s : Scopes} {ms : List Mention} {p : List Nat} {i : Nat}

theorem FreshFrom.append {more : List Mention} (h : FreshFrom ms p i)
    (hmore : FreshFrom more p i) : FreshFrom (ms ++ more) p i := by
  intro m hm
  rcases List.mem_append.1 hm with hm | hm
  · exact h m hm
  · exact hmore m hm

/-- Mentions in the scope itself lie in no scope inside it. -/
theorem freshFrom_of_scope_eq (h : ∀ m ∈ ms, m.scope = p) : FreshFrom ms p i := by
  intro m hm j _ hsuf
  rw [h m hm] at hsuf
  exact not_cons_suffix j p hsuf

/-- A scope that is new contains no earlier mention. -/
theorem FreshFrom.inner (h : FreshFrom ms p i) : FreshFrom ms (i :: p) 0 := by
  intro m hm j _ hsuf
  exact h m hm i le_rfl ((List.suffix_cons j _).trans hsuf)

theorem FreshFrom.not_localTo (h : FreshFrom ms p i) (x : String) : ¬ LocalTo ms (i :: p) x := by
  rintro ⟨m, hm, -, hq, -⟩
  exact h m (firstMention?_mem hm).1 i le_rfl (hq ▸ List.suffix_refl _)

/-- A scope that no mention lies in can be opened. -/
theorem Tracks.enter (h : Tracks s ms p) (hfresh : FreshFrom ms p i) :
    Tracks s.enter ms (i :: p) := by
  refine ⟨h.free, ?_, ?_, h.freedAt, h.ordered, h.declares⟩
  · rw [List.tails_cons]
    refine .cons ?_ h.stack
    intro x
    simp [hfresh.not_localTo x]
  · intro x
    rw [Scopes.enter, h.expired]
    refine exists_congr fun q => and_congr_right fun hl => not_congr ?_
    rw [List.suffix_cons_iff]
    refine (or_iff_right ?_).symm
    rintro rfl
    exact hfresh.not_localTo x hl

/-- A scope can be closed at any time. -/
theorem Tracks.leave (h : Tracks s ms (i :: p)) : Tracks s.leave ms p := by
  have hstack := h.stack
  rw [List.tails_cons] at hstack
  obtain ⟨names, outer, hnames, houter, hs⟩ := List.forall₂_cons_right_iff.1 hstack
  have hleave : s.leave = { s with stack := outer, expired := s.expired ++ names } := by
    simp [Scopes.leave, hs]
  rw [hleave]
  refine ⟨h.free, houter, ?_, h.freedAt, h.ordered, h.declares⟩
  intro x
  rw [List.mem_append, h.expired, hnames]
  constructor
  · rintro (⟨q, hl, hq⟩ | hl)
    · exact ⟨q, hl, fun hp => hq (hp.trans (List.suffix_cons i p))⟩
    · exact ⟨i :: p, hl, not_cons_suffix i p⟩
  · rintro ⟨q, hl, hq⟩
    by_cases hqi : q = i :: p
    · exact .inr (hqi ▸ hl)
    · refine .inl ⟨q, hl, fun hsuf => ?_⟩
      rcases List.suffix_cons_iff.1 hsuf with heq | hp
      · exact hqi heq
      · exact hq hp

end Scoping

theorem scope_of_mem_readMentions {p : List Nat} {xs : List String} {m : Mention}
    (h : m ∈ readMentions p xs) : m.scope = p := by
  obtain ⟨x, -, rfl⟩ := List.mem_map.1 h
  rfl

theorem Assignment.scope_of_mem_mentions {use : Use} {p : List Nat} {a : Assignment} {m : Mention}
    (h : m ∈ a.mentions use p) : m.scope = p := by
  rcases List.mem_append.1 h with h | h
  · exact scope_of_mem_readMentions h
  · rw [List.mem_singleton.1 h]

theorem Header.scope_of_mem_mentions {p : List Nat} {header : Header} {m : Mention}
    (h : m ∈ header.mentions p) : m.scope = p := by
  cases header with
  | ifThen c => exact scope_of_mem_readMentions h
  | whileDo c => exact scope_of_mem_readMentions h
  | forDo init c update =>
      rcases List.mem_append.1 h with h | h
      · rcases List.mem_append.1 h with h | h
        · exact Assignment.scope_of_mem_mentions h
        · exact scope_of_mem_readMentions h
      · exact Assignment.scope_of_mem_mentions h

theorem Header.scope_eq (p : List Nat) (i : Nat) (header : Header) :
    header.scope p i = p ∨ header.scope p i = i :: p := by
  cases header with
  | ifThen c => exact .inl rfl
  | whileDo c => exact .inl rfl
  | forDo init c update => exact .inr rfl

theorem Header.suffix_blockScope (p : List Nat) (i : Nat) (header : Header) :
    (i :: p) <:+ header.blockScope p i := by
  cases header with
  | ifThen c => exact List.suffix_refl _
  | whileDo c => exact List.suffix_refl _
  | forDo init c update => exact List.suffix_cons 0 _

mutual

/-- The mentions of the `i`-th statement of a scope lie in the scope or in one that the
statement opens. -/
theorem Stmt.scope_of_mem_mentions (p : List Nat) (i : Nat) (stmt : Stmt) {m : Mention}
    (h : m ∈ stmt.mentions p i) : m.scope = p ∨ (i :: p) <:+ m.scope := by
  match stmt with
  | .assign a => exact .inl (Assignment.scope_of_mem_mentions h)
  | .ret value _ => exact .inl (scope_of_mem_readMentions h)
  | .block header body _ =>
    rcases List.mem_append.1 h with h | h
    · rw [Header.scope_of_mem_mentions h]
      rcases header.scope_eq p i with hp | hp
      · exact .inl hp
      · exact .inr (hp ▸ List.suffix_refl _)
    · exact .inr ((header.suffix_blockScope p i).trans (Stmt.suffix_of_mem_allMentions _ 0 body h))

theorem Stmt.suffix_of_mem_allMentions (p : List Nat) (i : Nat) (body : List Stmt) {m : Mention}
    (h : m ∈ Stmt.allMentions p i body) : p <:+ m.scope := by
  match body with
  | [] => simp [Stmt.allMentions] at h
  | stmt :: rest =>
    rcases List.mem_append.1 h with h | h
    · rcases Stmt.scope_of_mem_mentions p i stmt h with hp | hp
      · exact hp ▸ List.suffix_refl _
      · exact (List.suffix_cons i p).trans hp
    · exact Stmt.suffix_of_mem_allMentions p (i + 1) rest h

end

/-- Behind the `i`-th statement of a scope the scopes of the next ones are still new. -/
theorem FreshFrom.after {ms : List Mention} {p : List Nat} {i : Nat} (h : FreshFrom ms p i)
    (stmt : Stmt) : FreshFrom (ms ++ stmt.mentions p i) p (i + 1) := by
  refine FreshFrom.append (fun m hm j hj => h m hm j (by omega)) ?_
  intro m hm j hj hsuf
  rcases Stmt.scope_of_mem_mentions p i stmt hm with hp | hp
  · rw [hp] at hsuf
    exact not_cons_suffix j p hsuf
  · have hij : (i :: p) = (j :: p) :=
      (List.suffix_of_suffix_length_le hp hsuf le_rfl).eq_of_length rfl
    have := (List.cons.inj hij).1
    omega

/-! ## Marking keeps track of the mentions -/

section Marking
variable {s : Scopes} {ms : List Mention} {p : List Nat} {i : Nat}

theorem Tracks.needAll (h : Tracks s ms p) (xs : List String) :
    Tracks (s.needAll xs) (ms ++ readMentions p xs) p := by
  induction xs generalizing s ms with
  | nil => simpa [readMentions, Scopes.needAll] using h
  | cons x xs ih =>
      have hx := h.need (m := ⟨x, .read, p, false⟩) rfl (by simp) rfl
      have := ih hx
      rwa [List.append_assoc] at this

theorem Assignment.mark_tracks (h : Tracks s ms p) (a : Assignment) :
    Tracks (a.mark s).2 (ms ++ (a.mark s).1.mentions .write p) p := by
  have := (h.needAll a.value.reads).assign
    (m := ⟨a.target, .write, p, ((s.needAll a.value.reads).assign a.target).1⟩) rfl rfl rfl
  rwa [List.append_assoc] at this

theorem Assignment.markUpdate_tracks (h : Tracks s ms p) (a : Assignment) :
    Tracks (a.markUpdate s).2 (ms ++ (a.markUpdate s).1.mentions .update p) p := by
  have := (h.needAll a.value.reads).need (m := ⟨a.target, .update, p, false⟩) rfl (by simp) rfl
  rwa [List.append_assoc] at this

/-- Marking a header keeps track of its mentions, in the scope that it opens. -/
theorem Header.mark_tracks (h : Tracks s ms p) (hfresh : FreshFrom ms p i) (header : Header) :
    Tracks (header.mark s).2 (ms ++ (header.mark s).1.mentions (header.scope p i))
      (header.scope p i) := by
  cases header with
  | ifThen c => exact h.needAll c.reads
  | whileDo c => exact h.needAll c.reads
  | forDo init c update =>
      have hinit := init.mark_tracks (h.enter hfresh)
      have htest := hinit.needAll c.reads
      have hupdate := update.markUpdate_tracks htest
      simpa only [Header.mark, Header.mentions, Header.scope, List.append_assoc] using hupdate

/-- Behind a header the block has a scope of its own, directly inside the one of the header. -/
theorem Header.blockScope_fresh (hfresh : FreshFrom ms p i) (header : Header) :
    ∃ j, header.blockScope p i = j :: header.scope p i ∧
      FreshFrom (ms ++ header.mentions (header.scope p i)) (header.scope p i) j := by
  have hown (j : Nat) : FreshFrom (header.mentions (header.scope p i)) (header.scope p i) j :=
    freshFrom_of_scope_eq fun m => Header.scope_of_mem_mentions
  cases header with
  | ifThen c => exact ⟨i, rfl, hfresh.append (hown i)⟩
  | whileDo c => exact ⟨i, rfl, hfresh.append (hown i)⟩
  | forDo init c update => exact ⟨0, rfl, hfresh.inner.append (hown 0)⟩

theorem Header.close_tracks {header : Header} (h : Tracks s ms (header.scope p i)) :
    Tracks (header.close s) ms p := by
  cases header with
  | ifThen c => exact h
  | whileDo c => exact h
  | forDo init c update => exact h.leave

end Marking

mutual

/-- Marking a statement keeps track of its mentions, and closes what it has opened. -/
theorem Stmt.mark_tracks {s : Scopes} {ms : List Mention} {p : List Nat} {i : Nat}
    (h : Tracks s ms p) (hfresh : FreshFrom ms p i) (stmt : Stmt) :
    Tracks (stmt.mark s).2 (ms ++ (stmt.mark s).1.mentions p i) p := by
  match stmt with
  | .assign a => exact a.mark_tracks h
  | .ret value _ => exact h.needAll value.reads
  | .block header body pos =>
    have hheader := header.mark_tracks h hfresh
    obtain ⟨j, hblock, hnew⟩ := (header.mark s).1.blockScope_fresh hfresh
    have hscope : (header.mark s).1.scope p i = header.scope p i := by cases header <;> rfl
    rw [← hscope] at hheader
    have hbody := Stmt.markAll_tracks (hheader.enter hnew) hnew.inner body
    have hclosed := Header.close_tracks hbody.leave
    rw [← hblock, List.append_assoc] at hclosed
    exact hclosed

/-- **Marking keeps track of the mentions**: what is recorded behind a list of statements is
what their mentions say. -/
theorem Stmt.markAll_tracks {s : Scopes} {ms : List Mention} {p : List Nat} {i : Nat}
    (h : Tracks s ms p) (hfresh : FreshFrom ms p i) (body : List Stmt) :
    Tracks (Stmt.markAll s body).2 (ms ++ Stmt.allMentions p i (Stmt.markAll s body).1) p := by
  match body with
  | [] => simpa [Stmt.markAll, Stmt.allMentions] using h
  | stmt :: rest =>
    have hstmt := Stmt.mark_tracks h hfresh stmt
    have hrest := Stmt.markAll_tracks hstmt (hfresh.after _) rest
    rw [List.append_assoc] at hrest
    exact hrest

end

end Pseudocode
