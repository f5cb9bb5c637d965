import Pseudocode.Proofs.Scope.Locality

/-!
# Names that are read first

A name whose first mention is a read gets no type from the body. These names, in the order of
their first reads, are all that a resolution of types can ask its caller for.
-/
namespace Pseudocode

/-- The names that are read by their first mention, when `seen` has been mentioned before. -/
def newReads (seen : List String) : List Mention → List String
  | [] => []
  | m :: ms =>
    if m.use = .read ∧ m.name ∉ seen then m.name :: newReads (seen ++ [m.name]) ms
    else newReads (seen ++ [m.name]) ms

/-- The names whose first mention is a read, in the order of their first reads. -/
def firstReads (ms : List Mention) : List String := newReads [] ms

/-- The names that a function reads first, in order. -/
def Function.firstReads (f : Function) : List String := Pseudocode.firstReads f.mentions

/-- **The names read first**: those whose first mention is a read, ordered by it. -/
structure ReadFirst (ms : List Mention) (names : List String) : Prop where
  mem : ∀ x, x ∈ names ↔ ∃ i m, FirstAt ms x i m ∧ m.use = .read
  ordered : names.Pairwise fun x y =>
    ∃ i j m k, FirstAt ms x i m ∧ FirstAt ms y j k ∧ i < j

/-- New reads can be found part by part, with the names of the first part seen. -/
theorem newReads_append (seen : List String) (ms more : List Mention) :
    newReads seen (ms ++ more) =
      newReads seen ms ++ newReads (seen ++ ms.map (·.name)) more := by
  induction ms generalizing seen with
  | nil => simp [newReads]
  | cons m ms ih =>
      have hlater := ih (seen ++ [m.name])
      rw [List.append_assoc, List.singleton_append] at hlater
      rw [List.cons_append, newReads, newReads, List.map_cons, hlater]
      by_cases hnew : m.use = .read ∧ m.name ∉ seen
      · rw [if_pos hnew, if_pos hnew, List.cons_append]
      · rw [if_neg hnew, if_neg hnew]

theorem firstReads_append (ms more : List Mention) :
    firstReads (ms ++ more) = firstReads ms ++ newReads (ms.map (·.name)) more := by
  rw [firstReads, newReads_append, List.nil_append]
  rfl

/-- What has been mentioned before is not new. -/
theorem newReads_eq_nil {seen : List String} {ms : List Mention} (h : ∀ m ∈ ms, m.name ∈ seen) :
    newReads seen ms = [] := by
  induction ms generalizing seen with
  | nil => rfl
  | cons m ms ih =>
      rw [List.forall_mem_cons] at h
      have hold : ¬ (m.use = .read ∧ m.name ∉ seen) := fun hnew => hnew.2 h.1
      rw [newReads, if_neg hold]
      apply ih
      intro k hk
      exact List.mem_append_left _ (h.2 k hk)

theorem FirstAt.cons {ms : List Mention} {m k : Mention} {x : String} {i : Nat}
    (h : FirstAt ms x i k) (hne : m.name ≠ x) : FirstAt (m :: ms) x (i + 1) k where
  get := h.get
  name := h.name
  first := by
    intro l hl
    rw [List.take_succ_cons, List.mem_cons] at hl
    rcases hl with rfl | hl
    · exact hne
    · exact h.first l hl

theorem firstAt_cons_self (m : Mention) (ms : List Mention) : FirstAt (m :: ms) m.name 0 m where
  get := rfl
  name := rfl
  first := by simp

/-- A new read is the first mention of a name that was not seen. -/
theorem mem_newReads {seen : List String} {ms : List Mention} {x : String} :
    x ∈ newReads seen ms ↔
      x ∉ seen ∧ ∃ m, firstMention? ms x = some m ∧ m.use = .read := by
  induction ms generalizing seen with
  | nil => simp [newReads, firstMention?]
  | cons m ms ih =>
      have hmem : x ∈ newReads seen (m :: ms) ↔
          (m.use = .read ∧ m.name ∉ seen ∧ x = m.name) ∨ x ∈ newReads (seen ++ [m.name]) ms := by
        rw [newReads]
        by_cases hnew : m.use = .read ∧ m.name ∉ seen
        · rw [if_pos hnew, List.mem_cons]
          simp [hnew]
        · rw [if_neg hnew]
          rw [← and_assoc]
          simp [hnew]
      rw [hmem, ih]
      by_cases hx : m.name = x
      · subst hx
        have hfirst : firstMention? (m :: ms) m.name = some m := by simp [firstMention?]
        simp [hfirst, and_comm]
      · have hfirst : firstMention? (m :: ms) x = firstMention? ms x := by
          simp [firstMention?, hx]
        have hx' : x ≠ m.name := fun h => hx h.symm
        simp [hfirst, hx']

/-- New reads stand in the order of these mentions. -/
theorem newReads_ordered (seen : List String) (ms : List Mention) :
    (newReads seen ms).Pairwise fun x y =>
      ∃ i j m k, FirstAt ms x i m ∧ FirstAt ms y j k ∧ i < j := by
  induction ms generalizing seen with
  | nil => exact .nil
  | cons m ms ih =>
      -- no later name of the list is the one at the front, so all of them move by one
      have hne : ∀ x ∈ newReads (seen ++ [m.name]) ms, m.name ≠ x := by
        rintro x hx rfl
        exact (mem_newReads.1 hx).1 (by simp)
      have hlater := (ih (seen ++ [m.name])).imp_of_mem (S := fun x y =>
        ∃ i j l k, FirstAt (m :: ms) x i l ∧ FirstAt (m :: ms) y j k ∧ i < j) (by
          rintro x y hx hy ⟨i, j, l, k, hi, hj, hlt⟩
          exact ⟨i + 1, j + 1, l, k, hi.cons (hne x hx), hj.cons (hne y hy), by omega⟩)
      rw [newReads]
      by_cases hnew : m.use = .read ∧ m.name ∉ seen
      · rw [if_pos hnew]
        refine .cons ?_ hlater
        intro y hy
        obtain ⟨-, k, hk, -⟩ := mem_newReads.1 hy
        obtain ⟨j, hj⟩ := firstMention?_iff_firstAt.1 hk
        exact ⟨0, j + 1, m, k, firstAt_cons_self m ms, hj.cons (hne y hy), by omega⟩
      · rw [if_neg hnew]
        exact hlater

/-- The computed list is the described one. -/
theorem readFirst_firstReads (ms : List Mention) : ReadFirst ms (firstReads ms) where
  mem x := by
    rw [firstReads, mem_newReads]
    constructor
    · rintro ⟨-, m, hm, huse⟩
      obtain ⟨i, hi⟩ := firstMention?_iff_firstAt.1 hm
      exact ⟨i, m, hi, huse⟩
    · rintro ⟨i, m, hi, huse⟩
      exact ⟨by simp, m, firstMention?_iff_firstAt.2 ⟨i, hi⟩, huse⟩
  ordered := newReads_ordered [] ms

/-- No name is in it twice. -/
theorem ReadFirst.nodup {ms : List Mention} {names : List String} (h : ReadFirst ms names) :
    names.Nodup := by
  refine h.ordered.imp ?_
  rintro x y ⟨i, j, m, k, hi, hj, hlt⟩ rfl
  exact absurd (hi.unique hj).1 (by omega)

end Pseudocode
