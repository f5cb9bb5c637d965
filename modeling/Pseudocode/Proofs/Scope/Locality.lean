import Pseudocode.Proofs.Scope.Mentions

/-!
# Free names and local names

What a row of mentions says about a name: it is free, or it is local to the scope of its first
mention, or it is not mentioned at all. One more mention changes this for its own name only,
and in one of three ways.
-/
namespace Pseudocode

/-- The first mention of a name. -/
def firstMention? (ms : List Mention) (x : String) : Option Mention := ms.find? (·.name = x)

/-- The first mention of a name cannot declare, or another one lies outside its scope. -/
def Freed (ms : List Mention) (x : String) : Prop :=
  ∃ m, firstMention? ms x = some m ∧
    (m.use ≠ .write ∨ ∃ k ∈ ms, k.name = x ∧ ¬ m.scope <:+ k.scope)

/-- A name is first assigned in the scope `q`, and all its mentions lie inside. -/
def LocalTo (ms : List Mention) (q : List Nat) (x : String) : Prop :=
  ∃ m, firstMention? ms x = some m ∧ m.use = .write ∧ m.scope = q ∧
    ∀ k ∈ ms, k.name = x → q <:+ k.scope

theorem firstMention?_eq_none {ms : List Mention} {x : String} :
    firstMention? ms x = none ↔ ∀ k ∈ ms, k.name ≠ x := by
  simp [firstMention?]

theorem firstMention?_mem {ms : List Mention} {x : String} {m : Mention}
    (h : firstMention? ms x = some m) : m ∈ ms ∧ m.name = x :=
  ⟨List.mem_of_find?_eq_some h, by simpa using List.find?_some h⟩

/-- The first mention is the one with the least index. -/
theorem firstMention?_iff_firstAt {ms : List Mention} {x : String} {m : Mention} :
    firstMention? ms x = some m ↔ ∃ i, FirstAt ms x i m := by
  constructor
  · intro h
    obtain ⟨hp, as, bs, rfl, has⟩ := List.find?_eq_some_iff_append.1 h
    refine ⟨as.length, by simp, by simpa using hp, ?_⟩
    intro k hk
    rw [List.take_left] at hk
    simpa using has k hk
  · rintro ⟨i, hget, hname, hfirst⟩
    have hi : i < ms.length := (List.getElem?_eq_some_iff.1 hget).1
    refine List.find?_eq_some_iff_append.2 ⟨by simpa using hname, ms.take i, ms.drop (i + 1), ?_, ?_⟩
    · rw [← (List.getElem?_eq_some_iff.1 hget).2, List.cons_getElem_drop_succ,
        List.take_append_drop]
    · intro k hk
      simpa using hfirst k hk

theorem firstMention?_append_of_some {ms : List Mention} {x : String} {m : Mention}
    (h : firstMention? ms x = some m) (more : List Mention) :
    firstMention? (ms ++ more) x = some m := by
  rw [firstMention?, List.find?_append, ← firstMention?, h, Option.some_or]

theorem firstMention?_concat_of_none {ms : List Mention} {m : Mention}
    (h : firstMention? ms m.name = none) : firstMention? (ms ++ [m]) m.name = some m := by
  rw [firstMention?, List.find?_append, ← firstMention?, h]
  simp

theorem firstMention?_concat_of_ne {ms : List Mention} {m : Mention} {x : String}
    (h : m.name ≠ x) : firstMention? (ms ++ [m]) x = firstMention? ms x := by
  rw [firstMention?, List.find?_append, ← firstMention?]
  simp [h]

/-- A mentioned name is either free or local to the scope of its first mention. -/
theorem freed_or_localTo {ms : List Mention} {x : String} {m : Mention}
    (h : firstMention? ms x = some m) : Freed ms x ∨ LocalTo ms m.scope x := by
  by_cases hf : Freed ms x
  · exact .inl hf
  · right
    have hw : m.use = .write := by
      by_contra hne
      exact hf ⟨m, h, .inl hne⟩
    refine ⟨m, h, hw, rfl, ?_⟩
    intro k hk hx
    by_contra hout
    exact hf ⟨m, h, .inr ⟨k, hk, hx, hout⟩⟩

theorem LocalTo.not_freed {ms : List Mention} {q : List Nat} {x : String}
    (h : LocalTo ms q x) : ¬ Freed ms x := by
  obtain ⟨m, hm, hw, rfl, hin⟩ := h
  rintro ⟨m', hm', hne | ⟨k, hk, hx, hout⟩⟩
  · rw [hm] at hm'
    cases hm'
    exact hne hw
  · rw [hm] at hm'
    cases hm'
    exact hout (hin k hk hx)

theorem LocalTo.mentioned {ms : List Mention} {q : List Nat} {x : String}
    (h : LocalTo ms q x) : firstMention? ms x ≠ none := by
  obtain ⟨m, hm, -⟩ := h
  simp [hm]

theorem Freed.mentioned {ms : List Mention} {x : String} (h : Freed ms x) :
    firstMention? ms x ≠ none := by
  obtain ⟨m, hm, -⟩ := h
  simp [hm]

/-- A name is local to one scope at most. -/
theorem LocalTo.unique {ms : List Mention} {q r : List Nat} {x : String}
    (h : LocalTo ms q x) (h' : LocalTo ms r x) : q = r := by
  obtain ⟨m, hm, -, rfl, -⟩ := h
  obtain ⟨m', hm', -, rfl, -⟩ := h'
  rw [hm] at hm'
  cases hm'
  rfl

section Concat
variable {ms : List Mention} {m : Mention}

theorem mem_concat_of_ne {x : String} (h : m.name ≠ x) (k : Mention) :
    k ∈ ms ++ [m] ∧ k.name = x ↔ k ∈ ms ∧ k.name = x := by
  constructor
  · rintro ⟨hk, hx⟩
    rcases List.mem_append.1 hk with hk | hk
    · exact ⟨hk, hx⟩
    · rw [List.mem_singleton.1 hk] at hx
      exact absurd hx h
  · rintro ⟨hk, hx⟩
    exact ⟨List.mem_append_left _ hk, hx⟩

/-- Other names are not affected. -/
theorem freed_concat_of_ne {x : String} (h : m.name ≠ x) :
    Freed (ms ++ [m]) x ↔ Freed ms x := by
  simp only [Freed, firstMention?_concat_of_ne h, ← and_assoc, mem_concat_of_ne h]

theorem localTo_concat_of_ne {x : String} {q : List Nat} (h : m.name ≠ x) :
    LocalTo (ms ++ [m]) q x ↔ LocalTo ms q x := by
  simp only [LocalTo, firstMention?_concat_of_ne h, ← and_imp, mem_concat_of_ne h]

/-- A free name stays free. -/
theorem Freed.concat {x : String} (h : Freed ms x) : Freed (ms ++ [m]) x := by
  obtain ⟨k, hk, hor⟩ := h
  refine ⟨k, firstMention?_append_of_some hk [m], ?_⟩
  rcases hor with hne | ⟨l, hl, hx, hout⟩
  · exact .inl hne
  · exact .inr ⟨l, List.mem_append_left _ hl, hx, hout⟩

/-- A local name stays local if it is mentioned inside its scope. -/
theorem LocalTo.concat {q : List Nat} (h : LocalTo ms q m.name) (hin : q <:+ m.scope) :
    LocalTo (ms ++ [m]) q m.name := by
  obtain ⟨k, hk, hw, hq, hall⟩ := h
  refine ⟨k, firstMention?_append_of_some hk [m], hw, hq, ?_⟩
  intro l hl hx
  rcases List.mem_append.1 hl with hl | hl
  · exact hall l hl hx
  · rw [List.mem_singleton.1 hl]
    exact hin

/-- A local name becomes free if it is mentioned outside its scope. -/
theorem LocalTo.freed_concat {q : List Nat} (h : LocalTo ms q m.name) (hout : ¬ q <:+ m.scope) :
    Freed (ms ++ [m]) m.name := by
  obtain ⟨k, hk, -, rfl, -⟩ := h
  exact ⟨k, firstMention?_append_of_some hk [m], .inr ⟨m, by simp, rfl, hout⟩⟩

/-- A new name becomes free if its first mention cannot declare. -/
theorem freed_concat_of_new (hnew : firstMention? ms m.name = none) (hu : m.use ≠ .write) :
    Freed (ms ++ [m]) m.name :=
  ⟨m, firstMention?_concat_of_none hnew, .inl hu⟩

/-- A new name becomes local if its first mention is an assignment. -/
theorem localTo_concat_of_new (hnew : firstMention? ms m.name = none) (hu : m.use = .write) :
    LocalTo (ms ++ [m]) m.scope m.name := by
  refine ⟨m, firstMention?_concat_of_none hnew, hu, rfl, ?_⟩
  intro k hk hx
  rcases List.mem_append.1 hk with hk | hk
  · exact absurd hx (firstMention?_eq_none.1 hnew k hk)
  · rw [List.mem_singleton.1 hk]

/-! The three things a mention can do, for all names at once. -/

/-- A mention of a name that can be seen changes nothing. -/
theorem concat_of_visible (h : Freed ms m.name ∨ ∃ q, LocalTo ms q m.name ∧ q <:+ m.scope) :
    (∀ x, Freed (ms ++ [m]) x ↔ Freed ms x) ∧
      ∀ q x, LocalTo (ms ++ [m]) q x ↔ LocalTo ms q x := by
  have self : (Freed (ms ++ [m]) m.name ↔ Freed ms m.name) ∧
      ∀ q, LocalTo (ms ++ [m]) q m.name ↔ LocalTo ms q m.name := by
    rcases h with hf | ⟨q, hl, hin⟩
    · refine ⟨⟨fun _ => hf, fun _ => hf.concat⟩, fun q => ⟨?_, ?_⟩⟩
      · intro hl
        exact absurd hf.concat hl.not_freed
      · intro hl
        exact absurd hf hl.not_freed
    · have hl' := hl.concat hin
      refine ⟨⟨fun hf => absurd hf hl'.not_freed, Freed.concat⟩, fun r => ⟨?_, ?_⟩⟩
      · intro hr
        rwa [← hl'.unique hr]
      · intro hr
        rwa [← hl.unique hr]
  constructor
  · intro x
    by_cases hx : m.name = x
    · exact hx ▸ self.1
    · exact freed_concat_of_ne hx
  · intro q x
    by_cases hx : m.name = x
    · exact hx ▸ self.2 q
    · exact localTo_concat_of_ne hx

/-- A mention that frees its name takes it out of its scope. -/
theorem concat_of_freed (h : Freed (ms ++ [m]) m.name) :
    (∀ x, Freed (ms ++ [m]) x ↔ Freed ms x ∨ x = m.name) ∧
      ∀ q x, LocalTo (ms ++ [m]) q x ↔ LocalTo ms q x ∧ x ≠ m.name := by
  constructor
  · intro x
    by_cases hx : m.name = x
    · subst hx
      simp [h]
    · rw [freed_concat_of_ne hx]
      simp [Ne.symm hx]
  · intro q x
    by_cases hx : m.name = x
    · subst hx
      simp only [ne_eq, not_true_eq_false, and_false, iff_false]
      exact fun hl => hl.not_freed h
    · rw [localTo_concat_of_ne hx]
      simp [Ne.symm hx]

/-- A mention that declares its name puts it into its scope. -/
theorem concat_of_local (hnew : firstMention? ms m.name = none) (hu : m.use = .write) :
    (∀ x, Freed (ms ++ [m]) x ↔ Freed ms x) ∧
      ∀ q x, LocalTo (ms ++ [m]) q x ↔ LocalTo ms q x ∨ (x = m.name ∧ q = m.scope) := by
  have hl := localTo_concat_of_new hnew hu
  constructor
  · intro x
    by_cases hx : m.name = x
    · subst hx
      exact ⟨fun hf => absurd hf hl.not_freed, fun hf => absurd hnew hf.mentioned⟩
    · exact freed_concat_of_ne hx
  · intro q x
    by_cases hx : m.name = x
    · subst hx
      constructor
      · intro hq
        exact .inr ⟨rfl, hq.unique hl⟩
      · rintro (hq | ⟨-, rfl⟩)
        · exact absurd hnew hq.mentioned
        · exact hl
    · rw [localTo_concat_of_ne hx]
      simp [Ne.symm hx]

end Concat

theorem FirstAt.append {ms : List Mention} {x : String} {i : Nat} {m : Mention}
    (h : FirstAt ms x i m) (more : List Mention) : FirstAt (ms ++ more) x i m := by
  have hi : i < ms.length := (List.getElem?_eq_some_iff.1 h.get).1
  refine ⟨?_, h.name, ?_⟩
  · rw [List.getElem?_append_left hi, h.get]
  · rw [List.take_append_of_le_length hi.le]
    exact h.first

theorem FreedAt.lt_length {ms : List Mention} {x : String} {i : Nat} (h : FreedAt ms x i) :
    i < ms.length := by
  cases h with
  | read first _ => exact (List.getElem?_eq_some_iff.1 first.get).1
  | update first _ => exact (List.getElem?_eq_some_iff.1 first.get).1
  | outlived _ _ _ get _ _ _ => exact (List.getElem?_eq_some_iff.1 get).1

/-- Later mentions do not change which one has freed a name. -/
theorem FreedAt.append {ms : List Mention} {x : String} {i : Nat} (h : FreedAt ms x i)
    (more : List Mention) : FreedAt (ms ++ more) x i := by
  have hi := h.lt_length
  cases h with
  | read first use => exact .read (first.append more) use
  | update first use => exact .update (first.append more) use
  | outlived first use later get name outside inside =>
      refine .outlived (first.append more) use later ?_ name outside ?_
      · rw [List.getElem?_append_left hi, get]
      · rw [List.take_append_of_le_length hi.le]
        exact inside

/-- The last mention frees its name if that was local to a scope which is closed by now. -/
theorem LocalTo.freedAt_concat {ms : List Mention} {m : Mention} {q : List Nat}
    (h : LocalTo ms q m.name) (hout : ¬ q <:+ m.scope) :
    FreedAt (ms ++ [m]) m.name ms.length := by
  obtain ⟨k, hk, hw, rfl, hin⟩ := h
  obtain ⟨i, hi⟩ := firstMention?_iff_firstAt.1 hk
  have hlt : i < ms.length := (List.getElem?_eq_some_iff.1 hi.get).1
  refine .outlived (hi.append [m]) hw hlt (by simp) rfl hout ?_
  rw [List.take_left]
  exact hin

/-- The last mention frees its name if that is new and cannot be declared here. -/
theorem freedAt_concat_of_new {ms : List Mention} {m : Mention}
    (hnew : firstMention? ms m.name = none) (hu : m.use ≠ .write) :
    FreedAt (ms ++ [m]) m.name ms.length := by
  have hfirst : FirstAt (ms ++ [m]) m.name ms.length m := by
    refine ⟨by simp, rfl, ?_⟩
    rw [List.take_left]
    exact firstMention?_eq_none.1 hnew
  cases huse : m.use with
  | read => exact .read hfirst huse
  | update => exact .update hfirst huse
  | write => exact absurd huse hu

theorem mem_take_of_lt {ms : List Mention} {i j : Nat} {m : Mention} (hlt : i < j)
    (h : ms[i]? = some m) : m ∈ ms.take j := by
  refine List.mem_of_getElem? (i := i) ?_
  rw [List.getElem?_take_of_lt hlt, h]

/-- The first mention of a name comes before the others. -/
theorem FirstAt.le {ms : List Mention} {x : String} {i j : Nat} {m k : Mention}
    (h : FirstAt ms x i m) (hk : ms[j]? = some k) (hx : k.name = x) : i ≤ j := by
  by_contra hlt
  exact h.first k (mem_take_of_lt (by omega) hk) hx

theorem FirstAt.unique {ms : List Mention} {x : String} {i j : Nat} {m k : Mention}
    (h : FirstAt ms x i m) (h' : FirstAt ms x j k) : i = j ∧ m = k := by
  obtain rfl : i = j := le_antisymm (h.le h'.get h'.name) (h'.le h.get h.name)
  exact ⟨rfl, Option.some.inj (h.get.symm.trans h'.get)⟩

/-- A name is made free by one mention only. -/
theorem FreedAt.unique {ms : List Mention} {x : String} {i j : Nat} (h : FreedAt ms x i)
    (h' : FreedAt ms x j) : i = j := by
  cases h with
  | read first use =>
      cases h' with
      | read first' _ => exact (first.unique first').1
      | update first' _ => exact (first.unique first').1
      | outlived first' use' _ _ _ _ _ =>
          rw [(first.unique first').2, use'] at use
          cases use
  | update first use =>
      cases h' with
      | read first' _ => exact (first.unique first').1
      | update first' _ => exact (first.unique first').1
      | outlived first' use' _ _ _ _ _ =>
          rw [(first.unique first').2, use'] at use
          cases use
  | outlived first use _ get name outside inside =>
      cases h' with
      | read first' use' =>
          rw [(first.unique first').2, use'] at use
          cases use
      | update first' use' =>
          rw [(first.unique first').2, use'] at use
          cases use
      | outlived first' _ _ get' name' outside' inside' =>
          obtain ⟨-, rfl⟩ := first.unique first'
          rcases Nat.lt_trichotomy i j with hlt | heq | hlt
          · exact absurd (inside' _ (mem_take_of_lt hlt get) name) outside
          · exact heq
          · exact absurd (inside _ (mem_take_of_lt hlt get') name') outside'

/-- A name is free if its first mention cannot declare, or some later one lies outside. -/
theorem freed_iff {ms : List Mention} {x : String} :
    Freed ms x ↔ ∃ i m, FirstAt ms x i m ∧ (m.use = .read ∨ m.use = .update ∨ (m.use = .write ∧
      ∃ (j : Nat) (k : Mention), i < j ∧ ms[j]? = some k ∧ k.name = x ∧ ¬ m.scope <:+ k.scope)) := by
  constructor
  · rintro ⟨m, hm, hor⟩
    obtain ⟨i, hi⟩ := firstMention?_iff_firstAt.1 hm
    refine ⟨i, m, hi, ?_⟩
    cases huse : m.use with
    | read => exact .inl rfl
    | update => exact .inr (.inl rfl)
    | write =>
        rcases hor with hne | ⟨k, hk, hx, hout⟩
        · exact absurd huse hne
        · obtain ⟨j, hj⟩ := List.getElem?_of_mem hk
          refine .inr (.inr ⟨rfl, j, k, lt_of_le_of_ne (hi.le hj hx) ?_, hj, hx, hout⟩)
          rintro rfl
          rw [hi.get] at hj
          cases hj
          exact hout (List.suffix_refl _)
  · rintro ⟨i, m, hi, hor⟩
    refine ⟨m, firstMention?_iff_firstAt.2 ⟨i, hi⟩, ?_⟩
    rcases hor with huse | huse | ⟨-, j, k, -, hk, hx, hout⟩
    · exact .inl (by simp [huse])
    · exact .inl (by simp [huse])
    · exact .inr ⟨k, List.mem_of_getElem? hk, hx, hout⟩

end Pseudocode
