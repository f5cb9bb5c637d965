import Pseudocode.Proofs.Scope.Tracking

/-!
# Declarations are exact

The marks that are left when a body has been read, once those of the free names are taken
back, are exactly the declarations that the mentions ask for.
-/
namespace Pseudocode

/-- A mention whose mark is taken back if its name is free. -/
def Mention.settle (free : List String) (m : Mention) : Mention :=
  { m with declares := m.declares && !free.contains m.name }

section Settle
variable (free : List String)

@[simp] theorem Mention.settle_name (m : Mention) : (m.settle free).name = m.name := rfl
@[simp] theorem Mention.settle_use (m : Mention) : (m.settle free).use = m.use := rfl
@[simp] theorem Mention.settle_scope (m : Mention) : (m.settle free).scope = m.scope := rfl

theorem Mention.settle_declares_iff (m : Mention) :
    (m.settle free).declares = true ↔ m.declares = true ∧ m.name ∉ free := by
  simp [Mention.settle]

@[simp] theorem map_settle_readMentions (p : List Nat) (xs : List String) :
    (readMentions p xs).map (Mention.settle free) = readMentions p xs := by
  simp [readMentions, Mention.settle]

@[simp] theorem Assignment.mentions_settle (use : Use) (p : List Nat) (a : Assignment) :
    (a.settle free).mentions use p = (a.mentions use p).map (Mention.settle free) := by
  simp [Assignment.mentions, Assignment.settle, Mention.settle]

@[simp] theorem Header.mentions_settle (p : List Nat) (header : Header) :
    (header.settle free).mentions p = (header.mentions p).map (Mention.settle free) := by
  cases header <;> simp [Header.mentions, Header.settle]

mutual

theorem Stmt.mentions_settle (p : List Nat) (i : Nat) (stmt : Stmt) :
    (stmt.settle free).mentions p i = (stmt.mentions p i).map (Mention.settle free) := by
  match stmt with
  | .assign a => simp [Stmt.settle, Stmt.mentions]
  | .ret value _ => simp [Stmt.settle, Stmt.mentions]
  | .block header body pos =>
    have hscope : (header.settle free).scope p i = header.scope p i := by cases header <;> rfl
    have hblock : (header.settle free).blockScope p i = header.blockScope p i := by
      cases header <;> rfl
    simp [Stmt.settle, Stmt.mentions, hscope, hblock, Stmt.allMentions_settle _ 0 body]

/-- Marks that are taken back are taken back in the mentions, and nothing else changes. -/
theorem Stmt.allMentions_settle (p : List Nat) (i : Nat) (body : List Stmt) :
    Stmt.allMentions p i (Stmt.settleAll free body) =
      (Stmt.allMentions p i body).map (Mention.settle free) := by
  match body with
  | [] => rfl
  | stmt :: rest =>
    simp [Stmt.settleAll, Stmt.allMentions, Stmt.mentions_settle p i stmt,
      Stmt.allMentions_settle p (i + 1) rest]

end

end Settle

section Map
variable {ms : List Mention} {x : String} (free : List String)

theorem firstMention?_map_settle :
    firstMention? (ms.map (Mention.settle free)) x =
      (firstMention? ms x).map (Mention.settle free) := by
  rw [firstMention?, List.find?_map]
  rfl

/-- Marks do not count for being free. -/
theorem freed_map_settle : Freed (ms.map (Mention.settle free)) x ↔ Freed ms x := by
  simp [Freed, firstMention?_map_settle]

theorem FirstAt.map_settle {i : Nat} {m : Mention} (h : FirstAt ms x i m) :
    FirstAt (ms.map (Mention.settle free)) x i (m.settle free) := by
  refine ⟨by simp [h.get], h.name, ?_⟩
  simpa [← List.map_take] using h.first

theorem FreedAt.map_settle {i : Nat} (h : FreedAt ms x i) :
    FreedAt (ms.map (Mention.settle free)) x i := by
  cases h with
  | read first use => exact .read (first.map_settle free) use
  | update first use => exact .update (first.map_settle free) use
  | @outlived _ _ m k first use later get name outside inside =>
      refine .outlived (k := k.settle free) (first.map_settle free) use later (by simp [get]) name
        outside ?_
      simpa [← List.map_take] using inside

end Map

/-- What marking and taking back marks leaves behind. -/
structure Settled (free : List String) (ms : List Mention) : Prop where
  mem_free : ∀ x, x ∈ free ↔ Freed ms x
  ordered : free.Pairwise fun x y => ∃ i j, FreedAt ms x i ∧ FreedAt ms y j ∧ i < j
  declares : ∀ (i : Nat) (m : Mention), ms[i]? = some m →
    (m.declares = true ↔ m.use = .write ∧ FirstAt ms m.name i m ∧ m.name ∉ free)

/-- Behind a whole body, the marks that are left are those of local names. -/
theorem Tracks.settled {s : Scopes} {ms : List Mention} {p : List Nat} (h : Tracks s ms p) :
    Settled s.free (ms.map (Mention.settle s.free)) where
  mem_free x := by rw [h.free, freed_map_settle]
  ordered := h.ordered.imp fun ⟨i, j, hi, hj, hlt⟩ =>
    ⟨i, j, hi.map_settle s.free, hj.map_settle s.free, hlt⟩
  declares i m hm := by
    rw [List.getElem?_map] at hm
    obtain ⟨k, hk, rfl⟩ := Option.map_eq_some_iff.1 hm
    rw [Mention.settle_declares_iff, h.declares i k hk, and_assoc]
    refine and_congr_right fun _ => and_congr_left fun _ => ?_
    constructor
    · intro hfirst
      exact FirstAt.map_settle s.free ⟨hk, rfl, hfirst⟩
    · intro hfirst
      simpa [← List.map_take] using hfirst.first

/-- The declarations of a body are settled. -/
theorem declare_settled (body : List Stmt) :
    Settled (declare body).2 (Stmt.allMentions [] 0 (declare body).1) := by
  have h := Stmt.markAll_tracks (i := 0) tracks_start (by simp [FreshFrom]) body
  rw [List.nil_append] at h
  have hs := h.settled
  rw [← Stmt.allMentions_settle] at hs
  exact hs

section Settled
variable {free : List String} {ms : List Mention} (h : Settled free ms)
include h

theorem Settled.nodup : free.Nodup := by
  refine h.ordered.imp ?_
  rintro x y ⟨i, j, hi, hj, hlt⟩ rfl
  exact absurd (hi.unique hj) hlt.ne

theorem Settled.mentioned {x : String} (hx : x ∈ free) : ∃ m ∈ ms, m.name = x := by
  obtain ⟨m, hm, -⟩ := (h.mem_free x).1 hx
  exact ⟨m, firstMention?_mem hm⟩

theorem Settled.use_eq_write {m : Mention} (hm : m ∈ ms) (hd : m.declares = true) :
    m.use = .write := by
  obtain ⟨i, hi⟩ := List.getElem?_of_mem hm
  exact ((h.declares i m hi).1 hd).1

/-- The first mention of a name that is not free is an assignment, and it declares. -/
theorem Settled.declares_first {x : String} {i : Nat} {m : Mention} (hi : FirstAt ms x i m)
    (hx : x ∉ free) : m.declares = true := by
  have hfreed : ¬ Freed ms x := by rwa [← h.mem_free]
  have huse : m.use = .write := by
    by_contra hne
    exact hfreed ⟨m, firstMention?_iff_firstAt.2 ⟨i, hi⟩, .inl hne⟩
  obtain rfl := hi.name
  exact (h.declares i m hi.get).2 ⟨huse, hi, hx⟩

/-- Only the first assignment of a name can declare it, so there is no other. -/
theorem Settled.existsUnique_declares {x : String} {m : Mention} (hm : m ∈ ms) (hx : m.name = x)
    (hfree : x ∉ free) :
    ∃! i : Nat, ∃ m, ms[i]? = some m ∧ m.name = x ∧ m.declares = true := by
  have hfirst : firstMention? ms x ≠ none := fun hnone => firstMention?_eq_none.1 hnone m hm hx
  obtain ⟨k, hk⟩ := Option.ne_none_iff_exists'.1 hfirst
  obtain ⟨i, hi⟩ := firstMention?_iff_firstAt.1 hk
  refine ⟨i, ⟨k, hi.get, hi.name, h.declares_first hi hfree⟩, ?_⟩
  rintro j ⟨l, hl, rfl, hd⟩
  exact (((h.declares j l hl).1 hd).2.1.unique hi).1

/-- What is declared by an assignment is mentioned only behind it and inside its scope. -/
theorem Settled.encloses {i j : Nat} {m k : Mention} (hm : ms[i]? = some m)
    (hd : m.declares = true) (hk : ms[j]? = some k) (hx : k.name = m.name) :
    i ≤ j ∧ m.scope <:+ k.scope := by
  obtain ⟨-, hfirst, hfree⟩ := (h.declares i m hm).1 hd
  refine ⟨hfirst.le hk hx, ?_⟩
  by_contra hout
  refine hfree ((h.mem_free m.name).2 ⟨m, firstMention?_iff_firstAt.2 ⟨i, hfirst⟩, .inr ?_⟩)
  exact ⟨k, List.mem_of_getElem? hk, hx, hout⟩

end Settled

theorem Function.declaresExactly_of_settled {f : Function} (h : Settled f.free f.mentions) :
    f.DeclaresExactly where
  nodup := h.nodup
  mem_free x := by rw [h.mem_free, freed_iff]
  ordered := h.ordered
  declares i m hm huse := by
    rw [h.declares i m hm]
    refine and_iff_right_of_imp ?_
    rintro ⟨hfirst, hfree⟩
    exact ((h.declares i m hm).1 (h.declares_first hfirst hfree)).1
  one_declaration x := by
    rintro ⟨m, hm, hx⟩
    by_cases hfree : x ∈ f.free
    · refine .inl ⟨hfree, fun k hk hkx => ?_⟩
      obtain ⟨j, hj⟩ := List.getElem?_of_mem hk
      rw [← Bool.not_eq_true, h.declares j k hj, hkx]
      exact fun hd => hd.2.2 hfree
    · exact .inr ⟨hfree, h.existsUnique_declares hm hx hfree⟩
  encloses i m hm hd j k hk hx := h.encloses hm hd hk hx

/-- A function that was read has the declarations of its body. -/
theorem exists_source_of_parse {ts : List Token} {f : Function} (h : parse ts = .ok f) :
    ∃ source, Grammar.program (Grammar.TokenRow.ofTokens ts).finish
      (Grammar.TokenRow.ofTokens ts).tokens = .ok source ∧ f = .ofSource source := by
  rw [parse] at h
  cases hp : Grammar.program (Grammar.TokenRow.ofTokens ts).finish
      (Grammar.TokenRow.ofTokens ts).tokens with
  | error e => simp [hp, Except.map] at h
  | ok source => exact ⟨source, rfl, by simpa [hp, Except.map, eq_comm] using h⟩

/-- The declarations of a function that is read from tokens are settled. -/
theorem settled_of_parse {ts : List Token} {f : Function} (h : parse ts = .ok f) :
    Settled f.free f.mentions := by
  obtain ⟨source, -, rfl⟩ := exists_source_of_parse h
  exact declare_settled source.body

/-- **Scope resolution is exact**: in every function that is read from tokens, the names
declared up front, their order and the declaring assignments are those that the mentions of
its body determine. -/
theorem declares_exactly_of_parse {ts : List Token} {f : Function} (h : parse ts = .ok f) :
    f.DeclaresExactly :=
  Function.declaresExactly_of_settled (settled_of_parse h)

open Kind in
/-- `if (a < 1) { x gets 1; } for (i gets 0; i < x; j gets i) { t gets j; }` -/
def loopTokens : List Token :=
  [keyword .ifKw, leftParen, name "a", rel .less, literal (.int 1), rightParen, leftCurly,
    name "x", gets, literal (.int 1), semicolon, rightCurly, keyword .forKw, leftParen,
    name "i", gets, literal (.int 0), semicolon, name "i", rel .less, name "x", semicolon,
    name "j", gets, name "i", rightParen, leftCurly, name "t", gets, name "j", semicolon,
    rightCurly].map fun kind => ⟨kind, "", .start⟩

/-- A read, a scope that is outlived and an update each free a name; the others are local. -/
theorem loopTokens_declares_exactly : ∃ f, parse loopTokens = .ok f ∧ f.free = ["a", "x", "j"] ∧
    (f.mentions.filter (·.declares)).map (·.name) = ["i", "t"] ∧ f.DeclaresExactly := by
  refine ⟨?f, ?parsed, ?free, ?declared, declares_exactly_of_parse ?parsed⟩
  case parsed =>
    cbv
    rfl
  case free => cbv
  case declared => cbv

end Pseudocode
