import Pseudocode.Proofs.OnePass.Agreement
import Pseudocode.Proofs.Scope.Fitting

/-!
# One pass makes the same declarations

What a reader in one pass knows about names is compared with the record that marking a finished
body threads through it. The record decides by what can be seen, the reader by what was mentioned:
a name was mentioned exactly if it can be seen or has expired, and expired names cannot be seen.
At the end the reader takes back the marks of the hoisted names only, where a finished body takes
back those of all names declared up front. There is no difference, because a name that was declared
by an assignment gets to the front by being hoisted only.
-/
namespace Pseudocode

/-- The target of an assignment that declares. -/
def Assignment.declared (a : Assignment) : List String := if a.declares then [a.target] else []

/-- The targets of the declaring assignments of a header. -/
def Header.declared : Header → List String
  | .ifThen _ => []
  | .whileDo _ => []
  | .forDo init _ update => init.declared ++ update.declared

mutual

/-- The targets of the declaring assignments of a statement. -/
def Stmt.declared : Stmt → List String
  | .assign a => a.declared
  | .block header body _ => header.declared ++ Stmt.allDeclared body
  | .ret _ _ => []

/-- The targets of the declaring assignments of a list of statements. -/
def Stmt.allDeclared : List Stmt → List String
  | [] => []
  | stmt :: rest => stmt.declared ++ Stmt.allDeclared rest

end

theorem Assignment.settle_congr {xs ys : List String} {a : Assignment}
    (h : ∀ x ∈ a.declared, (x ∈ xs ↔ x ∈ ys)) : a.settle xs = a.settle ys := by
  cases hdeclares : a.declares with
  | false => simp [settle, hdeclares]
  | true =>
      have hiff := h a.target (by simp [declared, hdeclares])
      simp [settle, hiff]

theorem Header.settle_congr {xs ys : List String} {header : Header}
    (h : ∀ x ∈ header.declared, (x ∈ xs ↔ x ∈ ys)) : header.settle xs = header.settle ys := by
  cases header with
  | ifThen c => rfl
  | whileDo c => rfl
  | forDo init c update =>
      have hinit := init.settle_congr fun x hx => h x (List.mem_append_left _ hx)
      have hupdate := update.settle_congr fun x hx => h x (List.mem_append_right _ hx)
      rw [settle, settle, hinit, hupdate]

mutual

theorem Stmt.settle_congr {xs ys : List String} {stmt : Stmt}
    (h : ∀ x ∈ stmt.declared, (x ∈ xs ↔ x ∈ ys)) : stmt.settle xs = stmt.settle ys := by
  match stmt with
  | .assign a => exact congrArg Stmt.assign (a.settle_congr h)
  | .ret _ _ => rfl
  | .block header body _ =>
    have hheader := header.settle_congr fun x hx => h x (List.mem_append_left _ hx)
    have hbody := Stmt.settleAll_congr body fun x hx => h x (List.mem_append_right _ hx)
    rw [Stmt.settle, Stmt.settle, hheader, hbody]

/-- Which names the marks are taken back from matters for the declaring assignments only. -/
theorem Stmt.settleAll_congr {xs ys : List String} (body : List Stmt)
    (h : ∀ x ∈ Stmt.allDeclared body, (x ∈ xs ↔ x ∈ ys)) :
    Stmt.settleAll xs body = Stmt.settleAll ys body := by
  match body with
  | [] => rfl
  | stmt :: rest =>
    have hstmt := stmt.settle_congr fun x hx => h x (List.mem_append_left _ hx)
    have hrest := Stmt.settleAll_congr rest fun x hx => h x (List.mem_append_right _ hx)
    rw [Stmt.settleAll, Stmt.settleAll, hstmt, hrest]

end

namespace OnePass

/-- The names of a reader and a record of declarations say the same. The reader may have the scopes
`base` around those of the record; the names `declared` are those that assignments have declared. -/
structure Reflects (base : List (List String)) (declared : List String) (n : Names) (s : Scopes) :
    Prop where
  free : n.free = s.free
  scopes : n.scopes = s.stack ++ base
  expired : ∀ x, x ∈ n.expired ↔ x ∈ s.expired
  mentioned : ∀ x, x ∈ n.mentioned ↔ s.isVisible x = true ∨ x ∈ s.expired
  hidden : ∀ x ∈ s.expired, ¬ s.isVisible x = true
  /-- No name is declared twice among those that can be seen. -/
  apart : (s.free :: s.stack).Pairwise List.Disjoint
  hoisted : ∀ x ∈ n.hoisted, x ∈ n.free
  /-- A declared name is free only if it was hoisted. -/
  owned : ∀ x ∈ declared, x ∈ n.mentioned ∧ (x ∈ n.free → x ∈ n.hoisted)

theorem reflects_start : Reflects [] [] .start .start where
  free := rfl
  scopes := rfl
  expired := by simp [Names.start, Scopes.start]
  mentioned := by simp [Names.start, Scopes.start, Scopes.isVisible]
  hidden := by simp [Scopes.start]
  apart := by simp [Scopes.start]
  hoisted := by simp [Names.start]
  owned := by simp

section Steps
variable {base : List (List String)} {declared : List String} {n : Names} {s : Scopes}

/-- A name can be seen, or it has expired, or it is new. -/
theorem Reflects.cases (h : Reflects base declared n s) (x : String) :
    (s.isVisible x = true ∧ x ∈ n.mentioned ∧ x ∉ n.expired) ∨
    (¬ s.isVisible x = true ∧ x ∈ s.expired ∧ x ∈ n.mentioned ∧ x ∈ n.expired) ∨
    (¬ s.isVisible x = true ∧ x ∉ s.expired ∧ x ∉ n.mentioned ∧ x ∉ n.expired) := by
  have hhidden := h.hidden x
  rw [h.mentioned, h.expired]
  tauto

/-- A declaration that moves to the front: of a name that was new, or of one that is hoisted. -/
theorem Reflects.toFront (h : Reflects base declared n s) {x : String} {hoisted : Finset String}
    (hv : ¬ s.isVisible x = true)
    (hhoisted : hoisted = insert x n.hoisted ∨ hoisted = n.hoisted ∧ x ∉ n.mentioned) :
    Reflects base declared
      { n with mentioned := insert x n.mentioned, free := n.free ++ [x],
               expired := n.expired.erase x, hoisted }
      (s.toFront x) := by
  have hvisible (y : String) : (s.toFront x).isVisible y = true ↔ y = x ∨ s.isVisible y = true := by
    simp only [Scopes.isVisible_iff_sees, Scopes.toFront, List.mem_append, List.mem_singleton]
    tauto
  have hexpired (y : String) : y ∈ (s.toFront x).expired ↔ y ≠ x ∧ y ∈ s.expired := by
    simp [Scopes.toFront, and_comm]
  have hnew : x ∉ s.free ∧ ¬ Sees s.stack x := by
    rwa [Scopes.isVisible_iff_sees, not_or] at hv
  have hapart := List.pairwise_cons.1 h.apart
  refine ⟨?_, h.scopes, ?_, ?_, ?_, List.pairwise_cons.2 ⟨?_, hapart.2⟩, ?_, ?_⟩
  · simp [Scopes.toFront, h.free]
  · intro y
    rw [hexpired, Finset.mem_erase, h.expired]
  · intro y
    rw [hvisible, hexpired, Finset.mem_insert, h.mentioned]
    tauto
  · intro y hy
    rw [hexpired] at hy
    rw [hvisible, not_or]
    exact ⟨hy.1, h.hidden y hy.2⟩
  · intro scope hscope
    refine List.disjoint_append_left.2 ⟨hapart.1 scope hscope, ?_⟩
    exact List.singleton_disjoint.2 fun hx => hnew.2 ⟨scope, hscope, hx⟩
  · intro y hy
    rcases hhoisted with rfl | ⟨rfl, -⟩
    · rcases Finset.mem_insert.1 hy with rfl | hy
      · simp
      · exact List.mem_append_left _ (h.hoisted y hy)
    · exact List.mem_append_left _ (h.hoisted y hy)
  · intro y hy
    obtain ⟨hmentioned, howned⟩ := h.owned y hy
    refine ⟨Finset.mem_insert_of_mem hmentioned, fun hfree => ?_⟩
    rcases List.mem_append.1 hfree with hold | hlast
    · -- it was at the front before
      rcases hhoisted with rfl | ⟨rfl, -⟩
      · exact Finset.mem_insert_of_mem (howned hold)
      · exact howned hold
    · obtain rfl := List.mem_singleton.1 hlast
      rcases hhoisted with rfl | ⟨-, hx⟩
      · exact Finset.mem_insert_self _ _
      · exact absurd hmentioned hx

/-- A further mention of a name. -/
theorem Reflects.reuse (h : Reflects base declared n s) {x : String} (hx : x ∈ n.mentioned) :
    Reflects base declared (n.reuse x) (s.need x) := by
  rw [Names.reuse, Scopes.need]
  rcases h.cases x with ⟨hv, -, he⟩ | ⟨hv, -, -, he⟩ | ⟨-, -, hnew, -⟩
  · rw [if_neg he, if_pos hv]
    exact h
  · rw [if_pos he, if_neg hv]
    have hfront := h.toFront hv (.inl rfl)
    rwa [Finset.insert_eq_self.2 hx] at hfront
  · exact absurd hx hnew

/-- A read of a name. -/
theorem Reflects.read (h : Reflects base declared n s) (x : String) :
    Reflects base declared (n.read x) (s.need x) := by
  rw [Names.read]
  split
  · next hx => exact h.reuse hx
  · next hx =>
    rcases h.cases x with ⟨-, hm, -⟩ | ⟨-, -, hm, -⟩ | ⟨hv, -, -, he⟩
    · exact absurd hm hx
    · exact absurd hm hx
    · rw [Scopes.need, if_neg hv]
      have hfront := h.toFront hv (.inr ⟨rfl, hx⟩)
      rwa [Finset.erase_eq_of_notMem he] at hfront

theorem Reflects.readAll (h : Reflects base declared n s) (xs : List String) :
    Reflects base declared (n.readAll xs) (s.needAll xs) := by
  induction xs generalizing n s with
  | nil => exact h
  | cons x xs ih => exact ih (h.read x)

/-- A declaration in the innermost scope. -/
theorem Reflects.declareHere (h : Reflects base declared n s) (hs : s.stack ≠ []) {x : String}
    (hx : x ∉ n.mentioned) :
    Reflects base (declared ++ [x])
      { n with mentioned := insert x n.mentioned, scopes := n.scopes.modifyHead (· ++ [x]) }
      (s.declareHere x) := by
  obtain ⟨scope, outer, hstack⟩ := List.exists_cons_of_ne_nil hs
  have hdeclare : s.declareHere x = { s with stack := (scope ++ [x]) :: outer } := by
    rw [Scopes.declareHere, hstack]
  have hvisible (y : String) :
      (s.declareHere x).isVisible y = true ↔ y = x ∨ s.isVisible y = true := by
    rw [Scopes.isVisible_iff_sees, Scopes.isVisible_iff_sees, Scopes.sees_declareHere hs, hdeclare]
    tauto
  have hnew : x ∉ s.free ∧ ¬ Sees s.stack x ∧ x ∉ s.expired := by
    rw [h.mentioned, Scopes.isVisible_iff_sees] at hx
    tauto
  have hapart := h.apart
  rw [hstack, List.pairwise_cons, List.pairwise_cons] at hapart
  refine ⟨?_, ?_, ?_, ?_, ?_, ?_, h.hoisted, ?_⟩
  · rw [hdeclare]
    exact h.free
  · rw [hdeclare, h.scopes, hstack]
    rfl
  · rw [hdeclare]
    exact h.expired
  · intro y
    rw [hvisible, Finset.mem_insert, h.mentioned, hdeclare]
    tauto
  · intro y hy
    rw [hdeclare] at hy
    rw [hvisible, not_or]
    exact ⟨fun hyx => hnew.2.2 (hyx ▸ hy), h.hidden y hy⟩
  · rw [hdeclare, List.pairwise_cons, List.pairwise_cons]
    refine ⟨fun names hnames => ?_, fun names hnames => ?_, hapart.2.2⟩
    · rcases List.mem_cons.1 hnames with rfl | houter
      · refine List.disjoint_append_right.2 ⟨hapart.1 scope List.mem_cons_self, ?_⟩
        exact List.disjoint_singleton.2 hnew.1
      · exact hapart.1 names (List.mem_cons_of_mem _ houter)
    · refine List.disjoint_append_left.2 ⟨hapart.2.1 names hnames, ?_⟩
      exact List.singleton_disjoint.2 fun hmem => hnew.2.1 ⟨names, by simp [hstack, hnames], hmem⟩
  · intro y hy
    rcases List.mem_append.1 hy with hold | hlast
    · obtain ⟨hmentioned, howned⟩ := h.owned y hold
      exact ⟨Finset.mem_insert_of_mem hmentioned, howned⟩
    · obtain rfl := List.mem_singleton.1 hlast
      refine ⟨Finset.mem_insert_self _ _, fun hfree => absurd ?_ hnew.1⟩
      exact h.free ▸ hfree

/-- An assignment to a name that was mentioned does not declare. -/
theorem Reflects.assign_of_mentioned (h : Reflects base declared n s) {x : String}
    (hx : x ∈ n.mentioned) : s.assign x = (false, s.need x) := by
  rw [Scopes.assign, Scopes.need]
  rcases h.cases x with ⟨hv, -, -⟩ | ⟨hv, he, -⟩ | ⟨-, -, hnew, -⟩
  · rw [if_pos hv, if_pos hv]
  · rw [if_neg hv, if_neg hv, if_pos (List.contains_iff_mem.2 he)]
  · exact absurd hx hnew

/-- An assignment to a new name declares it. -/
theorem Reflects.assign_of_new (h : Reflects base declared n s) {x : String}
    (hx : x ∉ n.mentioned) : s.assign x = (true, s.declareHere x) := by
  rw [Scopes.assign]
  rw [h.mentioned, not_or] at hx
  rw [if_neg hx.1, if_neg (fun he => hx.2 (List.contains_iff_mem.1 he))]

/-- An assignment, and whether it declares. -/
theorem Reflects.assign (h : Reflects base declared n s) (hs : s.stack ≠ []) (x : String) :
    (n.assign x).1 = (s.assign x).1 ∧
      Reflects base (declared ++ if (s.assign x).1 then [x] else []) (n.assign x).2
        (s.assign x).2 := by
  rw [Names.assign]
  split
  · next hx =>
    rw [h.assign_of_mentioned hx]
    refine ⟨rfl, ?_⟩
    simpa using h.reuse hx
  · next hx =>
    rw [h.assign_of_new hx]
    exact ⟨rfl, h.declareHere hs hx⟩

/-- An assignment in a clause that cannot declare. -/
theorem Reflects.update (h : Reflects base declared n s) (hs : s.stack ≠ []) (x : String) :
    Reflects base declared
      (if (n.assign x).1 then (n.assign x).2.withdraw x else (n.assign x).2) (s.need x) := by
  rw [Names.assign]
  split
  · next hx => exact h.reuse hx
  · next hx =>
    rcases h.cases x with ⟨-, hm, -⟩ | ⟨-, -, hm, -⟩ | ⟨hv, -, -, he⟩
    · exact absurd hm hx
    · exact absurd hm hx
    · obtain ⟨scope, outer, hstack⟩ := List.exists_cons_of_ne_nil hs
      have hscope : x ∉ scope := fun hmem =>
        hv (Scopes.isVisible_iff_sees.2 (.inr ⟨scope, by simp [hstack], hmem⟩))
      -- the declaration that is withdrawn is the last one of the innermost scope
      have hback : (n.scopes.modifyHead (· ++ [x])).modifyHead (·.filter (· ≠ x)) = n.scopes := by
        have hfilter : scope.filter (· ≠ x) = scope :=
          List.filter_eq_self.2 fun y hy => decide_eq_true fun hyx => hscope (hyx ▸ hy)
        rw [h.scopes, hstack, List.cons_append, List.modifyHead_cons, List.modifyHead_cons,
          List.filter_append, hfilter]
        simp
      have hfront := h.toFront hv (.inl rfl)
      rw [Finset.erase_eq_of_notMem he] at hfront
      rw [Scopes.need, if_neg hv, if_pos rfl, Names.withdraw, Names.hoist, hback]
      exact hfront

theorem Reflects.enter (h : Reflects base declared n s) :
    Reflects base declared n.enter s.enter := by
  have hvisible (y : String) : s.enter.isVisible y = s.isVisible y := by
    simp [Scopes.enter, Scopes.isVisible]
  refine ⟨h.free, ?_, h.expired, ?_, ?_, ?_, h.hoisted, h.owned⟩
  · rw [Names.enter, h.scopes]
    rfl
  · intro y
    rw [hvisible]
    exact h.mentioned y
  · intro y hy
    rw [hvisible]
    exact h.hidden y hy
  · have hapart := List.pairwise_cons.1 h.apart
    refine List.pairwise_cons.2 ⟨fun names hnames => ?_, List.pairwise_cons.2 ⟨?_, hapart.2⟩⟩
    · rcases List.mem_cons.1 hnames with rfl | hnames
      · exact List.disjoint_nil_right _
      · exact hapart.1 names hnames
    · exact fun names _ => List.disjoint_nil_left names

theorem Reflects.leave (h : Reflects base declared n s) (hs : s.stack ≠ []) :
    Reflects base declared n.leave s.leave := by
  obtain ⟨scope, outer, hstack⟩ := List.exists_cons_of_ne_nil hs
  have hnames : n.leave =
      { n with scopes := outer ++ base, expired := n.expired ∪ scope.toFinset } := by
    rw [Names.leave, h.scopes, hstack]
    rfl
  have hleave : s.leave = { s with stack := outer, expired := s.expired ++ scope } := by
    rw [Scopes.leave, hstack]
  have hvisible (y : String) :
      s.isVisible y = true ↔ s.leave.isVisible y = true ∨ y ∈ scope := by
    rw [Scopes.isVisible_iff_sees, Scopes.isVisible_iff_sees, hstack, sees_cons, hleave]
    tauto
  have hapart := h.apart
  rw [hstack, List.pairwise_cons, List.pairwise_cons] at hapart
  rw [hnames]
  refine ⟨?_, ?_, ?_, ?_, ?_, ?_, h.hoisted, h.owned⟩
  · rw [hleave]
    exact h.free
  · rw [hleave]
  · intro y
    rw [hleave]
    simp [h.expired]
  · intro y
    rw [hleave] at hvisible ⊢
    rw [h.mentioned, hvisible, List.mem_append]
    tauto
  · intro y hy hv
    rw [hleave] at hy
    rcases List.mem_append.1 hy with hold | hscope
    · exact h.hidden y hold ((hvisible y).2 (.inl hv))
    · rw [Scopes.isVisible_iff_sees, hleave] at hv
      rcases hv with hfree | ⟨names, hnames, hmem⟩
      · exact hapart.1 scope List.mem_cons_self hfree hscope
      · exact hapart.2.1 names hnames hscope hmem
  · rw [hleave]
    refine List.pairwise_cons.2 ⟨fun names hnames => ?_, hapart.2.2⟩
    exact hapart.1 names (List.mem_cons_of_mem _ hnames)

/-- Taking back the marks of hoisted names is taking back those of all names declared up front. -/
theorem Reflects.settleAll_eq {body : List Stmt}
    (h : Reflects base (Stmt.allDeclared body) n s) :
    Stmt.settleAll (n.hoisted.sort (· ≤ ·)) body = Stmt.settleAll s.free body := by
  refine Stmt.settleAll_congr body fun x hx => ?_
  rw [Finset.mem_sort, ← h.free]
  exact ⟨h.hoisted x, (h.owned x hx).2⟩

end Steps

end OnePass

end Pseudocode
