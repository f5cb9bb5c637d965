import Pseudocode.Function
import Mathlib.Data.List.Basic

/-!
# Bodies that fit their scopes

A body fits if every name it uses is declared where the use can see it and no declaration
hides another one. This is checked against the names of the open scopes alone, without
executing anything; the marks that scope resolution leaves in a body make it fit.
-/
namespace Pseudocode

/-- A name is declared in one of the open scopes, given by the names they declare. -/
def Sees (Γ : List (List String)) (x : String) : Prop := ∃ names ∈ Γ, x ∈ names

/-- The open scopes behind a declaration in the innermost one. -/
def withName (x : String) : List (List String) → List (List String)
  | [] => [[x]]
  | names :: outer => (x :: names) :: outer

/-- All reads can be seen; the target is new if the assignment declares it, and can be seen
otherwise. -/
def Assignment.Fits (Γ : List (List String)) (a : Assignment) : Prop :=
  (∀ x ∈ a.value.reads, Sees Γ x) ∧ (Sees Γ a.target ↔ a.declares = false)

/-- The open scopes behind an assignment. -/
def Assignment.after (Γ : List (List String)) (a : Assignment) : List (List String) :=
  if a.declares then withName a.target Γ else Γ

/-- The same for a clause that never declares. -/
def Assignment.FitsUpdate (Γ : List (List String)) (a : Assignment) : Prop :=
  (∀ x ∈ a.value.reads, Sees Γ x) ∧ Sees Γ a.target

/-- A header fits. A counting loop is a scope of its own from its first assignment on. -/
def Header.Fits (Γ : List (List String)) : Header → Prop
  | .ifThen c => ∀ x ∈ c.reads, Sees Γ x
  | .whileDo c => ∀ x ∈ c.reads, Sees Γ x
  | .forDo init c update =>
    init.Fits ([] :: Γ) ∧ (∀ x ∈ c.reads, Sees (init.after ([] :: Γ)) x) ∧
      update.FitsUpdate (init.after ([] :: Γ))

/-- The open scopes around the block behind a header. -/
def Header.around (Γ : List (List String)) : Header → List (List String)
  | .ifThen _ => Γ
  | .whileDo _ => Γ
  | .forDo init _ _ => init.after ([] :: Γ)

/-- The open scopes behind a statement. What is declared inside it is gone. -/
def Stmt.after (Γ : List (List String)) : Stmt → List (List String)
  | .assign a => a.after Γ
  | .block _ _ _ => Γ
  | .ret _ _ => Γ

mutual

/-- A statement fits the open scopes. -/
def Stmt.Fits (Γ : List (List String)) : Stmt → Prop
  | .assign a => a.Fits Γ
  | .block header body _ => header.Fits Γ ∧ Stmt.AllFit ([] :: header.around Γ) body
  | .ret value _ => ∀ x ∈ value.reads, Sees Γ x

/-- Statements fit the open scopes, each behind the ones before it. -/
def Stmt.AllFit (Γ : List (List String)) : List Stmt → Prop
  | [] => True
  | stmt :: rest => stmt.Fits Γ ∧ Stmt.AllFit (stmt.after Γ) rest

end

@[simp] theorem sees_cons {names : List String} {Γ : List (List String)} {x : String} :
    Sees (names :: Γ) x ↔ x ∈ names ∨ Sees Γ x := by
  simp [Sees]

@[simp] theorem sees_withName {Γ : List (List String)} {x y : String} :
    Sees (withName x Γ) y ↔ y = x ∨ Sees Γ y := by
  cases Γ <;> simp [withName, Sees, or_assoc]

namespace Scopes

/-- From one record to a later one of the same scope: more names are free, and names are added
to the innermost scope only. -/
structure Grows (s t : Scopes) : Prop where
  free : ∀ x ∈ s.free, x ∈ t.free
  outer : t.stack.tail = s.stack.tail
  nonempty : s.stack ≠ [] → t.stack ≠ []

theorem Grows.refl (s : Scopes) : Grows s s := ⟨fun _ h => h, rfl, id⟩

theorem Grows.trans {s t u : Scopes} (h : Grows s t) (h' : Grows t u) : Grows s u :=
  ⟨fun x hx => h'.free x (h.free x hx), h'.outer.trans h.outer, h'.nonempty ∘ h.nonempty⟩

theorem grows_toFront (s : Scopes) (x : String) : Grows s (s.toFront x) :=
  ⟨fun y hy => by simp [toFront, hy], rfl, id⟩

theorem grows_need (s : Scopes) (x : String) : Grows s (s.need x) := by
  rw [need]
  split
  · exact .refl s
  · exact grows_toFront s x

theorem grows_needAll (s : Scopes) (xs : List String) : Grows s (s.needAll xs) := by
  induction xs generalizing s with
  | nil => exact .refl s
  | cons x xs ih => exact (grows_need s x).trans (ih (s.need x))

theorem grows_declareHere (s : Scopes) (x : String) : Grows s (s.declareHere x) := by
  rw [declareHere]
  split
  · exact .refl s
  next names outer hs => exact ⟨fun _ h => h, by simp [hs], by simp⟩

theorem grows_assign (s : Scopes) (x : String) : Grows s (s.assign x).2 := by
  rw [assign]
  split
  · exact .refl s
  · split
    · exact grows_toFront s x
    · exact grows_declareHere s x

/-- A name is visible if it is free or can be seen from the open scopes. -/
theorem isVisible_iff_sees {s : Scopes} {x : String} :
    s.isVisible x = true ↔ x ∈ s.free ∨ Sees s.stack x := by
  simp [isVisible, Sees]

@[simp] theorem stack_need (s : Scopes) (x : String) : (s.need x).stack = s.stack := by
  rw [need]
  split <;> rfl

@[simp] theorem stack_needAll (s : Scopes) (xs : List String) :
    (s.needAll xs).stack = s.stack := by
  induction xs generalizing s with
  | nil => rfl
  | cons x xs ih => exact (ih (s.need x)).trans (stack_need s x)

@[simp] theorem stack_leave (s : Scopes) : s.leave.stack = s.stack.tail := by
  rw [leave]
  split <;> simp [*]

@[simp] theorem free_leave (s : Scopes) : s.leave.free = s.free := by
  rw [leave]
  split <;> rfl

/-- What happens in a scope of its own leaves the scopes around it as they were. -/
theorem Grows.leave {s t : Scopes} (h : Grows s.enter t) :
    t.leave.stack = s.stack ∧ ∀ x ∈ s.free, x ∈ t.leave.free :=
  ⟨(stack_leave t).trans h.outer, fun x hx => (free_leave t).symm ▸ h.free x hx⟩

theorem sees_declareHere {s : Scopes} (hs : s.stack ≠ []) (x y : String) :
    Sees (s.declareHere x).stack y ↔ y = x ∨ Sees s.stack y := by
  obtain ⟨names, outer, hstack⟩ := List.exists_cons_of_ne_nil hs
  simp only [declareHere, hstack, sees_cons, List.mem_append, List.mem_singleton]
  tauto

end Scopes

/-- The scopes `Γ` of the generated code and the record `s` see the same names, once the names
in `free` are declared up front and no longer where they were recorded. -/
def Covers (free : List String) (Γ : List (List String)) (s : Scopes) : Prop :=
  ∀ x, Sees Γ x ↔ x ∈ free ∨ Sees s.stack x

section Fit
variable {free : List String} {Γ : List (List String)} {s : Scopes}

/-- What is visible can be seen where the free names are declared too. -/
theorem Covers.of_isVisible (h : Covers free Γ s) (hf : ∀ x ∈ s.free, x ∈ free) {x : String}
    (hx : s.isVisible x = true) : Sees Γ x := by
  rw [h x]
  exact (Scopes.isVisible_iff_sees.1 hx).imp (hf x) id

theorem Covers.need (h : Covers free Γ s) (x : String) : Covers free Γ (s.need x) := by
  intro y
  rw [h y, Scopes.stack_need]

theorem Covers.needAll (h : Covers free Γ s) (xs : List String) :
    Covers free Γ (s.needAll xs) := by
  intro y
  rw [h y, Scopes.stack_needAll]

theorem Covers.enter (h : Covers free Γ s) : Covers free ([] :: Γ) s.enter := by
  intro y
  simpa [Scopes.enter] using h y

/-- Reads fit, because each of them makes its name visible. -/
theorem Covers.sees_reads (h : Covers free Γ s) {xs : List String}
    (hf : ∀ x ∈ (s.needAll xs).free, x ∈ free) : ∀ x ∈ xs, Sees Γ x := by
  induction xs generalizing s with
  | nil => simp
  | cons x xs ih =>
      have hgrows := Scopes.grows_needAll (s.need x) xs
      intro y hy
      rcases List.mem_cons.1 hy with rfl | hy
      · exact (h.need y).of_isVisible (fun z hz => hf z (hgrows.free z hz))
          (Scopes.isVisible_need s y)
      · exact ih (h.need x) hf y hy

/-- The target of an assignment fits: if the assignment keeps its mark, the name is new, and if
not, it can be seen or is declared up front. -/
theorem Covers.assign (h : Covers free Γ s) (hs : s.stack ≠ []) {x : String}
    (hf : ∀ y ∈ (s.assign x).2.free, y ∈ free) :
    (Sees Γ x ↔ ((s.assign x).1 && !free.contains x) = false) ∧
      Covers free (if (s.assign x).1 && !free.contains x then withName x Γ else Γ)
        (s.assign x).2 := by
  by_cases hv : s.isVisible x = true
  · simp only [Scopes.assign, hv, if_true] at hf ⊢
    simpa [h.of_isVisible hf hv] using h
  · by_cases he : s.expired.contains x = true
    · simp only [Scopes.assign, hv, he, if_true, Bool.false_eq_true, if_false] at hf ⊢
      have hx : Sees Γ x := (h x).2 (.inl (hf x (by simp [Scopes.toFront])))
      have hcovers : Covers free Γ (s.toFront x) := h
      simpa [hx] using hcovers
    · simp only [Scopes.assign, hv, he, Bool.false_eq_true, if_false, Bool.true_and] at hf ⊢
      have hnew : ¬ Sees s.stack x := fun hx => hv (Scopes.isVisible_iff_sees.2 (.inr hx))
      by_cases hx : x ∈ free
      · refine ⟨by simp [hx, (h x).2 (.inl hx)], ?_⟩
        intro y
        simp only [List.contains_eq_mem, hx, decide_true, Bool.not_true, Bool.false_eq_true,
          if_false, Scopes.sees_declareHere hs, h y]
        constructor
        · rintro (hy | hy)
          · exact .inl hy
          · exact .inr (.inr hy)
        · rintro (hy | rfl | hy)
          · exact .inl hy
          · exact .inl hx
          · exact .inr hy
      · refine ⟨by simp [hx, h x, hnew], ?_⟩
        intro y
        simp only [List.contains_eq_mem, hx, decide_false, Bool.not_false, if_true, sees_withName,
          Scopes.sees_declareHere hs, h y]
        tauto

/-- A marked assignment fits, and covers the scopes behind it. -/
theorem Assignment.fits_mark (h : Covers free Γ s) (hs : s.stack ≠ []) (a : Assignment)
    (hf : ∀ x ∈ (a.mark s).2.free, x ∈ free) :
    ((a.mark s).1.settle free).Fits Γ ∧
      Covers free (((a.mark s).1.settle free).after Γ) (a.mark s).2 := by
  have hgrows := Scopes.grows_assign (s.needAll a.value.reads) a.target
  have htarget := (h.needAll a.value.reads).assign (by rwa [Scopes.stack_needAll]) hf
  exact ⟨⟨h.sees_reads fun x hx => hf x (hgrows.free x hx), htarget.1⟩, htarget.2⟩

theorem Assignment.fitsUpdate_markUpdate (h : Covers free Γ s) (a : Assignment)
    (hf : ∀ x ∈ (a.markUpdate s).2.free, x ∈ free) :
    ((a.markUpdate s).1.settle free).FitsUpdate Γ := by
  have hgrows := Scopes.grows_need (s.needAll a.value.reads) a.target
  refine ⟨h.sees_reads fun x hx => hf x (hgrows.free x hx), ?_⟩
  exact ((h.needAll a.value.reads).need a.target).of_isVisible hf (Scopes.isVisible_need _ _)

theorem Assignment.grows_mark (s : Scopes) (a : Assignment) : s.Grows (a.mark s).2 :=
  (Scopes.grows_needAll s a.value.reads).trans (Scopes.grows_assign _ a.target)

theorem Assignment.grows_markUpdate (s : Scopes) (a : Assignment) : s.Grows (a.markUpdate s).2 :=
  (Scopes.grows_needAll s a.value.reads).trans (Scopes.grows_need _ a.target)

/-- The record behind a header, up to the scope that a counting loop has opened. -/
def Header.opened (s : Scopes) : Header → Scopes
  | .ifThen _ => s
  | .whileDo _ => s
  | .forDo _ _ _ => s.enter

theorem Header.free_opened (s : Scopes) (header : Header) : (header.opened s).free = s.free := by
  cases header <;> rfl

theorem Header.grows_mark (s : Scopes) (header : Header) :
    (header.opened s).Grows (header.mark s).2 := by
  cases header with
  | ifThen c => exact Scopes.grows_needAll s c.reads
  | whileDo c => exact Scopes.grows_needAll s c.reads
  | forDo init c update =>
      exact (init.grows_mark s.enter).trans
        ((Scopes.grows_needAll _ c.reads).trans (update.grows_markUpdate _))

/-- A marked header fits, and covers the scopes behind it. -/
theorem Header.fits_mark (h : Covers free Γ s) (header : Header)
    (hf : ∀ x ∈ (header.mark s).2.free, x ∈ free) :
    ((header.mark s).1.settle free).Fits Γ ∧
      Covers free (((header.mark s).1.settle free).around Γ) (header.mark s).2 := by
  cases header with
  | ifThen c => exact ⟨h.sees_reads hf, h.needAll c.reads⟩
  | whileDo c => exact ⟨h.sees_reads hf, h.needAll c.reads⟩
  | forDo init c update =>
      have hupdate := (update.grows_markUpdate ((init.mark s.enter).2.needAll c.reads)).free
      have htest := (Scopes.grows_needAll (init.mark s.enter).2 c.reads).free
      obtain ⟨hinit, hcovers⟩ := init.fits_mark h.enter (by simp [Scopes.enter]) fun x hx =>
        hf x (hupdate x (htest x hx))
      refine ⟨⟨hinit, hcovers.sees_reads fun x hx => hf x (hupdate x hx), ?_⟩, ?_⟩
      · exact update.fitsUpdate_markUpdate (hcovers.needAll c.reads) hf
      · intro x
        have hstack : (update.markUpdate ((init.mark s.enter).2.needAll c.reads)).2.stack =
            (init.mark s.enter).2.stack := by simp [Assignment.markUpdate]
        rw [Header.mark, hstack]
        exact hcovers x

end Fit

/-- Closing what a header has opened leaves the scopes as they were in front of it. -/
theorem Header.stack_close {s t : Scopes} {header : Header}
    (h : t.stack = (header.mark s).2.stack) : ((header.mark s).1.close t).stack = s.stack := by
  cases header with
  | ifThen c => exact h.trans (Scopes.stack_needAll s c.reads)
  | whileDo c => exact h.trans (Scopes.stack_needAll s c.reads)
  | forDo init c update =>
      have houter := ((Header.forDo init c update).grows_mark s).outer
      rw [← h] at houter
      exact (Scopes.stack_leave t).trans houter

theorem Header.free_close (t : Scopes) (header : Header) : (header.close t).free = t.free := by
  cases header with
  | ifThen c => rfl
  | whileDo c => rfl
  | forDo init c update => exact Scopes.free_leave t

mutual

theorem Stmt.grows_mark {s : Scopes} (hs : s.stack ≠ []) (stmt : Stmt) :
    s.Grows (stmt.mark s).2 := by
  match stmt with
  | .assign a => exact a.grows_mark s
  | .ret value _ => exact Scopes.grows_needAll s value.reads
  | .block header body pos =>
    have hheader := (header.free_opened s) ▸ (header.grows_mark s).free
    obtain ⟨hstack, hfree⟩ := Stmt.leave_markAll (header.mark s).2 body
    have hclosed := Header.stack_close hstack
    refine ⟨fun x hx => ?_, congrArg List.tail hclosed, fun _ => hclosed ▸ hs⟩
    exact (Header.free_close _ _).symm ▸ hfree x (hheader x hx)

theorem Stmt.grows_markAll {s : Scopes} (hs : s.stack ≠ []) (body : List Stmt) :
    s.Grows (Stmt.markAll s body).2 := by
  match body with
  | [] => exact .refl s
  | stmt :: rest =>
    have hstmt := Stmt.grows_mark hs stmt
    exact hstmt.trans (Stmt.grows_markAll (hstmt.nonempty hs) rest)

/-- A block leaves the scopes around it as they were. -/
theorem Stmt.leave_markAll (s : Scopes) (body : List Stmt) :
    (Stmt.markAll s.enter body).2.leave.stack = s.stack ∧
      ∀ x ∈ s.free, x ∈ (Stmt.markAll s.enter body).2.leave.free :=
  (Stmt.grows_markAll (s := s.enter) (by simp [Scopes.enter]) body).leave

end

mutual

/-- A marked statement fits, and covers the scopes behind it. -/
theorem Stmt.fits_mark {free : List String} {Γ : List (List String)} {s : Scopes}
    (h : Covers free Γ s) (hs : s.stack ≠ []) (stmt : Stmt)
    (hf : ∀ x ∈ (stmt.mark s).2.free, x ∈ free) :
    ((stmt.mark s).1.settle free).Fits Γ ∧
      Covers free (((stmt.mark s).1.settle free).after Γ) (stmt.mark s).2 := by
  match stmt with
  | .assign a => exact a.fits_mark h hs hf
  | .ret value _ => exact ⟨h.sees_reads hf, h.needAll value.reads⟩
  | .block header body pos =>
    obtain ⟨hstack, hfree⟩ := Stmt.leave_markAll (header.mark s).2 body
    have hf' : ∀ x ∈ (Stmt.markAll (header.mark s).2.enter body).2.leave.free, x ∈ free := by
      intro x hx
      exact hf x ((Header.free_close _ _).symm ▸ hx)
    obtain ⟨hheader, hcovers⟩ := header.fits_mark h fun x hx => hf' x (hfree x hx)
    have hbody := Stmt.allFit_markAll hcovers.enter (by simp [Scopes.enter]) body fun x hx =>
      hf' x ((Scopes.free_leave _).symm ▸ hx)
    refine ⟨⟨hheader, hbody⟩, fun x => ?_⟩
    exact (Header.stack_close hstack).symm ▸ h x

theorem Stmt.allFit_markAll {free : List String} {Γ : List (List String)} {s : Scopes}
    (h : Covers free Γ s) (hs : s.stack ≠ []) (body : List Stmt)
    (hf : ∀ x ∈ (Stmt.markAll s body).2.free, x ∈ free) :
    Stmt.AllFit Γ (Stmt.settleAll free (Stmt.markAll s body).1) := by
  match body with
  | [] => trivial
  | stmt :: rest =>
    have hne := (Stmt.grows_mark hs stmt).nonempty hs
    obtain ⟨hstmt, hcovers⟩ := Stmt.fits_mark h hs stmt fun x hx =>
      hf x ((Stmt.grows_markAll hne rest).free x hx)
    exact ⟨hstmt, Stmt.allFit_markAll hcovers hne rest hf⟩

end

/-- **A body with its declarations fits** wherever exactly the names that it has declared up
front can be seen. -/
theorem declare_allFit (body : List Stmt) {Γ : List (List String)}
    (h : ∀ x, Sees Γ x ↔ x ∈ (declare body).2) : Stmt.AllFit Γ (declare body).1 := by
  refine Stmt.allFit_markAll (s := .start) ?_ (by simp [Scopes.start]) body fun x hx => hx
  intro x
  rw [h x]
  simp [Sees, Scopes.start, Pseudocode.declare]

end Pseudocode
