import Pseudocode.Proofs.Results
import Pseudocode.Proofs.Scope.Exact
import Pseudocode.Proofs.Scope.Execution
import Pseudocode.Proofs.Scope.Fitting

/-!
# Block scopes keep the meaning

The execution of a function with block scopes and declarations goes step by step like the one
with a single store. What relates the two is that every binding that is alive has the value
the single store has, that no binding hides another one, and that all that is still to be
done fits the open scopes. A body that fits never needs the value that a variable had when its
scope was left, so it does not matter that the single store keeps it.

## Main definitions

* `Mirrors` — the live bindings have the values of the single store.
* `Related` — two executions at corresponding points.

## Main statements

* `step_related`, `run_related` — one step, and any number of steps, keep executions related.
* `nested_run_agrees` — the two executions of a function that was read from tokens agree.
-/
namespace Pseudocode.Execution

variable {V : Type}

/-! ## Live bindings -/

/-- The names that are declared in each open scope. -/
def names (frames : List (Frame V)) : List (List String) := frames.map (·.map Prod.fst)

/-- Every live binding has the value of the single store, and none hides another one. -/
structure Mirrors (σ : String → V) (frames : List (Frame V)) : Prop where
  value : ∀ b ∈ frames.flatten, σ b.1 = b.2
  nodup : (names frames).flatten.Nodup

@[simp] theorem names_cons (frame : Frame V) (outer : List (Frame V)) :
    names (frame :: outer) = frame.map Prod.fst :: names outer := rfl

theorem sees_iff_mem_flatten {Γ : List (List String)} {x : String} :
    Sees Γ x ↔ x ∈ Γ.flatten := List.mem_flatten.symm

theorem flatten_names (frames : List (Frame V)) :
    (names frames).flatten = frames.flatten.map Prod.fst := List.map_flatten.symm

theorem Frame.declares_iff {frame : Frame V} {x : String} :
    frame.declares x = true ↔ x ∈ frame.map Prod.fst := by
  simp [Frame.declares]

theorem Frame.map_fst_set (x : String) (v : V) (frame : Frame V) :
    (frame.set x v).map Prod.fst = frame.map Prod.fst := by
  induction frame with
  | nil => rfl
  | cons b rest ih =>
      obtain ⟨y, w⟩ := b
      by_cases hy : y = x <;> simp [Frame.set, hy, ih]

/-- In a scope without duplicates, setting a name changes its binding and no other. -/
theorem Frame.mem_set {x : String} {v : V} {frame : Frame V} (hn : (frame.map Prod.fst).Nodup)
    {b : String × V} (hb : b ∈ frame.set x v) :
    (b.1 = x ∧ b.2 = v) ∨ (b.1 ≠ x ∧ b ∈ frame) := by
  induction frame with
  | nil => simp [Frame.set] at hb
  | cons c rest ih =>
      obtain ⟨y, w⟩ := c
      rw [List.map_cons, List.nodup_cons] at hn
      by_cases hy : y = x
      · rw [Frame.set, if_pos hy] at hb
        rcases List.mem_cons.1 hb with rfl | hb
        · exact .inl ⟨hy, rfl⟩
        · refine .inr ⟨?_, List.mem_cons_of_mem _ hb⟩
          rintro rfl
          exact hn.1 (List.mem_map.2 ⟨b, hb, hy.symm⟩)
      · rw [Frame.set, if_neg hy] at hb
        rcases List.mem_cons.1 hb with rfl | hb
        · exact .inr ⟨hy, List.mem_cons_self⟩
        · exact (ih hn.2 hb).imp_right fun h => ⟨h.1, List.mem_cons_of_mem _ h.2⟩

section Stores
variable {σ : String → V} {frames : List (Frame V)} {x : String} {v : V}

/-- A binding that is found has the value of the single store. -/
theorem Mirrors.of_lookup (h : Mirrors σ frames) (hx : lookup frames x = some v) : σ x = v := by
  obtain ⟨as, bs, hsplit, -⟩ := List.lookup_eq_some_iff.1 hx
  exact h.value (x, v) (by simp [hsplit])

/-- A name that can be seen has its value in the store. -/
theorem Mirrors.lookup_eq (h : Mirrors σ frames) (hx : Sees (names frames) x) :
    lookup frames x = some (σ x) := by
  rw [sees_iff_mem_flatten, flatten_names] at hx
  obtain ⟨b, hb, rfl⟩ := List.mem_map.1 hx
  have hsome : (lookup frames b.1).isSome := List.lookup_isSome_iff.2 ⟨b, hb, by simp⟩
  obtain ⟨v, hv⟩ := Option.isSome_iff_exists.1 hsome
  rw [hv, h.of_lookup hv]

/-- A new scope hides no binding. -/
theorem Mirrors.enter (h : Mirrors σ frames) : Mirrors σ ([] :: frames) :=
  ⟨by simpa using h.value, by simpa using h.nodup⟩

/-- A scope that is closed takes its bindings with it and no others. -/
theorem Mirrors.leave (h : Mirrors σ frames) : Mirrors σ frames.tail := by
  cases frames with
  | nil => exact h
  | cons frame outer =>
      refine ⟨fun b hb => h.value b (List.mem_append_right _ hb), ?_⟩
      have hn := h.nodup
      rw [names_cons, List.flatten_cons] at hn
      exact (List.nodup_append.1 hn).2.1

/-- An assignment to a name that can be seen is made in both stores. -/
theorem Mirrors.assign (h : Mirrors σ frames) (hx : Sees (names frames) x) :
    ∃ next, assign x v frames = .ok next ∧ names next = names frames ∧
      Mirrors (Function.update σ x v) next := by
  induction frames with
  | nil => simp [Sees, names] at hx
  | cons frame outer ih =>
      have hn := h.nodup
      rw [names_cons, List.flatten_cons] at hn
      obtain ⟨hnf, -, hdisjoint⟩ := List.nodup_append.1 hn
      by_cases hd : frame.declares x = true
      · refine ⟨frame.set x v :: outer, by simp [Execution.assign, hd], ?_, ?_, ?_⟩
        · simp [Frame.map_fst_set]
        · intro b hb
          rcases List.mem_append.1 hb with hset | hout
          · rcases Frame.mem_set hnf hset with ⟨hbx, hbv⟩ | ⟨hbx, hold⟩
            · rw [hbx, hbv, Function.update_self]
            · rw [Function.update_of_ne hbx, h.value b (List.mem_append_left _ hold)]
          · have hbx : b.1 ≠ x := by
              rintro rfl
              refine hdisjoint _ (Frame.declares_iff.1 hd) b.1 ?_ rfl
              rw [flatten_names]
              exact List.mem_map_of_mem hout
            rw [Function.update_of_ne hbx, h.value b (List.mem_append_right _ hout)]
        · rwa [names_cons, Frame.map_fst_set, List.flatten_cons]
      · have hxo : Sees (names outer) x := by
          rw [names_cons, sees_cons, ← Frame.declares_iff] at hx
          exact hx.resolve_left hd
        obtain ⟨next, hok, hnames, hm⟩ := ih h.leave hxo
        refine ⟨frame :: next, by simp [Execution.assign, hd, hok, Except.map], ?_, ?_, ?_⟩
        · rw [names_cons, names_cons, hnames]
        · intro b hb
          rcases List.mem_append.1 hb with hin | hout
          · have hbx : b.1 ≠ x := by
              rintro rfl
              exact hd (Frame.declares_iff.2 (List.mem_map_of_mem hin))
            rw [Function.update_of_ne hbx, h.value b (List.mem_append_left _ hin)]
          · exact hm.value b hout
        · rwa [names_cons, hnames, List.flatten_cons]

/-- A new name is declared in both stores. -/
theorem Mirrors.declare (h : Mirrors σ frames) (hx : ¬ Sees (names frames) x) :
    ∃ next, declare x v frames = .ok next ∧ names next = withName x (names frames) ∧
      Mirrors (Function.update σ x v) next := by
  have hvalue : ∀ b ∈ frames.flatten, Function.update σ x v b.1 = b.2 := by
    intro b hb
    have hbx : b.1 ≠ x := by
      rintro rfl
      rw [sees_iff_mem_flatten, flatten_names] at hx
      exact hx (List.mem_map_of_mem hb)
    rw [Function.update_of_ne hbx, h.value b hb]
  cases frames with
  | nil =>
      refine ⟨[[(x, v)]], rfl, rfl, ?_, ?_⟩
      · simp
      · simp [names]
  | cons frame outer =>
      have hd : ¬ frame.declares x = true := by
        rw [Frame.declares_iff]
        exact fun hf => hx (sees_cons.2 (.inl hf))
      refine ⟨((x, v) :: frame) :: outer, by simp [Execution.declare, hd], rfl, ?_, ?_⟩
      · intro b hb
        rw [List.flatten_cons, List.cons_append] at hb
        rcases List.mem_cons.1 hb with rfl | hb
        · exact Function.update_self ..
        · exact hvalue b hb
      · rw [sees_iff_mem_flatten] at hx
        exact List.nodup_cons.2 ⟨hx, h.nodup⟩

/-- Names without duplicates can be declared up front. -/
theorem Mirrors.declareAll (M : Meaning V) {xs : List String} (h : Mirrors M.initial frames)
    (hxs : xs.Nodup) (hnew : ∀ x ∈ xs, ¬ Sees (names frames) x) :
    ∃ next, declareAll M xs frames = .ok next ∧ Mirrors M.initial next ∧
      ∀ y, Sees (names next) y ↔ y ∈ xs ∨ Sees (names frames) y := by
  induction xs generalizing frames with
  | nil => exact ⟨frames, rfl, h, by simp⟩
  | cons x xs ih =>
      rw [List.nodup_cons] at hxs
      obtain ⟨mid, hok, hnames, hm⟩ := h.declare (v := M.initial x) (hnew x List.mem_cons_self)
      rw [Function.update_eq_self] at hm
      obtain ⟨next, hnext, hmirrors, hsees⟩ := ih hm hxs.2 (by
        intro y hy
        rw [hnames, sees_withName, not_or]
        refine ⟨?_, hnew y (List.mem_cons_of_mem _ hy)⟩
        rintro rfl
        exact hxs.1 hy)
      refine ⟨next, by simp [Execution.declareAll, hok, hnext, bind, Except.bind], hmirrors, ?_⟩
      intro y
      rw [hsees, hnames, sees_withName, List.mem_cons]
      tauto

end Stores

/-! ## Tasks that fit -/

/-- Tasks fit the open scopes, each behind the ones before it. -/
def TasksFit (Γ : List (List String)) : List Task → Prop
  | [] => True
  | .perform stmt :: rest => stmt.Fits Γ ∧ TasksFit (stmt.after Γ) rest
  | .loop c update body :: rest =>
    (∀ x ∈ c.reads, Sees Γ x) ∧ (∀ a ∈ update, a.FitsUpdate Γ) ∧ Stmt.AllFit ([] :: Γ) body ∧
      TasksFit Γ rest
  | .update a :: rest => a.FitsUpdate Γ ∧ TasksFit Γ rest
  | .leave :: rest => TasksFit Γ.tail rest

/-- Statements declare in the innermost scope, so the scopes around it are the same behind
them. -/
theorem tail_after (Γ : List (List String)) (hΓ : Γ ≠ []) (stmt : Stmt) :
    (stmt.after Γ).tail = Γ.tail ∧ stmt.after Γ ≠ [] := by
  cases stmt with
  | ret value pos => exact ⟨rfl, hΓ⟩
  | block header body pos => exact ⟨rfl, hΓ⟩
  | assign a =>
      obtain ⟨names, outer, rfl⟩ := List.exists_cons_of_ne_nil hΓ
      by_cases hd : a.declares = true <;> simp [Stmt.after, Assignment.after, hd, withName]

/-- A block that fits can be put in front of tasks that fit. -/
theorem tasksFit_block {Γ : List (List String)} {body : List Stmt} {rest : List Task}
    (hΓ : Γ ≠ []) (hbody : Stmt.AllFit Γ body) (hrest : TasksFit Γ.tail rest) :
    TasksFit Γ (Machine.block body rest) := by
  induction body generalizing Γ with
  | nil => exact hrest
  | cons stmt body ih =>
      obtain ⟨htail, hne⟩ := tail_after Γ hΓ stmt
      exact ⟨hbody.1, ih hne hbody.2 (htail ▸ hrest)⟩

theorem tasksFit_body {Γ : List (List String)} {body : List Stmt} (hbody : Stmt.AllFit Γ body) :
    TasksFit Γ (body.map .perform) := by
  induction body generalizing Γ with
  | nil => trivial
  | cons stmt body ih => exact ⟨hbody.1, ih hbody.2⟩

section Actions
variable (M : Meaning V) {σ : String → V} {frames : List (Frame V)}

theorem mapM_read_flat (σ : String → V) (xs : List String) :
    xs.mapM ((flat V).read σ) = .ok (xs.map σ) :=
  mapM_eq_ok fun _ _ => rfl

theorem Mirrors.mapM_read (h : Mirrors σ frames) {xs : List String}
    (hxs : ∀ x ∈ xs, Sees (names frames) x) :
    xs.mapM ((nested V).read frames) = .ok (xs.map σ) := by
  refine mapM_eq_ok fun x hx => ?_
  simp only [h.lookup_eq (hxs x hx)]

theorem value_flat (σ : String → V) (e : Expr) :
    Machine.value (flat V) M σ e = .ok (M.expr e (e.reads.map σ)) := by
  rw [Machine.value, mapM_read_flat]
  rfl

/-- An expression has the same value on both sides. -/
theorem Mirrors.value_nested (h : Mirrors σ frames) {e : Expr}
    (he : ∀ x ∈ e.reads, Sees (names frames) x) :
    Machine.value (nested V) M frames e = .ok (M.expr e (e.reads.map σ)) := by
  rw [Machine.value, h.mapM_read he]
  rfl

theorem test_flat (σ : String → V) (c : Condition) :
    Machine.test (flat V) M σ c = .ok (M.test c (c.reads.map σ)) := by
  rw [Machine.test, mapM_read_flat]
  rfl

/-- A condition has the same outcome on both sides. -/
theorem Mirrors.test_nested (h : Mirrors σ frames) {c : Condition}
    (hc : ∀ x ∈ c.reads, Sees (names frames) x) :
    Machine.test (nested V) M frames c = .ok (M.test c (c.reads.map σ)) := by
  rw [Machine.test, h.mapM_read hc]
  rfl

/-- An assignment that fits stores the same value in both stores. -/
theorem Mirrors.store (h : Mirrors σ frames) {a : Assignment} {declares : Bool}
    (hreads : ∀ x ∈ a.value.reads, Sees (names frames) x)
    (htarget : Sees (names frames) a.target ↔ declares = false) :
    ∃ σ' next event, Machine.store (flat V) M σ a declares = .ok (σ', event) ∧
      Machine.store (nested V) M frames a declares = .ok (next, event) ∧
      names next = (if declares then withName a.target (names frames) else names frames) ∧
      Mirrors σ' next := by
  let v := M.convert a.target (M.expr a.value (a.value.reads.map σ))
  have hflat : Machine.store (flat V) M σ a declares =
      .ok (Function.update σ a.target v, .stored a.target v) := by
    rw [Machine.store, value_flat]
    cases declares <;> rfl
  cases declares with
  | true =>
      obtain ⟨next, hok, hnames, hm⟩ := h.declare (v := v) (x := a.target) (by simp [htarget])
      refine ⟨_, next, _, hflat, ?_, hnames, hm⟩
      rw [Machine.store, h.value_nested M hreads]
      change (Execution.declare a.target v frames >>= fun s => pure (s, Event.stored a.target v)) = _
      rw [hok]
      rfl
  | false =>
      obtain ⟨next, hok, hnames, hm⟩ := h.assign (v := v) (x := a.target) (by simp [htarget])
      refine ⟨_, next, _, hflat, ?_, hnames, hm⟩
      rw [Machine.store, h.value_nested M hreads]
      change (Execution.assign a.target v frames >>= fun s => pure (s, Event.stored a.target v)) = _
      rw [hok]
      rfl

end Actions

/-! ## Related executions -/

/-- The two executions at corresponding points: the same tasks ahead, which fit, the same events
behind, and stores that mirror each other; or the same value returned. -/
inductive Related : State V (flat V).Store → State V (nested V).Store → Prop where
  | going {tasks : List Task} {σ : String → V} {frames : List (Frame V)} {events : List (Event V)}
      (mirrors : Mirrors σ frames) (fit : TasksFit (names frames) tasks) :
      Related (.going tasks σ events) (.going tasks frames events)
  | returned (value : V) (events : List (Event V)) :
      Related (.returned value events) (.returned value events)

section Steps
variable (M : Meaning V) {σ : String → V} {frames : List (Frame V)} (events : List (Event V))
  {rest : List Task}

/-- Two results that are related, one for each way to keep variables. -/
def BothRelated (a : Except Fault (State V (flat V).Store))
    (b : Except Fault (State V (nested V).Store)) : Prop :=
  ∃ s t, a = .ok s ∧ b = .ok t ∧ Related s t

/-- A block is entered or skipped, as the test says, and its scope is the innermost one. -/
theorem related_branch (h : Mirrors σ frames) {c : Condition} {body : List Stmt}
    {again : List Task} (hc : ∀ x ∈ c.reads, Sees (names frames) x)
    (hbody : Stmt.AllFit ([] :: names frames) body) (hagain : TasksFit (names frames) again)
    (hrest : TasksFit (names frames) rest) :
    BothRelated
      (do
        let holds ← Machine.test (flat V) M σ c
        let events := events ++ [.tested c holds]
        return if holds then .going (Machine.block body again) ((flat V).enter σ) events
          else .going rest σ events)
      (do
        let holds ← Machine.test (nested V) M frames c
        let events := events ++ [.tested c holds]
        return if holds then .going (Machine.block body again) ((nested V).enter frames) events
          else .going rest frames events) := by
  rw [test_flat, h.test_nested M hc]
  refine ⟨_, _, rfl, rfl, ?_⟩
  cases M.test c (c.reads.map σ) with
  | true => exact .going h.enter (tasksFit_block (List.cons_ne_nil _ _) hbody hagain)
  | false => exact .going h hrest

/-- An assignment that fits leads to related executions. -/
theorem related_store (h : Mirrors σ frames) {a : Assignment} {declares : Bool}
    {tasks : List Task} (hreads : ∀ x ∈ a.value.reads, Sees (names frames) x)
    (htarget : Sees (names frames) a.target ↔ declares = false)
    (hfit : TasksFit (if declares then withName a.target (names frames) else names frames) tasks) :
    BothRelated
      (do
        let (s, event) ← Machine.store (flat V) M σ a declares
        return .going tasks s (events ++ [event]))
      (do
        let (s, event) ← Machine.store (nested V) M frames a declares
        return .going tasks s (events ++ [event])) := by
  obtain ⟨σ', next, event, hflat, hnested, hnames, hm⟩ := h.store M hreads htarget
  rw [hflat, hnested]
  exact ⟨_, _, rfl, rfl, .going hm (hnames ▸ hfit)⟩

/-- One task keeps the executions related. -/
theorem perform_related (h : Mirrors σ frames) (task : Task)
    (hfit : TasksFit (names frames) (task :: rest)) :
    BothRelated (Machine.perform (flat V) M σ rest events task)
      (Machine.perform (nested V) M frames rest events task) := by
  cases task with
  | perform stmt =>
      obtain ⟨hstmt, hrest⟩ := hfit
      cases stmt with
      | assign a => exact related_store M events h hstmt.1 hstmt.2 hrest
      | ret value pos =>
          simp only [Machine.perform]
          rw [value_flat, h.value_nested M hstmt]
          exact ⟨_, _, rfl, rfl, .returned _ _⟩
      | block header body pos =>
          obtain ⟨hheader, hbody⟩ := hstmt
          cases header with
          | ifThen c => exact related_branch M events h hheader hbody hrest hrest
          | whileDo c =>
              exact ⟨_, _, rfl, rfl, .going h ⟨hheader, by simp, hbody, hrest⟩⟩
          | forDo init c update =>
              obtain ⟨hinit, hc, hupdate⟩ := hheader
              have hm := h.enter
              refine related_store M events hm hinit.1 hinit.2
                ⟨hc, fun a ha => Option.some.inj ha ▸ hupdate, hbody, ?_⟩
              have htail : (init.after ([] :: names frames)).tail = names frames :=
                (tail_after ([] :: names frames) (by simp) (.assign init)).1
              change TasksFit (init.after ([] :: names frames)).tail rest
              rw [htail]
              exact hrest
  | loop c update body =>
      obtain ⟨hc, hupdate, hbody, hrest⟩ := hfit
      refine related_branch M events h hc hbody ?_ hrest
      have hloop : TasksFit (names frames) (.loop c update body :: rest) :=
        ⟨hc, hupdate, hbody, hrest⟩
      cases update with
      | none => exact hloop
      | some a => exact ⟨hupdate a rfl, hloop⟩
  | update a =>
      obtain ⟨ha, hrest⟩ := hfit
      exact related_store M events h ha.1 (by simp [ha.2]) hrest
  | leave =>
      refine ⟨_, _, rfl, rfl, .going h.leave ?_⟩
      rw [names, List.map_tail]
      exact hfit

/-- **One step keeps the executions related.** -/
theorem step_related {s : State V (flat V).Store} {t : State V (nested V).Store}
    (h : Related s t) : Related (Machine.step (flat V) M s) (Machine.step (nested V) M t) := by
  cases h with
  | returned value events => exact .returned value events
  | @going tasks σ frames events hm hfit =>
      cases tasks with
      | nil => exact .going hm hfit
      | cons task rest =>
          obtain ⟨s, t, hs, ht, hrelated⟩ := perform_related M events hm task hfit
          simp only [Machine.step, hs, ht]
          exact hrelated

/-- **Any number of steps keeps the executions related.** -/
theorem run_related (n : Nat) {s : State V (flat V).Store} {t : State V (nested V).Store}
    (h : Related s t) : Related (Machine.run (flat V) M n s) (Machine.run (nested V) M n t) := by
  induction n generalizing s t with
  | zero => exact h
  | succ n ih => exact ih (step_related M h)

end Steps

/-- The executions of a function begin related if its body fits behind its free names. -/
theorem start_related (M : Meaning V) {f : Function} (hnodup : f.free.Nodup)
    (hfit : ∀ Γ, (∀ x, Sees Γ x ↔ x ∈ f.free) → Stmt.AllFit Γ f.body) :
    Related (flatStart M f) (nestedStart M f) := by
  have hempty : Mirrors M.initial [[]] := ⟨by simp, by simp [names]⟩
  obtain ⟨frames, hok, hm, hsees⟩ := hempty.declareAll M hnodup (by simp [Sees, names])
  rw [nestedStart, hok]
  refine .going hm (tasksFit_body (hfit _ fun x => ?_))
  rw [hsees]
  simp [Sees, names]

/-- **Block scopes keep the meaning.** Whatever expressions, conditions, conversions and
defaults mean, after any number of steps the execution of a function with block scopes has
used no name that is not declared and declared none twice in a scope; it is as far as the one
with a single store, with the same value if it has returned one, and has stored the same
values and passed the same tests; and every variable that can be seen has the same value. -/
theorem nested_run_agrees {ts : List Token} {f : Function} (h : parse ts = .ok f)
    {V : Type} (M : Meaning V) (n : Nat) :
    let single := Machine.run (flat V) M n (flatStart M f)
    let blocks := Machine.run (nested V) M n (nestedStart M f)
    (∀ fault, blocks.outcome ≠ .stuck fault) ∧ blocks.outcome = single.outcome ∧
      blocks.events = single.events ∧
      ∀ tasks frames events, blocks = .going tasks frames events →
        ∃ σ, single = .going tasks σ events ∧ ∀ x v, lookup frames x = some v → σ x = v := by
  obtain ⟨source, -, rfl⟩ := exists_source_of_parse h
  have hstart : Related (flatStart M (.ofSource source)) (nestedStart M (.ofSource source)) :=
    start_related M (declare_settled source.body).nodup fun _ => declare_allFit source.body
  have hrun := run_related M n hstart
  intro single blocks
  change Related single blocks at hrun
  generalize single = a at hrun ⊢
  generalize blocks = b at hrun ⊢
  cases hrun with
  | returned value events => exact ⟨by simp [State.outcome], rfl, rfl, by simp⟩
  | @going tasks σ frames events hm hfit =>
      refine ⟨by cases tasks <;> simp [State.outcome], by cases tasks <;> rfl, rfl, ?_⟩
      rintro _ _ _ heq
      cases heq
      exact ⟨σ, rfl, fun x v hx => hm.of_lookup hx⟩

open Kind in
/-- `x gets 0; while (x < 2) { t gets x; x gets t; } return x;` -/
def whileTokens : List Token :=
  [name "x", gets, literal (.int 0), semicolon, keyword .whileKw, leftParen, name "x", rel .less,
    literal (.int 2), rightParen, leftCurly, name "t", gets, name "x", semicolon, name "x", gets,
    name "t", semicolon, rightCurly, keyword .returnKw, name "x", semicolon].map
    fun kind => ⟨kind, "", .start⟩

/-- An expression is one more than the sum of what it reads, and a condition holds while that
sum is below three. -/
def summing : Meaning Nat where
  expr _ values := values.foldl Nat.add 1
  test _ values := Nat.blt (values.foldl Nat.add 0) 3
  convert _ v := v
  initial _ := 0

/-- The variable of the block is declared in every round, and the value survives in `x`. -/
theorem whileTokens_run_agrees : ∃ f, parse whileTokens = .ok f ∧
    (Machine.run (nested Nat) summing 8 (nestedStart summing f)).outcome = .returned 4 := by
  refine ⟨?f, ?parsed, (nested_run_agrees ?parsed summing 8).2.1.trans ?returned⟩
  case parsed =>
    cbv
    rfl
  case returned => rfl

end Pseudocode.Execution
