import Pseudocode.Proofs.Scope.Locality
import Pseudocode.Typing

/-!
# Origins of types

The first mention of a name decides where its type comes from: a read has to take it from the
caller, and an assignment takes it from its value. The origin of a name is this first mention,
found by walking the body in evaluation order.
-/
namespace Pseudocode

/-- Where a name gets its type from. -/
inductive Origin where
  /-- The name is read before anything is assigned to it. -/
  | read
  /-- The name is first assigned this value. -/
  | value (e : Expr)
  deriving DecidableEq

namespace Origin

/-- The origin of a name in a place that reads some names. -/
def ofReads (names : List String) (x : String) : Option Origin :=
  if x ∈ names then some .read else none

/-- The origin of a name in a place that assigns a value to a target. -/
def ofTarget (target : String) (e : Expr) (x : String) : Option Origin :=
  if x = target then some (.value e) else none

/-- Whether a name is read first. -/
def isRead : Origin → Bool
  | .read => true
  | .value _ => false

theorem ofReads_append (names more : List String) :
    ofReads (names ++ more) = fun x => (ofReads names x).or (ofReads more x) := by
  funext x
  by_cases h : x ∈ names <;> simp [ofReads, h]

end Origin

/-- The origin of a name in an assignment: the value is read before the target is assigned. -/
def Assignment.origin? (a : Assignment) (x : String) : Option Origin :=
  (Origin.ofReads a.value.reads x).or (Origin.ofTarget a.target a.value x)

/-- The origin of a name in a header. A counting loop has its first assignment, its condition and
its update, in this order. -/
def Header.origin? (x : String) : Header → Option Origin
  | .ifThen c => Origin.ofReads c.reads x
  | .whileDo c => Origin.ofReads c.reads x
  | .forDo init c update =>
    (init.origin? x).or ((Origin.ofReads c.reads x).or (update.origin? x))

mutual

/-- The origin of a name in a statement, a header before its body. -/
def Stmt.origin? (x : String) : Stmt → Option Origin
  | .assign a => a.origin? x
  | .block header body _ => (header.origin? x).or (Stmt.originIn? x body)
  | .ret value _ => Origin.ofReads value.reads x

/-- The origin of a name in a list of statements. -/
def Stmt.originIn? (x : String) : List Stmt → Option Origin
  | [] => none
  | stmt :: rest => (stmt.origin? x).or (Stmt.originIn? x rest)

end

mutual

/-- The value of the first return in a statement. -/
def Stmt.firstReturn? : Stmt → Option Expr
  | .assign _ => none
  | .block _ body _ => Stmt.firstReturnIn? body
  | .ret value _ => some value

/-- The value of the first return in a list of statements. -/
def Stmt.firstReturnIn? : List Stmt → Option Expr
  | [] => none
  | stmt :: rest => stmt.firstReturn?.or (Stmt.firstReturnIn? rest)

end

/-- The origin of a name in a function. -/
def Function.origin? (f : Function) (x : String) : Option Origin := Stmt.originIn? x f.body

/-- The value of the first return of a function. -/
def Function.firstReturn? (f : Function) : Option Expr := Stmt.firstReturnIn? f.body

/-- The origin of a name in an action. -/
def Action.origin? (x : String) : Action → Option Origin
  | .assign a => a.origin? x
  | .test c => Origin.ofReads c.reads x
  | .ret e => Origin.ofReads e.reads x

/-- The origin of a name in a row of actions. -/
def Action.originIn? (actions : List Action) (x : String) : Option Origin :=
  actions.findSome? (Action.origin? x)

theorem Action.originIn?_cons (action : Action) (rest : List Action) :
    originIn? (action :: rest) = fun x => (action.origin? x).or (originIn? rest x) := by
  funext x
  rw [originIn?, ← List.singleton_append, List.findSome?_append]
  simp [originIn?]

/-- The first actions that have an origin decide. -/
theorem Action.originIn?_append (front back : List Action) (x : String) :
    originIn? (front ++ back) x = (originIn? front x).or (originIn? back x) :=
  List.findSome?_append

/-- The value that an action gives back. -/
def Action.returned? : Action → Option Expr
  | .ret e => some e
  | _ => none

theorem Header.originIn?_actions (header : Header) (x : String) :
    Action.originIn? header.actions x = header.origin? x := by
  cases header with
  | ifThen c => simp [Header.actions, Header.origin?, Action.originIn?, Action.origin?]
  | whileDo c => simp [Header.actions, Header.origin?, Action.originIn?, Action.origin?]
  | forDo init c update =>
      rw [Header.actions, Action.originIn?_cons, Action.originIn?_cons, Header.origin?]
      simp [Action.originIn?, Action.origin?]

theorem Header.findSome?_returned (header : Header) :
    header.actions.findSome? Action.returned? = none := by
  cases header <;> rfl

mutual

theorem Stmt.originIn?_actions (stmt : Stmt) (x : String) :
    Action.originIn? stmt.actions x = stmt.origin? x := by
  match stmt with
  | .assign a => simp [Stmt.actions, Stmt.origin?, Action.originIn?, Action.origin?]
  | .ret value _ => simp [Stmt.actions, Stmt.origin?, Action.originIn?, Action.origin?]
  | .block header body _ =>
      rw [Stmt.actions, Action.originIn?_append, header.originIn?_actions,
        Stmt.originIn?_allActions body, Stmt.origin?]

/-- A body has the origins of its actions. -/
theorem Stmt.originIn?_allActions (body : List Stmt) (x : String) :
    Action.originIn? (Stmt.allActions body) x = Stmt.originIn? x body := by
  match body with
  | [] => rfl
  | stmt :: rest =>
      rw [Stmt.allActions, Action.originIn?_append, Stmt.originIn?_actions stmt,
        Stmt.originIn?_allActions rest, Stmt.originIn?]

end

mutual

theorem Stmt.findSome?_returned (stmt : Stmt) :
    stmt.actions.findSome? Action.returned? = stmt.firstReturn? := by
  match stmt with
  | .assign _ => rfl
  | .ret _ _ => rfl
  | .block header body _ =>
      rw [Stmt.actions, List.findSome?_append, header.findSome?_returned, Option.none_or,
        Stmt.findSome?_allReturned body, Stmt.firstReturn?]

/-- The first return of a body is that of its actions. -/
theorem Stmt.findSome?_allReturned (body : List Stmt) :
    (Stmt.allActions body).findSome? Action.returned? = Stmt.firstReturnIn? body := by
  match body with
  | [] => rfl
  | stmt :: rest =>
      rw [Stmt.allActions, List.findSome?_append, Stmt.findSome?_returned stmt,
        Stmt.findSome?_allReturned rest, Stmt.firstReturnIn?]

end

/-- Whether the first mention of a name is a read, if there is a mention. -/
def readFirst? (ms : List Mention) (x : String) : Option Bool :=
  (firstMention? ms x).map fun m => decide (m.use = .read)

/-- The first mention decides, also over two rows of mentions. -/
theorem readFirst?_append (ms more : List Mention) (x : String) :
    readFirst? (ms ++ more) x = (readFirst? ms x).or (readFirst? more x) := by
  rw [readFirst?, firstMention?, List.find?_append, Option.map_or]
  rfl

theorem readFirst?_readMentions (p : List Nat) (xs : List String) (x : String) :
    readFirst? (readMentions p xs) x = (Origin.ofReads xs x).map Origin.isRead := by
  induction xs with
  | nil => rfl
  | cons y xs ih =>
      by_cases h : y = x
      · simp [readFirst?, firstMention?, readMentions, Origin.ofReads, Origin.isRead, h]
      · have hne : x ≠ y := fun heq => h heq.symm
        simpa [readFirst?, firstMention?, readMentions, Origin.ofReads, h, hne] using ih

theorem Assignment.readFirst?_mentions (a : Assignment) {use : Use} (huse : use ≠ .read)
    (p : List Nat) (x : String) :
    readFirst? (a.mentions use p) x = (a.origin? x).map Origin.isRead := by
  rw [Assignment.mentions, readFirst?_append, readFirst?_readMentions, Assignment.origin?,
    Option.map_or]
  by_cases h : a.target = x
  · simp [readFirst?, firstMention?, Origin.ofTarget, Origin.isRead, h, huse]
  · have hne : x ≠ a.target := fun heq => h heq.symm
    simp [readFirst?, firstMention?, Origin.ofTarget, h, hne]

theorem Header.readFirst?_mentions (header : Header) (p : List Nat) (x : String) :
    readFirst? (header.mentions p) x = (header.origin? x).map Origin.isRead := by
  cases header with
  | ifThen c => exact readFirst?_readMentions p c.reads x
  | whileDo c => exact readFirst?_readMentions p c.reads x
  | forDo init c update =>
      rw [Header.mentions, readFirst?_append, readFirst?_append, readFirst?_readMentions,
        init.readFirst?_mentions (by simp), update.readFirst?_mentions (by simp), Header.origin?,
        Option.map_or, Option.map_or, Option.or_assoc]

mutual

theorem Stmt.readFirst?_mentions (stmt : Stmt) (p : List Nat) (i : Nat) (x : String) :
    readFirst? (stmt.mentions p i) x = (stmt.origin? x).map Origin.isRead := by
  match stmt with
  | .assign a => exact a.readFirst?_mentions (by simp) p x
  | .ret value _ => exact readFirst?_readMentions p value.reads x
  | .block header body _ =>
      rw [Stmt.mentions, readFirst?_append, header.readFirst?_mentions,
        Stmt.readFirst?_allMentions body, Stmt.origin?, Option.map_or]

/-- A name is read first exactly if its origin is a read. -/
theorem Stmt.readFirst?_allMentions (body : List Stmt) (p : List Nat) (i : Nat) (x : String) :
    readFirst? (Stmt.allMentions p i body) x = (Stmt.originIn? x body).map Origin.isRead := by
  match body with
  | [] => rfl
  | stmt :: rest =>
      rw [Stmt.allMentions, readFirst?_append, Stmt.readFirst?_mentions stmt,
        Stmt.readFirst?_allMentions rest, Stmt.originIn?, Option.map_or]

end

/-- The origin of a name is the use that its first mention makes of it. -/
theorem Function.origin?_isRead (f : Function) (x : String) :
    (f.origin? x).map Origin.isRead =
      (firstMention? f.mentions x).map fun m => decide (m.use = .read) :=
  (Stmt.readFirst?_allMentions f.body [] 0 x).symm

/-- A name is read first exactly if its first mention is a read. -/
theorem Function.origin?_eq_read_iff {f : Function} {x : String} :
    f.origin? x = some .read ↔ ∃ i m, FirstAt f.mentions x i m ∧ m.use = .read := by
  have h := f.origin?_isRead x
  constructor
  · intro hread
    rw [hread] at h
    obtain ⟨m, hm, huse⟩ := Option.map_eq_some_iff.1 h.symm
    obtain ⟨i, hi⟩ := firstMention?_iff_firstAt.1 hm
    exact ⟨i, m, hi, by simpa [Origin.isRead] using huse⟩
  · rintro ⟨i, m, hi, huse⟩
    rw [firstMention?_iff_firstAt.2 ⟨i, hi⟩] at h
    obtain ⟨origin, horigin, hisRead⟩ := Option.map_eq_some_iff.1 h
    cases origin with
    | read => exact horigin
    | value e => simp [Origin.isRead, huse] at hisRead

end Pseudocode
