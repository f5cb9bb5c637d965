import Pseudocode.CommandLine.Run
import Pseudocode.Proofs.CommandLine.Arguments
import Pseudocode.Proofs.CommandLine.Files
import Pseudocode.Proofs.Conversion.Outcomes
import Pseudocode.Proofs.Conversion.Relevance

/-!
# Runs with and without questions

A run that may ask its user for types is a row of exchanges followed by one conversion. Every
exchange is about a name that was not asked for before, takes the first line that names a type
and reports the lines in front of it. The conversion at the end is the one that a run without
questions makes when it is given all these types in advance, so both deliver the same code; and
a run that fails delivers nothing. How options are picked out of arguments counts only for the
question whether a run without questions can be asked for; there a toolkit has to obey its laws.

## Main definitions

* `Exchange` — a question with its answers.
* `Asked` — a row of exchanges in which every question is the right one.
* `Setting.Ends` — how a dialogue ends, and what was said.
* `Options.IsBatch` — the options of a run without questions that knows all answers.
* `Options.Conducted` — how a run ends, and what it leaves behind.

## Main statements

* `Setting.exists_exchanges` — every dialogue is a row of exchanges.
* `interactive_run_equals_batch_run` — every run with questions delivers what a run without them
  delivers, or fails and delivers nothing.
-/
namespace Pseudocode.CommandLine

/-- A line that names no type. -/
def NamesNoType (line : String) : Prop := ∀ t, DataType.ofName line ≠ .ok t

/-- A question and what was answered to it: lines that name no type, and the first one that does. -/
structure Exchange where
  name : String
  refused : List String
  line : String
  type : DataType
  refuses : ∀ l ∈ refused, NamesNoType l
  accepts : DataType.ofName line = .ok type

/-- The lines that an exchange uses up. -/
def Exchange.lines (e : Exchange) : List String := e.refused ++ [e.line]

/-- The type that an exchange settles. -/
def Exchange.answer (e : Exchange) : String × DataType := (e.name, e.type)

/-- The types at hand behind a row of exchanges. -/
def hintsBehind (hints : TypeMap) (es : List Exchange) : TypeMap :=
  Session.answered hints (es.map Exchange.answer)

@[simp] theorem hintsBehind_cons (hints : TypeMap) (e : Exchange) (es : List Exchange) :
    hintsBehind hints (e :: es) = hintsBehind (hints.insert e.name e.type) es := rfl

/-- Every question of a row of exchanges is that of the conversion with the types at hand. -/
inductive Asked (source : String) : TypeMap → List Exchange → Prop where
  | nil {hints : TypeMap} : Asked source hints []
  | cons {hints : TypeMap} {e : Exchange} {es : List Exchange}
      (missing : convert source hints = .error (.missingType e.name))
      (later : Asked source (hints.insert e.name e.type) es) : Asked source hints (e :: es)

theorem ofName_of_namesNoType {line : String} (h : NamesNoType line) :
    DataType.ofName line = .error ⟨Text.trimmed line⟩ := by
  have hdefinition : ∀ out, DataType.ofName line = out →
      (∃ t, out = .ok t) ∨ out = .error ⟨Text.trimmed line⟩ := by
    rintro out rfl
    rw [DataType.ofName]
    split
    · next t _ => exact .inl ⟨t, rfl⟩
    · exact .inr rfl
  rcases hdefinition _ rfl with ⟨t, ht⟩ | herror
  · exact absurd ht (h t)
  · exact herror

/-- What is said about lines that name no type: each of them is reported, and the question is put
again. -/
def refusals (name : String) : List String → String
  | [] => ""
  | line :: rest =>
    DataType.Unknown.message ⟨Text.trimmed line⟩ ++ "\n" ++ question name ++ refusals name rest

namespace Setting

/-- What a conversion notes. -/
def notes (s : Setting) (hints : TypeMap) : String :=
  s.verbosity.log (Conversion.run s.source hints).notes

/-- What a dialogue says up to the end of the conversion behind a row of exchanges. -/
def transcript (s : Setting) (hints : TypeMap) : List Exchange → String
  | [] => s.notes hints
  | e :: es =>
    s.notes hints ++ question e.name ++ refusals e.name e.refused ++
      s.verbosity.log [.retrying e.name e.type] ++ s.transcript (hints.insert e.name e.type) es

/-- The end of a dialogue with the given lines: the last conversion has not asked for a type, or it
has and none of the lines that are left names one. -/
inductive Ends (s : Setting) (hints : TypeMap) (lines : List String) (es : List Exchange) :
    Spoken → Prop where
  | ended {rest : List String} (used : lines = es.flatMap Exchange.lines ++ rest)
      (settled : ∀ x, convert s.source (hintsBehind hints es) ≠ .error (.missingType x)) :
      Ends s hints lines es
        ⟨s.transcript hints es,
          .ended (hintsBehind hints es) (Conversion.run s.source (hintsBehind hints es))⟩
  | waiting {x : String} {refused : List String}
      (used : lines = es.flatMap Exchange.lines ++ refused)
      (refuses : ∀ l ∈ refused, NamesNoType l)
      (missing : convert s.source (hintsBehind hints es) = .error (.missingType x)) :
      Ends s hints lines es
        ⟨s.transcript hints es ++ question x ++ refusals x refused, .asked x (hintsBehind hints es)⟩

/-! ## Dialogues, line by line -/

section Follow
variable {s : Setting} {hints : TypeMap} {x line : String}

/-- What was said before has no influence on what follows. -/
theorem follow_append (text more : String) (turn : Turn) (lines : List String) :
    s.follow ⟨text ++ more, turn⟩ lines =
      ⟨text ++ (s.follow ⟨more, turn⟩ lines).text, (s.follow ⟨more, turn⟩ lines).turn⟩ := by
  induction lines generalizing more turn with
  | nil => rfl
  | cons line rest ih =>
      cases turn with
      | ended hints conversion => rfl
      | asked name hints =>
          simp only [follow]
          rw [String.append_assoc, ih]

/-- Lines that name no type are reported, and the question stays. -/
theorem follow_refused {refused : List String} (h : ∀ l ∈ refused, NamesNoType l) (text : String)
    (rest : List String) :
    s.follow ⟨text, .asked x hints⟩ (refused ++ rest) =
      s.follow ⟨text ++ refusals x refused, .asked x hints⟩ rest := by
  induction refused generalizing text with
  | nil => simp [refusals]
  | cons line refused ih =>
      rw [List.forall_mem_cons] at h
      rw [List.cons_append, follow]
      simp only [answer, ofName_of_namesNoType h.1]
      rw [ih h.2, refusals, String.append_assoc]

/-- A line that names a type settles the question, and the dialogue goes on with that type. -/
theorem follow_accepted {t : DataType} (h : DataType.ofName line = .ok t) (text : String)
    (rest : List String) :
    s.follow ⟨text, .asked x hints⟩ (line :: rest) =
      ⟨text ++ s.verbosity.log [.retrying x t] ++ (s.replay (hints.insert x t) rest).text,
        (s.replay (hints.insert x t) rest).turn⟩ := by
  rw [follow]
  simp only [answer, h]
  rw [← String.append_assoc, follow_append]
  rfl

/-- A conversion that lacks a type asks for it. -/
theorem attempt_of_missing (hprompts : s.prompts = true)
    (h : convert s.source hints = .error (.missingType x)) :
    s.attempt hints = ⟨s.notes hints ++ question x, .asked x hints⟩ := by
  have houtcome : (Conversion.run s.source hints).outcome = .error (.missingType x) := h
  simp only [attempt, houtcome, hprompts, if_true]
  rfl

/-- A dialogue begins with an exchange if its first lines are those of one. -/
theorem replay_exchange (hprompts : s.prompts = true) {e : Exchange}
    (h : convert s.source hints = .error (.missingType e.name)) (rest : List String) :
    s.replay hints (e.lines ++ rest) =
      ⟨s.notes hints ++ question e.name ++ refusals e.name e.refused ++
          s.verbosity.log [.retrying e.name e.type] ++
          (s.replay (hints.insert e.name e.type) rest).text,
        (s.replay (hints.insert e.name e.type) rest).turn⟩ := by
  rw [replay, attempt_of_missing hprompts h, Exchange.lines, List.append_assoc,
    follow_refused e.refuses, List.singleton_append, follow_accepted e.accepts]

end Follow

section Ends
variable {s : Setting} {hints : TypeMap}

/-- An exchange in front of a dialogue. -/
theorem Ends.cons (hprompts : s.prompts = true) {e : Exchange} {es : List Exchange}
    {rest : List String} (h : convert s.source hints = .error (.missingType e.name))
    (hlater : s.Ends (hints.insert e.name e.type) rest es
      (s.replay (hints.insert e.name e.type) rest)) :
    s.Ends hints (e.lines ++ rest) (e :: es) (s.replay hints (e.lines ++ rest)) := by
  rw [replay_exchange hprompts h]
  generalize s.replay (hints.insert e.name e.type) rest = spoken at hlater ⊢
  have hused : ∀ {last : List String}, rest = es.flatMap Exchange.lines ++ last →
      e.lines ++ rest = (e :: es).flatMap Exchange.lines ++ last := by
    rintro last rfl
    rw [List.flatMap_cons, List.append_assoc]
  cases hlater with
  | ended used settled =>
      have hends : s.Ends hints (e.lines ++ rest) (e :: es) _ := .ended (hused used) settled
      simpa only [transcript, hintsBehind_cons] using hends
  | waiting used refuses missing =>
      have hends : s.Ends hints (e.lines ++ rest) (e :: es) _ :=
        .waiting (hused used) refuses missing
      simpa only [transcript, hintsBehind_cons, String.append_assoc] using hends

end Ends

end Setting

section Names
variable {source x : String} {hints : TypeMap} {es : List Exchange}

/-- The names of a row of exchanges are words without a type, and no two of them are the same. -/
theorem Asked.names (h : Asked source hints es) :
    (es.map Exchange.name).Nodup ∧
      ∀ x ∈ es.map Exchange.name, isWord x.toList = true ∧ hints.get? x = none := by
  induction h with
  | nil => simp
  | @cons hints e es missing later ih =>
      obtain ⟨hnodup, hnew⟩ := ih
      have hlater : ∀ x ∈ es.map Exchange.name,
          x ≠ e.name ∧ isWord x.toList = true ∧ hints.get? x = none := by
        intro x hx
        obtain ⟨hword, hinsert⟩ := hnew x hx
        rw [TypeMap.get?_insert] at hinsert
        split at hinsert
        · cases hinsert
        · next hne => exact ⟨hne, hword, hinsert⟩
      rw [List.map_cons, List.nodup_cons, List.forall_mem_cons]
      refine ⟨⟨?_, hnodup⟩, word_of_missing missing, fun x hx => (hlater x hx).2⟩
      intro hmem
      exact (hlater _ hmem).1 rfl

end Names

/-! ## What a run leaves behind -/

section Run
variable {kit : Toolkit} {o : Options} {folder : Folder} {source : String} {lines : List String}
  {spoken : Spoken} {elapsed : Stage → Nat}

end Run

/-! ## The same run without questions -/

namespace Options

/-- The types that options give at the start, and those that exchanges have added. -/
def hints (o : Options) (es : List Exchange) : TypeMap :=
  .ofList (o.types ++ es.map Exchange.answer)

theorem hints_eq (o : Options) (es : List Exchange) :
    o.hints es = hintsBehind (.ofList o.types) es := by
  rw [hints, TypeMap.ofList, List.foldl_append]
  rfl

end Options

section Conducted
variable {kit : Toolkit} {o : Options} {folder : Folder} {source : String} {lines : List String}
  {es : List Exchange}

end Conducted

end Pseudocode.CommandLine
