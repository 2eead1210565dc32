import SymbolicDerivatives.Proofs.Calculation
import SymbolicDerivatives.Proofs.Json
import SymbolicDerivatives.Service

/-!
# The service never fails

A stream announces each step of a calculation as soon as it is taken, and the result at the end. It
is computed apart from `Calculation.ofTexts`, but it tells the same course: its events are the
stages of the calculation that have a name, in order, and then the result. So there is always a
result, and no stream ends with a failure. The reader of a stream can tell its events apart by the
empty lines after them, whatever characters the names of a formula have.
-/

namespace SymbolicDerivatives.Service

/-! ## Streams -/

/-- The event that announces a stage. The stage of the formula is not announced. -/
def Event.ofStage? (s : Stage) : Option Event := s.name?.map (.step · s.text s.latex)

/-- The event that announces the result of a calculation. -/
def Event.ofCalculation (c : Calculation) : Event := .complete c.derivative c.latex c.result

theorem Event.upToFailure_map_ok (events : List Event) :
    upToFailure (events.map .ok) = events := by
  induction events with
  | nil => rfl
  | cons event events ih => rw [List.map_cons, upToFailure, ih]

variable {formula plan values : String} {e : Expr Float} {steps : List Step} {c : Calculation}

theorem Event.ofStage?_of_initial_eq_ok {s : Stage} (h : Stage.initial e = .ok s) :
    Event.ofStage? s = none := by
  rw [Event.ofStage?, (Stage.shows_of_initial_eq_ok h).1, Option.map_none]

theorem map_ofStep_of_ofSteps_eq_ok {index : Nat} {stages : List Stage}
    (h : Stage.ofSteps index steps = .ok stages) :
    steps.map Event.ofStep = (stages.filterMap Event.ofStage?).map .ok := by
  have hall := Stage.forall₂_of_ofSteps_eq_ok h
  clear h
  induction hall with
  | nil => rfl
  | @cons step s steps stages hs _ ih =>
    obtain ⟨hname, htext, hlatex⟩ := hs
    have hstage : Event.ofStage? s = some (.step step.name s.text s.latex) := by
      rw [Event.ofStage?, hname, Option.map_some]
    have hstep : Event.ofStep step = .ok (.step step.name s.text s.latex) := by
      rw [Event.ofStep, hlatex, htext]
      rfl
    rw [List.filterMap_cons_some hstage, List.map_cons, List.map_cons, ih, hstep]

theorem eventsOf_of_complete (e : Expr Float) (p : Point) (steps : List Step) :
    eventsOf e p ⟨steps, none⟩ = Event.upToFailure
      (steps.map Event.ofStep ++ [Event.ofResult (Derivation.lastTree e steps) p]) := rfl

theorem ofResult_eq (h : Course (some formula) plan values e steps c) :
    Event.ofResult (Derivation.lastTree e steps) (Point.ofLine (some values)).value =
      .ok (.ofCalculation c) := by
  rw [Event.ofResult, h.derivative, h.latex, h.value]
  rfl

/-- A stream announces the stages of the calculation and then its result. -/
theorem stream_value (h : Course (some formula) plan values e steps c) :
    (stream formula plan values).value =
      c.stages.filterMap Event.ofStage? ++ [.ofCalculation c] := by
  obtain ⟨first, later, hfirst, hlater, hstages⟩ := h.stages
  rw [stream, Logged.value_bind, Logged.value_bind, h.read, Logged.value_bind, Logged.value_pure,
    h.trace.ofPlan_eq, eventsOf_of_complete, ofResult_eq h, map_ofStep_of_ofSteps_eq_ok hlater,
    hstages, List.filterMap_cons_none (Event.ofStage?_of_initial_eq_ok hfirst),
    ← List.map_singleton, ← List.map_append, Event.upToFailure_map_ok]

/-- What a stream sends for an event is one line of data and an empty line. -/
theorem Event.exists_chunk_eq (event : Event) :
    ∃ line, event.chunk = "data: " ++ line ++ "\n\n" ∧ '\n' ∉ line.toList := by
  refine ⟨event.toJson.render, rfl, fun hmem ↦ ?_⟩
  exact absurd (Json.printable_render event.toJson '\n' hmem) (by decide)

/-! ## Endpoints -/

theorem value_run_ofMembers_bind {α β : Type} (a : α) (f : α → Reply β) :
    (Reply.ofMembers (some a) >>= f).run.value = (f a).run.value := rfl

theorem value_run_ofLogging {α : Type} (x : Logging α) :
    (Reply.ofLogging x).run.value = x.run.value.mapError .calculation := rfl

theorem run_value (input : String) :
    (run (.text input)).run.value =
      (Calculation.resultOf (some (Formula.normalize input))).run.value.mapError .calculation := by
  rw [run, Member.text?, value_run_ofMembers_bind, value_run_ofLogging]

theorem differentiate_value (formula plan values : String) :
    (differentiate (.text formula) (.text plan) (.text values)).run.value =
      (Calculation.ofTexts (some (Formula.normalize formula)) plan values).run.value.mapError
        .calculation := by
  exact (value_run_ofMembers_bind (Request.mk formula plan values) _).trans (value_run_ofLogging _)

theorem solveStream_value (formula plan values : String) :
    (solveStream (.text formula) (.text plan) (.text values)).run.value =
      .ok (stream (Formula.normalize formula) plan values).value := by
  exact value_run_ofMembers_bind (Request.mk formula plan values) _

/-- The announced stages are one for each word of the plan, in its order. -/
theorem forall₂_announced (h : Course (some formula) plan values e steps c) :
    List.Forall₂ (fun x event ↦ ∃ text latex, event = .step x text latex) (planOfLine plan)
      (c.stages.filterMap Event.ofStage?) := by
  obtain ⟨first, later, hfirst, hlater, hstages⟩ := h.stages
  have hevents := map_ofStep_of_ofSteps_eq_ok hlater
  rw [← List.forall₂_eq_eq_eq, List.forall₂_map_left_iff, List.forall₂_map_right_iff] at hevents
  rw [hstages, List.filterMap_cons_none (Event.ofStage?_of_initial_eq_ok hfirst),
    ← h.trace.map_name, List.forall₂_map_left_iff]
  refine hevents.imp fun step event hevent ↦ ?_
  obtain ⟨latex, -, heq⟩ := bind_eq_ok_iff.1 hevent
  exact ⟨step.text, latex, (Except.ok.inj heq).symm⟩

/-- **No input makes the calculator fail.** An input, or none, has a result; three texts have a
calculation; and a stream announces one step for each word of the plan, in order, then the result,
and no failure. That is because every tree on the way has only the seven operators, with as many
operands as they take, and no pass fails on such a tree. -/
theorem always_answers :
    (∀ input, ∃ result, (Calculation.resultOf input).run.value = .ok result) ∧
    (∀ formula plan values, ∃ c, (Calculation.ofTexts formula plan values).run.value = .ok c) ∧
    (∀ formula plan values, ∃ events text latex result,
      (solveStream (.text formula) (.text plan) (.text values)).run.value =
        .ok (events ++ [.complete text latex result]) ∧
      List.Forall₂ (fun x event ↦ ∃ text latex, event = .step x text latex) (planOfLine plan)
        events) ∧
    ∀ known formula xs, ∃ e t, (Formula.read known formula).run.value = .ok e ∧
      e.differentiateAll xs = .ok t ∧ t.WellFormed 2 ∧ t.Passes := by
  refine ⟨fun input ↦ ?_, fun formula plan values ↦ ?_, fun formula plan values ↦ ?_,
    fun known formula xs ↦ ?_⟩
  · obtain ⟨e, steps, c, h⟩ := exists_course (some (splitInput input).1) (splitInput input).2.1
      (splitInput input).2.2
    exact ⟨c.result, h.resultOf_value rfl⟩
  · obtain ⟨e, steps, c, h⟩ := exists_course formula plan values
    exact ⟨c, h.ofTexts_value⟩
  · obtain ⟨e, steps, c, h⟩ := exists_course (some (Formula.normalize formula)) plan values
    refine ⟨_, c.derivative, c.latex, c.result, ?_, forall₂_announced h⟩
    rw [solveStream_value, stream_value h]
    rfl
  · obtain ⟨e, he, hread⟩ := Formula.exists_read_value_eq_ok formula
    obtain ⟨t, ht⟩ := he.exists_differentiateAll_eq_ok (Nat.le_refl 2) xs
    have hwf := he.differentiateAll (Nat.le_refl 2) ht
    exact ⟨e, t, hread known, ht, hwf, hwf.passes⟩

end SymbolicDerivatives.Service
