import SymbolicDerivatives.Calculation
import SymbolicDerivatives.Proofs.Derivation
import SymbolicDerivatives.Proofs.Formula.Grammar

/-!
# The course of a calculation

`Calculation.ofTexts` keeps every tree on the way to the result, while `Calculation.resultOf` keeps
none. `Course` says, without following either, what a calculation consists of: the tree of its
formula, a trace along its plan, and every tree of the trace written down, in order. Every three
texts have a course, and both functions answer with it, so neither ever fails.
-/

namespace SymbolicDerivatives

/-! ## Trees that every pass works on -/

namespace Expr

/-- No pass fails on a tree. -/
structure Passes (e : Expr Float) : Prop where
  simplify : ∃ s, e.simplify = .ok s
  derivative : ∀ x, ∃ d s, e.derivative x = .ok d ∧ d.simplify = .ok s
  evaluate : ∀ point, ∃ v, e.evaluate point = .ok v
  text : ∃ s, e.text = .ok s
  latex : ∃ s, e.latex = .ok s

theorem WellFormed.passes {e : Expr Float} (h : e.WellFormed 2) : e.Passes where
  simplify := (h.mono (Nat.zero_le 2)).exists_simplify_eq_ok
  derivative x := by
    obtain ⟨s, hs⟩ := h.exists_differentiate_eq_ok (Nat.le_refl 2) x
    obtain ⟨d, hd, hs⟩ := differentiate_eq_ok_iff.1 hs
    exact ⟨d, s, derivative_eq_ok_iff.2 hd, hs⟩
  evaluate _ := ⟨_, h.evaluable.evaluate_eq⟩
  text := h.exists_text_eq_ok
  latex := h.exists_latex_eq_ok

end Expr

/-- A text is read as a well-formed tree, which does not depend on the names that are known. -/
theorem Formula.exists_read_value_eq_ok (formula : Option String) :
    ∃ e : Expr Float, e.WellFormed 2 ∧ ∀ known, (read known formula).run.value = .ok e := by
  by_cases h : ∃ tokens e, Token.scan (formula.getD "") = .ok tokens ∧ Phrase .expression tokens e
  · obtain ⟨tokens, e, hscan, hphrase⟩ := h
    obtain ⟨s, hs⟩ := hphrase.wellFormed.passes.simplify
    refine ⟨s, hphrase.wellFormed.simplify (Nat.le_refl 2) hs, fun known ↦ ?_⟩
    rw [← read_value_getD, read_value_of_phrase hscan hphrase, hs]
  · exact ⟨.const 0, .const 0, fun known ↦ by rw [← read_value_getD, read_value_of_no_phrase h]⟩

/-! ## Stages -/

namespace Stage

variable {e : Expr Float} {s : Stage}

/-- A stage shows a tree by its formula and in LaTeX. -/
def Shows (e : Expr Float) (s : Stage) : Prop := e.text = .ok s.text ∧ e.latex = .ok s.latex

theorem shows_of_initial_eq_ok (h : initial e = .ok s) : s.name? = none ∧ s.Shows e := by
  obtain ⟨text, htext, h⟩ := bind_eq_ok_iff.1 h
  obtain ⟨latex, hlatex, h⟩ := bind_eq_ok_iff.1 h
  cases h
  exact ⟨rfl, htext, hlatex⟩

theorem exists_initial_eq_ok (h : e.WellFormed 2) : ∃ s, initial e = .ok s := by
  obtain ⟨text, htext⟩ := h.exists_text_eq_ok
  obtain ⟨latex, hlatex⟩ := h.exists_latex_eq_ok
  exact ⟨_, bind_eq_ok_iff.2 ⟨text, htext, bind_eq_ok_iff.2 ⟨latex, hlatex, rfl⟩⟩⟩

theorem ofStep_eq_ok_iff {index : Nat} {step : Step} :
    ofStep index step = .ok s ↔ ∃ latex, step.tree.latex = .ok latex ∧
      ⟨"step_" ++ index.repr ++ "_d" ++ step.name, some step.name, step.text, latex⟩ = s := by
  rw [ofStep, bind_eq_ok_iff]
  exact exists_congr fun latex ↦ and_congr_right fun _ ↦ ⟨Except.ok.inj, congrArg _⟩

theorem ofSteps_cons_eq_ok_iff {index : Nat} {step : Step} {steps : List Step}
    {stages : List Stage} :
    ofSteps index (step :: steps) = .ok stages ↔ ∃ head tail, ofStep index step = .ok head ∧
      ofSteps (index + 1) steps = .ok tail ∧ head :: tail = stages := by
  rw [ofSteps, bind_eq_ok_iff]
  refine exists_congr fun head ↦ ?_
  rw [exists_and_left]
  refine and_congr_right fun _ ↦ bind_eq_ok_iff.trans ?_
  exact exists_congr fun tail ↦ and_congr_right fun _ ↦ ⟨Except.ok.inj, congrArg _⟩

/-- Each step has its stage, with its name, and in the order of the steps. -/
theorem forall₂_of_ofSteps_eq_ok {index : Nat} {steps : List Step} {stages : List Stage}
    (h : ofSteps index steps = .ok stages) :
    List.Forall₂ (fun step s ↦ s.name? = some step.name ∧ s.text = step.text ∧
      step.tree.latex = .ok s.latex) steps stages := by
  induction steps generalizing index stages with
  | nil => cases h; exact .nil
  | cons step steps ih =>
    obtain ⟨head, tail, hhead, htail, rfl⟩ := ofSteps_cons_eq_ok_iff.1 h
    obtain ⟨latex, hlatex, rfl⟩ := ofStep_eq_ok_iff.1 hhead
    exact .cons ⟨rfl, rfl, hlatex⟩ (ih htail)

theorem exists_ofSteps_eq_ok {steps : List Step} (h : ∀ step ∈ steps, step.tree.WellFormed 2)
    (index : Nat) : ∃ stages, ofSteps index steps = .ok stages := by
  induction steps generalizing index with
  | nil => exact ⟨[], rfl⟩
  | cons step steps ih =>
    obtain ⟨hstep, hsteps⟩ := List.forall_mem_cons.1 h
    obtain ⟨latex, hlatex⟩ := hstep.exists_latex_eq_ok
    obtain ⟨tail, htail⟩ := ih hsteps (index + 1)
    exact ⟨_, ofSteps_cons_eq_ok_iff.2
      ⟨_, tail, ofStep_eq_ok_iff.2 ⟨latex, hlatex, rfl⟩, htail, rfl⟩⟩

end Stage

/-! ## Courses -/

/-- What a calculation consists of: the tree of the formula, the steps of the plan from there, all
trees written down in order, and the last one again with its value. -/
structure Course (formula : Option String) (plan values : String) (e : Expr Float)
    (steps : List Step) (c : Calculation) : Prop where
  read : ∀ known, (Formula.read known formula).run.value = .ok e
  wellFormed : e.WellFormed 2
  trace : Trace e (planOfLine plan) steps
  stages : ∃ first later, Stage.initial e = .ok first ∧ Stage.ofSteps 1 steps = .ok later ∧
    c.stages = first :: later
  derivative : (Derivation.lastTree e steps).text = .ok c.derivative
  latex : (Derivation.lastTree e steps).latex = .ok c.latex
  value : (Derivation.lastTree e steps).evaluate (Point.ofLine (some values)).value.get =
    .ok c.value

/-- Every three texts have a course. -/
theorem exists_course (formula : Option String) (plan values : String) :
    ∃ e steps c, Course formula plan values e steps c := by
  obtain ⟨e, he, hread⟩ := Formula.exists_read_value_eq_ok formula
  obtain ⟨steps, htrace⟩ := he.exists_trace (planOfLine plan)
  obtain ⟨first, hfirst⟩ := Stage.exists_initial_eq_ok he
  obtain ⟨later, hlater⟩ := Stage.exists_ofSteps_eq_ok (htrace.wellFormed he) 1
  have hlast := (htrace.wellFormed_lastTree he).passes
  obtain ⟨value, hvalue⟩ := hlast.evaluate (Point.ofLine (some values)).value.get
  obtain ⟨text, htext⟩ := hlast.text
  obtain ⟨latex, hlatex⟩ := hlast.latex
  exact ⟨e, steps, ⟨text, latex, first :: later, value⟩, hread, he, htrace,
    ⟨first, later, hfirst, hlater, rfl⟩, htext, hlatex, hvalue⟩

namespace Course

variable {formula : Option String} {plan values : String} {e : Expr Float} {steps : List Step}
  {c : Calculation}

theorem value_derive (h : Course formula plan values e steps c) :
    (derive (planOfLine plan) e).run.value = .ok steps := h.trace.complete_eq

theorem ofTexts_value (h : Course formula plan values e steps c) :
    (Calculation.ofTexts formula plan values).run.value = .ok c := by
  obtain ⟨first, later, hfirst, hlater, hstages⟩ := h.stages
  rw [Calculation.ofTexts, Logging.value_run_bind_of_eq_ok (Logging.value_run_lift _),
    Logging.value_run_bind_of_eq_ok (h.read _),
    Logging.value_run_bind_of_eq_ok ((Logging.value_run_ofExcept _).trans hfirst),
    Logging.value_run_bind_of_eq_ok h.value_derive,
    Logging.value_run_bind_of_eq_ok ((Logging.value_run_ofExcept _).trans hlater),
    Logging.value_run_bind_of_eq_ok ((Logging.value_run_ofExcept _).trans h.value),
    Logging.value_run_bind_of_eq_ok ((Logging.value_run_ofExcept _).trans h.derivative),
    Logging.value_run_bind_of_eq_ok ((Logging.value_run_ofExcept _).trans h.latex),
    Logging.value_run_pure, ← hstages]

theorem resultOf_value {formula : String} (h : Course (some formula) plan values e steps c)
    {input : Option String} (hinput : splitInput input = (formula, plan, values)) :
    (Calculation.resultOf input).run.value = .ok c.result := by
  rw [Calculation.resultOf, hinput]
  dsimp only
  rw [Logging.value_run_bind_of_eq_ok (Logging.value_run_lift _),
    Logging.value_run_bind_of_eq_ok (h.read _),
    Logging.value_run_bind_of_eq_ok h.value_derive,
    Logging.value_run_bind_of_eq_ok ((Logging.value_run_ofExcept _).trans h.value),
    Logging.value_run_pure, Calculation.result]

/-- The stages show the tree of the formula and the trees of the steps. -/
theorem forall₂_shows (h : Course formula plan values e steps c) :
    List.Forall₂ Stage.Shows (e :: steps.map Step.tree) c.stages := by
  obtain ⟨first, later, hfirst, hlater, hstages⟩ := h.stages
  rw [hstages]
  refine .cons (Stage.shows_of_initial_eq_ok hfirst).2 (List.forall₂_map_left_iff.2 ?_)
  -- A stage repeats the text of its step, which is the text of the tree of the step.
  refine ((List.forall₂_and_left _ _).2
    ⟨h.trace.text_eq, Stage.forall₂_of_ofSteps_eq_ok hlater⟩).imp ?_
  rintro step s ⟨htext, -, hs, hlatex⟩
  exact ⟨hs ▸ htext, hlatex⟩

/-- The stage of the formula has no name, and the others have those of the plan. -/
theorem map_name? (h : Course formula plan values e steps c) :
    c.stages.map Stage.name? = none :: (planOfLine plan).map some := by
  obtain ⟨first, later, hfirst, hlater, hstages⟩ := h.stages
  rw [hstages, List.map_cons, (Stage.shows_of_initial_eq_ok hfirst).1, ← h.trace.map_name,
    List.map_map, List.cons_inj_right, ← List.forall₂_eq_eq_eq, List.forall₂_map_left_iff,
    List.forall₂_map_right_iff]
  exact (Stage.forall₂_of_ofSteps_eq_ok hlater).flip.imp fun _ _ hs ↦ hs.1

theorem length_stages (h : Course formula plan values e steps c) :
    c.stages.length = (planOfLine plan).length + 1 := by
  rw [← List.length_map Stage.name?, h.map_name?, List.length_cons, List.length_map]

/-- Stage `k` shows the tree at the end of the first `k` words of the plan. -/
theorem exists_stage (h : Course formula plan values e steps c) {k : Nat}
    (hk : k ≤ (planOfLine plan).length) :
    ∃ s t, c.stages[k]? = some s ∧ e.differentiateAll ((planOfLine plan).take k) = .ok t ∧
      s.Shows t := by
  rw [← h.trace.length_eq] at hk
  have htree := Derivation.getElem?_trees e hk
  obtain ⟨s, hs, hshows⟩ := exists_getElem?_of_forall₂ h.forall₂_shows htree
  exact ⟨s, _, hs, h.trace.differentiateAll_take k, hshows⟩

theorem exists_last_stage (h : Course formula plan values e steps c) :
    ∃ s, c.stages.getLast? = some s ∧ s.text = c.derivative ∧ s.latex = c.latex := by
  obtain ⟨s, t, hs, ht, htext, hlatex⟩ := h.exists_stage (Nat.le_refl _)
  rw [List.take_length, h.trace.differentiateAll_eq] at ht
  cases ht
  rw [h.derivative] at htext
  rw [h.latex] at hlatex
  refine ⟨s, ?_, (Except.ok.inj htext).symm, (Except.ok.inj hlatex).symm⟩
  rw [List.getLast?_eq_getElem?, h.length_stages, Nat.add_sub_cancel, hs]

end Course

end SymbolicDerivatives
