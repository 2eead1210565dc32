import SymbolicDerivatives.Derivation
import SymbolicDerivatives.Proofs.Derivative.Plan
import SymbolicDerivatives.Proofs.Writing

/-!
# Derivations of well-formed trees

`Trace e plan steps` says that `plan` can be carried out from `e` to its end, and with which steps.
It follows the plan alone and mentions no failure; `Trace.ofPlan_eq` ties it to the derivation that
the calculator computes. From a well-formed tree every plan has a trace, and all trees on it are
well-formed, so no pass fails on any of them.
-/

namespace SymbolicDerivatives

theorem Step.take_eq_ok_iff {x : String} {e : Expr Float} {step : Step} :
    Step.take x e = .ok step ↔
      step.name = x ∧ e.differentiate x = .ok step.tree ∧ step.tree.text = .ok step.text := by
  rw [take, bind_eq_ok_iff]
  constructor
  · rintro ⟨tree, htree, h⟩
    obtain ⟨text, htext, h⟩ := bind_eq_ok_iff.1 h
    cases h
    exact ⟨rfl, htree, htext⟩
  · rintro ⟨rfl, htree, htext⟩
    exact ⟨step.tree, htree, bind_eq_ok_iff.2 ⟨step.text, htext, rfl⟩⟩

/-- The tree after the first `k` steps stands at place `k` among all trees. -/
theorem Derivation.getElem?_trees (e : Expr Float) {steps : List Step} {k : Nat}
    (hk : k ≤ steps.length) :
    (e :: steps.map Step.tree)[k]? = some (lastTree e (steps.take k)) := by
  induction steps generalizing e k with
  | nil => rw [Nat.le_zero.1 hk]; rfl
  | cons step steps ih =>
    cases k with
    | zero => rfl
    | succ k =>
      rw [List.take_succ_cons, lastTree_cons, ← ih step.tree (Nat.le_of_succ_le_succ hk)]
      rfl

/-- The steps of a plan that is carried out from a tree to its end. -/
inductive Trace : Expr Float → List String → List Step → Prop
  | nil (e : Expr Float) : Trace e [] []
  | cons {e : Expr Float} {x : String} {step : Step} {plan : List String} {steps : List Step}
      (head : Step.take x e = .ok step) (tail : Trace step.tree plan steps) :
      Trace e (x :: plan) (step :: steps)

namespace Trace

variable {e : Expr Float} {plan : List String} {steps : List Step}

theorem ofPlan_eq (h : Trace e plan steps) : Derivation.ofPlan plan e = ⟨steps, none⟩ := by
  induction h with
  | nil e => rfl
  | cons head _ ih => rw [Derivation.ofPlan_cons_ok _ head, ih]

theorem complete_eq (h : Trace e plan steps) :
    (Derivation.ofPlan plan e).complete = .ok steps := by
  rw [h.ofPlan_eq]
  rfl

theorem map_name (h : Trace e plan steps) : steps.map Step.name = plan := by
  induction h with
  | nil e => rfl
  | cons head _ ih => rw [List.map_cons, ih, (Step.take_eq_ok_iff.1 head).1]

theorem length_eq (h : Trace e plan steps) : steps.length = plan.length := by
  rw [← h.map_name, List.length_map]

theorem text_eq (h : Trace e plan steps) : ∀ step ∈ steps, step.tree.text = .ok step.text := by
  induction h with
  | nil e => exact List.forall_mem_nil _
  | cons head _ ih => exact List.forall_mem_cons.2 ⟨(Step.take_eq_ok_iff.1 head).2.2, ih⟩

theorem take (h : Trace e plan steps) (k : Nat) : Trace e (plan.take k) (steps.take k) := by
  induction h generalizing k with
  | nil e => rw [List.take_nil, List.take_nil]; exact .nil e
  | cons head _ ih =>
    cases k with
    | zero => exact .nil _
    | succ k => exact .cons head (ih k)

theorem differentiateAll_eq (h : Trace e plan steps) :
    e.differentiateAll plan = .ok (Derivation.lastTree e steps) :=
  Derivation.differentiateAll_of_complete h.complete_eq

/-- The trees of a trace are those at the ends of the initial parts of the plan. -/
theorem differentiateAll_take (h : Trace e plan steps) (k : Nat) :
    e.differentiateAll (plan.take k) = .ok (Derivation.lastTree e (steps.take k)) :=
  (h.take k).differentiateAll_eq

theorem wellFormed (h : Trace e plan steps) (he : e.WellFormed 2) :
    ∀ step ∈ steps, step.tree.WellFormed 2 := by
  induction h with
  | nil e => exact List.forall_mem_nil _
  | cons head _ ih =>
    have hstep := he.differentiate (Nat.le_refl 2) (Step.take_eq_ok_iff.1 head).2.1
    exact List.forall_mem_cons.2 ⟨hstep, ih hstep⟩

theorem wellFormed_lastTree (h : Trace e plan steps) (he : e.WellFormed 2) :
    (Derivation.lastTree e steps).WellFormed 2 :=
  he.differentiateAll (Nat.le_refl 2) h.differentiateAll_eq

end Trace

namespace Expr

variable {e : Expr Float}

theorem WellFormed.exists_take_eq_ok (h : e.WellFormed 2) (x : String) :
    ∃ step, Step.take x e = .ok step := by
  obtain ⟨tree, htree⟩ := h.exists_differentiate_eq_ok (Nat.le_refl 2) x
  obtain ⟨text, htext⟩ := (h.differentiate (Nat.le_refl 2) htree).exists_text_eq_ok
  exact ⟨⟨x, tree, text⟩, Step.take_eq_ok_iff.2 ⟨rfl, htree, htext⟩⟩

theorem WellFormed.exists_trace (h : e.WellFormed 2) (plan : List String) :
    ∃ steps, Trace e plan steps := by
  induction plan generalizing e with
  | nil => exact ⟨[], .nil e⟩
  | cons x plan ih =>
    obtain ⟨step, hstep⟩ := h.exists_take_eq_ok x
    have htree := h.differentiate (Nat.le_refl 2) (Step.differentiate_of_take hstep)
    obtain ⟨steps, hsteps⟩ := ih htree
    exact ⟨step :: steps, .cons hstep hsteps⟩

end Expr

end SymbolicDerivatives
