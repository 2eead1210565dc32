import SymbolicDerivatives.Expr.Plan
import SymbolicDerivatives.Expr.Text
import SymbolicDerivatives.Log
import SymbolicDerivatives.Number.Arithmetic
import SymbolicDerivatives.Text.Pieces
import SymbolicDerivatives.Text.Quoted

/-!
# Derivations

The calculator carries a plan out step by step and records each step as a formula. A derivation is
the list of steps as far as the plan could be carried out, with the failure that ended it early, if
one did; its steps are those of `Expr.differentiateAll` on the initial parts of the plan.
-/

namespace SymbolicDerivatives

/-- The plan that a line of words writes. -/
def planOfLine (line : String) : List String := Text.words line

/-- A plan with its names in quotes. -/
def describePlan (plan : List String) : String :=
  "DifferentiationPlan(" ++ Text.quotedList plan ++ ")"

structure Step where
  /-- The variable of the derivative. -/
  name : String
  /-- The simplified derivative. -/
  tree : Expr Float
  /-- The derivative as a formula. -/
  text : String

namespace Step

/-- The step from a tree by a variable. -/
def take (x : String) (e : Expr Float) : Except Failure Step := do
  let tree ← e.differentiate x
  return ⟨x, tree, ← tree.text⟩

theorem differentiate_of_take {x : String} {e : Expr Float} {step : Step}
    (h : take x e = .ok step) : e.differentiate x = .ok step.tree := by
  unfold take at h
  cases hd : e.differentiate x with
  | error failure => rw [hd] at h; cases h
  | ok tree =>
    rw [hd] at h
    cases ht : tree.text with
    | error failure => simp only [bind, Except.bind, ht] at h; cases h
    | ok text => simp only [bind, Except.bind, ht] at h; cases h; rfl

def record (s : Step) : Record := ⟨.debug, .plan, "d/d" ++ s.name ++ " -> " ++ s.text⟩

end Step

/-- The steps of a plan as far as it could be carried out. -/
structure Derivation where
  steps : List Step
  /-- Why the plan was not carried out to its end. -/
  failure? : Option Failure

namespace Derivation

/-- The derivation of a tree along a plan. -/
def ofPlan : List String → Expr Float → Derivation
  | [], _ => ⟨[], none⟩
  | x :: plan, e =>
    match Step.take x e with
    | .error failure => ⟨[], some failure⟩
    | .ok step =>
      let later := ofPlan plan step.tree
      ⟨step :: later.steps, later.failure?⟩

def log (d : Derivation) : List Record := d.steps.map Step.record

/-- The steps of a derivation that was carried out to its end. -/
def complete (d : Derivation) : Except Failure (List Step) :=
  match d.failure? with
  | none => .ok d.steps
  | some failure => .error failure

/-- The tree after the last of some steps from a tree. -/
def lastTree (e : Expr Float) (steps : List Step) : Expr Float :=
  (steps.getLast?.map Step.tree).getD e

@[simp] theorem ofPlan_nil (e : Expr Float) : ofPlan [] e = ⟨[], none⟩ := rfl

theorem ofPlan_cons_ok {x : String} {e : Expr Float} {step : Step} (plan : List String)
    (h : Step.take x e = .ok step) :
    ofPlan (x :: plan) e =
      ⟨step :: (ofPlan plan step.tree).steps, (ofPlan plan step.tree).failure?⟩ := by
  rw [ofPlan, h]

theorem ofPlan_cons_error {x : String} {e : Expr Float} {failure : Failure} (plan : List String)
    (h : Step.take x e = .error failure) : ofPlan (x :: plan) e = ⟨[], some failure⟩ := by
  rw [ofPlan, h]

@[simp] theorem lastTree_nil (e : Expr Float) : lastTree e [] = e := rfl

@[simp] theorem lastTree_cons (e : Expr Float) (step : Step) (steps : List Step) :
    lastTree e (step :: steps) = lastTree step.tree steps := by
  cases steps with
  | nil => rfl
  | cons next steps => rw [lastTree, lastTree, List.getLast?_cons_cons, List.getLast?_cons]; rfl

/-- A plan that is carried out to its end ends at the tree of `Expr.differentiateAll`. -/
theorem differentiateAll_of_complete {plan : List String} {e : Expr Float} {steps : List Step}
    (h : (ofPlan plan e).complete = .ok steps) :
    e.differentiateAll plan = .ok (lastTree e steps) := by
  induction plan generalizing e steps with
  | nil => cases h; rfl
  | cons x plan ih =>
    cases hstep : Step.take x e with
    | error failure => rw [ofPlan_cons_error plan hstep] at h; cases h
    | ok step =>
      rw [ofPlan_cons_ok plan hstep] at h
      cases hlater : (ofPlan plan step.tree).failure? with
      | some failure => rw [complete, hlater] at h; cases h
      | none =>
        rw [complete, hlater] at h
        cases h
        rw [Expr.differentiateAll_cons, Step.differentiate_of_take hstep, lastTree_cons]
        exact ih (by rw [complete, hlater])

end Derivation

/-- The steps of a plan from a tree, with their records. -/
def derive (plan : List String) (e : Expr Float) : Logging (List Step) :=
  let d := Derivation.ofPlan plan e
  ExceptT.mk ⟨d.complete, d.log⟩

end SymbolicDerivatives
