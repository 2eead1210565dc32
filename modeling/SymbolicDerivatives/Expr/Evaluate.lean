import SymbolicDerivatives.Expr.Basic

/-!
# The value of a tree

The operands of a node are evaluated from left to right, then the operator is applied to their
values. So of two failures in a tree, the one further left and further down is reported.
-/

namespace SymbolicDerivatives.Expr

variable {K : Type}

/-! ## Substitution -/

mutual

/-- A tree with every variable replaced by the constant that `point` gives it. -/
def substitute (point : String → K) : Expr K → Expr K
  | .const c => .const c
  | .var x => .const (point x)
  | .op o operands => .op o (substituteList point operands)

def substituteList (point : String → K) : List (Expr K) → List (Expr K)
  | [] => []
  | e :: es => e.substitute point :: substituteList point es

end

theorem substituteList_eq_map (point : String → K) (es : List (Expr K)) :
    substituteList point es = es.map (·.substitute point) := by
  induction es with
  | nil => rw [substituteList, List.map_nil]
  | cons e es ih => rw [substituteList, ih, List.map_cons]

theorem substitute_op (point : String → K) (o : Operator) (es : List (Expr K)) :
    (Expr.op o es).substitute point = .op o (es.map (·.substitute point)) := by
  rw [substitute, substituteList_eq_map]

/-! ## Evaluation -/

variable [Zero K] [One K] [Add K] [Sub K] [Mul K] [Elementary K]

mutual

/-- The value of a tree when each variable has the value that `point` gives it. -/
def evaluate (point : String → K) : Expr K → Except Failure K
  | .const c => .ok c
  | .var x => .ok (point x)
  | .op o operands => do o.apply (← evaluateList point operands)

def evaluateList (point : String → K) : List (Expr K) → Except Failure (List K)
  | [] => .ok []
  | e :: es => do
    let value ← e.evaluate point
    let values ← evaluateList point es
    return value :: values

end

@[simp] theorem evaluate_const (point : String → K) (c : K) :
    (Expr.const c).evaluate point = .ok c := by
  rw [evaluate]

@[simp] theorem evaluate_var (point : String → K) (x : String) :
    (Expr.var x).evaluate point = .ok (point x) := by
  rw [evaluate]

theorem evaluateList_eq_mapM (point : String → K) (es : List (Expr K)) :
    evaluateList point es = es.mapM (·.evaluate point) := by
  induction es with
  | nil => rw [evaluateList, List.mapM_nil]; rfl
  | cons e es ih => rw [evaluateList, ih, List.mapM_cons]

theorem evaluate_op (point : String → K) (o : Operator) (es : List (Expr K)) :
    (Expr.op o es).evaluate point = es.mapM (·.evaluate point) >>= o.apply := by
  rw [evaluate, evaluateList_eq_mapM]

end SymbolicDerivatives.Expr
