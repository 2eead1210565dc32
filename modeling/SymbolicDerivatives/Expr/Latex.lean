import SymbolicDerivatives.Expr.Basic
import SymbolicDerivatives.Number.Text

/-!
# LaTeX of trees

A tree is typeset with as few parentheses as the binding strengths of its operators allow. A sum or
a difference binds loosest, then a product, then a power; a function binds tightest. An operand gets
parentheses when its operator binds looser than that of the node, when it is the base of a power and
a power or function itself, when it is a difference or sum on the right of a difference, and when it
is a negative constant that is not the first operand.

A product is written with dots, except that a leading `-1` becomes a sign, and that no dot follows a
leading constant before anything but another constant.
-/

namespace SymbolicDerivatives

/-- How tightly an operator binds its operands. -/
def Operator.strength : Operator → Nat
  | add | sub => 1
  | mul => 2
  | pow => 3
  | fn _ | other _ => 4

namespace Expr

/-- Whether an operand needs parentheses under an operator. -/
def needsParens (o : Operator) (isFirst : Bool) : Expr Float → Bool
  | .const c => c < 0 && !isFirst
  | .var _ => false
  | .op p _ =>
    p.strength < o.strength ||
    p.strength = o.strength && (o = .pow && isFirst || o = .sub && !isFirst) ||
    o = .pow && isFirst && (p matches .fn _)

/-- The LaTeX of an operand under an operator, given its LaTeX on its own. -/
def latexOperand (o : Operator) (isFirst : Bool) (operand : Expr Float × String) : String :=
  if needsParens o isFirst operand.1 then "(" ++ operand.2 ++ ")" else operand.2

/-- The LaTeX of the operands of a node. -/
def latexOperands (o : Operator) : List (Expr Float × String) → List String
  | [] => []
  | first :: others => latexOperand o true first :: others.map (latexOperand o false)

/-- The sign of a product. -/
def dot : String := " \\cdot "

/-- The LaTeX of a product, given the LaTeX of its operands. -/
def latexProduct (operands : List (Expr Float × String)) : Except Failure String :=
  match operands.map Prod.fst, latexOperands .mul operands with
  | .const c :: others, head :: tail =>
    if c == -1 then .ok ("-" ++ dot.intercalate tail)
    else match others with
      | [] => .error (.missingOperand .mul)
      | .const _ :: _ => .ok (dot.intercalate (head :: tail))
      | _ => .ok (head ++ dot.intercalate tail)
  | [], _ => .error (.missingOperand .mul)
  | _, factors => .ok (dot.intercalate factors)

/-- The LaTeX of a node, given the LaTeX of its operands. -/
def latexNode (o : Operator) (operands : List (Expr Float × String)) : Except Failure String :=
  match o, operands with
  | .add, _ => .ok (" + ".intercalate (latexOperands .add operands))
  | .mul, _ => latexProduct operands
  | .sub, left :: right :: _ =>
    .ok (latexOperand .sub true left ++ " - " ++ latexOperand .sub false right)
  | .pow, base :: exponent :: _ =>
    .ok ("\x7b" ++ latexOperand .pow true base ++ "\x7d^\x7b" ++ exponent.2 ++ "\x7d")
  | .fn f, argument :: _ => .ok ("\\" ++ f.keyword ++ "(" ++ argument.2 ++ ")")
  | .other s, _ => .error (.unsupported .typesetting (.other s))
  | o, _ => .error (.missingOperand o)

mutual

def latex : Expr Float → Except Failure String
  | .const c => .ok (Number.plainText c)
  | .var x => .ok x
  | .op o operands => do latexNode o (operands.zip (← latexList operands))

def latexList : List (Expr Float) → Except Failure (List String)
  | [] => .ok []
  | e :: es => do
    let head ← e.latex
    let tail ← latexList es
    return head :: tail

end

theorem latexList_eq_mapM (es : List (Expr Float)) : latexList es = es.mapM latex := by
  induction es with
  | nil => rw [latexList, List.mapM_nil]; rfl
  | cons e es ih => rw [latexList, ih, List.mapM_cons]

end Expr

end SymbolicDerivatives
