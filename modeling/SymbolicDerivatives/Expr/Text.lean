import SymbolicDerivatives.Expr.Basic
import SymbolicDerivatives.Number.Text

/-!
# Texts of trees

A tree is written as a formula with every operation in parentheses, which reads back as the same
tree, or in prefix form, where the operator stands before the list of its operands.
-/

namespace SymbolicDerivatives.Expr

/-- An operation as a formula, from the formulas of its operands: a function before the first of
them, any other operator between them. -/
def textNode : Operator → List String → Except Failure String
  | .fn f, argument :: _ => .ok (f.keyword ++ "(" ++ argument ++ ")")
  | .fn f, [] => .error (.missingOperand (.fn f))
  | o, operands => .ok ("(" ++ o.symbol.intercalate operands ++ ")")

mutual

def text : Expr Float → Except Failure String
  | .const c => .ok (Number.plainText c)
  | .var x => .ok x
  | .op o operands => do textNode o (← textList operands)

def textList : List (Expr Float) → Except Failure (List String)
  | [] => .ok []
  | e :: es => do
    let head ← e.text
    let tail ← textList es
    return head :: tail

end

theorem textList_eq_mapM (es : List (Expr Float)) : textList es = es.mapM text := by
  induction es with
  | nil => rw [textList, List.mapM_nil]; rfl
  | cons e es ih => rw [textList, ih, List.mapM_cons]

theorem text_op (o : Operator) (es : List (Expr Float)) :
    (Expr.op o es).text = es.mapM text >>= textNode o := by
  rw [text, textList_eq_mapM]

mutual

/-- A tree in prefix form. -/
def prefixForm : Expr Float → String
  | .const c => Number.plainText c
  | .var x => x
  | .op o operands => o.symbol ++ "(" ++ ", ".intercalate (prefixForms operands) ++ ")"

def prefixForms : List (Expr Float) → List String
  | [] => []
  | e :: es => e.prefixForm :: prefixForms es

end

theorem prefixForms_eq_map (es : List (Expr Float)) : prefixForms es = es.map prefixForm := by
  induction es with
  | nil => rw [prefixForms, List.map_nil]
  | cons e es ih => rw [prefixForms, ih, List.map_cons]

end SymbolicDerivatives.Expr
