/-!
# Operators

A formula applies seven operators: sum and product of any number of operands, difference and power
of two, and the three functions `ln`, `sin` and `cos` of one. A tree may also name an operator that
has no rule anywhere; it is kept as `Operator.other` so that every pass can say what it does with
it.

`Operator.ofSymbol` and `Operator.symbol` are the two directions between an operator and its
spelling: `symbol_ofSymbol` says that no spelling is lost.
-/

namespace SymbolicDerivatives

/-- The functions of one operand. -/
inductive Func where
  | ln
  | sin
  | cos
  deriving DecidableEq

namespace Func

def keyword : Func → String
  | ln => "ln"
  | sin => "sin"
  | cos => "cos"

def ofKeyword? (word : String) : Option Func :=
  if word = "ln" then some ln
  else if word = "sin" then some sin
  else if word = "cos" then some cos
  else none

@[simp] theorem ofKeyword?_keyword (f : Func) : ofKeyword? f.keyword = some f := by
  cases f <;> simp [ofKeyword?, keyword]

theorem ofKeyword?_eq_some_iff {word : String} {f : Func} :
    ofKeyword? word = some f ↔ word = f.keyword := by
  constructor
  · intro h
    rw [ofKeyword?] at h
    split at h
    · next hw => cases h; exact hw
    split at h
    · next hw => cases h; exact hw
    split at h
    · next hw => cases h; exact hw
    · cases h
  · rintro rfl
    exact ofKeyword?_keyword f

end Func

/-- What an inner node of a tree does with its operands. -/
inductive Operator where
  /-- The sum of the operands. -/
  | add
  /-- The first operand less the second. -/
  | sub
  /-- The product of the operands. -/
  | mul
  /-- The first operand to the power of the second. -/
  | pow
  /-- A function of the first operand. -/
  | fn (f : Func)
  /-- An operator without rules, known by its spelling only. -/
  | other (spelling : String)
  deriving DecidableEq

namespace Operator

def symbol : Operator → String
  | add => "+"
  | sub => "-"
  | mul => "*"
  | pow => "^"
  | fn f => f.keyword
  | other spelling => spelling

def ofSymbol (spelling : String) : Operator :=
  if spelling = "+" then add
  else if spelling = "-" then sub
  else if spelling = "*" then mul
  else if spelling = "^" then pow
  else match Func.ofKeyword? spelling with
    | some f => fn f
    | none => other spelling

@[simp] theorem symbol_ofSymbol (spelling : String) : (ofSymbol spelling).symbol = spelling := by
  rw [ofSymbol]
  split
  · next h => exact h.symm
  split
  · next h => exact h.symm
  split
  · next h => exact h.symm
  split
  · next h => exact h.symm
  split
  · next f h => exact (Func.ofKeyword?_eq_some_iff.1 h).symm
  · rfl

theorem ofSymbol_symbol {o : Operator} (h : ∀ s, o ≠ other s) : ofSymbol o.symbol = o := by
  cases o with
  | fn f => cases f <;> simp [ofSymbol, symbol, Func.keyword, Func.ofKeyword?]
  | other s => exact absurd rfl (h s)
  | _ => simp [ofSymbol, symbol]

/-- The operators that take a run of operands of any length. -/
def isNary : Operator → Bool
  | add | mul => true
  | _ => false

/-- Whether an operator takes exactly `n` operands, when sums and products are runs of at least
`least`: differences and powers take two, functions one, and an operator without rules takes none.
-/
def Accepts (least : Nat) : Operator → Nat → Prop
  | add, n | mul, n => least ≤ n
  | sub, n | pow, n => n = 2
  | fn _, n => n = 1
  | other _, _ => False

instance (least : Nat) (o : Operator) (n : Nat) : Decidable (o.Accepts least n) := by
  cases o <;> unfold Accepts <;> infer_instance

theorem Accepts.mono {a b : Nat} (hab : a ≤ b) {o : Operator} {n : Nat} (h : o.Accepts b n) :
    o.Accepts a n := by
  cases o with
  | add | mul => exact Nat.le_trans hab h
  | _ => exact h

end Operator

end SymbolicDerivatives
