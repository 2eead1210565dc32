import SymbolicDerivatives.Algebra.Canonical
import SymbolicDerivatives.Algebra.Latex
import SymbolicDerivatives.Number.Hundredths

/-!
# Random terms

A random term is the sum of some random trees of bounded depth. What is random is a list of draws,
each a natural number below `2 ^ 53`, which are used up from the front: a draw stands for itself
over `2 ^ 53` as a fraction of one, and for its remainder as a choice among finitely many. So a
random term is a function of its draws. With no draws left, zeros follow.
-/

namespace SymbolicDerivatives

/-- Why no random term can be drawn. -/
inductive DrawFailure where
  /-- There is nothing to choose from. -/
  | emptyChoice
  deriving DecidableEq

def DrawFailure.message : DrawFailure → String
  | emptyChoice => "Cannot choose from an empty sequence"

/-- A computation that uses up draws. -/
abbrev Draw (α : Type) := StateT (List Nat) (Except DrawFailure) α

namespace Draw

def next : Draw Nat := do
  match ← get with
  | [] => return 0
  | k :: rest =>
    set rest
    return k

/-- Whether the next draw is below `n` tenths, as nearly as 53 binary places can tell. -/
def below (n : Nat) : Draw Bool := do
  return (← next) < roundHalfEven (n * Nat.pow 2 53) 10

/-- A member of a list. Nothing is drawn for an empty one. -/
def choice {α : Type} : List α → Draw α
  | [] => throw .emptyChoice
  | x :: xs => do
    let k ← next
    return ((x :: xs)[k % (xs.length + 1)]?).getD x

/-- An integer from `first` up to `last`, which is not below it. -/
def between (first last : Nat) : Draw Nat := do
  return first + (← next) % (last - first + 1)

end Draw

/-- What an inner node of a random tree is. -/
inductive NodeKind where
  | sum
  | product
  | power
  | function

/-- What random trees are made of. -/
structure Ingredients where
  /-- The symbols at the leaves. -/
  symbols : List String
  /-- The functions of inner nodes; without any, inner nodes are sums, products and powers. -/
  functions : List TermFunc

namespace Ingredients

def kinds (i : Ingredients) : List NodeKind :=
  [.sum, .product, .power] ++ if i.functions.isEmpty then [] else [.function]

/-- A leaf: seven times out of ten a symbol, otherwise an integer from one to ten. -/
def leaf (i : Ingredients) : Draw Term := do
  if ← Draw.below 7 then return .symbol (← Draw.choice i.symbols)
  else return .integer (← Draw.between 1 10)

/-- A tree with at most `depth` nodes above each leaf. At every inner node it ends in a leaf four
times out of ten. Exponents are integers from one to five; the operand drawn beside the base is not
used. -/
def tree (i : Ingredients) : (depth : Nat) → Draw Term
  | 0 => i.leaf
  | depth + 1 => do
    if ← Draw.below 4 then i.leaf
    else match ← Draw.choice i.kinds with
      | .function =>
        let f ← Draw.choice i.functions
        return Term.function f (← i.tree depth)
      | .sum => return Term.sum [← i.tree depth, ← i.tree depth]
      | .product => return Term.product [← i.tree depth, ← i.tree depth]
      | .power =>
        let base ← i.tree depth
        let _ ← i.tree depth
        return Term.power base (← Draw.between 1 5)

def trees (i : Ingredients) (depth : Nat) : (count : Nat) → Draw (List Term)
  | 0 => return []
  | count + 1 => do
    let head ← i.tree depth
    let tail ← i.trees depth count
    return head :: tail

/-- A random term: the sum of `count` trees. -/
def term (i : Ingredients) (count depth : Int) : Draw Term := do
  return Term.sum (← i.trees depth.toNat count.toNat)

end Ingredients

end SymbolicDerivatives
