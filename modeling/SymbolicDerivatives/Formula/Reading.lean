import SymbolicDerivatives.Expr.Basic
import SymbolicDerivatives.Formula.Token
import SymbolicDerivatives.Number.Literal

/-!
# Reading the tokens of a formula

The grammar has five levels: expressions of terms joined by `+` and `-`, terms of factors joined by
`*`, factors that may be raised to a power, operands that may have a sign, and atoms. A run of `+`
or of `*` is one node, `-` groups to the left and `^` to the right. A function takes the single
operand after it, so `sin x^2` is the square of `sin x`. A sign directly before digits belongs to
the number; any other sign is a product with `-1` of the whole factor after it.

Each level is a function from the tokens at hand to a `Reading`: the tree of the phrase at their
front and the tokens after it, or a refusal. Tokens are looked at once and from left to right; a
reading also collects the names it meets that are not among the known ones. The bound in the type
says that fewer tokens are left than there were, which is what makes the levels end.
-/

namespace SymbolicDerivatives

/-- Why the tokens of a formula are refused. -/
inductive Refusal where
  /-- A parenthesis is open, and this token does not close it. -/
  | unclosed
  /-- No operand starts with this token. -/
  | noOperand
  /-- The formula is complete before this token. -/
  | trailing
  deriving DecidableEq

/-- The outcome of reading a phrase, with fewer than `bound` tokens left after it. -/
inductive Reading (bound : Nat) where
  /-- The phrase was read. -/
  | done (unknown : List String) (tree : Expr Float) (rest : List Token)
      (shorter : rest.length < bound)
  /-- The first of these tokens, or the end of the formula, was refused. -/
  | refused (unknown : List String) (refusal : Refusal) (rest : List Token)

namespace Reading

/-- The names met that are not known, in order. -/
def unknown {bound : Nat} : Reading bound → List String
  | done unknown _ _ _ => unknown
  | refused unknown _ _ => unknown

/-- A reading after other names were met. -/
def after {bound : Nat} (earlier : List String) : Reading bound → Reading bound
  | done unknown tree rest shorter => done (earlier ++ unknown) tree rest shorter
  | refused unknown refusal rest => refused (earlier ++ unknown) refusal rest

/-- Reading on after a phrase. -/
def andThen {a b : Nat} (reading : Reading a)
    (next : (tree : Expr Float) → (rest : List Token) → rest.length < a → Reading b) : Reading b :=
  match reading with
  | done unknown tree rest shorter => (next tree rest shorter).after unknown
  | refused unknown refusal rest => refused unknown refusal rest

/-- The same reading under a larger bound. -/
def widen {a b : Nat} (h : a ≤ b) : Reading a → Reading b
  | done unknown tree rest shorter => done unknown tree rest (Nat.lt_of_lt_of_le shorter h)
  | refused unknown refusal rest => refused unknown refusal rest

section Lemmas

variable {a b : Nat} (names earlier : List String) (tree : Expr Float) (rest : List Token)
  (refusal : Refusal)
  (next : (tree : Expr Float) → (rest : List Token) → rest.length < a → Reading b)

@[simp] theorem after_done (h : rest.length < a) :
    (done names tree rest h).after earlier = done (earlier ++ names) tree rest h := rfl

@[simp] theorem after_refused :
    (refused names refusal rest : Reading a).after earlier =
      refused (earlier ++ names) refusal rest := rfl

@[simp] theorem andThen_done (h : rest.length < a) :
    (done names tree rest h).andThen next = (next tree rest h).after names := rfl

@[simp] theorem andThen_refused :
    (refused names refusal rest : Reading a).andThen next = refused names refusal rest := rfl

@[simp] theorem widen_done (hab : a ≤ b) (h : rest.length < a) :
    (done names tree rest h).widen hab =
      done names tree rest (Nat.lt_of_lt_of_le h hab) := rfl

@[simp] theorem widen_refused (hab : a ≤ b) :
    (refused names refusal rest : Reading a).widen hab = refused names refusal rest := rfl

@[simp] theorem after_nil (r : Reading a) : r.after [] = r := by
  cases r <;> rfl

end Lemmas

end Reading

namespace Formula

/-- A run of operands as one node; a single operand stands for itself. -/
def run (o : Operator) : List (Expr Float) → Expr Float
  | [e] => e
  | operands => .op o operands

/-- A name as a phrase, noted if it is not known. -/
def readName (known : List String) (word : String) (rest : List Token) :
    Reading (rest.length + 1) :=
  .done (if known.contains word then [] else [word]) (.var word) rest (Nat.lt_succ_self _)

/-- The closing parenthesis after a tree. -/
def readClosing (tree : Expr Float) : (tokens : List Token) → Reading (tokens.length + 1)
  | .closing :: rest => .done [] tree rest (Nat.lt_succ_of_lt (Nat.lt_succ_self _))
  | tokens => .refused [] .unclosed tokens

mutual

/-- An expression: terms joined by `+` and `-`. -/
def readExpression (known : List String) (tokens : List Token) : Reading tokens.length :=
  (readTerm known tokens).andThen fun term rest shorter ↦
    (readTerms known [term] rest).widen (by omega)
termination_by (tokens.length, 4)

/-- The rest of an expression after the terms of its last run of `+`. -/
def readTerms (known : List String) (terms : List (Expr Float)) (tokens : List Token) :
    Reading (tokens.length + 1) :=
  match tokens with
  | .plus :: rest =>
    (readTerm known rest).andThen fun term rest' shorter ↦
      (readTerms known (terms ++ [term]) rest').widen (by rw [List.length_cons]; omega)
  | .minus :: rest =>
    (readTerm known rest).andThen fun term rest' shorter ↦
      (readTerms known [.sub (run .add terms) term] rest').widen (by rw [List.length_cons]; omega)
  | tokens => .done [] (run .add terms) tokens (Nat.lt_succ_self _)
termination_by (tokens.length, 0)

/-- A term: factors joined by `*`. -/
def readTerm (known : List String) (tokens : List Token) : Reading tokens.length :=
  (readFactor known tokens).andThen fun factor rest shorter ↦
    (readFactors known [factor] rest).widen (by omega)
termination_by (tokens.length, 3)

/-- The rest of a term after its first factors. -/
def readFactors (known : List String) (factors : List (Expr Float)) (tokens : List Token) :
    Reading (tokens.length + 1) :=
  match tokens with
  | .times :: rest =>
    (readFactor known rest).andThen fun factor rest' shorter ↦
      (readFactors known (factors ++ [factor]) rest').widen (by rw [List.length_cons]; omega)
  | tokens => .done [] (run .mul factors) tokens (Nat.lt_succ_self _)
termination_by (tokens.length, 0)

/-- A factor: an operand, perhaps raised to a factor. -/
def readFactor (known : List String) (tokens : List Token) : Reading tokens.length :=
  (readOperand known tokens).andThen fun base rest shorter ↦
    match rest with
    | .caret :: rest' =>
      have : rest'.length < tokens.length := Nat.lt_of_succ_lt shorter
      (readFactor known rest').andThen fun exponent rest'' shorter' ↦
        .done [] (.pow base exponent) rest'' (by omega)
    | rest => .done [] base rest shorter
termination_by (tokens.length, 2)

/-- An operand: an atom, a number with a sign, or a factor with a sign. -/
def readOperand (known : List String) (tokens : List Token) : Reading tokens.length :=
  match tokens with
  | .minus :: .number literal :: rest =>
    .done [] (.const (-Number.ofLiteral literal)) rest (Nat.lt_succ_of_lt (Nat.lt_succ_self _))
  | .minus :: rest =>
    (readFactor known rest).andThen fun factor rest' shorter ↦
      .done [] (.mul [.const (-1), factor]) rest' (by rw [List.length_cons]; omega)
  | tokens => readAtom known tokens
termination_by (tokens.length, 1)

/-- An atom: a number, a name, a function of an operand, or an expression in parentheses. -/
def readAtom (known : List String) (tokens : List Token) : Reading tokens.length :=
  match tokens with
  | .number literal :: rest =>
    .done [] (.const (Number.ofLiteral literal)) rest (Nat.lt_succ_self _)
  | .name word :: rest => readName known word rest
  | .function f :: rest =>
    (readOperand known rest).andThen fun argument rest' shorter ↦
      .done [] (.apply f argument) rest' (by rw [List.length_cons]; omega)
  | .opening :: rest =>
    (readExpression known rest).andThen fun tree rest' shorter ↦
      (readClosing tree rest').widen (by rw [List.length_cons]; omega)
  | tokens => .refused [] .noOperand tokens
termination_by (tokens.length, 0)

end

/-- A whole formula: an expression and nothing after it. -/
def readAll (known : List String) (tokens : List Token) : Reading (tokens.length + 1) :=
  (readExpression known tokens).andThen fun tree rest _ ↦
    match rest with
    | [] => .done [] tree [] (Nat.succ_pos _)
    | rest => .refused [] .trailing rest

end Formula

end SymbolicDerivatives
