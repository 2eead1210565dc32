import SymbolicDerivatives.Proofs.Formula.Written
import SymbolicDerivatives.Proofs.Number.Numeral
import SymbolicDerivatives.Proofs.Real.Regular

/-!
# Values of phrases over the reals

A tree of doubles is read over the reals by the numbers that its constants stand for. Over the reals
it does not matter how the terms of an expression and the factors of a term are grouped. So two
expressions with a sign between them have the sum or the difference of their values, although the
second one is no operand of the tree that they have together.
-/

namespace SymbolicDerivatives

namespace Expr

/-! ## Trees of doubles over the reals -/

mutual

/-- A tree with the reals that its constants stand for. -/
noncomputable def toReal : Expr Float → Expr ℝ
  | .const c => .const (Number.toRat c : ℝ)
  | .var x => .var x
  | .op o operands => .op o (toRealList operands)

noncomputable def toRealList : List (Expr Float) → List (Expr ℝ)
  | [] => []
  | e :: es => e.toReal :: toRealList es

end

theorem toRealList_eq_map (es : List (Expr Float)) : toRealList es = es.map toReal := by
  induction es with
  | nil => rw [toRealList, List.map_nil]
  | cons e es ih => rw [toRealList, ih, List.map_cons]

/-- The value of a tree of doubles over the reals. -/
noncomputable def realValue (r : String → ℝ) (e : Expr Float) : ℝ := e.toReal.value r

section Shapes

variable (r : String → ℝ)

theorem realValue_const (c : Float) : (Expr.const c).realValue r = Number.toRat c := by
  rw [realValue, toReal, value_const]

theorem realValue_var (x : String) : (Expr.var x).realValue r = r x := by
  rw [realValue, toReal, value_var]

theorem realValue_op (o : Operator) (es : List (Expr Float)) :
    (Expr.op o es).realValue r = o.value (es.map (realValue r)) := by
  rw [realValue, toReal, toRealList_eq_map, value_op, List.map_map]
  rfl

theorem realValue_add (es : List (Expr Float)) :
    (add es).realValue r = (es.map (realValue r)).sum := by
  rw [add, realValue_op, Operator.value_add, sum_eq_list_sum]

theorem realValue_mul (es : List (Expr Float)) :
    (mul es).realValue r = (es.map (realValue r)).prod := by
  rw [mul, realValue_op, Operator.value_mul, product_eq_list_prod]

theorem realValue_sub (u v : Expr Float) :
    (sub u v).realValue r = u.realValue r - v.realValue r := by
  rw [sub, realValue_op]
  rfl

theorem realValue_pow (u v : Expr Float) :
    (pow u v).realValue r = u.realValue r ^ v.realValue r := by
  rw [pow, realValue_op]
  rfl

theorem realValue_apply (f : Func) (u : Expr Float) :
    (apply f u).realValue r = f.eval (u.realValue r) := by
  rw [apply, realValue_op]
  rfl

end Shapes

end Expr

open SymbolicDerivatives.Expr (realValue)

namespace Formula

variable {r : String → ℝ}

/-! ## Expressions -/

theorem realValue_run_add (es : List (Expr Float)) :
    (run .add es).realValue r = (es.map (realValue r)).sum := by
  match es with
  | [] | _ :: _ :: _ => exact Expr.realValue_add r _
  | [e] => rw [run, List.map_singleton, List.sum_singleton]

theorem realValue_run_mul (es : List (Expr Float)) :
    (run .mul es).realValue r = (es.map (realValue r)).prod := by
  match es with
  | [] | _ :: _ :: _ => exact Expr.realValue_mul r _
  | [e] => rw [run, List.map_singleton, List.prod_singleton]

/-- What a term with its sign adds to an expression. -/
def Sign.apply : Sign → ℝ → ℝ
  | plus, a => a
  | minus, a => -a

theorem sum_join (sign : Sign) (terms : List (Expr Float)) (e : Expr Float) :
    ((sign.join terms e).map (realValue r)).sum =
      (terms.map (realValue r)).sum + sign.apply (e.realValue r) := by
  match sign with
  | .plus => rw [Sign.join, List.map_append, List.sum_append, List.map_singleton,
      List.sum_singleton, Sign.apply]
  | .minus => rw [Sign.join, List.map_singleton, List.sum_singleton, Expr.realValue_sub,
      realValue_run_add, Sign.apply, sub_eq_add_neg]

theorem realValue_joinTerms (terms : List (Expr Float)) (others : List (Sign × Expr Float)) :
    (joinTerms terms others).realValue r = (terms.map (realValue r)).sum +
      (others.map fun t ↦ t.1.apply (t.2.realValue r)).sum := by
  induction others generalizing terms with
  | nil => rw [List.map_nil, List.sum_nil, add_zero]; exact realValue_run_add terms
  | cons t others ih =>
    have hcons : joinTerms terms (t :: others) = joinTerms (t.1.join terms t.2) others := rfl
    rw [hcons, ih, sum_join, List.map_cons, List.sum_cons, add_assoc]

namespace Phrase

variable {tokens tokens' : List Token} {e e' : Expr Float}

theorem exists_joined (h : Phrase .expression tokens e)
    (others : List (Sign × List Token × Expr Float))
    (hothers : ∀ t ∈ others, Phrase .term t.2.1 t.2.2) :
    ∃ f, Phrase .expression (tokens ++ others.flatMap fun t ↦ t.1.token :: t.2.1) f ∧
      f.realValue r = e.realValue r +
        (others.map fun t ↦ t.1.apply (t.2.2.realValue r)).sum := by
  obtain @⟨tokens, e, first, terms, hterms⟩ := h
  have hphrase := Phrase.expression first (terms ++ others)
    (List.forall_mem_append.2 ⟨hterms, hothers⟩)
  rw [List.flatMap_append, ← List.append_assoc] at hphrase
  refine ⟨_, hphrase, ?_⟩
  rw [realValue_joinTerms, realValue_joinTerms, List.map_append, List.map_append, List.sum_append,
    List.map_map, List.map_map, ← add_assoc]
  rfl

theorem exists_sum (h : Phrase .expression tokens e) (h' : Phrase .expression tokens' e') :
    ∃ f, Phrase .expression (tokens ++ .plus :: tokens') f ∧
      f.realValue r = e.realValue r + e'.realValue r := by
  obtain @⟨tokens', e', first, terms, hterms⟩ := h'
  obtain ⟨f, hphrase, hvalue⟩ := h.exists_joined (r := r) ((.plus, tokens', e') :: terms)
    (List.forall_mem_cons.2 ⟨first, hterms⟩)
  refine ⟨f, hphrase, ?_⟩
  rw [hvalue, realValue_joinTerms, List.map_singleton, List.sum_singleton, List.map_cons,
    List.sum_cons, List.map_map]
  rfl

theorem exists_difference (h : Phrase .expression tokens e) (h' : Phrase .term tokens' e') :
    ∃ f, Phrase .expression (tokens ++ .minus :: tokens') f ∧
      f.realValue r = e.realValue r - e'.realValue r := by
  obtain ⟨f, hphrase, hvalue⟩ := h.exists_joined (r := r) [(.minus, tokens', e')]
    (List.forall_mem_singleton.2 h')
  rw [List.flatMap_singleton] at hphrase
  refine ⟨f, hphrase, ?_⟩
  rw [hvalue, List.map_singleton, List.sum_singleton, Sign.apply, sub_eq_add_neg]

theorem exists_product (h : Phrase .term tokens e) (h' : Phrase .term tokens' e') :
    ∃ f, Phrase .term (tokens ++ .times :: tokens') f ∧
      f.realValue r = e.realValue r * e'.realValue r := by
  cases h with | @term tokens e first others hothers =>
  cases h' with | @term tokens' e' first' others' hothers' =>
  have hphrase := Phrase.term first (others ++ (tokens', e') :: others')
    (List.forall_mem_append.2 ⟨hothers, List.forall_mem_cons.2 ⟨first', hothers'⟩⟩)
  rw [List.flatMap_append, List.flatMap_cons, ← List.append_assoc] at hphrase
  refine ⟨_, hphrase, ?_⟩
  rw [realValue_run_mul, realValue_run_mul, realValue_run_mul]
  simp only [List.map_append, List.map_cons, List.prod_append, List.prod_cons, mul_assoc]

/-- A term after a sign that stands in front of it. -/
theorem exists_negated (h : Phrase .term tokens e)
    (hnumber : ∀ literal, tokens.head? ≠ some (.number literal)) :
    ∃ f, Phrase .term (.minus :: tokens) f ∧ f.realValue r = -e.realValue r := by
  cases h with | @term tokens e first others hothers =>
  -- the sign belongs to the first factor
  rw [List.head?_append_of_ne_nil _ first.ne_nil] at hnumber
  refine ⟨_, .term (.operand (.negated first hnumber)) others hothers, ?_⟩
  rw [realValue_run_mul, realValue_run_mul, List.map_cons, List.map_cons, List.prod_cons,
    List.prod_cons, Expr.realValue_mul, List.map_cons, List.map_singleton, List.prod_pair,
    Expr.realValue_const, Number.toRat_neg_one, Rat.cast_neg, Rat.cast_one, neg_one_mul, neg_mul]

end Phrase

end Formula

end SymbolicDerivatives
