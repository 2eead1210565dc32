import SymbolicDerivatives.Proofs.Algebra.Value
import SymbolicDerivatives.Proofs.Real.Plan

/-!
# The derivative of terms made from ingredients

The derivative of a term is put in order at every step, and its value is the derivative of the value
of the term, at every point: exponents are not negative, so nothing has to be regular. This takes
ingredients whose functions have their slopes among the terms made from the same ingredients, as the
sine and the cosine have together. A plan then computes the iterated partial derivative.
-/

open Filter Topology
open Function (update)

namespace SymbolicDerivatives

open Term (MadeFrom slope)

/-- The slopes of the functions are made from the same ingredients, and are their derivatives. -/
structure Ingredients.Smooth (i : Ingredients) : Prop where
  slope {f : TermFunc} (mem : f ∈ i.functions) {t : Term} (h : MadeFrom i t) :
    MadeFrom i (slope f t)
  hasDerivAt {f : TermFunc} (mem : f ∈ i.functions) {t : Term} (h : MadeFrom i t)
    (r : String → ℝ) : HasDerivAt f.value ((Term.slope f t).value r) (t.value r)

theorem Ingredients.smooth_of_sin_cos (symbols : List String) :
    Smooth ⟨symbols, [.sin, .cos]⟩ := by
  have hsin : TermFunc.sin ∈ [TermFunc.sin, .cos] := by decide
  have hcos : TermFunc.cos ∈ [TermFunc.sin, .cos] := by decide
  constructor
  · intro f mem t h
    obtain rfl | rfl : f = .sin ∨ f = .cos := by simpa using mem
    · exact h.function hcos
    · exact .product (List.forall_mem_cons.2
        ⟨.integer _, List.forall_mem_singleton.2 (h.function hsin)⟩)
  · intro f mem t h r
    obtain rfl | rfl : f = .sin ∨ f = .cos := by simpa using mem
    · rw [Term.slope, Term.value_function]
      exact Real.hasDerivAt_sin _
    · rw [Term.slope, Term.value_product (List.forall_mem_cons.2
        ⟨.integer _, List.forall_mem_singleton.2 (h.function hsin)⟩), List.map_cons,
        List.map_singleton, List.prod_pair, Term.value_integer, Term.value_function, Int.cast_neg,
        Int.cast_one, neg_one_mul]
      exact Real.hasDerivAt_cos _

namespace Term

variable {i : Ingredients} {t : Term} {ts : List Term} {x : String} {r : String → ℝ}

/-! ## Products -/

/-- Factors that come before the list are factors of every term of the product rule. -/
theorem sum_value_productRule {before ds : List Term} (hbefore : ∀ t ∈ before, MadeFrom i t)
    (hts : ∀ t ∈ ts, MadeFrom i t) (hds : ∀ d ∈ ds, MadeFrom i d) :
    ((productRule before ts ds).map (value r)).sum =
      (before.map (value r)).prod * productSlope (ts.map (value r)) (ds.map (value r)) := by
  induction ts generalizing before ds with
  | nil => exact (mul_zero _).symm
  | cons t ts ih =>
    obtain _ | ⟨d, ds⟩ := ds
    · exact (mul_zero _).symm
    · obtain ⟨ht, hts⟩ := List.forall_mem_cons.1 hts
      obtain ⟨hd, hds⟩ := List.forall_mem_cons.1 hds
      have hfactors : ∀ s ∈ before ++ d :: ts, MadeFrom i s :=
        List.forall_mem_append.2 ⟨hbefore, List.forall_mem_cons.2 ⟨hd, hts⟩⟩
      have hpassed : ∀ s ∈ before ++ [t], MadeFrom i s :=
        List.forall_mem_append.2 ⟨hbefore, List.forall_mem_singleton.2 ht⟩
      rw [productRule, List.map_cons, List.sum_cons, ih hpassed hts hds, value_product hfactors]
      simp only [List.map_append, List.prod_append, List.map_cons, List.prod_cons, List.map_nil,
        List.prod_nil, productSlope]
      ring

/-! ## Derivatives -/

theorem MadeFrom.derivative_of_smooth (hi : i.Smooth) (x : String) (h : MadeFrom i t) :
    MadeFrom i (t.derivative x) :=
  h.derivative (fun _ mem _ ↦ hi.slope mem) x

/-- The value of the derivative is the derivative of the value. -/
theorem MadeFrom.hasDerivAt (hi : i.Smooth) (x : String) (r : String → ℝ) (h : MadeFrom i t) :
    HasDerivAt (fun a ↦ t.value (update r x a)) ((t.derivative x).value r) (r x) := by
  induction h with
  | @symbol y mem =>
    simp only [Term.derivative, value_symbol, value_integer]
    split
    · next heq =>
      subst heq
      simpa using hasDerivAt_id' (r y)
    · next hne =>
      simpa [Function.update_of_ne hne] using hasDerivAt_const (r x) (r y)
  | integer n =>
    simp only [Term.derivative, value_integer, Int.cast_zero]
    exact hasDerivAt_const (r x) (n : ℝ)
  | @add ts _ terms ih =>
    have hds : ∀ t ∈ ts, MadeFrom i (t.derivative x) :=
      fun t ht ↦ (terms t ht).derivative_of_smooth hi x
    rw [Term.derivative, derivatives_eq_map, value_sum (List.forall_mem_map.2 hds)]
    simp only [value_add]
    exact hasDerivAt_list_sum (List.forall₂_map_right_iff.2 (List.forall₂_same.2 ih))
  | @mul ts _ factors ih =>
    have hnone : ∀ t ∈ ([] : List Term), MadeFrom i t := List.forall_mem_nil _
    have hds : ∀ d ∈ ts.map (Term.derivative x), MadeFrom i d :=
      List.forall_mem_map.2 fun t ht ↦ (factors t ht).derivative_of_smooth hi x
    have hprod := hasDerivAt_list_prod (List.forall₂_map_right_iff.2 (List.forall₂_same.2 ih))
    rw [Function.update_eq_self] at hprod
    rw [Term.derivative, derivatives_eq_map, value_sum (MadeFrom.productRule hnone factors hds),
      sum_value_productRule hnone factors hds, List.map_nil, List.prod_nil, one_mul]
    simp only [value_mul]
    exact hprod
  | @pow base n hbase one_lt ih =>
    have hn : 0 ≤ n := (Int.zero_lt_one.trans one_lt).le
    have hpred : 0 ≤ n - 1 := by omega
    have hfactors : ∀ t ∈ [Term.integer n, Term.power base (n - 1), base.derivative x],
        MadeFrom i t :=
      List.forall_mem_cons.2 ⟨.integer n, List.forall_mem_cons.2 ⟨hbase.power hpred,
        List.forall_mem_singleton.2 (hbase.derivative_of_smooth hi x)⟩⟩
    have hexponent : (n - 1).toNat = n.toNat - 1 := by omega
    have hpow := ih.fun_pow n.toNat
    rw [Function.update_eq_self] at hpow
    simp only [value_pow hn]
    refine hpow.congr_deriv ?_
    rw [Term.derivative, value_product hfactors, List.map_cons, List.map_cons, List.map_singleton,
      List.prod_cons, List.prod_pair, value_integer, value_power hbase hpred, hexponent,
      cast_toNat hn, mul_assoc]
  | @apply f t mem h ih =>
    have hfactors : ∀ s ∈ [slope f t, t.derivative x], MadeFrom i s :=
      List.forall_mem_cons.2 ⟨hi.slope mem h,
        List.forall_mem_singleton.2 (h.derivative_of_smooth hi x)⟩
    have houter : HasDerivAt f.value ((slope f t).value r) (t.value (update r x (r x))) := by
      rw [Function.update_eq_self]
      exact hi.hasDerivAt mem h r
    rw [Term.derivative, value_product hfactors, List.map_cons, List.map_singleton, List.prod_pair]
    simp only [value_apply]
    exact houter.comp (r x) ih

theorem MadeFrom.foldl_derivative (hi : i.Smooth) (xs : List String) (h : MadeFrom i t) :
    MadeFrom i (xs.foldl (fun t x ↦ t.derivative x) t) := by
  induction xs generalizing t with
  | nil => exact h
  | cons x xs ih => exact ih (h.derivative_of_smooth hi x)

/-- Along a plan, the value is the iterated partial derivative. -/
theorem MadeFrom.hasIteratedPartialAt (hi : i.Smooth) (xs : List String) (r : String → ℝ)
    (h : MadeFrom i t) :
    HasIteratedPartialAt xs (fun p ↦ t.value p)
      ((xs.foldl (fun t x ↦ t.derivative x) t).value r) r := by
  induction xs generalizing t with
  | nil => exact rfl
  | cons x xs ih =>
    exact ⟨fun p ↦ (t.derivative x).value p, Eventually.of_forall fun p ↦ h.hasDerivAt hi x p,
      ih (h.derivative_of_smooth hi x)⟩

end Term

end SymbolicDerivatives
