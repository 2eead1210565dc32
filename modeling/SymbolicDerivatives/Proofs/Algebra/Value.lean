import SymbolicDerivatives.Proofs.Algebra.Ingredients
import SymbolicDerivatives.Proofs.Number.Numeral
import Mathlib.Analysis.SpecialFunctions.Trigonometric.Deriv
import Mathlib.Analysis.SpecialFunctions.Pow.Real

/-!
# The value of terms in order

A term made from ingredients has a value once its symbols have one, and terms in order have the
value that they should have: that of a sum is the sum of the values, and so for products, powers and
functions. Sums and products take together what the order does not tell apart, and terms made from
ingredients are equal if it does not. A power of zero is multiplied into other powers of zero, so
this would not hold if exponents could be negative.
-/

namespace SymbolicDerivatives

noncomputable def TermFunc.value : TermFunc → ℝ → ℝ
  | sin => Real.sin
  | cos => Real.cos
  | log => Real.log
  | exp => Real.exp
  | tan => Real.tan
  | abs => fun a ↦ |a|

namespace Term

variable {i : Ingredients} {s t : Term} {ss ts : List Term} {r : String → ℝ}

/-! ## Terms without a difference -/

theorem rank_eq_of_compare_eq (h : compare s t = .eq) : s.rank = t.rank := by
  rw [compare.eq_def] at h
  split at h
  all_goals first | rfl | exact Nat.compare_eq_eq.1 h

theorem name_injective : Function.Injective TermFunc.name := by
  intro f g h
  cases f <;> cases g <;> first | rfl | exact absurd h (by decide)

theorem compareLists_eq_eq (h : ∀ s ∈ ss, ∀ t, MadeFrom i t → compare s t = .eq → s = t)
    (hts : ∀ t ∈ ts, MadeFrom i t) (heq : compareLists ss ts = .eq) : ss = ts := by
  induction ss generalizing ts with
  | nil =>
    obtain _ | ⟨t, ts⟩ := ts
    · rfl
    · cases heq
  | cons s ss ih =>
    obtain _ | ⟨t, ts⟩ := ts
    · cases heq
    · rw [compareLists, Ordering.then_eq_eq] at heq
      obtain ⟨hs, hss⟩ := List.forall_mem_cons.1 h
      obtain ⟨ht, hts⟩ := List.forall_mem_cons.1 hts
      rw [hs t ht heq.1, ih hss hts heq.2]

/-- Terms made from ingredients that the order does not tell apart are equal. -/
theorem MadeFrom.eq_of_compare_eq (hs : MadeFrom i s) (ht : MadeFrom i t)
    (h : compare s t = .eq) : s = t := by
  induction hs generalizing t with
  | symbol =>
    cases ht with
    | symbol =>
      rw [compare] at h
      rw [compare_eq_iff_eq.1 h]
    | _ => cases rank_eq_of_compare_eq h
  | integer =>
    cases ht with
    | integer =>
      rw [compare, Ordering.then_eq_eq] at h
      rw [compare_eq_iff_eq.1 h.2]
    | _ => cases rank_eq_of_compare_eq h
  | add _ _ ih =>
    cases ht with
    | add _ hts =>
      rw [compare, Ordering.then_eq_eq] at h
      rw [compareLists_eq_eq (fun s hs t ↦ ih s hs) hts h.2]
    | _ => cases rank_eq_of_compare_eq h
  | mul _ _ ih =>
    cases ht with
    | mul _ hts =>
      rw [compare, Ordering.then_eq_eq] at h
      rw [compareLists_eq_eq (fun s hs t ↦ ih s hs) hts h.2]
    | _ => cases rank_eq_of_compare_eq h
  | pow _ _ ih =>
    cases ht with
    | pow ht _ =>
      rw [compare, compare, Ordering.then_eq_eq, Ordering.then_eq_eq] at h
      rw [ih ht h.1, compare_eq_iff_eq.1 h.2.2]
    | _ => cases rank_eq_of_compare_eq h
  | apply _ _ ih =>
    cases ht with
    | apply _ ht =>
      rw [compare, Ordering.then_eq_eq] at h
      rw [name_injective (compare_eq_iff_eq.1 h.1), ih ht h.2]
    | _ => cases rank_eq_of_compare_eq h

/-! ## Values -/

mutual

/-- The value of a term, where the symbols have values. A function that is known by its name only
counts as zero. -/
noncomputable def value (r : String → ℝ) : Term → ℝ
  | symbol x => r x
  | integer n => n
  | quotient p q => p / q
  | decimal x => Number.toRat x
  | e => Real.exp 1
  | pi => Real.pi
  | add ts => (values r ts).sum
  | mul ts => (values r ts).prod
  | pow base exponent => value r base ^ value r exponent
  | apply f t => f.value (value r t)
  | other _ _ => 0

noncomputable def values (r : String → ℝ) : List Term → List ℝ
  | [] => []
  | t :: ts => value r t :: values r ts

end

theorem values_eq_map (r : String → ℝ) (ts : List Term) : values r ts = ts.map (value r) := by
  induction ts with
  | nil => rw [values, List.map_nil]
  | cons t ts ih => rw [values, ih, List.map_cons]

@[simp] theorem value_symbol (x : String) : (symbol x).value r = r x := by rw [value]

@[simp] theorem value_integer (n : ℤ) : (integer n).value r = n := by rw [value]

theorem value_add (ts : List Term) : (add ts).value r = (ts.map (value r)).sum := by
  rw [value, values_eq_map]

theorem value_mul (ts : List Term) : (mul ts).value r = (ts.map (value r)).prod := by
  rw [value, values_eq_map]

theorem cast_toNat {n : ℤ} (hn : 0 ≤ n) : (n.toNat : ℝ) = n := by
  rw [← Int.cast_natCast, Int.toNat_of_nonneg hn]

theorem value_pow {base : Term} {n : ℤ} (hn : 0 ≤ n) :
    (pow base (integer n)).value r = base.value r ^ n.toNat := by
  rw [value, value_integer, ← cast_toNat hn, Real.rpow_natCast]

@[simp] theorem value_apply (f : TermFunc) (t : Term) :
    (apply f t).value r = f.value (t.value r) := by rw [value]

/-! ## Sums and products as they are -/

theorem value_bareSum (ts : List Term) : (bareSum ts).value r = (ts.map (value r)).sum := by
  match ts with
  | [] => simp [bareSum]
  | [t] => simp [bareSum]
  | s :: t :: ts => exact value_add _

theorem value_bareProduct (ts : List Term) :
    (bareProduct ts).value r = (ts.map (value r)).prod := by
  match ts with
  | [] => simp [bareProduct]
  | [t] => simp [bareProduct]
  | s :: t :: ts => exact value_mul _

theorem value_splitFactor (t : Term) :
    (splitFactor t).2 * (splitFactor t).1.value r = t.value r := by
  rw [splitFactor.eq_def]
  split
  · rw [value_mul, List.map_cons, List.prod_cons, value_integer, value_bareProduct]
  · rw [Int.cast_one, one_mul]

theorem value_scale (n : ℤ) (t : Term) : (scale n t).value r = n * t.value r := by
  rw [scale.eq_def]
  split
  · rw [value_integer, value_integer, Int.cast_mul]
  · have hfactor (m : ℤ) (rest : List Term) : (n * (Term.mul (integer m :: rest)).value r : ℝ) =
        (n * m : ℤ) * (rest.map (value r)).prod := by
      rw [value_mul, List.map_cons, List.prod_cons, value_integer, Int.cast_mul, mul_assoc]
    rw [hfactor]
    split
    · next hone => rw [value_bareProduct, hone, Int.cast_one, one_mul]
    · rw [value_mul, List.map_cons, List.prod_cons, value_integer]
  · split
    · next hone => rw [hone, Int.cast_one, one_mul]
    · rw [value_mul, value_mul, List.map_cons, List.prod_cons, value_integer]
  · split
    · next hone => rw [hone, Int.cast_one, one_mul]
    · rw [value_mul, List.map_cons, List.map_singleton, List.prod_pair, value_integer]

theorem map_value_sort_perm (ts : List Term) :
    ((sort ts).map (value r)).Perm (ts.map (value r)) :=
  (List.mergeSort_perm ts _).map _

/-! ## Taking terms together

Sums and products are the same here but for the operation, so the lemmas are about products in any
commutative monoid. -/

section Monoid

variable {M : Type} [CommMonoid M] {R : Term × ℤ → Prop} {w : Term × ℤ → M}

theorem prod_map_count (hmade : ∀ p, R p → MadeFrom i p.1)
    (hw : ∀ t m n, R (t, m) → R (t, n) → w (t, m + n) = w (t, m) * w (t, n)) {n : ℤ}
    (ht : R (t, n)) {counts : List (Term × ℤ)} (h : ∀ p ∈ counts, R p) :
    ((count t n counts).map w).prod = w (t, n) * (counts.map w).prod := by
  induction counts with
  | nil => rfl
  | cons p counts ih =>
    obtain ⟨s, m⟩ := p
    obtain ⟨hp, hcounts⟩ := List.forall_mem_cons.1 h
    rw [count]
    split
    · next heq =>
      obtain rfl := (hmade _ hp).eq_of_compare_eq (hmade _ ht) heq
      rw [List.map_cons, List.map_cons, List.prod_cons, List.prod_cons, hw _ _ _ hp ht,
        mul_comm (w (s, m)), mul_assoc]
    · rw [List.map_cons, List.map_cons, List.prod_cons, List.prod_cons, ih hcounts, mul_left_comm]

theorem prod_map_filter_ne_zero (hzero : ∀ t, w (t, 0) = 1) (counts : List (Term × ℤ)) :
    ((counts.filter fun (_, n) ↦ n != 0).map w).prod = (counts.map w).prod := by
  induction counts with
  | nil => rfl
  | cons p counts ih =>
    obtain ⟨t, n⟩ := p
    by_cases hn : n = 0
    · rw [List.filter_cons_of_neg (by simpa using hn), ih, List.map_cons, List.prod_cons, hn,
        hzero, one_mul]
    · rw [List.filter_cons_of_pos (by simpa using hn), List.map_cons, List.map_cons,
        List.prod_cons, List.prod_cons, ih]

theorem prod_map_tally (hmade : ∀ p, R p → MadeFrom i p.1)
    (hadd : ∀ s t m n, R (s, m) → R (t, n) → R (s, m + n))
    (hw : ∀ t m n, R (t, m) → R (t, n) → w (t, m + n) = w (t, m) * w (t, n))
    (hzero : ∀ t, w (t, 0) = 1) {ts : List (Term × ℤ)} (h : ∀ p ∈ ts, R p) :
    ((tally ts).map w).prod = (ts.map w).prod := by
  suffices hfold : ∀ counts : List (Term × ℤ), (∀ p ∈ counts, R p) →
      ((ts.foldl (fun counts (t, n) ↦ count t n counts) counts).map w).prod =
        (counts.map w).prod * (ts.map w).prod by
    rw [tally, prod_map_filter_ne_zero hzero, hfold [] (List.forall_mem_nil _), List.map_nil,
      List.prod_nil, one_mul]
  induction ts with
  | nil => exact fun counts _ ↦ (mul_one _).symm
  | cons p ts ih =>
    obtain ⟨hp, hts⟩ := List.forall_mem_cons.1 h
    intro counts hcounts
    rw [List.foldl_cons, ih hts _ (forall_mem_count hadd hp hcounts),
      prod_map_count hmade hw hp hcounts, List.map_cons, List.prod_cons, mul_comm (w _), mul_assoc]

/-- The integers of a list, and all that are none. -/
theorem prod_map_integers (v : Term → M) (ts : List Term) :
    ((ts.filterMap integer?).map fun n ↦ v (integer n)).prod *
      ((ts.filter fun t ↦ t.integer?.isNone).map v).prod = (ts.map v).prod := by
  induction ts with
  | nil => exact one_mul 1
  | cons t ts ih =>
    rw [List.map_cons, List.prod_cons, ← ih]
    by_cases ht : ∃ n, t = integer n
    · obtain ⟨n, rfl⟩ := ht
      rw [List.filterMap_cons_some (f := integer?) (b := n) rfl,
        List.filter_cons_of_neg (by simp [integer?]), List.map_cons, List.prod_cons, mul_assoc]
    · have hnone : t.integer? = none := by
        rw [integer?.eq_def]
        split
        · exact absurd ⟨_, rfl⟩ ht
        · rfl
      rw [List.filterMap_cons_none hnone, List.filter_cons_of_pos (by rw [hnone]; rfl),
        List.map_cons, List.prod_cons, mul_left_comm]

end Monoid

/-! ## Sums in order -/

theorem sum_map_summands (ts : List Term) :
    ((summands ts).map (value r)).sum = (ts.map (value r)).sum := by
  induction ts with
  | nil => rfl
  | cons t ts ih =>
    rw [summands, List.flatMap_cons, List.map_append, List.sum_append, ← summands, ih,
      List.map_cons, List.sum_cons]
    congr 1
    split
    · exact (value_add _).symm
    · exact List.sum_singleton

theorem sum_map_multiples (h : ∀ t ∈ ts, MadeFrom i t) :
    ((multiples ts).map (value r)).sum =
      ((ts.filter fun t ↦ t.integer?.isNone).map (value r)).sum := by
  let weight : Term × ℤ → ℝ := fun p ↦ p.2 * p.1.value r
  have htally : ((tally ((ts.filter fun t ↦ t.integer?.isNone).map splitFactor)).map weight).sum =
      (((ts.filter fun t ↦ t.integer?.isNone).map splitFactor).map weight).sum :=
    prod_map_tally (M := Multiplicative ℝ) (w := fun p ↦ .ofAdd (weight p))
      (fun _ hp ↦ hp) (fun _ _ _ _ hs _ ↦ hs)
      (fun t m n _ _ ↦ by rw [← ofAdd_add, ← add_mul, ← Int.cast_add])
      (fun t ↦ by simp [weight]) (MadeFrom.splitFactors h)
  have hscale : (multiples ts).map (value r) =
      (tally ((ts.filter fun t ↦ t.integer?.isNone).map splitFactor)).map weight := by
    rw [multiples, List.map_map]
    exact List.map_congr_left fun p _ ↦ value_scale p.2 p.1
  rw [hscale, htally, List.map_map]
  exact congrArg List.sum (List.map_congr_left fun t _ ↦ value_splitFactor t)

theorem value_sum (h : ∀ t ∈ ts, MadeFrom i t) : (sum ts).value r = (ts.map (value r)).sum := by
  have hterms : ((sort (multiples (summands ts))).map (value r)).sum =
      (((summands ts).filter fun t ↦ t.integer?.isNone).map (value r)).sum := by
    rw [(map_value_sort_perm _).sum_eq, sum_map_multiples (MadeFrom.summands h)]
  have hconstant : ((((summands ts).filterMap integer?).foldl (· + ·) 0 : ℤ) : ℝ) =
      (((summands ts).filterMap integer?).map fun n ↦ (integer n).value r).sum := by
    rw [← List.sum_eq_foldl, Int.cast_list_sum]
    exact congrArg List.sum (List.map_congr_left fun n _ ↦ (value_integer n).symm)
  have hparts : (((summands ts).filterMap integer?).map fun n ↦ (integer n).value r).sum +
      (((summands ts).filter fun t ↦ t.integer?.isNone).map (value r)).sum =
        ((summands ts).map (value r)).sum :=
    prod_map_integers (M := Multiplicative ℝ) (fun t ↦ .ofAdd (t.value r)) (summands ts)
  rw [sum_eq, value_bareSum, ← sum_map_summands ts, ← hparts, ← hconstant, ← hterms]
  split
  · next hzero => rw [hzero, Int.cast_zero, zero_add]
  · rw [List.map_cons, List.sum_cons, value_integer]

/-! ## Products in order -/

theorem value_splitExponent (h : MadeFrom i t) :
    (splitExponent t).1.value r ^ (splitExponent t).2.toNat = t.value r := by
  rw [splitExponent.eq_def]
  split
  · obtain ⟨n, heq, -, one_lt⟩ := madeFrom_pow_iff.1 h
    obtain rfl := integer.inj heq
    exact (value_pow (Int.zero_lt_one.trans one_lt).le).symm
  · exact pow_one _

theorem value_raise (t : Term) {n : ℤ} (hn : 0 ≤ n) :
    (raise t n).value r = t.value r ^ n.toNat := by
  rw [raise]
  split
  · next hone => rw [hone, Int.toNat_one, pow_one]
  · exact value_pow hn

theorem prod_map_factors (ts : List Term) :
    ((factors ts).map (value r)).prod = (ts.map (value r)).prod := by
  induction ts with
  | nil => rfl
  | cons t ts ih =>
    rw [factors, List.flatMap_cons, List.map_append, List.prod_append, ← factors, ih,
      List.map_cons, List.prod_cons]
    congr 1
    split
    · exact (value_mul _).symm
    · exact List.prod_singleton

theorem prod_map_powers (h : ∀ t ∈ ts, MadeFrom i t) :
    ((powers ts).map (value r)).prod =
      ((ts.filter fun t ↦ t.integer?.isNone).map (value r)).prod := by
  let weight : Term × ℤ → ℝ := fun p ↦ p.1.value r ^ p.2.toNat
  have htally := prod_map_tally (w := weight) (fun _ hp ↦ hp.1)
    (fun _ _ _ _ hs ht ↦ ⟨hs.1, Int.add_pos hs.2 ht.2⟩)
    (fun t m n hm hn ↦ by rw [← pow_add, ← Int.toNat_add hm.2.le hn.2.le])
    (fun t ↦ pow_zero _) (MadeFrom.splitExponents h)
  have hraise : (powers ts).map (value r) =
      (tally ((ts.filter fun t ↦ t.integer?.isNone).map splitExponent)).map weight := by
    rw [powers, List.map_map]
    exact List.map_congr_left fun p hp ↦
      value_raise p.1 (MadeFrom.tally_splitExponents h p hp).2.le
  rw [hraise, htally, List.map_map]
  exact congrArg List.prod (List.map_congr_left fun t ht ↦
    value_splitExponent (h t (List.mem_of_mem_filter ht)))

theorem value_product (h : ∀ t ∈ ts, MadeFrom i t) :
    (product ts).value r = (ts.map (value r)).prod := by
  have hmade := MadeFrom.sort (MadeFrom.powers (MadeFrom.factors h))
  have hpowers : ((sort (powers (factors ts))).map (value r)).prod =
      (((factors ts).filter fun t ↦ t.integer?.isNone).map (value r)).prod := by
    rw [(map_value_sort_perm _).prod_eq, prod_map_powers (MadeFrom.factors h)]
  have hconstant : ((((factors ts).filterMap integer?).foldl (· * ·) 1 : ℤ) : ℝ) =
      (((factors ts).filterMap integer?).map fun n ↦ (integer n).value r).prod := by
    rw [← List.prod_eq_foldl, Int.cast_list_prod]
    exact congrArg List.prod (List.map_congr_left fun n _ ↦ (value_integer n).symm)
  rw [product_eq, ← prod_map_factors ts, ← prod_map_integers, ← hconstant, ← hpowers]
  generalize ((factors ts).filterMap integer?).foldl (· * ·) 1 = constant
  generalize sort (powers (factors ts)) = powers at hmade
  split
  · next hzero => rw [hzero, value_integer, Int.cast_zero, zero_mul]
  split
  · next hone => rw [hone, value_bareProduct, Int.cast_one, one_mul]
  split
  · next inner =>
    rw [List.forall_mem_singleton] at hmade
    have hinner := (madeFrom_add_iff.1 hmade).2
    have hscaled : inner.map (value r ∘ scale constant) =
        inner.map fun t ↦ (constant * t.value r : ℝ) :=
      List.map_congr_left fun t _ ↦ value_scale constant t
    rw [value_sum (List.forall_mem_map.2 fun t ht ↦ (hinner t ht).scale constant), List.map_map,
      hscaled, List.sum_map_mul_left, List.map_singleton, List.prod_singleton, value_add]
  · rw [value_bareProduct, List.map_cons, List.prod_cons, value_integer]

/-! ## Powers and functions in order -/

theorem value_powerOfFactor {n : ℤ} (h : MadeFrom i t) (hn : 0 < n) :
    (powerOfFactor n t).value r = t.value r ^ n.toNat := by
  rw [powerOfFactor.eq_def]
  split
  · rw [if_pos hn.le, value_integer, value_integer]
    exact Int.cast_pow _ _
  · obtain ⟨m, heq, -, one_lt⟩ := madeFrom_pow_iff.1 h
    obtain rfl := integer.inj heq
    have hm := (Int.zero_lt_one.trans one_lt).le
    rw [value_raise _ (Int.mul_nonneg hm hn.le), value_pow hm, ← pow_mul, Int.toNat_mul hm hn.le]
  · exact value_raise t hn.le

theorem value_power {n : ℤ} (h : MadeFrom i t) (hn : 0 ≤ n) :
    (power t n).value r = t.value r ^ n.toNat := by
  rw [power.eq_def]
  split
  · next hzero => rw [hzero, value_integer, Int.cast_one, Int.toNat_zero, pow_zero]
  · next hne =>
    have hpos : 0 < n := lt_of_le_of_ne hn (Ne.symm hne)
    split
    · next factors =>
      have hfactors := (madeFrom_mul_iff.1 h).2
      have hpowers : factors.map (value r ∘ powerOfFactor n) =
          (factors.map (value r)).map (· ^ n.toNat) := by
        rw [List.map_map]
        exact List.map_congr_left fun t ht ↦ value_powerOfFactor (hfactors t ht) hpos
      rw [value_product (List.forall_mem_map.2 fun t ht ↦ (hfactors t ht).powerOfFactor hpos),
        List.map_map, hpowers, value_mul]
      exact (map_list_prod (powMonoidHom n.toNat) _).symm
    · exact value_powerOfFactor h hpos

theorem value_function (f : TermFunc) (t : Term) :
    (function f t).value r = f.value (t.value r) := by
  rw [function.eq_def]
  split
  any_goals rw [value_integer, value_integer]
  all_goals simp [TermFunc.value]

end Term

end SymbolicDerivatives
