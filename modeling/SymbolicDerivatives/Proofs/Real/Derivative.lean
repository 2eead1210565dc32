import SymbolicDerivatives.Proofs.Real.Regular

/-!
# The derivative of a tree is the derivative of its value

The value of a tree at `Function.update r x t` is a function of `t`, with the variables other than
`x` fixed by `r`. At a regular point the tree that the rules give for the derivative has the
derivative of this function as its value. There is one step for each rule, so the proof is an
induction on `Derives`. The rules for powers are instances of one formula for positive bases, except
those for constant exponents, where the base may be zero or negative.
-/

namespace SymbolicDerivatives

open Function (update)

/-! ## Sums and products -/

section Lists

variable {α β : Type} {f : α → ℝ → ℝ} {g : β → ℝ} {c : ℝ} {as : List α} {bs : List β}

theorem hasDerivAt_list_sum (h : List.Forall₂ (fun a b ↦ HasDerivAt (f a) (g b) c) as bs) :
    HasDerivAt (fun t ↦ (as.map fun a ↦ f a t).sum) (bs.map g).sum c := by
  induction h with
  | nil => exact hasDerivAt_const c 0
  | cons hhead _ ih =>
    simp only [List.map_cons, List.sum_cons]
    exact hhead.add ih

/-- The derivative of a product, from the factors and their derivatives. -/
def productSlope : List ℝ → List ℝ → ℝ
  | a :: as, d :: ds => d * as.prod + a * productSlope as ds
  | _, _ => 0

theorem hasDerivAt_list_prod (h : List.Forall₂ (fun a b ↦ HasDerivAt (f a) (g b) c) as bs) :
    HasDerivAt (fun t ↦ (as.map fun a ↦ f a t).prod)
      (productSlope (as.map fun a ↦ f a c) (bs.map g)) c := by
  induction h with
  | nil => exact hasDerivAt_const c 1
  | cons hhead _ ih =>
    simp only [List.map_cons, List.prod_cons]
    exact hhead.fun_mul ih

end Lists

namespace Expr

variable {r : String → ℝ} {x : String}

/-! ## Leaves -/

theorem hasDerivAt_var : HasDerivAt (fun t ↦ (Expr.var x).value (update r x t)) 1 (r x) := by
  simpa only [value_var, Function.update_self] using hasDerivAt_id' (r x)

theorem hasDerivAt_of_dependsOn_eq_false {e : Expr ℝ} (h : e.dependsOn x = false) :
    HasDerivAt (fun t ↦ e.value (update r x t)) 0 (r x) := by
  have hconst : (fun t ↦ e.value (update r x t)) = fun _ ↦ e.value r :=
    funext fun t ↦ value_update_of_dependsOn_eq_false h r t
  rw [hconst]
  exact hasDerivAt_const (r x) (e.value r)

/-! ## Products -/

/-- Operands that come before the list are factors of every term of the product rule. -/
theorem sum_value_productTerms (before es ds : List (Expr ℝ)) :
    ((productTerms before es ds).map (value r)).sum =
      (before.map (value r)).prod * productSlope (es.map (value r)) (ds.map (value r)) := by
  induction es generalizing before ds with
  | nil => simp [productTerms, productSlope]
  | cons e es ih =>
    cases ds with
    | nil => simp [productTerms, productSlope]
    | cons d ds =>
      simp only [productTerms, productSlope, List.map_cons, List.sum_cons, value_real_mul,
        List.prod_cons, List.map_append, List.prod_append]
      rw [ih (before ++ [e])]
      simp only [List.map_append, List.prod_append, List.map_cons, List.map_nil, List.prod_cons,
        List.prod_nil]
      ring

theorem hasDerivAt_prod {es ds : List (Expr ℝ)}
    (h : List.Forall₂ (fun e d ↦ HasDerivAt (fun t ↦ e.value (update r x t)) (d.value r) (r x))
      es ds) :
    HasDerivAt (fun t ↦ (es.map (value (update r x t))).prod)
      ((productTerms [] es ds).map (value r)).sum (r x) := by
  have hprod := hasDerivAt_list_prod h
  rw [Function.update_eq_self] at hprod
  rw [sum_value_productTerms, List.map_nil, List.prod_nil, one_mul]
  exact hprod

/-! ## Powers and logarithms -/

theorem hasDerivAt_pow {u v : Expr ℝ} {a b : ℝ}
    (hu : HasDerivAt (fun t ↦ u.value (update r x t)) a (r x))
    (hv : HasDerivAt (fun t ↦ v.value (update r x t)) b (r x)) (hpos : 0 < u.value r) :
    HasDerivAt (fun t ↦ (pow u v).value (update r x t))
      (u.value r ^ v.value r * (b * Real.log (u.value r) + v.value r * (u.value r)⁻¹ * a))
      (r x) := by
  have hbase : 0 < u.value (update r x (r x)) := by rwa [Function.update_eq_self]
  have hpow := hu.rpow hv hbase
  rw [Function.update_eq_self] at hpow
  simp only [value_real_pow]
  refine hpow.congr_deriv ?_
  rw [Real.rpow_sub_one hpos.ne']
  ring

theorem hasDerivAt_pow_const {u : Expr ℝ} {a c : ℝ}
    (hu : HasDerivAt (fun t ↦ u.value (update r x t)) a (r x)) (h : u.value r ≠ 0 ∨ 1 ≤ c) :
    HasDerivAt (fun t ↦ (pow u (.const c)).value (update r x t))
      (c * u.value r ^ (c - 1) * a) (r x) := by
  have hbase : u.value (update r x (r x)) ≠ 0 ∨ 1 ≤ c := by rwa [Function.update_eq_self]
  have hpow := hu.rpow_const hbase
  rw [Function.update_eq_self] at hpow
  simp only [value_real_pow, value_const]
  refine hpow.congr_deriv ?_
  ring

theorem ne_zero_or_one_le_of_regularNode {u : Expr ℝ} {c : ℝ} (hc : c ≠ 0)
    (h : RegularNode r .pow [u, .const c]) : u.value r ≠ 0 ∨ 1 ≤ c := by
  rcases h with hpos | ⟨k, hk, hne⟩
  · exact .inl hpos.ne'
  · have hck : c = (k : ℝ) := Expr.const.inj hk
    by_cases hneg : k < 0
    · exact .inl (hne hneg)
    · refine .inr ?_
      have hk0 : k ≠ 0 := by
        rintro rfl
        exact hc (by rw [hck, Int.cast_zero])
      have hk1 : 1 ≤ k := by omega
      rw [hck]
      exact_mod_cast hk1

theorem hasDerivAt_ln {u : Expr ℝ} {a : ℝ}
    (hu : HasDerivAt (fun t ↦ u.value (update r x t)) a (r x)) (hpos : 0 < u.value r) :
    HasDerivAt (fun t ↦ (apply .ln u).value (update r x t)) ((u.value r)⁻¹ * a) (r x) := by
  have hne : u.value (update r x (r x)) ≠ 0 := by
    rw [Function.update_eq_self]
    exact hpos.ne'
  have hln := hu.log hne
  rw [Function.update_eq_self] at hln
  simp only [value_real_ln]
  refine hln.congr_deriv ?_
  ring

/-! ## All rules -/

theorem Derives.hasDerivAt {e d : Expr ℝ} (h : Derives x e d) (hr : e.Regular r) :
    HasDerivAt (fun t ↦ e.value (update r x t)) (d.value r) (r x) := by
  induction h with
  | const c =>
    simp only [value_const]
    exact hasDerivAt_const (r x) c
  | var y =>
    rw [value_const]
    by_cases hy : y = x
    · subst hy
      rw [if_pos (beq_self_eq_true y)]
      exact hasDerivAt_var
    · have hbeq : ¬(y == x) = true := fun h ↦ hy (eq_of_beq h)
      rw [if_neg hbeq]
      refine hasDerivAt_of_dependsOn_eq_false ?_
      rw [dependsOn_var]
      exact Bool.eq_false_iff.2 hbeq
  | @add es ds length_eq _ ih =>
    obtain ⟨-, hes⟩ := everywhere_add_iff.1 hr
    simp only [value_real_add]
    exact hasDerivAt_list_sum (List.forall₂_iff_zip.2
      ⟨length_eq, fun h ↦ ih _ _ h (hes _ (List.of_mem_zip h).1)⟩)
  | sub _ _ ihu ihv =>
    obtain ⟨-, hu, hv⟩ := everywhere_sub_iff.1 hr
    simp only [value_sub]
    exact (ihu hu).sub (ihv hv)
  | @mul es ds length_eq _ ih =>
    obtain ⟨-, hes⟩ := everywhere_mul_iff.1 hr
    simp only [value_real_mul, value_real_add]
    exact hasDerivAt_prod (List.forall₂_iff_zip.2
      ⟨length_eq, fun h ↦ ih _ _ h (hes _ (List.of_mem_zip h).1)⟩)
  | powSelf =>
    obtain ⟨hnode, -, -⟩ := everywhere_pow_iff.1 hr
    have hpos := (regularNode_pow_of_isConst_eq_false rfl).1 hnode
    refine (hasDerivAt_pow hasDerivAt_var hasDerivAt_var hpos).congr_deriv ?_
    simp only [value_real_mul_pair, value_real_add_pair, value_real_pow, value_real_ln, value_const]
    rw [mul_inv_cancel₀ hpos.ne']
    ring
  | @powSame u v du _ hdep _ hsame _ ih =>
    obtain ⟨hnode, hu, -⟩ := everywhere_pow_iff.1 hr
    have hpos := (regularNode_pow_of_isConst_eq_false (isConst_eq_false_of_dependsOn hdep)).1 hnode
    -- over the reals equal operands are the same, so this is the general rule for `u ^ u`
    obtain rfl : u = v := eq_of_beq hsame
    refine (hasDerivAt_pow (ih hu) (ih hu) hpos).congr_deriv ?_
    simp only [value_real_mul_triple, value_real_add_pair, value_real_pow, value_real_ln,
      value_const]
    rw [mul_inv_cancel₀ hpos.ne']
    ring
  | @powBoth u v du dv _ hdep _ _ _ ihu ihv =>
    obtain ⟨hnode, hu, hv⟩ := everywhere_pow_iff.1 hr
    have hpos := (regularNode_pow_of_isConst_eq_false (isConst_eq_false_of_dependsOn hdep)).1 hnode
    refine (hasDerivAt_pow (ihu hu) (ihv hv) hpos).congr_deriv ?_
    simp only [value_real_mul_pair, value_real_mul_triple, value_real_add_pair, value_real_pow,
      value_real_ln, value_const, Real.rpow_neg_one]
    ring
  | @powZero u c _ hc =>
    have hc0 : c = 0 := eq_of_beq hc
    simp only [value_real_pow, value_const, hc0, Real.rpow_zero]
    exact hasDerivAt_const (r x) 1
  | @powConst u du c _ hc _ ih =>
    -- the base may be negative, or zero below a positive exponent
    obtain ⟨hnode, hu, -⟩ := everywhere_pow_iff.1 hr
    have hc0 : c ≠ 0 := by simpa using hc
    have hbase := ne_zero_or_one_le_of_regularNode hc0 hnode
    refine (hasDerivAt_pow_const (ih hu) hbase).congr_deriv ?_
    simp only [value_real_mul_triple, value_real_pow, value_const]
    ring
  | @powBase u v du _ hfree hconst _ ih =>
    obtain ⟨hnode, hu, -⟩ := everywhere_pow_iff.1 hr
    have hpos := (regularNode_pow_of_isConst_eq_false hconst).1 hnode
    -- the exponent counts as a constant, so its part of the general rule is zero
    have hv := hasDerivAt_of_dependsOn_eq_false (r := r) hfree
    refine (hasDerivAt_pow (ih hu) hv hpos).congr_deriv ?_
    simp only [value_real_mul_triple, value_real_add_pair, value_real_pow, value_const]
    rw [← sub_eq_add_neg, Real.rpow_sub_one hpos.ne']
    ring
  | @powTrivial u v _ hdep hvalue =>
    obtain ⟨hnode, -, -⟩ := everywhere_pow_iff.1 hr
    have hpos := (regularNode_pow_of_isConst_eq_false (isConst_eq_false_of_dependsOn hdep)).1 hnode
    -- a base of zero is not regular here, so the base is one
    rw [Bool.or_eq_true] at hvalue
    rcases hvalue with hzero | hone
    · exact absurd (value_of_isValue r hzero) hpos.ne'
    · simp only [value_real_pow, value_of_isValue _ hone, Real.one_rpow, value_const]
      exact hasDerivAt_const (r x) 1
  | @powExponent u v dv hfree hdep _ _ ih =>
    obtain ⟨hnode, -, hv⟩ := everywhere_pow_iff.1 hr
    have hpos := (regularNode_pow_of_isConst_eq_false (isConst_eq_false_of_dependsOn hdep)).1 hnode
    -- the base counts as a constant, so its part of the general rule is zero
    have hu := hasDerivAt_of_dependsOn_eq_false (r := r) hfree
    refine (hasDerivAt_pow hu (ih hv) hpos).congr_deriv ?_
    simp only [value_real_mul_triple, value_real_pow, value_real_ln]
    ring
  | @powFree u v hu hv =>
    rw [value_const]
    refine hasDerivAt_of_dependsOn_eq_false ?_
    simp [pow, hu, hv]
  | lnVar =>
    obtain ⟨hnode, -⟩ := everywhere_apply_iff.1 hr
    refine (hasDerivAt_ln hasDerivAt_var hnode).congr_deriv ?_
    rw [value_real_pow, value_const, Real.rpow_neg_one, mul_one]
  | @ln u du _ _ ih =>
    obtain ⟨hnode, hu⟩ := everywhere_apply_iff.1 hr
    refine (hasDerivAt_ln (ih hu) hnode).congr_deriv ?_
    rw [value_real_mul_pair, value_real_pow, value_const, Real.rpow_neg_one]
  | @sin u du _ ih =>
    obtain ⟨-, hu⟩ := everywhere_apply_iff.1 hr
    have hsin := (ih hu).sin
    rw [Function.update_eq_self] at hsin
    simpa only [value_real_sin, value_real_mul_pair, value_real_cos] using hsin
  | @cos u du _ ih =>
    obtain ⟨-, hu⟩ := everywhere_apply_iff.1 hr
    have hcos := (ih hu).cos
    rw [Function.update_eq_self] at hcos
    simp only [value_real_cos, value_real_mul_triple, value_real_sin, value_const]
    refine hcos.congr_deriv ?_
    ring

/-- **The symbolic derivative is the true derivative.** At a regular point every well-formed tree
has a derivative tree, and the value of that tree is the derivative of the value of the first one,
as a function of the variable. -/
theorem hasDerivAt_evaluate {e : Expr ℝ} (he : e.WellFormed 1) (hr : e.Regular r) (x : String) :
    ∃ d f a, e.derivative x = .ok d ∧ (∀ t, e.evaluate (update r x t) = .ok (f t)) ∧
      d.evaluate r = .ok a ∧ HasDerivAt f a (r x) := by
  obtain ⟨d, hd⟩ := he.exists_derivative_eq_ok x
  have hderives := derivative_eq_ok_iff.1 hd
  have hwf : d.WellFormed 1 := he.derives (Nat.le_succ 1) hderives
  refine ⟨d, fun t ↦ e.value (update r x t), d.value r, hd, ?_, ?_, hderives.hasDerivAt hr⟩
  · exact fun t ↦ he.evaluable.evaluate_eq
  · exact hwf.evaluable.evaluate_eq

/-- A variable to the power of itself, and a negative number to a negative power. -/
theorem hasDerivAt_evaluate_of_powers :
    let e : Expr ℝ :=
      add [pow (.var "x") (.var "x"), pow (sub (.var "y") (.var "x")) (.const (-3))]
    let r : String → ℝ := update (fun _ ↦ 1) "x" 2
    e.WellFormed 1 ∧ e.Regular r ∧
      ∃ d f a, e.derivative "x" = .ok d ∧ (∀ t, e.evaluate (update r "x" t) = .ok (f t)) ∧
        d.evaluate r = .ok a ∧ HasDerivAt f a (r "x") := by
  intro e r
  have he : e.WellFormed 1 := by decide
  have hr : e.Regular r := by
    have hx : r "x" = 2 := Function.update_self ..
    have hy : r "y" = 1 := Function.update_of_ne (by decide) ..
    have hself : RegularNode r .pow [.var "x", .var "x"] := .inl (by simp [hx])
    have hnegative : RegularNode r .pow [sub (.var "y") (.var "x"), .const (-3)] :=
      .inr ⟨-3, by norm_num, fun _ ↦ by norm_num [hx, hy]⟩
    have hsum : RegularNode r .add
        [pow (.var "x") (.var "x"), pow (sub (.var "y") (.var "x")) (.const (-3))] := trivial
    have hsub : RegularNode r .sub [.var "y", .var "x"] := trivial
    simp [e, Regular, hself, hnegative, hsum, hsub]
  exact ⟨he, hr, hasDerivAt_evaluate he hr "x"⟩

end Expr

end SymbolicDerivatives
