import SymbolicDerivatives.Proofs.Derivative.Plan
import SymbolicDerivatives.Proofs.Real.Derivative

/-!
# Plans compute iterated partial derivatives

`HasIteratedPartialAt xs f a r` says that the iterated partial derivative of `f` along the list `xs`
exists at `r` and is `a`. It speaks of functions only. Each further derivative is taken of a
function that is known near `r` and not just at `r`, so the definition asks for derivatives at all
points near `r`, and a plan needs that regular points form an open set.

A plan in another order goes through other trees, and the rules for powers may apply differently in
them, so the trees at the end differ. Their values agree because the mixed second derivatives of a
function that is twice continuously differentiable are equal: `value_differentiate_comm` says so of
two neighbouring steps, near every regular point, and a permutation is a sequence of such swaps.
-/

open Filter Topology
open Function (update)

namespace SymbolicDerivatives

/-! ## Iterated partial derivatives -/

/-- The iterated partial derivative of `f` along a list of variables exists at `r` and is `a`: near
`r` the function has a partial derivative for the first variable, and the rest of the list is
carried out on that derivative. -/
def HasIteratedPartialAt : List String → ((String → ℝ) → ℝ) → ℝ → (String → ℝ) → Prop
  | [], f, a, r => f r = a
  | x :: xs, f, a, r =>
    ∃ g : (String → ℝ) → ℝ, (∀ᶠ p in 𝓝 r, HasDerivAt (fun t ↦ f (update p x t)) (g p) (p x)) ∧
      HasIteratedPartialAt xs g a r

theorem tendsto_update (p : String → ℝ) (x : String) :
    Tendsto (fun t ↦ update p x t) (𝓝 (p x)) (𝓝 p) := by
  have h : ContinuousAt (fun t ↦ update p x t) (p x) :=
    (continuous_const.update x continuous_id).continuousAt
  rwa [ContinuousAt, Function.update_eq_self] at h

/-- Functions that agree near a point have the same iterated partial derivatives there. -/
theorem HasIteratedPartialAt.unique {xs : List String} {f g : (String → ℝ) → ℝ} {a b : ℝ}
    {r : String → ℝ} (hfg : f =ᶠ[𝓝 r] g) (hf : HasIteratedPartialAt xs f a r)
    (hg : HasIteratedPartialAt xs g b r) : a = b := by
  induction xs generalizing f g with
  | nil =>
    have hvalue : f r = g r := hfg.eq_of_nhds
    rw [HasIteratedPartialAt] at hf hg
    rw [← hf, ← hg, hvalue]
  | cons x xs ih =>
    obtain ⟨f', hf', hrestf⟩ := hf
    obtain ⟨g', hg', hrestg⟩ := hg
    refine ih ?_ hrestf hrestg
    filter_upwards [hf', hg', eventually_eventually_nhds.2 hfg] with p hp hq hnear
    -- the two agree near `p`, so also on the line through `p`
    have hline : (fun t ↦ g (update p x t)) =ᶠ[𝓝 (p x)] fun t ↦ f (update p x t) := by
      filter_upwards [(tendsto_update p x).eventually hnear] with t ht
      exact ht.symm
    exact hp.unique (hq.congr_of_eventuallyEq hline.symm)

/-! ## Mixed second derivatives -/

section Mixed

variable {E : Type} [NormedAddCommGroup E] [NormedSpace ℝ E] {F : E → ℝ} {z : E}

theorem hasDerivAt_line (q v : E) : HasDerivAt (fun s : ℝ ↦ q + s • v) v 0 := by
  simpa using ((hasDerivAt_id' (0 : ℝ)).smul_const v).const_add q

/-- The derivative along `w` of the derivative along `v`. -/
theorem eq_second_fderiv (hF : ContDiffAt ℝ 2 F z) {G : E → ℝ} {v w : E} {a : ℝ}
    (hG : ∀ᶠ q in 𝓝 z, HasDerivAt (fun s : ℝ ↦ F (q + s • v)) (G q) 0)
    (ha : HasDerivAt (fun t : ℝ ↦ G (z + t • w)) a 0) : a = fderiv ℝ (fderiv ℝ F) z w v := by
  have hfirst : ∀ᶠ q in 𝓝 z, G q = fderiv ℝ F q v := by
    filter_upwards [hG, hF.eventually (by simp)] with q hq hsmooth
    have hF' : HasFDerivAt F (fderiv ℝ F q) (q + (0 : ℝ) • v) := by
      rw [zero_smul, add_zero]
      exact (hsmooth.differentiableAt (by simp)).hasFDerivAt
    exact hq.unique (hF'.comp_hasDerivAt 0 (hasDerivAt_line q v))
  have hsecond : HasFDerivAt (fderiv ℝ F) (fderiv ℝ (fderiv ℝ F) z) z := by
    have hdiff : ContDiffAt ℝ 1 (fderiv ℝ F) z := hF.fderiv_right (by norm_num)
    exact (hdiff.differentiableAt (by simp)).hasFDerivAt
  have hflip : HasFDerivAt (fun q ↦ fderiv ℝ F q v) ((fderiv ℝ (fderiv ℝ F) z).flip v)
      (z + (0 : ℝ) • w) := by
    rw [zero_smul, add_zero]
    have hconst : HasFDerivAt (fun _ : E ↦ v) (0 : E →L[ℝ] E) z := hasFDerivAt_const v z
    simpa using hsecond.clm_apply hconst
  have happly : HasDerivAt (fun t : ℝ ↦ fderiv ℝ F (z + t • w) v)
      (fderiv ℝ (fderiv ℝ F) z w v) 0 := by
    have hcomp := hflip.comp_hasDerivAt (0 : ℝ) (hasDerivAt_line z w)
    exact hcomp
  have hnear : (fun t : ℝ ↦ G (z + t • w)) =ᶠ[𝓝 0] fun t ↦ fderiv ℝ F (z + t • w) v := by
    have hline := (hasDerivAt_line z w).continuousAt
    rw [ContinuousAt, zero_smul, add_zero] at hline
    exact hline.eventually hfirst
  exact ha.unique (happly.congr_of_eventuallyEq hnear)

/-- The two mixed second derivatives of a twice differentiable function are equal. -/
theorem mixed_eq (hF : ContDiffAt ℝ 2 F z) {G H : E → ℝ} {v w : E} {a b : ℝ}
    (hG : ∀ᶠ q in 𝓝 z, HasDerivAt (fun s : ℝ ↦ F (q + s • v)) (G q) 0)
    (hH : ∀ᶠ q in 𝓝 z, HasDerivAt (fun t : ℝ ↦ F (q + t • w)) (H q) 0)
    (ha : HasDerivAt (fun t : ℝ ↦ G (z + t • w)) a 0)
    (hb : HasDerivAt (fun s : ℝ ↦ H (z + s • v)) b 0) : a = b := by
  rw [eq_second_fderiv hF hG ha, eq_second_fderiv hF hH hb]
  exact (hF.isSymmSndFDerivAt (by simp)).eq w v

end Mixed

/-! ## Moving in two directions -/

theorem update_add (p : String → ℝ) (x : String) (s : ℝ) :
    update p x (p x + s) = p + s • Pi.single x 1 := by
  funext y
  by_cases hy : y = x
  · subst hy
    simp
  · simp [hy]

/-- The point that is reached from `r` by moving in the directions of `x` and `y`. -/
def plane (r : String → ℝ) (x y : String) (q : ℝ × ℝ) : String → ℝ :=
  r + q.1 • Pi.single x 1 + q.2 • Pi.single y 1

section Plane

variable (r : String → ℝ) (x y : String)

theorem plane_zero : plane r x y 0 = r := by
  simp [plane]

theorem plane_add_left (q : ℝ × ℝ) (s : ℝ) :
    plane r x y (q + s • (1, 0)) = plane r x y q + s • Pi.single x 1 := by
  simp only [plane, Prod.fst_add, Prod.snd_add, Prod.smul_mk, smul_eq_mul, mul_one, mul_zero,
    add_zero, add_smul]
  abel

theorem plane_add_right (q : ℝ × ℝ) (t : ℝ) :
    plane r x y (q + t • (0, 1)) = plane r x y q + t • Pi.single y 1 := by
  simp only [plane, Prod.fst_add, Prod.snd_add, Prod.smul_mk, smul_eq_mul, mul_one, mul_zero,
    add_zero, add_smul]
  abel

theorem contDiffAt_plane (z : String) : ContDiffAt ℝ 2 (fun q ↦ plane r x y q z) 0 := by
  simp only [plane, Pi.add_apply, Pi.smul_apply, smul_eq_mul]
  fun_prop

theorem tendsto_plane : Tendsto (plane r x y) (𝓝 0) (𝓝 r) := by
  have h : ContinuousAt (plane r x y) 0 :=
    continuousAt_pi.2 fun z ↦ (contDiffAt_plane r x y z).continuousAt
  rwa [ContinuousAt, plane_zero] at h

end Plane

namespace Expr

variable {r : String → ℝ} {x y : String}

/-! ## One step of a plan -/

theorem Regular.differentiate {e e' : Expr ℝ} (hr : e.Regular r) (h : e.differentiate x = .ok e') :
    e'.Regular r := by
  obtain ⟨d, hderives, hsimplify⟩ := differentiate_eq_ok_iff.1 h
  exact (hr.derives hderives).simplify hsimplify

theorem hasDerivAt_differentiate {e e' : Expr ℝ} (hr : e.Regular r)
    (h : e.differentiate x = .ok e') :
    HasDerivAt (fun t ↦ e.value (update r x t)) (e'.value r) (r x) := by
  obtain ⟨d, hderives, hsimplify⟩ := differentiate_eq_ok_iff.1 h
  rw [value_simplify r hsimplify]
  exact hderives.hasDerivAt hr

/-- A step gives the derivative along a line in the direction of the variable. -/
theorem hasDerivAt_differentiate_line {e e' : Expr ℝ} (hr : e.Regular r)
    (h : e.differentiate x = .ok e') :
    HasDerivAt (fun s : ℝ ↦ e.value (r + s • Pi.single x 1)) (e'.value r) 0 := by
  have hpartial : HasDerivAt (fun t ↦ e.value (update r x t)) (e'.value r) (r x + 0) := by
    rw [add_zero]
    exact hasDerivAt_differentiate hr h
  simpa only [update_add] using hpartial.comp_const_add (r x) 0

/-- Two steps in either order give trees with the same value. -/
theorem value_differentiate_comm {e ex ey exy eyx : Expr ℝ} (he : e.WellFormed 1)
    (hr : e.Regular r) (hex : e.differentiate x = .ok ex) (hexy : ex.differentiate y = .ok exy)
    (hey : e.differentiate y = .ok ey) (heyx : ey.differentiate x = .ok eyx) :
    exy.value r = eyx.value r := by
  have hsmooth : ContDiffAt ℝ 2 (fun q ↦ e.value (plane r x y q)) 0 :=
    (keptByOperations_contDiffAt 0).value he (contDiffAt_plane r x y) (by rwa [plane_zero])
  have hnear : ∀ᶠ q in 𝓝 (0 : ℝ × ℝ), e.Regular (plane r x y q) :=
    (tendsto_plane r x y).eventually (hr.eventually he)
  have hleft : ∀ᶠ q in 𝓝 (0 : ℝ × ℝ),
      HasDerivAt (fun s : ℝ ↦ e.value (plane r x y (q + s • (1, 0))))
        (ex.value (plane r x y q)) 0 := by
    filter_upwards [hnear] with q hq
    simp only [plane_add_left]
    exact hasDerivAt_differentiate_line hq hex
  have hright : ∀ᶠ q in 𝓝 (0 : ℝ × ℝ),
      HasDerivAt (fun t : ℝ ↦ e.value (plane r x y (q + t • (0, 1))))
        (ey.value (plane r x y q)) 0 := by
    filter_upwards [hnear] with q hq
    simp only [plane_add_right]
    exact hasDerivAt_differentiate_line hq hey
  have hxy : HasDerivAt (fun t : ℝ ↦ ex.value (plane r x y (0 + t • (0, 1)))) (exy.value r) 0 := by
    simp only [plane_add_right, plane_zero]
    exact hasDerivAt_differentiate_line (hr.differentiate hex) hexy
  have hyx : HasDerivAt (fun s : ℝ ↦ ey.value (plane r x y (0 + s • (1, 0)))) (eyx.value r) 0 := by
    simp only [plane_add_left, plane_zero]
    exact hasDerivAt_differentiate_line (hr.differentiate hey) heyx
  exact mixed_eq hsmooth hleft hright hxy hyx

/-! ## Whole plans -/

theorem hasIteratedPartialAt_differentiateAll {e d : Expr ℝ} {xs : List String}
    (he : e.WellFormed 1) (hr : e.Regular r) (h : e.differentiateAll xs = .ok d) :
    HasIteratedPartialAt xs (fun p ↦ e.value p) (d.value r) r := by
  induction xs generalizing e with
  | nil =>
    rw [HasIteratedPartialAt, Except.ok.inj h]
  | cons x xs ih =>
    obtain ⟨e', he', hrest⟩ := differentiateAll_cons_eq_ok_iff.1 h
    refine ⟨fun p ↦ e'.value p, ?_, ?_⟩
    · filter_upwards [hr.eventually he] with p hp
      exact hasDerivAt_differentiate hp he'
    · exact ih (he.differentiate (Nat.le_succ 1) he') (hr.differentiate he') hrest

/-- The order of the variables does not matter for the value. -/
theorem value_differentiateAll_perm {e d d' : Expr ℝ} {xs ys : List String} (hperm : xs.Perm ys)
    (he : e.WellFormed 1) (hr : e.Regular r) (hd : e.differentiateAll xs = .ok d)
    (hd' : e.differentiateAll ys = .ok d') : d.value r = d'.value r := by
  induction hperm generalizing e d d' with
  | nil => rw [Except.ok.inj (hd.symm.trans hd')]
  | cons x _ ih =>
    obtain ⟨e', he', hrest⟩ := differentiateAll_cons_eq_ok_iff.1 hd
    obtain ⟨e'', he'', hrest'⟩ := differentiateAll_cons_eq_ok_iff.1 hd'
    obtain rfl : e' = e'' := Except.ok.inj (he'.symm.trans he'')
    exact ih (he.differentiate (Nat.le_succ 1) he') (hr.differentiate he') hrest hrest'
  | swap x y zs =>
    obtain ⟨ey, hey, hrest⟩ := differentiateAll_cons_eq_ok_iff.1 hd
    obtain ⟨eyx, heyx, hrest⟩ := differentiateAll_cons_eq_ok_iff.1 hrest
    obtain ⟨ex, hex, hrest'⟩ := differentiateAll_cons_eq_ok_iff.1 hd'
    obtain ⟨exy, hexy, hrest'⟩ := differentiateAll_cons_eq_ok_iff.1 hrest'
    have hwf : ∀ {a b : Expr ℝ} {z : String}, a.WellFormed 1 → a.differentiate z = .ok b →
        b.WellFormed 1 := fun ha hab ↦ ha.differentiate (Nat.le_succ 1) hab
    -- the two trees differ, but they have the same value near `r`, and the rest of the plan sees
    -- no more of them than that
    have hnear : (fun p ↦ eyx.value p) =ᶠ[𝓝 r] fun p ↦ exy.value p := by
      filter_upwards [hr.eventually he] with p hp
      exact (value_differentiate_comm he hp hex hexy hey heyx).symm
    have hyx := hasIteratedPartialAt_differentiateAll (hwf (hwf he hey) heyx)
      ((hr.differentiate hey).differentiate heyx) hrest
    have hxy := hasIteratedPartialAt_differentiateAll (hwf (hwf he hex) hexy)
      ((hr.differentiate hex).differentiate hexy) hrest'
    exact hyx.unique hnear hxy
  | @trans xs ys zs _ _ ih₁ ih₂ =>
    obtain ⟨d'', hd''⟩ := he.exists_differentiateAll_eq_ok (Nat.le_succ 1) ys
    exact (ih₁ he hr hd hd'').trans (ih₂ he hr hd'' hd')

/-- **A plan computes the iterated partial derivative, and its order does not matter.** On a
well-formed tree every plan succeeds. At a regular point the value of the tree at its end is the
iterated partial derivative of the value of the tree at its start, and every plan of the same
variables in another order ends with the same value. -/
theorem hasIteratedPartialAt_evaluate {e : Expr ℝ} (he : e.WellFormed 1) (hr : e.Regular r)
    (xs : List String) :
    ∃ f d a, (∀ p, e.evaluate p = .ok (f p)) ∧ e.differentiateAll xs = .ok d ∧
      d.evaluate r = .ok a ∧ HasIteratedPartialAt xs f a r ∧
      ∀ ys, ys.Perm xs → ∃ d', e.differentiateAll ys = .ok d' ∧ d'.evaluate r = .ok a := by
  have hplan : ∀ ys, ∃ d, e.differentiateAll ys = .ok d ∧ d.evaluate r = .ok (d.value r) := by
    intro ys
    obtain ⟨d, hd⟩ := he.exists_differentiateAll_eq_ok (Nat.le_succ 1) ys
    have hwf : d.WellFormed 1 := he.differentiateAll (Nat.le_succ 1) hd
    exact ⟨d, hd, hwf.evaluable.evaluate_eq⟩
  obtain ⟨d, hd, hvalue⟩ := hplan xs
  refine ⟨fun p ↦ e.value p, d, d.value r, fun p ↦ he.evaluable.evaluate_eq, hd, hvalue, ?_, ?_⟩
  · exact hasIteratedPartialAt_differentiateAll he hr hd
  · intro ys hperm
    obtain ⟨d', hd', hvalue'⟩ := hplan ys
    refine ⟨d', hd', ?_⟩
    rw [hvalue', value_differentiateAll_perm hperm he hr hd' hd]

/-- A power with variables in both operands, differentiated twice for one of them. -/
theorem hasIteratedPartialAt_evaluate_of_power :
    let e : Expr ℝ := mul [pow (.var "x") (.var "y"), apply .ln (.var "x")]
    let r : String → ℝ := fun _ ↦ 2
    e.WellFormed 1 ∧ e.Regular r ∧
      ∃ f d a, (∀ p, e.evaluate p = .ok (f p)) ∧ e.differentiateAll ["x", "y", "x"] = .ok d ∧
        d.evaluate r = .ok a ∧ HasIteratedPartialAt ["x", "y", "x"] f a r ∧
        ∀ ys, ys.Perm ["x", "y", "x"] →
          ∃ d', e.differentiateAll ys = .ok d' ∧ d'.evaluate r = .ok a := by
  intro e r
  have he : e.WellFormed 1 := by decide
  have hr : e.Regular r := by
    have hpow : RegularNode r .pow [.var "x", .var "y"] := .inl (by simp [r])
    have hln : RegularNode r (.fn .ln) [.var "x"] := by simp [RegularNode, r]
    have hmul : RegularNode r .mul [pow (.var "x") (.var "y"), apply .ln (.var "x")] := trivial
    simp [e, Regular, hpow, hln, hmul]
  exact ⟨he, hr, hasIteratedPartialAt_evaluate he hr ["x", "y", "x"]⟩

end Expr

end SymbolicDerivatives
