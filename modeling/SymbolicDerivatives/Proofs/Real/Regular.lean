import SymbolicDerivatives.Proofs.Derivative.Rules
import SymbolicDerivatives.Proofs.Simplify.Value
import Mathlib

/-!
# Trees over the reals

Read over the reals, a tree denotes a function of its variables. Logarithms and powers have
derivatives in part of their domain only, and `Expr.Regular r` says of a tree that all its
logarithms and powers are in that part at `r`: arguments of logarithms are positive, and a power has
a positive base or an integer constant as its exponent, with a base other than zero if that integer
is negative.

The rules of differentiation and simplification keep this part of the domain. At a regular point the
value is as good a function as the operations are: `Regular.value_of_kept` proves that of any
property of functions that the operations keep, so continuity and differentiability are two
instances. Continuity of the operands makes the regular points an open set.
-/

open Filter Topology

namespace SymbolicDerivatives

/-! ## The real operations -/

/-- The real power, logarithm, sine and cosine. With an integer as its exponent the real power is
the integer power, and with exponent zero it is one. -/
noncomputable instance : Elementary ℝ where
  pow a b := a ^ b
  ln := Real.log
  sin := Real.sin
  cos := Real.cos

instance : LawfulElementary ℝ where
  pow_zero := Real.rpow_zero
  pow_one := Real.rpow_one
  one_pow := Real.one_rpow

namespace Expr

section Values

variable (r : String → ℝ)

theorem value_real_add (es : List (Expr ℝ)) : (add es).value r = (es.map (value r)).sum := by
  rw [value_add, sum_eq_list_sum]

theorem value_real_mul (es : List (Expr ℝ)) : (mul es).value r = (es.map (value r)).prod := by
  rw [value_mul, product_eq_list_prod]

theorem value_real_add_pair (u v : Expr ℝ) : (add [u, v]).value r = u.value r + v.value r := by
  rw [value_real_add, List.map_cons, List.map_singleton, List.sum_pair]

theorem value_real_mul_pair (u v : Expr ℝ) : (mul [u, v]).value r = u.value r * v.value r := by
  rw [value_real_mul, List.map_cons, List.map_singleton, List.prod_pair]

theorem value_real_mul_triple (u v w : Expr ℝ) :
    (mul [u, v, w]).value r = u.value r * (v.value r * w.value r) := by
  rw [value_real_mul, List.map_cons, List.map_cons, List.map_singleton, List.prod_cons,
    List.prod_pair]

theorem value_real_pow (u v : Expr ℝ) : (pow u v).value r = u.value r ^ v.value r :=
  value_pow r u v

theorem value_real_ln (u : Expr ℝ) : (apply .ln u).value r = Real.log (u.value r) :=
  value_apply r .ln u

theorem value_real_sin (u : Expr ℝ) : (apply .sin u).value r = Real.sin (u.value r) :=
  value_apply r .sin u

theorem value_real_cos (u : Expr ℝ) : (apply .cos u).value r = Real.cos (u.value r) :=
  value_apply r .cos u

end Values

/-! ## Regular points -/

/-- The logarithm of a positive number; a power of a positive number, or an integer power that is
defined; and every other operation. -/
def RegularNode (r : String → ℝ) : Operator → List (Expr ℝ) → Prop
  | .fn .ln, [u] => 0 < u.value r
  | .pow, [u, v] => 0 < u.value r ∨ ∃ k : ℤ, v = .const (k : ℝ) ∧ (k < 0 → u.value r ≠ 0)
  | _, _ => True

/-- At `r`, all logarithms and powers of the tree are where they have derivatives. -/
def Regular (r : String → ℝ) (e : Expr ℝ) : Prop := e.Everywhere (RegularNode r)

theorem regularNode_pow_of_isConst_eq_false {r : String → ℝ} {u v : Expr ℝ}
    (hv : v.isConst = false) : RegularNode r .pow [u, v] ↔ 0 < u.value r := by
  refine ⟨?_, Or.inl⟩
  rintro (hu | ⟨k, rfl, -⟩)
  · exact hu
  · cases hv

/-- The rules of differentiation make regular nodes from regular ones. -/
theorem keptByRules_regularNode (r : String → ℝ) : KeptByRules (RegularNode r) where
  pair {o} ho u v es := by
    rcases Operator.isNary_iff.1 ho with rfl | rfl <;> trivial
  run {o p es fs} ho hp hlen h := by
    rcases Operator.isNary_iff.1 hp with rfl | rfl <;> trivial
  sub u v := trivial
  sin u := trivial
  cos u := trivial
  inverse h := .inl h
  ln hv h := (regularNode_pow_of_isConst_eq_false hv).1 h
  pow hv h w := .inl ((regularNode_pow_of_isConst_eq_false hv).1 h)
  lower {u c} hc h := by
    rcases h with hu | ⟨k, hk, hu⟩
    · exact .inl hu
    · have hck : c = (k : ℝ) := Expr.const.inj hk
      have hk0 : k ≠ 0 := by
        rintro rfl
        rw [hck, Int.cast_zero, beq_self_eq_true] at hc
        cases hc
      -- the exponent zero has a rule of its own, so a negative exponent comes from a negative one
      refine .inr ⟨k - 1, by rw [hck, Int.cast_sub, Int.cast_one], fun hneg ↦ hu ?_⟩
      omega

theorem Regular.derives {r : String → ℝ} {x : String} {e d : Expr ℝ} (he : e.Regular r)
    (h : Derives x e d) : d.Regular r :=
  h.everywhere (keptByRules_regularNode r) he

theorem Regular.simplify {r : String → ℝ} {e e' : Expr ℝ} (he : e.Regular r)
    (h : e.simplify = .ok e') : e'.Regular r := by
  refine Everywhere.simplify ?_ ?_ he h
  · intro o run ho _
    rcases Operator.isNary_iff.1 ho with rfl | rfl <;> trivial
  · intro o es es' hnode hes'
    have hall := mapM_eq_ok_iff.1 hes'
    unfold RegularNode
    split
    · obtain _ | ⟨hu, ⟨⟩⟩ := hall
      rw [value_simplify r hu]
      exact hnode
    · obtain _ | ⟨hu, _ | ⟨hv, ⟨⟩⟩⟩ := hall
      rw [value_simplify r hu]
      rcases hnode with hpos | ⟨k, rfl, hne⟩
      · exact .inl hpos
      · rw [simplify_const] at hv
        exact .inr ⟨k, (Except.ok.inj hv).symm, hne⟩
    · trivial

/-! ## What the operations keep -/

/-- The property `P` of real functions is kept by the operations, where the arguments of logarithms
and the bases of powers are not zero at `z`. -/
structure KeptByOperations {E : Type} (z : E) (P : (E → ℝ) → Prop) : Prop where
  const (c : ℝ) : P fun _ ↦ c
  add {f g : E → ℝ} : P f → P g → P fun q ↦ f q + g q
  sub {f g : E → ℝ} : P f → P g → P fun q ↦ f q - g q
  mul {f g : E → ℝ} : P f → P g → P fun q ↦ f q * g q
  rpow {f g : E → ℝ} : P f → P g → f z ≠ 0 → P fun q ↦ f q ^ g q
  log {f : E → ℝ} : P f → f z ≠ 0 → P fun q ↦ Real.log (f q)
  sin {f : E → ℝ} : P f → P fun q ↦ Real.sin (f q)
  cos {f : E → ℝ} : P f → P fun q ↦ Real.cos (f q)

theorem keptByOperations_continuousAt {E : Type} [TopologicalSpace E] (z : E) :
    KeptByOperations z fun f ↦ ContinuousAt f z where
  const _ := continuousAt_const
  add hf hg := hf.add hg
  sub hf hg := hf.sub hg
  mul hf hg := hf.mul hg
  rpow hf hg hne := hf.rpow hg (.inl hne)
  log hf hne := hf.log hne
  sin hf := Real.continuous_sin.continuousAt.comp hf
  cos hf := Real.continuous_cos.continuousAt.comp hf

theorem keptByOperations_contDiffAt {E : Type} [NormedAddCommGroup E] [NormedSpace ℝ E] (z : E) :
    KeptByOperations z fun f ↦ ContDiffAt ℝ 2 f z where
  const _ := contDiffAt_const
  add hf hg := hf.add hg
  sub hf hg := hf.sub hg
  mul hf hg := hf.mul hg
  rpow hf hg hne := hf.rpow hg hne
  log hf hne := hf.log hne
  sin hf := hf.sin
  cos hf := hf.cos

namespace KeptByOperations

variable {E : Type} {z : E} {P : (E → ℝ) → Prop} (hP : KeptByOperations z P)

include hP

theorem npow {f : E → ℝ} (hf : P f) (n : ℕ) : P fun q ↦ f q ^ n := by
  induction n with
  | zero => simpa only [pow_zero] using hP.const 1
  | succ n ih => simpa only [pow_succ] using hP.mul ih hf

theorem list_sum {ι : Type} {fs : List ι} {f : ι → E → ℝ} (h : ∀ i ∈ fs, P (f i)) :
    P fun q ↦ (fs.map fun i ↦ f i q).sum := by
  induction fs with
  | nil => exact hP.const 0
  | cons i fs ih =>
    simp only [List.map_cons, List.sum_cons]
    exact hP.add (h i List.mem_cons_self) (ih fun j hj ↦ h j (List.mem_cons_of_mem i hj))

theorem list_prod {ι : Type} {fs : List ι} {f : ι → E → ℝ} (h : ∀ i ∈ fs, P (f i)) :
    P fun q ↦ (fs.map fun i ↦ f i q).prod := by
  induction fs with
  | nil => exact hP.const 1
  | cons i fs ih =>
    simp only [List.map_cons, List.prod_cons]
    exact hP.mul (h i List.mem_cons_self) (ih fun j hj ↦ h j (List.mem_cons_of_mem i hj))

/-- What the operations keep holds of the value of a tree, where the tree is regular. -/
theorem value {least : Nat} {e : Expr ℝ} (he : e.WellFormed least) {L : E → String → ℝ}
    (hL : ∀ x, P fun q ↦ L q x) (hr : e.Regular (L z)) : P fun q ↦ e.value (L q) := by
  induction he using WellFormed.shapes with
  | const c =>
    simp only [value_const]
    exact hP.const c
  | var x =>
    simp only [value_var]
    exact hL x
  | add es _ _ ih =>
    obtain ⟨-, hes⟩ := everywhere_add_iff.1 hr
    simp only [value_real_add]
    exact hP.list_sum fun e he ↦ ih e he (hes e he)
  | mul es _ _ ih =>
    obtain ⟨-, hes⟩ := everywhere_mul_iff.1 hr
    simp only [value_real_mul]
    exact hP.list_prod fun e he ↦ ih e he (hes e he)
  | sub u v _ _ ihu ihv =>
    obtain ⟨-, hu, hv⟩ := everywhere_sub_iff.1 hr
    simp only [value_sub]
    exact hP.sub (ihu hu) (ihv hv)
  | pow u v _ _ ihu ihv =>
    obtain ⟨hnode, hu, hv⟩ := everywhere_pow_iff.1 hr
    simp only [value_real_pow]
    rcases hnode with hpos | ⟨k, rfl, hne⟩
    · exact hP.rpow (ihu hu) (ihv hv) hpos.ne'
    · by_cases hk : k < 0
      · exact hP.rpow (ihu hu) (ihv hv) (hne hk)
      · -- the base may be zero, so this is a power by repeated multiplication
        obtain ⟨n, rfl⟩ := Int.eq_ofNat_of_zero_le (not_lt.1 hk)
        simp only [value_const, Int.cast_natCast, Real.rpow_natCast]
        exact hP.npow (ihu hu) n
  | apply f u _ ih =>
    obtain ⟨hnode, hu⟩ := everywhere_apply_iff.1 hr
    cases f with
    | ln =>
      have hpos : 0 < u.value (L z) := hnode
      simp only [value_real_ln]
      exact hP.log (ih hu) hpos.ne'
    | sin =>
      simp only [value_real_sin]
      exact hP.sin (ih hu)
    | cos =>
      simp only [value_real_cos]
      exact hP.cos (ih hu)

end KeptByOperations

/-! ## Regular points form an open set -/

theorem Regular.continuousAt_value {least : Nat} {e : Expr ℝ} (he : e.WellFormed least)
    {r : String → ℝ} (hr : e.Regular r) : ContinuousAt (fun p ↦ e.value p) r :=
  (keptByOperations_continuousAt r).value he (fun x ↦ continuousAt_apply x r) hr

theorem eventually_regularNode {r : String → ℝ} {o : Operator} {es : List (Expr ℝ)}
    (hcont : ∀ e ∈ es, ContinuousAt (fun p ↦ e.value p) r) (h : RegularNode r o es) :
    ∀ᶠ p in 𝓝 r, RegularNode p o es := by
  unfold RegularNode at h ⊢
  split at h
  · next u =>
    have hu := hcont u List.mem_cons_self
    exact hu.eventually (lt_mem_nhds h)
  · next u v =>
    have hu := hcont u List.mem_cons_self
    rcases h with hpos | ⟨k, rfl, hne⟩
    · filter_upwards [hu.eventually (lt_mem_nhds hpos)] with p hp
      exact .inl hp
    · by_cases hk : k < 0
      · filter_upwards [hu.eventually_ne (hne hk)] with p hp
        exact .inr ⟨k, rfl, fun _ ↦ hp⟩
      · exact Eventually.of_forall fun p ↦ .inr ⟨k, rfl, fun hneg ↦ absurd hneg hk⟩
  · exact Eventually.of_forall fun _ ↦ trivial

theorem Regular.eventually {least : Nat} {e : Expr ℝ} (he : e.WellFormed least) {r : String → ℝ}
    (hr : e.Regular r) : ∀ᶠ p in 𝓝 r, e.Regular p := by
  induction he with
  | const c => exact Eventually.of_forall fun p ↦ .const c
  | var x => exact Eventually.of_forall fun p ↦ .var x
  | @op o es _ hes ih =>
    obtain ⟨hnode, hbelow⟩ := everywhere_op_iff.1 hr
    have hhere : ∀ᶠ p in 𝓝 r, RegularNode p o es :=
      eventually_regularNode (fun e he ↦ Regular.continuousAt_value (hes e he) (hbelow e he)) hnode
    have hall : ∀ᶠ p in 𝓝 r, ∀ e ∈ es, e.Regular p :=
      (eventually_all_finite es.finite_toSet).2 fun e he ↦ ih e he (hbelow e he)
    filter_upwards [hhere, hall] with p hp hpall
    exact .op hp hpall

end Expr

end SymbolicDerivatives
