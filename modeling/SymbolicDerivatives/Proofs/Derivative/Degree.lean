import SymbolicDerivatives.Proofs.Names
import SymbolicDerivatives.Proofs.Simplify.Value
import Mathlib.Algebra.Field.Rat

/-!
# Degrees

Simplification does not collect like terms, so the derivatives of a polynomial are not written as
polynomials are, and it is not plain to see that they ever end. `HasDegree` gives a tree the degree
that its form says, whether its leading terms cancel or not. No pass raises it, and the derivative
by the variable lowers it (`DegreeLE.drops`): of the terms of the product rule, those for factors of
degree zero vanish when they are simplified, and the others have lost one.

The proofs work with upper bounds. `DegreeLE` has one equivalence for each operation, and
`DegreeLE.shapes` is the induction for a pass. A product is a list of factors whose degrees add up,
so what holds of it goes by `mul` on shorter and permuted lists.
-/

namespace SymbolicDerivatives.Expr

variable {K : Type} [NatCast K]

/-- `HasDegree x e d`: the tree `e` is a polynomial in the variable `x`, of degree `d`. A tree in
which `x` does not occur can be anything, and has degree zero. -/
inductive HasDegree (x : String) : Expr K → ℕ → Prop
  | free {e : Expr K} (h : e.dependsOn x = false) : HasDegree x e 0
  | var : HasDegree x (.var x) 1
  | add {e : Expr K} {es : List (Expr K)} {m n : ℕ} (head : HasDegree x e m)
      (tail : HasDegree x (add es) n) : HasDegree x (add (e :: es)) (max m n)
  | sub {u v : Expr K} {m n : ℕ} (left : HasDegree x u m) (right : HasDegree x v n) :
      HasDegree x (sub u v) (max m n)
  | mul {e : Expr K} {es : List (Expr K)} {m n : ℕ} (head : HasDegree x e m)
      (tail : HasDegree x (mul es) n) : HasDegree x (mul (e :: es)) (m + n)
  | pow {u : Expr K} {m : ℕ} (n : ℕ) (base : HasDegree x u m) :
      HasDegree x (pow u (.const n)) (n * m)

/-- The tree is a polynomial in `x`, of degree at most `d`. -/
def DegreeLE (x : String) (e : Expr K) (d : ℕ) : Prop := ∃ m ≤ d, HasDegree x e m

variable {x : String} {e u v : Expr K} {es : List (Expr K)} {d m n : ℕ}

namespace DegreeLE

theorem mono (h : DegreeLE x e m) (hmn : m ≤ n) : DegreeLE x e n := by
  obtain ⟨k, hk, h⟩ := h
  exact ⟨k, hk.trans hmn, h⟩

theorem free (h : e.dependsOn x = false) : DegreeLE x e d := ⟨0, Nat.zero_le d, .free h⟩

theorem of_isConst (h : e.isConst = true) : DegreeLE x e d := by
  obtain ⟨c, rfl⟩ := isConst_iff.1 h
  exact .free (dependsOn_const x c)

end DegreeLE

theorem degreeLE_add_cons_iff :
    DegreeLE x (add (e :: es)) d ↔ DegreeLE x e d ∧ DegreeLE x (add es) d := by
  constructor
  · rintro ⟨m, hm, h⟩
    cases h with
    | free h =>
      rw [add, dependsOn_op, List.any_cons, Bool.or_eq_false_iff] at h
      exact ⟨.free h.1, .free ((dependsOn_op x .add es).trans h.2)⟩
    | add head tail =>
      exact ⟨⟨_, (le_max_left _ _).trans hm, head⟩, ⟨_, (le_max_right _ _).trans hm, tail⟩⟩
  · rintro ⟨⟨m, hm, head⟩, n, hn, tail⟩
    exact ⟨_, max_le hm hn, .add head tail⟩

theorem degreeLE_add_iff : DegreeLE x (add es) d ↔ ∀ e ∈ es, DegreeLE x e d := by
  induction es with
  | nil => exact ⟨fun _ ↦ List.forall_mem_nil _, fun _ ↦ .free (dependsOn_op x .add [])⟩
  | cons e es ih => rw [degreeLE_add_cons_iff, List.forall_mem_cons, ih]

theorem degreeLE_sub_iff : DegreeLE x (sub u v) d ↔ DegreeLE x u d ∧ DegreeLE x v d := by
  constructor
  · rintro ⟨m, hm, h⟩
    cases h with
    | free h =>
      exact ⟨.free (dependsOn_eq_false_of_mem h (by simp)),
        .free (dependsOn_eq_false_of_mem h (by simp))⟩
    | sub left right =>
      exact ⟨⟨_, (le_max_left _ _).trans hm, left⟩, ⟨_, (le_max_right _ _).trans hm, right⟩⟩
  · rintro ⟨⟨m, hm, left⟩, n, hn, right⟩
    exact ⟨_, max_le hm hn, .sub left right⟩

theorem degreeLE_mul_cons_iff : DegreeLE x (mul (e :: es)) d ↔
    ∃ m n, DegreeLE x e m ∧ DegreeLE x (mul es) n ∧ m + n ≤ d := by
  constructor
  · rintro ⟨m, hm, h⟩
    cases h with
    | free h =>
      rw [mul, dependsOn_op, List.any_cons, Bool.or_eq_false_iff] at h
      exact ⟨0, 0, .free h.1, .free ((dependsOn_op x .mul es).trans h.2), hm⟩
    | mul head tail => exact ⟨_, _, ⟨_, le_rfl, head⟩, ⟨_, le_rfl, tail⟩, hm⟩
  · rintro ⟨m, n, ⟨m', hm, head⟩, ⟨n', hn, tail⟩, hd⟩
    exact ⟨_, (Nat.add_le_add hm hn).trans hd, .mul head tail⟩

theorem degreeLE_pow_iff : DegreeLE x (pow u v) d ↔ (pow u v).dependsOn x = false ∨
    ∃ n m : ℕ, v = .const n ∧ DegreeLE x u m ∧ n * m ≤ d := by
  constructor
  · rintro ⟨m, hm, h⟩
    cases h with
    | free h => exact .inl h
    | pow n base => exact .inr ⟨n, _, rfl, ⟨_, le_rfl, base⟩, hm⟩
  · rintro (h | ⟨n, m, rfl, ⟨k, hk, base⟩, hd⟩)
    · exact .free h
    · exact ⟨_, (Nat.mul_le_mul_left n hk).trans hd, .pow n base⟩

/-- To prove a property of all trees of bounded degree, prove it of the trees in which `x` does not
occur, of `x`, and of the four operations from their operands. -/
@[elab_as_elim]
theorem DegreeLE.shapes {motive : (e : Expr K) → (d : ℕ) → DegreeLE x e d → Prop}
    (free : ∀ (e : Expr K) (d : ℕ) (h : e.dependsOn x = false), motive e d (.free h))
    (var : ∀ (d : ℕ) (h : DegreeLE x (.var x) d), 1 ≤ d → motive (.var x) d h)
    (add : ∀ (es : List (Expr K)) (d : ℕ) (h : ∀ e ∈ es, DegreeLE x e d),
      (∀ (e : Expr K) (he : e ∈ es), motive e d (h e he)) →
        motive (add es) d (degreeLE_add_iff.2 h))
    (sub : ∀ (u v : Expr K) (d : ℕ) (hu : DegreeLE x u d) (hv : DegreeLE x v d),
      motive u d hu → motive v d hv → motive (sub u v) d (degreeLE_sub_iff.2 ⟨hu, hv⟩))
    (mul : ∀ (es : List (Expr K)) (d : ℕ) (h : DegreeLE x (mul es) d),
      (∀ e ∈ es, ∀ (m : ℕ) (he : DegreeLE x e m), motive e m he) → motive (mul es) d h)
    (pow : ∀ (u : Expr K) (n m d : ℕ) (hd : n * m ≤ d) (hu : DegreeLE x u m), motive u m hu →
      motive (pow u (.const n)) d (degreeLE_pow_iff.2 (.inr ⟨n, m, rfl, hu, hd⟩)))
    {e : Expr K} {d : ℕ} (h : DegreeLE x e d) : motive e d h := by
  induction e using Expr.induction generalizing d with
  | const c => exact free _ d (dependsOn_const x c)
  | var y =>
    obtain ⟨m, hm, hdegree⟩ := h
    cases hdegree with
    | free hfree => exact free _ d hfree
    | var => exact var d _ hm
  | op o es ih =>
    -- the cases below need the bound itself as well, so a copy of it is taken apart
    obtain ⟨m, hm, hdegree⟩ := id h
    cases hdegree with
    | free hfree => exact free _ d hfree
    | add => exact add _ d (degreeLE_add_iff.1 h) fun e he ↦ ih e he _
    | sub =>
      obtain ⟨hu, hv⟩ := degreeLE_sub_iff.1 h
      exact sub _ _ d hu hv (ih _ (by simp) hu) (ih _ (by simp) hv)
    | mul => exact mul _ d h fun e he m ↦ ih e he
    | @pow u k n base => exact pow u n k d hm ⟨k, le_rfl, base⟩ (ih u (by simp) _)

/-- What becomes of the degree `d` by a derivative: it is less, and of a tree of degree zero nothing
is left. -/
structure Drops [Zero K] (x : String) (e : Expr K) (d : ℕ) : Prop where
  degreeLE : DegreeLE x e (d - 1)
  eq_zero : d = 0 → e = .const 0

theorem drops_zero [Zero K] (d : ℕ) : Drops x (.const (0 : K)) d :=
  ⟨.free (dependsOn_const x 0), fun _ ↦ rfl⟩

/-! ## Products as lists of factors -/

variable {fs : List (Expr K)}

theorem degreeLE_mul_const_cons_iff {c : K} :
    DegreeLE x (mul (.const c :: es)) d ↔ DegreeLE x (mul es) d := by
  rw [degreeLE_mul_cons_iff]
  constructor
  · rintro ⟨m, n, -, h, hd⟩
    exact h.mono ((Nat.le_add_left n m).trans hd)
  · exact fun h ↦ ⟨0, d, .free (dependsOn_const x c), h, by rw [Nat.zero_add]⟩

theorem degreeLE_mul_singleton_iff : DegreeLE x (mul [e]) d ↔ DegreeLE x e d := by
  rw [degreeLE_mul_cons_iff]
  constructor
  · rintro ⟨m, n, h, -, hd⟩
    exact h.mono ((Nat.le_add_right m n).trans hd)
  · exact fun h ↦ ⟨d, 0, h, .free (dependsOn_op x .mul []), le_rfl⟩

theorem degreeLE_mul_append_iff : DegreeLE x (mul (es ++ fs)) d ↔
    ∃ m n, DegreeLE x (mul es) m ∧ DegreeLE x (mul fs) n ∧ m + n ≤ d := by
  induction es generalizing d with
  | nil =>
    constructor
    · exact fun h ↦ ⟨0, d, .free (dependsOn_op x .mul []), h, by rw [Nat.zero_add]⟩
    · rintro ⟨m, n, -, h, hd⟩
      exact h.mono ((Nat.le_add_left n m).trans hd)
  | cons e es ih =>
    rw [List.cons_append, degreeLE_mul_cons_iff]
    constructor
    · rintro ⟨k, l, he, hl, hd⟩
      obtain ⟨m, n, hm, hn, hl⟩ := ih.1 hl
      exact ⟨k + m, n, degreeLE_mul_cons_iff.2 ⟨k, m, he, hm, le_rfl⟩, hn, by omega⟩
    · rintro ⟨l, n, hl, hn, hd⟩
      obtain ⟨k, m, he, hm, hl⟩ := degreeLE_mul_cons_iff.1 hl
      exact ⟨k, m + n, he, ih.2 ⟨m, n, hm, hn, le_rfl⟩, by omega⟩

namespace DegreeLE

theorem sublist (h : DegreeLE x (mul es) d) (hs : fs.Sublist es) : DegreeLE x (mul fs) d := by
  induction hs generalizing d with
  | slnil => exact h
  | cons e _ ih =>
    obtain ⟨m, n, -, hn, hd⟩ := degreeLE_mul_cons_iff.1 h
    exact (ih hn).mono ((Nat.le_add_left n m).trans hd)
  | cons_cons e _ ih =>
    obtain ⟨m, n, he, hn, hd⟩ := degreeLE_mul_cons_iff.1 h
    exact degreeLE_mul_cons_iff.2 ⟨m, n, he, ih hn, hd⟩

theorem of_mem (h : DegreeLE x (mul es) d) (he : e ∈ es) : DegreeLE x e d :=
  degreeLE_mul_singleton_iff.1 (h.sublist (List.singleton_sublist.2 he))

theorem flatten (h : DegreeLE x (mul es) d) : DegreeLE x (mul (flatten .mul es)) d := by
  induction es generalizing d with
  | nil => exact h
  | cons e es ih =>
    obtain ⟨m, n, he, hn, hd⟩ := degreeLE_mul_cons_iff.1 h
    have hsingle : DegreeLE x (mul [e]) m := degreeLE_mul_singleton_iff.2 he
    rw [Expr.flatten, List.flatMap_cons, degreeLE_mul_append_iff]
    refine ⟨m, n, ?_, ih hn, hd⟩
    -- a product brings its own factors, and everything else is one factor
    cases e with
    | const | var => exact hsingle
    | op o inner =>
      by_cases ho : o = .mul
      · subst ho
        simp only [if_pos]
        exact he
      · simp only [if_neg ho]
        exact hsingle

theorem perm (h : DegreeLE x (mul es) d) (hs : es.Perm fs) : DegreeLE x (mul fs) d := by
  induction hs generalizing d with
  | nil => exact h
  | cons e _ ih =>
    obtain ⟨m, n, he, hn, hd⟩ := degreeLE_mul_cons_iff.1 h
    exact degreeLE_mul_cons_iff.2 ⟨m, n, he, ih hn, hd⟩
  | swap e e' es =>
    obtain ⟨k, l, he', hl, hd⟩ := degreeLE_mul_cons_iff.1 h
    obtain ⟨m, n, he, hn, hl⟩ := degreeLE_mul_cons_iff.1 hl
    exact degreeLE_mul_cons_iff.2
      ⟨m, k + n, he, degreeLE_mul_cons_iff.2 ⟨k, n, he', hn, le_rfl⟩, by omega⟩
  | trans _ _ ih ih' => exact ih' (ih h)

/-- A product of other trees, whose degrees have the same bounds. -/
theorem mul_of_forall₂ {gs : List (Expr K)} (h : DegreeLE x (mul es) d)
    (hs : List.Forall₂ (fun e g ↦ ∀ m, DegreeLE x e m → DegreeLE x g m) es gs) :
    DegreeLE x (mul gs) d := by
  induction hs generalizing d with
  | nil => exact h
  | cons hhead _ ih =>
    obtain ⟨m, n, he, hn, hd⟩ := degreeLE_mul_cons_iff.1 h
    exact degreeLE_mul_cons_iff.2 ⟨m, n, hhead m he, ih hn, hd⟩

theorem collapse [One K] (h : DegreeLE x (mul es) d) : DegreeLE x (collapse .mul 1 es) d := by
  rcases collapse_cases .mul 1 es with ⟨-, hc⟩ | ⟨e, rfl, hc⟩ | ⟨-, hc⟩ <;> rw [hc]
  · exact .free (dependsOn_const x 1)
  · exact h.of_mem (List.mem_singleton_self e)
  · exact h

end DegreeLE

/-! ## Simplification -/

section Simplify

variable [Zero K] [One K] [Add K] [Sub K] [Mul K] [BEq K] [Elementary K] {s : Expr K}

namespace DegreeLE

theorem simplifyNode_add (h : DegreeLE x (add es) d) (hs : simplifyNode .add es = .ok s) :
    DegreeLE x s d := by
  have hoperand : ∀ a ∈ stepOperands .add es, DegreeLE x a d := by
    intro a ha
    rw [degreeLE_add_iff] at h
    rcases mem_flatten ha with ⟨ha, -⟩ | ⟨inner, hinner, ha⟩
    · exact h a ha
    · exact degreeLE_add_iff.1 (h _ hinner) a ha
  rcases simplifyNode_eq_ok_iff.1 hs with ⟨values, c, -, -, rfl⟩ | ⟨-, hs⟩
  · exact .free (dependsOn_const x c)
  rcases simplifySymbolic_cases hs with ⟨c, rfl⟩ | hmem | ⟨ho, -⟩ | ⟨-, run, rfl, -, hmem⟩
  · exact .free (dependsOn_const x c)
  · exact hoperand s hmem
  · cases ho
  · exact degreeLE_add_iff.2 fun a ha ↦ (hmem a ha).elim (hoperand a) .of_isConst

theorem simplifyNode_sub (h : DegreeLE x (sub u v) d) (hs : simplifyNode .sub [u, v] = .ok s) :
    DegreeLE x s d := by
  rcases simplifyNode_eq_ok_iff.1 hs with ⟨values, c, -, -, rfl⟩ | ⟨-, hs⟩
  · exact .free (dependsOn_const x c)
  rcases simplifySymbolic_cases hs with ⟨c, rfl⟩ | hmem | ⟨-, rfl⟩ | ⟨ho, -⟩
  · exact .free (dependsOn_const x c)
  · obtain ⟨hu, hv⟩ := degreeLE_sub_iff.1 h
    have hboth : ∀ a ∈ [u, v], DegreeLE x a d := by simp [hu, hv]
    exact hboth s hmem
  · exact h
  · cases ho

/-- What is left of a product are some of its factors, and a constant. -/
theorem simplifyNode_mul (h : DegreeLE x (mul es) d) (hs : simplifyNode .mul es = .ok s) :
    DegreeLE x s d := by
  rcases simplifyNode_eq_ok_iff.1 hs with ⟨values, c, -, -, rfl⟩ | ⟨-, hs⟩
  · exact .free (dependsOn_const x c)
  replace hs : simplifyProduct (Expr.flatten .mul es) = s := Except.ok.inj hs
  rw [← hs, simplifyProduct_eq]
  split
  · exact .free (dependsOn_const x 0)
  split
  · exact .free (dependsOn_const x 0)
  obtain ⟨kept, hsub, hgather⟩ := exists_sublist_gather 1 product (Expr.flatten .mul es)
  have hkept := h.flatten.sublist hsub
  refine DegreeLE.collapse ?_
  rcases hgather with hgather | ⟨c, hgather⟩ <;> rw [hgather]
  · exact hkept
  · exact degreeLE_mul_const_cons_iff.2 hkept

end DegreeLE

end Simplify

section Rules

variable {K : Type} [Ring K] [BEq K] [LawfulBEq K] {x y : String} {e t : Expr K} {d n : ℕ}

/-- The rule for powers lowers an exponent that is not zero by one. -/
theorem exists_lower (hn : ((n : K) == 0) = false) : ∃ k : ℕ, n = k + 1 ∧ (n : K) - 1 = k := by
  obtain ⟨k, rfl⟩ : ∃ k, n = k + 1 := by
    refine Nat.exists_eq_succ_of_ne_zero ?_
    rintro rfl
    simp at hn
  exact ⟨k, rfl, by rw [Nat.cast_succ, add_sub_cancel_right]⟩

/-- No derivative raises the degree. -/
theorem DegreeLE.derives (h : DegreeLE x e d) (ht : Derives y e t) : DegreeLE x t d := by
  induction h using DegreeLE.shapes generalizing t with
  | free e d hfree => exact .free (dependsOn_eq_false_of_names_subset ht.names_subset hfree)
  | var d h _ =>
    cases ht with
    | var => exact .free (dependsOn_const x _)
  | add es d _ ih =>
    cases ht with
    | @add _ ds length_eq operands =>
      refine degreeLE_add_iff.2 fun t ht ↦ ?_
      obtain ⟨e, he, hzip⟩ := exists_mem_zip length_eq ht
      exact ih e he (operands e t hzip)
  | sub u v d _ _ ihu ihv =>
    cases ht with
    | sub left right => exact degreeLE_sub_iff.2 ⟨ihu left, ihv right⟩
  | mul es d h ih =>
    cases ht with
    | @mul _ ds length_eq operands =>
      refine degreeLE_add_iff.2 fun t ht ↦ ?_
      obtain ⟨left, e, right, a, rfl, hzip, rfl⟩ := exists_of_mem_productTerms ht
      obtain ⟨m, n, he, hothers, hd⟩ := degreeLE_mul_cons_iff.1 (h.perm List.perm_middle)
      exact degreeLE_mul_cons_iff.2
        ⟨m, n, ih e (List.of_mem_zip hzip).1 m he (operands e a hzip), hothers, hd⟩
  | pow u n m d hd hu ih =>
    cases ht with
    | powZero | powTrivial | powFree => exact .free (dependsOn_const x 0)
    | powConst _ hc base =>
      -- the power loses one factor of degree `m`, and the derivative of the base brings it back
      obtain ⟨k, rfl, hlower⟩ := exists_lower hc
      rw [hlower, degreeLE_mul_const_cons_iff, degreeLE_mul_cons_iff]
      refine ⟨k * m, m, degreeLE_pow_iff.2 (.inr ⟨k, m, rfl, hu, le_rfl⟩),
        degreeLE_mul_singleton_iff.2 (ih base), ?_⟩
      rwa [← Nat.succ_mul]
    | powSame _ hv | powBoth _ hv | powExponent _ hv => simp at hv
    | powBase _ _ hconst => cases hconst

end Rules

section Rings

variable {K : Type} [Ring K] [BEq K] [Elementary K] {x : String} {e s t u v : Expr K}
  {es : List (Expr K)} {d m n : ℕ}

theorem simplifyNode_add_of_zeros (h : ∀ e ∈ es, e = .const 0) :
    simplifyNode .add es = .ok (.const (0 : K)) := by
  have hes : es = (List.replicate es.length 0).map .const := by
    rw [List.map_replicate]
    exact List.eq_replicate_iff.2 ⟨rfl, h⟩
  have hsum : (List.replicate es.length (0 : K)).sum = 0 :=
    List.sum_eq_zero fun _ hc ↦ (List.mem_replicate.1 hc).2
  rw [hes, simplifyNode_map_const, Operator.apply, sum_eq_list_sum, hsum]
  rfl

theorem Drops.simplifyNode_add (h : ∀ e ∈ es, Drops x e d) (hs : simplifyNode .add es = .ok s) :
    Drops x s d where
  degreeLE := DegreeLE.simplifyNode_add (degreeLE_add_iff.2 fun e he ↦ (h e he).degreeLE) hs
  eq_zero hd := by
    have hzero := simplifyNode_add_of_zeros fun e he ↦ (h e he).eq_zero hd
    exact Except.ok.inj (hs.symm.trans hzero)

theorem Drops.simplifyNode_sub (hu : Drops x u d) (hv : Drops x v d)
    (hs : simplifyNode .sub [u, v] = .ok s) : Drops x s d where
  degreeLE := DegreeLE.simplifyNode_sub (degreeLE_sub_iff.2 ⟨hu.degreeLE, hv.degreeLE⟩) hs
  eq_zero hd := by
    have hzero := simplifyNode_map_const .sub [(0 : K), 0]
    rw [hu.eq_zero hd, hv.eq_zero hd] at hs
    rw [Except.ok.inj (hs.symm.trans hzero), sub_zero]

variable [LawfulBEq K]

theorem simplifyNode_mul_of_zero (h : .const 0 ∈ es) :
    simplifyNode .mul es = .ok (.const (0 : K)) := by
  rcases simplifyNode_mul_of_isValue_zero h (beq_self_eq_true (0 : K)) with
    hzero | ⟨values, hvalues, hmem, hproduct⟩
  · exact hzero
  · rw [hvalues, List.mem_map] at hmem
    obtain ⟨c, hc, hzero⟩ := hmem
    obtain rfl := const.inj hzero
    rw [hproduct, product_eq_list_prod, List.prod_eq_zero hc]

theorem Drops.simplifyNode_mul {fs : List (Expr K)} (he : Drops x e m) (hfs : DegreeLE x (mul fs) n)
    (hd : m + n ≤ d) (hperm : (e :: fs).Perm es) (hs : simplifyNode .mul es = .ok s) :
    Drops x s d := by
  by_cases hm : m = 0
  · -- nothing is left to lose, but the factor has become a zero
    have hmem : .const 0 ∈ es := he.eq_zero hm ▸ hperm.subset List.mem_cons_self
    rw [Except.ok.inj (hs.symm.trans (simplifyNode_mul_of_zero hmem))]
    exact drops_zero d
  · have hall : DegreeLE x (mul (e :: fs)) (d - 1) :=
      degreeLE_mul_cons_iff.2 ⟨m - 1, n, he.degreeLE, hfs, by omega⟩
    exact ⟨DegreeLE.simplifyNode_mul (hall.perm hperm) hs, fun h ↦ by omega⟩

theorem simplify_mul_eq_zero {a : Expr K} (ha : a ∈ es)
    (hzero : ∀ s, a.simplify = .ok s → s = .const 0) (hs : (mul es).simplify = .ok s) :
    s = .const 0 := by
  obtain ⟨es', hes', hs⟩ := simplify_op_eq_ok_iff.1 hs
  obtain ⟨a', ha', h⟩ := exists_mem_right_of_forall₂ hes' ha
  exact Except.ok.inj (hs.symm.trans (simplifyNode_mul_of_zero (hzero a' h ▸ ha')))

theorem DegreeLE.simplifyNode_pow (h : DegreeLE x (pow u v) d)
    (hs : simplifyNode .pow [u, v] = .ok s) : DegreeLE x s d := by
  rcases degreeLE_pow_iff.1 h with hfree | ⟨n, m, rfl, hu, hd⟩
  · exact .free (dependsOn_eq_false_of_names_subset (names_simplifyNode_subset hs) hfree)
  rcases simplifyNode_eq_ok_iff.1 hs with ⟨values, c, -, -, rfl⟩ | ⟨-, hs⟩
  · exact .free (dependsOn_const x c)
  rw [← Except.ok.inj hs, simplifyPower]
  split
  · split
    · exact .free (dependsOn_const x 0)
    · exact .free (dependsOn_const x 1)
  next hzero =>
  split
  · have hn : n ≠ 0 := by
      rintro rfl
      exact hzero (beq_iff_eq.2 Nat.cast_zero)
    exact hu.mono ((Nat.le_mul_of_pos_left m (Nat.pos_of_ne_zero hn)).trans hd)
  split
  · exact .free (dependsOn_const x 1)
  · exact h

/-- Simplification does not raise the degree. -/
theorem DegreeLE.simplify (h : DegreeLE x e d) (hs : e.simplify = .ok s) : DegreeLE x s d := by
  induction h using DegreeLE.shapes generalizing s with
  | free e d hfree =>
    exact .free (dependsOn_eq_false_of_names_subset (names_simplify_subset hs) hfree)
  | var d h _ =>
    rw [simplify_var_eq_ok_iff.1 hs]
    exact h
  | add es d _ ih =>
    obtain ⟨es', hes', hs⟩ := simplify_op_eq_ok_iff.1 hs
    refine DegreeLE.simplifyNode_add (degreeLE_add_iff.2 fun a ha ↦ ?_) hs
    obtain ⟨e, he, hea⟩ := exists_mem_left_of_forall₂ hes' ha
    exact ih e he hea
  | sub u v d _ _ ihu ihv =>
    obtain ⟨_, _ | ⟨hu, _ | ⟨hv, _ | _⟩⟩, hs⟩ := simplify_op_eq_ok_iff.1 hs
    exact DegreeLE.simplifyNode_sub (degreeLE_sub_iff.2 ⟨ihu hu, ihv hv⟩) hs
  | mul es d h ih =>
    obtain ⟨es', hes', hs⟩ := simplify_op_eq_ok_iff.1 hs
    have hmem : List.Forall₂ (fun e e' ↦ e ∈ es ∧ e.simplify = .ok e') es es' :=
      (List.forall₂_and_left _ _).2 ⟨fun _ he ↦ he, hes'⟩
    refine DegreeLE.simplifyNode_mul (h.mul_of_forall₂ ?_) hs
    exact hmem.imp fun e e' ⟨he, h⟩ m hm ↦ ih e he m hm h
  | pow u n m d hd _ ih =>
    obtain ⟨_, _ | ⟨hu, _ | ⟨hn, _ | _⟩⟩, hs⟩ := simplify_op_eq_ok_iff.1 hs
    obtain rfl := simplify_const_eq_ok_iff.1 hn
    exact DegreeLE.simplifyNode_pow (degreeLE_pow_iff.2 (.inr ⟨n, m, rfl, ih hu, hd⟩)) hs

/-- The derivative by a variable that does not occur is simplified to zero. -/
theorem Derives.simplify_eq_zero (h : Derives x e t) (hfree : e.dependsOn x = false)
    (hs : t.simplify = .ok s) : s = .const 0 := by
  induction h generalizing s with
  | const => exact simplify_const_eq_ok_iff.1 hs
  | var y =>
    rw [dependsOn_var] at hfree
    rw [hfree] at hs
    exact simplify_const_eq_ok_iff.1 hs
  | @add es ds length_eq _ ih =>
    obtain ⟨ds', hds', hs⟩ := simplify_op_eq_ok_iff.1 hs
    refine Except.ok.inj (hs.symm.trans (simplifyNode_add_of_zeros fun d' hd' ↦ ?_))
    obtain ⟨d, hd, hdd'⟩ := exists_mem_left_of_forall₂ hds' hd'
    obtain ⟨e, he, hzip⟩ := exists_mem_zip length_eq hd
    exact ih e d hzip (dependsOn_eq_false_of_mem hfree he) hdd'
  | sub _ _ ihu ihv =>
    obtain ⟨_, _ | ⟨hu, _ | ⟨hv, _ | _⟩⟩, hs⟩ := simplify_op_eq_ok_iff.1 hs
    rw [ihu (dependsOn_eq_false_of_mem hfree (by simp)) hu,
      ihv (dependsOn_eq_false_of_mem hfree (by simp)) hv] at hs
    rw [Except.ok.inj (hs.symm.trans (simplifyNode_map_const .sub [(0 : K), 0])), sub_zero]
  | @mul es ds length_eq _ ih =>
    obtain ⟨ts', hts', hs⟩ := simplify_op_eq_ok_iff.1 hs
    refine Except.ok.inj (hs.symm.trans (simplifyNode_add_of_zeros fun t' ht' ↦ ?_))
    obtain ⟨t, ht, htt'⟩ := exists_mem_left_of_forall₂ hts' ht'
    obtain ⟨left, e, right, d, rfl, hzip, rfl⟩ := exists_of_mem_productTerms ht
    have he := dependsOn_eq_false_of_mem hfree (List.of_mem_zip hzip).1
    exact simplify_mul_eq_zero List.mem_cons_self (fun _ ↦ ih e d hzip he) htt'
  | powFree => exact simplify_const_eq_ok_iff.1 hs
  | powSelf | lnVar => simp [pow, apply] at hfree
  -- these rules need the variable in the base, and the next two need it in the exponent
  | powSame hu | powBoth hu | powZero hu | powConst hu | powBase hu =>
    rw [dependsOn_eq_false_of_mem hfree List.mem_cons_self] at hu
    cases hu
  | powTrivial _ hv | powExponent _ hv =>
    rw [dependsOn_eq_false_of_mem hfree (List.mem_cons_of_mem _ List.mem_cons_self)] at hv
    cases hv
  | ln _ _ ih | sin _ ih | cos _ ih =>
    have hu := dependsOn_eq_false_of_mem hfree List.mem_cons_self
    exact simplify_mul_eq_zero (by simp) (fun _ ↦ ih hu) hs

/-- The derivative by the variable lowers the degree. -/
theorem DegreeLE.drops (h : DegreeLE x e d) (ht : Derives x e t) (hs : t.simplify = .ok s) :
    Drops x s d := by
  induction h using DegreeLE.shapes generalizing t s with
  | free e d hfree =>
    rw [ht.simplify_eq_zero hfree hs]
    exact drops_zero d
  | var d h hd =>
    cases ht with
    | var =>
      rw [simplify_const_eq_ok_iff.1 hs]
      exact ⟨.free (dependsOn_const x _), fun h ↦ by omega⟩
  | add es d _ ih =>
    cases ht with
    | @add _ ds length_eq operands =>
      obtain ⟨ds', hds', hs⟩ := simplify_op_eq_ok_iff.1 hs
      refine Drops.simplifyNode_add (fun a' ha' ↦ ?_) hs
      obtain ⟨a, ha, haa'⟩ := exists_mem_left_of_forall₂ hds' ha'
      obtain ⟨e, he, hzip⟩ := exists_mem_zip length_eq ha
      exact ih e he (operands e a hzip) haa'
  | sub u v d _ _ ihu ihv =>
    cases ht with
    | sub left right =>
      obtain ⟨_, _ | ⟨hu, _ | ⟨hv, _ | _⟩⟩, hs⟩ := simplify_op_eq_ok_iff.1 hs
      exact Drops.simplifyNode_sub (ihu left hu) (ihv right hv) hs
  | mul es d h ih =>
    cases ht with
    | @mul _ ds length_eq operands =>
      obtain ⟨ts', hts', hs⟩ := simplify_op_eq_ok_iff.1 hs
      refine Drops.simplifyNode_add (fun t' ht' ↦ ?_) hs
      obtain ⟨t, ht, htt'⟩ := exists_mem_left_of_forall₂ hts' ht'
      obtain ⟨left, e, right, a, rfl, hzip, rfl⟩ := exists_of_mem_productTerms ht
      obtain ⟨m, n, he, hothers, hd⟩ := degreeLE_mul_cons_iff.1 (h.perm List.perm_middle)
      obtain ⟨_, _ | ⟨ha, hrest⟩, ht'⟩ := simplify_op_eq_ok_iff.1 htt'
      refine Drops.simplifyNode_mul (ih e (List.of_mem_zip hzip).1 m he (operands e a hzip) ha)
        (hothers.mul_of_forall₂ ?_) hd (List.Perm.refl _) ht'
      exact hrest.imp fun _ _ h _ hm ↦ hm.simplify h
  | pow u n m d hd hu ih =>
    cases ht with
    | powZero | powTrivial | powFree =>
      rw [simplify_const_eq_ok_iff.1 hs]
      exact drops_zero d
    | powConst _ hc base =>
      obtain ⟨k, rfl, hlower⟩ := exists_lower hc
      rw [hlower] at hs
      obtain ⟨_, _ | ⟨hn, _ | ⟨hp, _ | ⟨ha, _ | _⟩⟩⟩, hs⟩ := simplify_op_eq_ok_iff.1 hs
      obtain rfl := simplify_const_eq_ok_iff.1 hn
      have hlow : DegreeLE x (pow u (.const (k : K))) (k * m) :=
        degreeLE_pow_iff.2 (.inr ⟨k, m, rfl, hu, le_rfl⟩)
      have hothers := degreeLE_mul_singleton_iff.2 (hlow.simplify hp)
      refine Drops.simplifyNode_mul (ih base ha) (degreeLE_mul_const_cons_iff.2 hothers) ?_
        (List.perm_append_singleton _ [_, _]).symm hs
      rwa [Nat.add_comm, ← Nat.succ_mul]
    | powSame _ hv | powBoth _ hv | powExponent _ hv => simp at hv
    | powBase _ _ hconst => cases hconst

/-! ## Plans -/

/-- A plan with the variable more often than the degree says ends in zero. -/
theorem DegreeLE.differentiateAll_eq (h : DegreeLE x e d) (hwf : e.WellFormed 0)
    {plan : List String} (hplan : d < plan.count x) :
    e.differentiateAll plan = .ok (.const 0) := by
  induction plan generalizing e d with
  | nil => simp at hplan
  | cons y plan ih =>
    obtain ⟨s, hs⟩ := hwf.exists_differentiate_eq_ok (Nat.zero_le 2) y
    obtain ⟨t, ht, hsimplify⟩ := differentiate_eq_ok_iff.1 hs
    have hstep := hwf.differentiate (Nat.zero_le 2) hs
    rw [differentiateAll_cons_eq_ok_iff]
    refine ⟨s, hs, ?_⟩
    -- a step by `x` takes one from the count and one from the degree, any other step neither
    by_cases hy : y = x
    · subst hy
      have hdrops := h.drops ht hsimplify
      by_cases hd : d = 0
      · rw [hdrops.eq_zero hd, differentiateAll_const, ite_self]
      · rw [List.count_cons_self] at hplan
        exact ih hdrops.degreeLE hstep (by omega)
    · rw [List.count_cons_of_ne hy] at hplan
      exact ih ((h.derives ht).simplify hsimplify) hstep hplan

end Rings

/-! ## Polynomials -/

/-- Every subtree in which `x` occurs is `x` itself, a sum, a difference, a product, or a power with
a natural number as its exponent. -/
def IsPolynomial (x : String) (e : Expr K) : Prop :=
  e.Everywhere fun o es ↦ (Expr.op o es).dependsOn x = true →
    o = .add ∨ o = .sub ∨ o = .mul ∨ o = .pow ∧ ∃ (u : Expr K) (n : ℕ), es = [u, .const (n : K)]

/-- A sum or a product has a degree if its operands have. -/
theorem exists_hasDegree_of_cons {o : Operator}
    (hcons : ∀ {e : Expr K} {es : List (Expr K)} {m n : ℕ}, HasDegree x e m →
      HasDegree x (.op o es) n → ∃ d, HasDegree x (.op o (e :: es)) d)
    (h : ∀ e ∈ es, ∃ d, HasDegree x e d) : ∃ d, HasDegree x (.op o es) d := by
  induction es with
  | nil => exact ⟨0, .free (dependsOn_op x o [])⟩
  | cons e es ih =>
    obtain ⟨⟨m, hm⟩, hes⟩ := List.forall_mem_cons.1 h
    obtain ⟨n, hn⟩ := ih hes
    exact hcons hm hn

theorem IsPolynomial.exists_hasDegree (h : e.IsPolynomial x) (hwf : e.WellFormed 0) :
    ∃ d, HasDegree x e d := by
  induction hwf using WellFormed.shapes with
  | const c => exact ⟨0, .free (dependsOn_const x c)⟩
  | var y =>
    by_cases hy : y = x
    · exact ⟨1, hy ▸ .var⟩
    · exact ⟨0, .free (by rw [dependsOn_var]; exact beq_false_of_ne hy)⟩
  | add es _ _ ih =>
    refine exists_hasDegree_of_cons (fun hm hn ↦ ⟨_, .add hm hn⟩) fun e he ↦ ?_
    exact ih e he ((everywhere_add_iff.1 h).2 e he)
  | mul es _ _ ih =>
    refine exists_hasDegree_of_cons (fun hm hn ↦ ⟨_, .mul hm hn⟩) fun e he ↦ ?_
    exact ih e he ((everywhere_mul_iff.1 h).2 e he)
  | sub u v _ _ ihu ihv =>
    obtain ⟨-, hu, hv⟩ := everywhere_sub_iff.1 h
    obtain ⟨m, hm⟩ := ihu hu
    obtain ⟨n, hn⟩ := ihv hv
    exact ⟨max m n, .sub hm hn⟩
  | pow u v _ _ ihu _ =>
    obtain ⟨here, hu, -⟩ := everywhere_pow_iff.1 h
    by_cases hfree : (pow u v).dependsOn x = true
    · rcases here hfree with ho | ho | ho | ⟨-, u', n, hes⟩
      · cases ho
      · cases ho
      · cases ho
      · cases hes
        obtain ⟨m, hm⟩ := ihu hu
        exact ⟨n * m, .pow n hm⟩
    · exact ⟨0, .free (Bool.eq_false_iff.2 hfree)⟩
  | apply f u _ _ =>
    obtain ⟨here, -⟩ := everywhere_apply_iff.1 h
    have hfree : ¬(apply f u).dependsOn x = true := by
      intro hfree
      rcases here hfree with ho | ho | ho | ⟨ho, -⟩ <;> cases ho
    exact ⟨0, .free (Bool.eq_false_iff.2 hfree)⟩

/-- **Polynomials die after enough derivatives.** A polynomial in `x` has a degree, and with exact
arithmetic every plan in which `x` stands more often than the degree says, in any places and with
any other names between, ends in the constant zero. -/
theorem differentiateAll_eq_zero {K : Type} [Ring K] [BEq K] [LawfulBEq K] [Elementary K]
    (x : String) (e : Expr K) (hwf : e.WellFormed 0) (hpoly : e.IsPolynomial x) :
    (∃ d, HasDegree x e d) ∧ ∀ d, HasDegree x e d → ∀ plan : List String, d < plan.count x →
      e.differentiateAll plan = .ok (.const 0) := by
  refine ⟨hpoly.exists_hasDegree hwf, fun d h plan hplan ↦ ?_⟩
  have hle : DegreeLE x e d := ⟨d, le_rfl, h⟩
  exact hle.differentiateAll_eq hwf hplan

/-- The sine of another name is a coefficient, and the steps by that name do not count. -/
theorem differentiateAll_eq_zero_of_cube :
    letI : Elementary ℚ := ⟨fun a b ↦ a ^ b.num.natAbs, id, id, id⟩
    let e : Expr ℚ :=
      mul [pow (add [mul [.var "x", apply .sin (.var "y")], .const 2]) (.const 3), .var "x"]
    let plan := ["x", "y", "x", "x", "y", "x", "x"]
    e.WellFormed 0 ∧ e.IsPolynomial "x" ∧ HasDegree "x" e 4 ∧ 4 < plan.count "x" ∧
      e.differentiateAll plan = .ok (.const 0) := by
  let _ : Elementary ℚ := ⟨fun a b ↦ a ^ b.num.natAbs, id, id, id⟩
  intro e plan
  have hwf : e.WellFormed 0 := by decide
  have hpoly : e.IsPolynomial "x" := by
    have hcube : ∃ n : ℕ, (3 : ℚ) = n := ⟨3, rfl⟩
    simp [e, IsPolynomial, hcube]
  have hempty (o : Operator) : (Expr.op o [] : Expr ℚ).dependsOn "x" = false :=
    dependsOn_op "x" o []
  have hlinear : HasDegree "x" (mul [.var "x", apply .sin (.var "y")] : Expr ℚ) 1 :=
    .mul .var (.mul (.free (by decide)) (.free (hempty .mul)))
  have hbase : HasDegree "x" (add [mul [.var "x", apply .sin (.var "y")], .const (2 : ℚ)]) 1 :=
    .add hlinear (.add (.free (dependsOn_const "x" 2)) (.free (hempty .add)))
  have hdegree : HasDegree "x" e 4 := .mul (.pow 3 hbase) (.mul .var (.free (hempty .mul)))
  have hcount : 4 < plan.count "x" := by decide
  have hzero := (differentiateAll_eq_zero "x" e hwf hpoly).2 4 hdegree plan hcount
  exact ⟨hwf, hpoly, hdegree, hcount, hzero⟩

end SymbolicDerivatives.Expr
