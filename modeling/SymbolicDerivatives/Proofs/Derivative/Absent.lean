import SymbolicDerivatives.Proofs.Number.Zero
import SymbolicDerivatives.Proofs.ReadingBack

/-!
# Derivatives by a name that is not there

Only the rules for powers ask whether the variable occurs in an operand. Everywhere else a
derivative that is zero is built up like any other, from sums, differences and products of zeros,
and it is simplification that finds out. `Vanishes` says that it does.

In a product that is no trouble as long as another operand is not a constant: then the zero takes
the whole product without anything being computed. In the terms of the product rule all other
operands can be constants, and the product is computed, with the zero in front; that is zero if they
are finite. The tree has to be in normal form here. Otherwise an operand could be a tree of its own
that is only simplified now, to a constant that is not finite.
-/

namespace SymbolicDerivatives

namespace Expr

/-- Simplification finds that the tree is zero. -/
def Vanishes (e : Expr Float) : Prop := ∃ z, e.simplify = .ok (.const z) ∧ (z == 0) = true

theorem vanishes_zero : Vanishes (.const 0) := ⟨0, simplify_const 0, by decide +kernel⟩

theorem exists_zeros {es : List (Expr Float)} (h : ∀ e ∈ es, e.Vanishes) :
    ∃ zeros : List Float, es.mapM simplify = .ok (zeros.map .const) ∧
      ∀ z ∈ zeros, (z == 0) = true := by
  induction es with
  | nil => exact ⟨[], rfl, List.forall_mem_nil _⟩
  | cons e es ih =>
    obtain ⟨⟨z, hz, hzero⟩, hes⟩ := List.forall_mem_cons.1 h
    obtain ⟨zeros, hzeros, hall⟩ := ih hes
    exact ⟨z :: zeros, mapM_eq_ok_iff.2 (.cons hz (mapM_eq_ok_iff.1 hzeros)),
      List.forall_mem_cons.2 ⟨hzero, hall⟩⟩

theorem vanishes_add {es : List (Expr Float)} (h : ∀ e ∈ es, e.Vanishes) : (add es).Vanishes := by
  obtain ⟨zeros, hzeros, hall⟩ := exists_zeros h
  refine ⟨sum zeros, ?_, Number.sum_beq_zero hall⟩
  rw [add, simplify_op, hzeros]
  exact simplifyNode_map_const .add zeros

theorem vanishes_sub {u v : Expr Float} (hu : u.Vanishes) (hv : v.Vanishes) :
    (sub u v).Vanishes := by
  obtain ⟨y, hy, hyzero⟩ := hu
  obtain ⟨z, hz, hzzero⟩ := hv
  refine ⟨y - z, ?_, Number.sub_beq_zero hyzero hzzero⟩
  rw [sub, simplify_op, mapM_eq_ok_iff.2 (.cons hy (.cons hz .nil))]
  exact simplifyNode_map_const .sub [y, z]

/-- A product vanishes with one of its operands, if another one is neither a constant nor a
product. -/
theorem vanishes_mul_of_symbolic {es es' : List (Expr Float)} (hes : es.mapM simplify = .ok es')
    {d u : Expr Float} (hd : d ∈ es) (hzero : d.Vanishes) (hu : u ∈ es')
    (hconst : u.isConst = false) (hflat : ∀ inner, u ≠ .op .mul inner) : (mul es).Vanishes := by
  obtain ⟨z, hz, hzero⟩ := hzero
  obtain ⟨d', hd', hdz⟩ := exists_mem_right_of_forall₂ (mapM_eq_ok_iff.1 hes) hd
  obtain rfl : d' = .const z := Except.ok.inj (hdz.symm.trans hz)
  have hsimplify : (mul es).simplify = simplifyNode .mul es' := by
    rw [mul, simplify_op, hes]
    rfl
  -- `u` is no product, so it is still there when nested products are taken apart
  have hmem : u ∈ flatten .mul es' := by
    refine List.mem_flatMap.2 ⟨u, hu, ?_⟩
    cases u with
    | const c => cases hconst
    | var x => exact List.mem_singleton_self _
    | op o inner =>
      have ho : o ≠ .mul := fun ho ↦ hflat inner (by rw [ho])
      simp [ho]
  rcases simplifyNode_mul_of_isValue_zero hd' hzero with h | ⟨values, hvalues, -⟩
  · exact ⟨0, hsimplify.trans h, by decide +kernel⟩
  · rw [hvalues] at hmem
    obtain ⟨c, -, rfl⟩ := List.mem_map.1 hmem
    cases hconst

/-- A product that starts with a zero vanishes, if the other operands are finite constants, or
settled trees other than products. -/
theorem vanishes_mul_cons {d : Expr Float} {es : List (Expr Float)} (hd : d.Vanishes)
    (hes : ∀ e ∈ es, e.simplify = .ok e) (hflat : ∀ e ∈ es, ∀ inner, e ≠ .op .mul inner)
    (hfinite : ∀ e ∈ es, ∀ c ∈ e.constants, c.isFinite = true) : (mul (d :: es)).Vanishes := by
  obtain ⟨z, hz, hzero⟩ := hd
  have hall : (d :: es).mapM simplify = .ok (.const z :: es) := by
    refine mapM_eq_ok_iff.2 (.cons hz ?_)
    exact List.forall₂_same.2 hes
  by_cases hsymbolic : ∃ e ∈ es, e.isConst = false
  · obtain ⟨e, he, hconst⟩ := hsymbolic
    exact vanishes_mul_of_symbolic hall List.mem_cons_self ⟨z, hz, hzero⟩
      (List.mem_cons_of_mem _ he) hconst (hflat e he)
  · rw [← mapM_const?_eq_none_iff] at hsymbolic
    obtain ⟨values, hvalues⟩ := Option.ne_none_iff_exists'.1 hsymbolic
    obtain rfl := mapM_const?_eq_some_iff.1 hvalues
    refine ⟨product (z :: values), ?_, Number.product_beq_zero hzero fun v hv ↦ ?_⟩
    · rw [mul, simplify_op, hall]
      exact simplifyNode_map_const .mul (z :: values)
    · exact hfinite (.const v) (List.mem_map_of_mem hv) v (by simp [constants])

/-- A tree in normal form with finite constants, in which the variable does not occur. -/
structure Still (x : String) (e : Expr Float) : Prop where
  normal : e.Normal
  finite : ∀ c ∈ e.constants, c.isFinite = true
  absent : e.dependsOn x = false

namespace Still

variable {x : String}

theorem operand {o : Operator} {es : List (Expr Float)} (h : Still x (.op o es)) {e : Expr Float}
    (he : e ∈ es) : Still x e where
  normal := (everywhere_op_iff.1 h.normal).2 e he
  finite c hc := h.finite c (by rw [constants_op]; exact List.mem_flatMap.2 ⟨e, he, hc⟩)
  absent := dependsOn_eq_false_of_mem h.absent he

theorem simplify_eq {e : Expr Float} (h : Still x e) : e.simplify = .ok e :=
  (normal_iff.1 h.normal).1.simplify_eq

/-- What the rule for a function puts in front of the derivative of its argument stays as it is. -/
theorem simplify_outer {f : Func} {u : Expr Float} (h : Still x (apply f u)) :
    (∀ g, (apply g u).simplify = .ok (apply g u)) ∧
      (pow u (.const (-1))).simplify = .ok (pow u (.const (-1))) := by
  have hu := h.operand List.mem_cons_self
  have hsettled := (normal_iff.1 hu.normal).1
  have hconst : u.isConst = false := (everywhere_apply_iff.1 h.normal).1
  constructor
  · intro g
    refine Settled.simplify_eq (everywhere_apply_iff.2 ⟨?_, hsettled⟩)
    exact ⟨u, List.mem_singleton_self u, hconst⟩
  · refine Settled.simplify_eq (everywhere_pow_iff.2 ⟨?_, hsettled, .const _⟩)
    refine ⟨.inl hconst, by decide +kernel, by decide +kernel, ?_⟩
    exact Bool.eq_false_iff.2 fun hvalue ↦ by simp [isConst_of_isValue hvalue] at hconst

theorem vanishes {e d : Expr Float} (he : Still x e) (h : Derives x e d) : d.Vanishes := by
  induction h with
  | const => exact vanishes_zero
  | var y =>
    have habsent := he.absent
    rw [dependsOn_var] at habsent
    rw [habsent]
    exact vanishes_zero
  | @add es ds length_eq _ ih =>
    refine vanishes_add fun d hd ↦ ?_
    obtain ⟨e, hmem, hzip⟩ := exists_mem_zip length_eq hd
    exact ih e d hzip (he.operand hmem)
  | sub _ _ ihu ihv =>
    exact vanishes_sub (ihu (he.operand (by simp))) (ihv (he.operand (by simp)))
  | @mul es ds length_eq _ ih =>
    refine vanishes_add fun t ht ↦ ?_
    -- a term of the product rule is the derivative of one operand, and then the other operands
    obtain ⟨left, e, right, d, rfl, hzip, rfl⟩ := exists_of_mem_productTerms ht
    have hothers : ∀ a ∈ [] ++ (left ++ right), a ∈ left ++ e :: right := by
      intro a ha
      simp only [List.nil_append, List.mem_append, List.mem_cons] at ha ⊢
      tauto
    have hflat := (everywhere_mul_iff.1 he.normal).1.1.flat
    exact vanishes_mul_cons (ih e d hzip (he.operand (List.of_mem_zip hzip).1))
      (fun a ha ↦ (he.operand (hothers a ha)).simplify_eq) (fun a ha ↦ hflat a (hothers a ha))
      fun a ha ↦ (he.operand (hothers a ha)).finite
  | powFree => exact vanishes_zero
  | powSelf | lnVar => simpa [pow, apply] using he.absent
  | powSame hu | powBoth hu | powZero hu | powConst hu | powBase hu =>
    have habsent := (he.operand List.mem_cons_self).absent
    rw [hu] at habsent
    cases habsent
  | powTrivial _ hv | powExponent _ hv =>
    have habsent := (he.operand (List.mem_cons_of_mem _ List.mem_cons_self)).absent
    rw [hv] at habsent
    cases habsent
  -- what the rules for functions put in front is no constant, so nothing is computed
  | @ln u du _ _ ih =>
    obtain ⟨z, hz, hzero⟩ := ih (he.operand List.mem_cons_self)
    have hall := mapM_eq_ok_iff.2 (.cons he.simplify_outer.2 (.cons hz .nil))
    exact vanishes_mul_of_symbolic hall (List.mem_cons_of_mem _ List.mem_cons_self)
      ⟨z, hz, hzero⟩ List.mem_cons_self rfl fun _ h ↦ by cases h
  | @sin u du _ ih =>
    obtain ⟨z, hz, hzero⟩ := ih (he.operand List.mem_cons_self)
    have hall := mapM_eq_ok_iff.2 (.cons (he.simplify_outer.1 .cos) (.cons hz .nil))
    exact vanishes_mul_of_symbolic hall (List.mem_cons_of_mem _ List.mem_cons_self)
      ⟨z, hz, hzero⟩ List.mem_cons_self rfl fun _ h ↦ by cases h
  | @cos u du _ ih =>
    obtain ⟨z, hz, hzero⟩ := ih (he.operand List.mem_cons_self)
    have hall := mapM_eq_ok_iff.2
      (.cons (simplify_const (-1)) (.cons (he.simplify_outer.1 .sin) (.cons hz .nil)))
    exact vanishes_mul_of_symbolic hall (by simp) ⟨z, hz, hzero⟩
      (List.mem_cons_of_mem _ List.mem_cons_self) rfl fun _ h ↦ by cases h

/-- A plan by the variable first ends in a zero. -/
theorem exists_differentiateAll_eq {e : Expr Float} (h : Still x e) (plan : List String) :
    ∃ z, e.differentiateAll (x :: plan) = .ok (.const z) ∧ (z == 0) = true := by
  obtain ⟨d, hd⟩ := (normal_iff.1 h.normal).2.exists_derivative_eq_ok x
  have hderives := derivative_eq_ok_iff.1 hd
  obtain ⟨z, hz, hzero⟩ := h.vanishes hderives
  refine ⟨if plan = [] then z else 0, ?_, ?_⟩
  · rw [differentiateAll_cons_eq_ok_iff]
    exact ⟨.const z, differentiate_eq_ok_iff.2 ⟨d, hderives, hz⟩, differentiateAll_const plan z⟩
  · split
    · exact hzero
    · decide +kernel

end Still

end Expr

/-- **The derivative by a name that is not there is zero.** Simplification finds it to be zero, for
every tree with finite constants that is the result of simplification or of reading a formula. So a
plan with a name that the formula does not have ends in a zero, if the constants before the step by
this name are finite, and the result is `0.00`. -/
theorem differentiate_absent :
    (∀ (e : Expr Float) (x : String), e.WellFormed 0 →
      ((∃ t : Expr Float, t.simplify = .ok e) ∨
        ∃ known formula, (Formula.read known formula).run.value = .ok e) →
      (∀ c ∈ e.constants, c.isFinite = true) → e.dependsOn x = false →
      ∃ d z, e.derivative x = .ok d ∧ d.simplify = .ok (.const z) ∧ (z == 0) = true) ∧
    ∀ (input : Option String) (formula plan values : String) (e : Expr Float)
      (first rest : List String) (x : String), splitInput input = (formula, plan, values) →
      (Formula.read [] (some formula)).run.value = .ok e → planOfLine plan = first ++ x :: rest →
      e.dependsOn x = false →
      (∀ t, e.differentiateAll first = .ok t → ∀ c ∈ t.constants, c.isFinite = true) →
      ∃ z, e.differentiateAll (planOfLine plan) = .ok (.const z) ∧ (z == 0) = true ∧
        (Calculation.resultOf input).run.value = .ok "0.00" := by
  constructor
  · intro e x hwf hsource hfinite habsent
    have hsettled : e.Settled := by
      rcases hsource with ⟨t, ht⟩ | ⟨known, formula, hread⟩
      · exact Expr.settled_simplify ht
      · exact (Expr.Finished.of_read hread).settled
    have hstill : Expr.Still x e := ⟨Expr.normal_iff.2 ⟨hsettled, hwf⟩, hfinite, habsent⟩
    obtain ⟨d, hd⟩ := hwf.exists_derivative_eq_ok x
    obtain ⟨z, hz, hzero⟩ := hstill.vanishes (Expr.derivative_eq_ok_iff.1 hd)
    exact ⟨d, z, hd, hz, hzero⟩
  · intro input formula plan values e first rest x hinput hread hplan habsent hfinite
    obtain ⟨f, steps, c, h⟩ := exists_course (some formula) plan values
    obtain rfl : e = f := Except.ok.inj (hread.symm.trans (h.read []))
    obtain ⟨t, ht⟩ := h.wellFormed.exists_differentiateAll_eq_ok (Nat.le_refl 2) first
    have hstill : Expr.Still x t := {
      normal := ((Expr.Finished.of_read hread).differentiateAll ht).normal
      finite := hfinite t ht
      absent := Expr.dependsOn_eq_false_of_names_subset
        (Expr.names_differentiateAll_subset ht) habsent }
    obtain ⟨z, hz, hzero⟩ := hstill.exists_differentiateAll_eq rest
    have hend : e.differentiateAll (planOfLine plan) = .ok (.const z) := by
      rw [hplan, Expr.differentiateAll_append, ht]
      exact hz
    have hvalue : c.value = z := by
      have hlast := h.value
      rw [Except.ok.inj (h.trace.differentiateAll_eq.symm.trans hend), Expr.evaluate_const] at hlast
      exact (Except.ok.inj hlast).symm
    refine ⟨z, hend, hzero, (h.resultOf_value hinput).trans ?_⟩
    rw [Calculation.result, hvalue, resultText_of_beq_zero hzero]

/-- The derivative by `y` has a product of `y` and its inverse, which is not cancelled. -/
theorem differentiate_absent_of_logarithm :
    let e : Expr Float := .sub (.mul [.var "y", .apply .ln (.var "y")]) (.const 3)
    let t : Expr Float :=
      .add [.apply .ln (.var "y"), .mul [.pow (.var "y") (.const (-1)), .var "y"]]
    (Formula.read [] (some "y*ln(y) - 3")).run.value = .ok e ∧ e.differentiate "y" = .ok t ∧
      (∃ d z, t.derivative "x" = .ok d ∧ d.simplify = .ok (.const z) ∧ (z == 0) = true) ∧
      ∃ z, e.differentiateAll ["y", "x", "y"] = .ok (.const z) ∧ (z == 0) = true ∧
        (Calculation.resultOf (some "y*ln(y) - 3\ny x y\ny 0")).run.value = .ok "0.00" := by
  intro e t
  have hscan : Token.scan "y*ln(y) - 3" = .ok [.name "y", .times, .function .ln, .opening,
      .name "y", .closing, .minus, .number "3"] := by
    decide +kernel
  have hproduct : Formula.Phrase .term [.name "y", .times, .function .ln, .opening, .name "y",
      .closing] _ :=
    .term (.base (.name "y")) [(_, _)] (List.forall_mem_singleton.2 (.base
      (.closedFunction .ln (.parentheses (Formula.Phrase.name "y").closed_term.term_expression))))
  have hlast : Formula.Phrase .term [.number "3"] _ := (Formula.Phrase.number "3").closed_term
  have hphrase : Formula.Phrase .expression _ e :=
    .expression hproduct [(.minus, _, _)] (List.forall_mem_singleton.2 hlast)
  have hread (known : List String) :
      (Formula.read known (some "y*ln(y) - 3")).run.value = .ok e :=
    (Formula.read_value_of_phrase hscan hphrase).trans rfl
  have ht : e.differentiate "y" = .ok t := by rfl
  have hfinite : ∀ c ∈ t.constants, c.isFinite = true := by decide +kernel
  have hinput : splitInput (some "y*ln(y) - 3\ny x y\ny 0") = ("y*ln(y) - 3", "y x y", "y 0") := by
    decide +kernel
  have hplan : planOfLine "y x y" = ["y"] ++ "x" :: ["y"] := by decide +kernel
  obtain ⟨htrees, hplans⟩ := differentiate_absent
  refine ⟨hread [], ht, htrees t "x" (by decide) (.inl ⟨t, by rfl⟩) hfinite (by decide), ?_⟩
  have hend := hplans _ _ _ _ e ["y"] ["y"] "x" hinput (hread []) hplan (by decide) ?_
  · rwa [hplan] at hend
  · intro t' ht'
    obtain ⟨t'', ht'', hnil⟩ := Expr.differentiateAll_cons_eq_ok_iff.1 ht'
    rw [← Except.ok.inj hnil, ← Except.ok.inj (ht.symm.trans ht'')]
    exact hfinite

end SymbolicDerivatives
