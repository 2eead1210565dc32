import SymbolicDerivatives.Proofs.Derivative.Plan

/-!
# Names of derivatives

Simplification and the rules of differentiation leave names away, but never bring in one that is not
in the tree: the rules repeat operands, and the variable of the derivative appears only where it was
found.
-/

namespace SymbolicDerivatives.Expr

variable {K : Type}

@[simp] theorem names_const (c : K) : (Expr.const c).names = [] := by rw [names]

@[simp] theorem names_var (x : String) : (Expr.var x : Expr K).names = [x] := by rw [names]

@[simp] theorem names_add (es : List (Expr K)) : (add es).names = es.flatMap names := names_op _ es

@[simp] theorem names_mul (es : List (Expr K)) : (mul es).names = es.flatMap names := names_op _ es

@[simp] theorem names_sub (u v : Expr K) : (sub u v).names = u.names ++ v.names := by simp [sub]

@[simp] theorem names_pow (u v : Expr K) : (pow u v).names = u.names ++ v.names := by simp [pow]

@[simp] theorem names_apply (f : Func) (u : Expr K) : (apply f u).names = u.names := by simp [apply]

theorem names_subset_of_mem {o : Operator} {es : List (Expr K)} {e : Expr K} (h : e ∈ es) :
    e.names ⊆ (Expr.op o es).names := by
  rw [names_op]
  exact fun y hy ↦ List.mem_flatMap.2 ⟨e, h, hy⟩

theorem names_op_subset {o : Operator} {es : List (Expr K)} {names' : List String}
    (h : ∀ e ∈ es, e.names ⊆ names') : (Expr.op o es).names ⊆ names' := by
  rw [names_op]
  intro y hy
  obtain ⟨e, he, hy⟩ := List.mem_flatMap.1 hy
  exact h e he hy

theorem names_eq_nil_of_isConst {e : Expr K} (h : e.isConst = true) : e.names = [] := by
  obtain ⟨c, rfl⟩ := isConst_iff.1 h
  exact names_const c

theorem dependsOn_eq_false_of_names_subset {x : String} {e e' : Expr K} (h : e'.names ⊆ e.names)
    (he : e.dependsOn x = false) : e'.dependsOn x = false := by
  rw [Bool.eq_false_iff, ne_eq, dependsOn_eq_true_iff] at he ⊢
  exact fun hx ↦ he (h hx)

theorem dependsOn_eq_false_of_mem {x : String} {o : Operator} {es : List (Expr K)} {e : Expr K}
    (h : (Expr.op o es).dependsOn x = false) (he : e ∈ es) : e.dependsOn x = false :=
  dependsOn_eq_false_of_names_subset (names_subset_of_mem he) h

/-! ## Simplification -/

theorem names_subset_of_mem_stepOperands {o : Operator} {es : List (Expr K)} {x : Expr K}
    (h : x ∈ stepOperands o es) : x.names ⊆ (Expr.op o es).names := by
  rw [stepOperands] at h
  split at h
  · rcases mem_flatten h with ⟨h, -⟩ | ⟨inner, hinner, h⟩
    · exact names_subset_of_mem h
    · exact List.Subset.trans (names_subset_of_mem h) (names_subset_of_mem hinner)
  · exact names_subset_of_mem h

section Simplify

variable [Zero K] [One K] [Add K] [Sub K] [Mul K] [BEq K] [Elementary K]

theorem names_simplifyNode_subset {o : Operator} {es : List (Expr K)} {e' : Expr K}
    (h : simplifyNode o es = .ok e') : e'.names ⊆ (Expr.op o es).names := by
  rcases simplifyNode_eq_ok_iff.1 h with ⟨values, a, -, -, rfl⟩ | ⟨-, h⟩
  · rw [names_const]
    exact List.nil_subset _
  rcases simplifySymbolic_cases h with ⟨c, rfl⟩ | hmem | ⟨-, rfl⟩ | ⟨-, run, rfl, -, hmem⟩
  · rw [names_const]
    exact List.nil_subset _
  · exact names_subset_of_mem_stepOperands hmem
  · exact names_op_subset fun e he ↦ names_subset_of_mem_stepOperands he
  · refine names_op_subset fun e he ↦ ?_
    rcases hmem e he with he | he
    · exact names_subset_of_mem_stepOperands he
    · rw [names_eq_nil_of_isConst he]
      exact List.nil_subset _

theorem names_simplify_subset {e e' : Expr K} (h : e.simplify = .ok e') : e'.names ⊆ e.names := by
  induction e using Expr.induction generalizing e' with
  | const c => rw [simplify_const_eq_ok_iff.1 h]; exact List.Subset.refl _
  | var x => rw [simplify_var_eq_ok_iff.1 h]; exact List.Subset.refl _
  | op o es ih =>
    obtain ⟨es', hes', h⟩ := simplify_op_eq_ok_iff.1 h
    refine List.Subset.trans (names_simplifyNode_subset h) (names_op_subset fun x hx ↦ ?_)
    obtain ⟨e, he, hx⟩ := exists_mem_left_of_forall₂ hes' hx
    exact List.Subset.trans (ih e he hx) (names_subset_of_mem he)

end Simplify

/-! ## Derivatives -/

theorem Derives.names_subset [Zero K] [One K] [Neg K] [Sub K] [BEq K] {x : String} {e d : Expr K}
    (h : Derives x e d) : d.names ⊆ e.names := by
  induction h with
  | const | var | powZero | powTrivial | powFree =>
    rw [names_const]
    exact List.nil_subset _
  | @add es ds length_eq _ ih =>
    refine names_op_subset fun d hd ↦ ?_
    obtain ⟨e, -, hmem⟩ := exists_mem_zip length_eq hd
    exact List.Subset.trans (ih e d hmem) (names_subset_of_mem (List.of_mem_zip hmem).1)
  | @mul es ds length_eq _ ih =>
    refine names_op_subset fun t ht ↦ ?_
    obtain ⟨run, rfl, -, hrun⟩ := mem_productTerms ht
    refine names_op_subset fun a ha ↦ ?_
    rcases hrun a ha with h | h | h
    · cases h
    · exact names_subset_of_mem h
    · obtain ⟨e, -, hmem⟩ := exists_mem_zip length_eq h
      exact List.Subset.trans (ih e a hmem) (names_subset_of_mem (List.of_mem_zip hmem).1)
  | sub _ _ ihu ihv =>
    rw [names_sub, names_sub]
    exact List.append_subset.2 ⟨List.subset_append_of_subset_left _ ihu,
      List.subset_append_of_subset_right _ ihv⟩
  | powSelf | lnVar => simp
  | powSame _ _ _ _ _ ih | powConst _ _ _ ih | powBase _ _ _ _ ih | powExponent _ _ _ _ ih
  | ln _ _ ih | sin _ ih | cos _ ih =>
    intro y hy
    have hsub := @ih y
    simp only [names_add, names_mul, names_pow, names_apply, names_const, List.flatMap_cons,
      List.flatMap_nil, List.nil_append, List.append_nil, List.mem_append] at hy ⊢
    tauto
  | powBoth _ _ _ _ _ ihu ihv =>
    intro y hy
    have hsubu := @ihu y
    have hsubv := @ihv y
    simp only [names_add, names_mul, names_pow, names_apply, List.flatMap_cons, List.flatMap_nil,
      List.append_nil, List.mem_append] at hy ⊢
    tauto

section Plan

variable [Zero K] [One K] [Neg K] [Add K] [Sub K] [Mul K] [BEq K] [Elementary K] {e e' : Expr K}

theorem names_differentiate_subset {x : String} (h : e.differentiate x = .ok e') :
    e'.names ⊆ e.names := by
  obtain ⟨d, hderives, hsimplify⟩ := differentiate_eq_ok_iff.1 h
  exact List.Subset.trans (names_simplify_subset hsimplify) hderives.names_subset

theorem names_differentiateAll_subset {plan : List String}
    (h : e.differentiateAll plan = .ok e') : e'.names ⊆ e.names := by
  induction plan generalizing e with
  | nil => rw [← Except.ok.inj h]; exact List.Subset.refl _
  | cons x plan ih =>
    obtain ⟨d, hd, hrest⟩ := differentiateAll_cons_eq_ok_iff.1 h
    exact List.Subset.trans (ih hrest) (names_differentiate_subset hd)

end Plan

end SymbolicDerivatives.Expr
