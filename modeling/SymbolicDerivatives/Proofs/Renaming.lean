import SymbolicDerivatives.Calculation
import SymbolicDerivatives.Proofs.Names
import Mathlib.Logic.Equiv.Basic

/-!
# Names do not matter

`Expr.rename` replaces the names of a tree. Simplification looks at no names, so it commutes with
every renaming. Differentiation compares names: with the variable of the derivative, and when the
operands of a power are compared. A renaming that keeps different names apart does not change the
outcome of such a comparison, so `Derives.rename` carries each rule over to the renamed tree.
-/

namespace SymbolicDerivatives.Expr

variable {K : Type} {h : String → String}

/-! ## Renaming -/

mutual

/-- A tree with `h x` in place of every variable `x`. -/
def rename (h : String → String) : Expr K → Expr K
  | .const c => .const c
  | .var x => .var (h x)
  | .op o operands => .op o (renameList h operands)

def renameList (h : String → String) : List (Expr K) → List (Expr K)
  | [] => []
  | e :: es => e.rename h :: renameList h es

end

@[simp] theorem rename_const (c : K) : (Expr.const c).rename h = .const c := by rw [rename]

@[simp] theorem rename_var (x : String) : (Expr.var x : Expr K).rename h = .var (h x) := by
  rw [rename]

theorem renameList_eq_map (es : List (Expr K)) : renameList h es = es.map (rename h) := by
  induction es with
  | nil => rw [renameList, List.map_nil]
  | cons e es ih => rw [renameList, ih, List.map_cons]

@[simp] theorem rename_op (o : Operator) (es : List (Expr K)) :
    (Expr.op o es).rename h = .op o (es.map (rename h)) := by
  rw [rename, renameList_eq_map]

@[simp] theorem rename_add (es : List (Expr K)) :
    (add es).rename h = add (es.map (rename h)) := rename_op .add es

@[simp] theorem rename_mul (es : List (Expr K)) :
    (mul es).rename h = mul (es.map (rename h)) := rename_op .mul es

@[simp] theorem rename_sub (u v : Expr K) :
    (sub u v).rename h = sub (u.rename h) (v.rename h) := rename_op .sub [u, v]

@[simp] theorem rename_pow (u v : Expr K) :
    (pow u v).rename h = pow (u.rename h) (v.rename h) := rename_op .pow [u, v]

@[simp] theorem rename_apply (f : Func) (u : Expr K) :
    (apply f u).rename h = apply f (u.rename h) := rename_op (.fn f) [u]

/-! ## Constants -/

@[simp] theorem const?_rename (e : Expr K) : (e.rename h).const? = e.const? := by
  cases e <;> simp

@[simp] theorem isConst_rename (e : Expr K) : (e.rename h).isConst = e.isConst := by
  rw [isConst, isConst, const?_rename]

@[simp] theorem isValue_rename [BEq K] (c : K) (e : Expr K) :
    (e.rename h).isValue c = e.isValue c := by
  cases e <;> simp [isValue]

/-! ## Simplification -/

theorem flatten_map_rename (o : Operator) (es : List (Expr K)) :
    flatten o (es.map (rename h)) = (flatten o es).map (rename h) := by
  rw [flatten, flatten, List.flatMap_map, List.map_flatMap]
  refine List.flatMap_congr fun e _ ↦ ?_
  cases e with
  | const c => simp
  | var x => simp
  | op p inner =>
    rw [rename_op]
    by_cases hp : p = o <;> simp [hp]

theorem collapse_map_rename (o : Operator) (unit : K) (es : List (Expr K)) :
    collapse o unit (es.map (rename h)) = (collapse o unit es).rename h := by
  match es with
  | [] => rw [List.map_nil, collapse, rename_const]
  | [e] => rfl
  | e :: e' :: rest => exact (rename_op o (e :: e' :: rest)).symm

theorem filter_map_rename {test : Expr K → Bool} (htest : ∀ e, test (e.rename h) = test e)
    (es : List (Expr K)) : (es.map (rename h)).filter test = (es.filter test).map (rename h) := by
  have hcomp : test ∘ rename h = test := funext htest
  rw [List.filter_map, hcomp]

theorem looseConstants_map_rename [BEq K] (unit : K) (es : List (Expr K)) :
    looseConstants unit (es.map (rename h)) = looseConstants unit es := by
  rw [looseConstants, looseConstants, filter_map_rename fun e ↦ by rw [isValue_rename],
    List.filterMap_map]
  exact List.filterMap_congr fun e _ ↦ const?_rename e

theorem gather_map_rename [BEq K] (unit : K) (fold : List K → K) (es : List (Expr K)) :
    gather unit fold (es.map (rename h)) = (gather unit fold es).map (rename h) := by
  rw [gather, gather, looseConstants_map_rename, filter_map_rename fun e ↦ by rw [isValue_rename],
    filter_map_rename fun e ↦ by rw [isConst_rename]]
  split
  · split
    · rfl
    · rw [List.map_cons, rename_const]
  · rfl

theorem simplifySum_map_rename [Zero K] [Add K] [BEq K] (es : List (Expr K)) :
    simplifySum (es.map (rename h)) = (simplifySum es).rename h := by
  rw [simplifySum_eq, simplifySum_eq, gather_map_rename, collapse_map_rename]

theorem simplifyProduct_map_rename [Zero K] [One K] [Mul K] [BEq K] (es : List (Expr K)) :
    simplifyProduct (es.map (rename h)) = (simplifyProduct es).rename h := by
  have hzero : (es.map (rename h)).any (·.isValue 0) = es.any (·.isValue 0) := by
    rw [List.any_map]
    exact congrArg es.any (funext fun e ↦ isValue_rename 0 e)
  rw [simplifyProduct_eq, simplifyProduct_eq, hzero, looseConstants_map_rename, gather_map_rename,
    collapse_map_rename, apply_ite (rename h), apply_ite (rename h), rename_const]

theorem simplifyPower_rename [Zero K] [One K] [BEq K] (u v : Expr K) :
    simplifyPower (u.rename h) (v.rename h) = (simplifyPower u v).rename h := by
  rw [simplifyPower, simplifyPower]
  simp only [isValue_rename, apply_ite (rename h), rename_const, rename_pow]

section Simplify

variable [Zero K] [One K] [Add K] [Mul K] [BEq K]

/-- The rules look at the constants among the operands, and at no names. -/
theorem simplifySymbolic_map_rename (o : Operator) (es : List (Expr K)) :
    simplifySymbolic o (es.map (rename h)) = rename h <$> simplifySymbolic o es := by
  match o, es with
  | .add, es => exact congrArg Except.ok (simplifySum_map_rename es)
  | .mul, es => exact congrArg Except.ok (simplifyProduct_map_rename es)
  | .pow, [u, v] => exact congrArg Except.ok (simplifyPower_rename u v)
  | .pow, [] | .pow, [_] | .pow, _ :: _ :: _ :: _ => rfl
  | .sub, [u, v] =>
    refine congrArg Except.ok ?_
    rw [isValue_rename, apply_ite (rename h), rename_sub]
  | .sub, [] | .sub, [_] | .sub, _ :: _ :: _ :: _ => rfl
  | .fn f, es => exact congrArg Except.ok (rename_op (.fn f) es).symm
  | .other s, es => exact congrArg Except.ok (rename_op (.other s) es).symm

variable [Sub K] [Elementary K]

theorem simplifyNode_map_rename (o : Operator) (es : List (Expr K)) :
    simplifyNode o (es.map (rename h)) = rename h <$> simplifyNode o es := by
  have hstep : stepOperands o (es.map (rename h)) = (stepOperands o es).map (rename h) := by
    rw [stepOperands, stepOperands, flatten_map_rename, apply_ite (List.map (rename h))]
  have hvalues : ((stepOperands o es).map (rename h)).mapM const? =
      (stepOperands o es).mapM const? := by
    rw [List.mapM_map]
    exact congrArg (List.mapM · _) (funext const?_rename)
  rw [simplifyNode, simplifyNode, ← stepOperands, ← stepOperands, hstep, hvalues]
  cases (stepOperands o es).mapM const? with
  | none => exact simplifySymbolic_map_rename o _
  | some values => cases o.apply values <;> simp

/-- Simplification commutes with renaming, on every tree and for every renaming. -/
theorem simplify_rename (e : Expr K) : (e.rename h).simplify = rename h <$> e.simplify := by
  induction e using Expr.induction with
  | const c => rw [rename_const, simplify_const]; simp
  | var x => rw [rename_var, simplify_var, simplify_var]; simp
  | op o es ih =>
    have hoperands : (es.map (rename h)).mapM simplify =
        List.map (rename h) <$> es.mapM simplify := by
      rw [List.mapM_map]
      exact mapM_eq_map_mapM ih
    rw [rename_op, simplify_op, simplify_op, hoperands]
    cases es.mapM simplify with
    | error failure => rfl
    | ok es' => exact simplifyNode_map_rename o es'

end Simplify

/-! ## Comparisons of names -/

theorem names_rename (e : Expr K) : (e.rename h).names = e.names.map h := by
  induction e using Expr.induction with
  | const c => rw [rename_const, names_const, List.map_nil]
  | var x => rw [rename_var, names_var, names_var, List.map_singleton]
  | op o es ih =>
    rw [rename_op, names_op, names_op, List.flatMap_map, List.map_flatMap]
    exact List.flatMap_congr ih

theorem dependsOn_rename (hinj : Function.Injective h) (x : String) (e : Expr K) :
    (e.rename h).dependsOn (h x) = e.dependsOn x := by
  rw [Bool.eq_iff_iff, dependsOn_eq_true_iff, dependsOn_eq_true_iff, names_rename,
    List.mem_map_of_injective hinj]

theorem rename_eq_var_iff (hinj : Function.Injective h) {x : String} {e : Expr K} :
    e.rename h = .var (h x) ↔ e = .var x := by
  cases e <;> simp [hinj.eq_iff]

theorem sameList_map_rename_of [BEq K] {es : List (Expr K)}
    (hes : ∀ e ∈ es, ∀ f, (e.rename h).same (f.rename h) = e.same f) (fs : List (Expr K)) :
    sameList (es.map (rename h)) (fs.map (rename h)) = sameList es fs := by
  induction es generalizing fs with
  | nil => cases fs <;> simp [sameList]
  | cons e es ih =>
    obtain ⟨he, hes⟩ := List.forall_mem_cons.1 hes
    cases fs with
    | nil => simp [sameList]
    | cons f fs => rw [List.map_cons, List.map_cons, sameList, sameList, he, ih hes]

theorem same_rename [BEq K] (hinj : Function.Injective h) (e f : Expr K) :
    (e.rename h).same (f.rename h) = e.same f := by
  induction e using Expr.induction generalizing f with
  | const c => cases f <;> simp [same]
  | var x => cases f <;> simp [same, hinj.eq_iff]
  | op o es ih =>
    cases f with
    | op p fs => rw [rename_op, rename_op, same, same, sameList_map_rename_of ih]
    | _ => simp [same]

/-! ## Derivatives -/

theorem productTerms_map_rename (before es ds : List (Expr K)) :
    productTerms (before.map (rename h)) (es.map (rename h)) (ds.map (rename h)) =
      (productTerms before es ds).map (rename h) := by
  induction es generalizing before ds with
  | nil => simp [productTerms]
  | cons e es ih =>
    cases ds with
    | nil => simp [productTerms]
    | cons d ds =>
      have hbefore : before.map (rename h) ++ [e.rename h] = (before ++ [e]).map (rename h) := by
        rw [List.map_append, List.map_singleton]
      rw [List.map_cons, List.map_cons, productTerms, productTerms, hbefore, ih, List.map_cons,
        rename_mul, List.map_cons, List.map_append]

/-- What holds of the renamed pairs of two lists holds of the pairs of the renamed lists. -/
theorem forall_mem_zip_map_rename {R : Expr K → Expr K → Prop} {es ds : List (Expr K)}
    (hall : ∀ e d, (e, d) ∈ es.zip ds → R (e.rename h) (d.rename h)) :
    ∀ e d, (e, d) ∈ (es.map (rename h)).zip (ds.map (rename h)) → R e d := by
  intro e d hmem
  rw [List.zip_map] at hmem
  obtain ⟨⟨u, du⟩, hpair, heq⟩ := List.mem_map.1 hmem
  cases heq
  exact hall u du hpair

section Derive

variable [Zero K] [One K] [Neg K] [Sub K] [BEq K]

/-- Every rule of differentiation applies to the renamed tree, and gives the renamed derivative. -/
theorem Derives.rename (hinj : Function.Injective h) {x : String} {e d : Expr K}
    (hd : Derives x e d) : Derives (h x) (e.rename h) (d.rename h) := by
  have hvar {u : Expr K} : u.rename h = .var (h x) ↔ u = .var x := rename_eq_var_iff hinj
  induction hd with
  | const c => simpa using Derives.const c
  | var y => simpa [hinj.eq_iff] using Derives.var (x := h x) (h y)
  | add length_eq _ ih =>
    rw [rename_add, rename_add]
    exact .add (by simpa using length_eq) (forall_mem_zip_map_rename ih)
  | sub _ _ ihu ihv =>
    rw [rename_sub, rename_sub]
    exact .sub ihu ihv
  | mul length_eq _ ih =>
    rw [rename_mul, rename_add, ← productTerms_map_rename]
    exact .mul (by simpa using length_eq) (forall_mem_zip_map_rename ih)
  | powSelf => simpa using Derives.powSelf (x := h x)
  | powSame hu hv hself hsame _ ih =>
    simpa using Derives.powSame ((dependsOn_rename hinj x _).trans hu)
      ((dependsOn_rename hinj x _).trans hv) (by rwa [hvar, hvar])
      ((same_rename hinj _ _).trans hsame) ih
  | powBoth hu hv hdiffer _ _ ihu ihv =>
    simpa using Derives.powBoth ((dependsOn_rename hinj x _).trans hu)
      ((dependsOn_rename hinj x _).trans hv) ((same_rename hinj _ _).trans hdiffer) ihu ihv
  | powZero hu hc => simpa using Derives.powZero ((dependsOn_rename hinj x _).trans hu) hc
  | powConst hu hc _ ih =>
    simpa using Derives.powConst ((dependsOn_rename hinj x _).trans hu) hc ih
  | powBase hu hv hconst _ ih =>
    simpa using Derives.powBase ((dependsOn_rename hinj x _).trans hu)
      ((dependsOn_rename hinj x _).trans hv) ((isConst_rename _).trans hconst) ih
  | powTrivial hu hv hvalue =>
    simpa using Derives.powTrivial ((dependsOn_rename hinj x _).trans hu)
      ((dependsOn_rename hinj x _).trans hv) (by simpa using hvalue)
  | powExponent hu hv hvalue _ ih =>
    simpa using Derives.powExponent ((dependsOn_rename hinj x _).trans hu)
      ((dependsOn_rename hinj x _).trans hv) (by simpa using hvalue) ih
  | powFree hu hv =>
    simpa using Derives.powFree ((dependsOn_rename hinj x _).trans hu)
      ((dependsOn_rename hinj x _).trans hv)
  | lnVar => simpa using Derives.lnVar (x := h x)
  | ln hu _ ih => simpa using Derives.ln (by rwa [ne_eq, hvar]) ih
  | sin _ ih => simpa using Derives.sin ih
  | cos _ ih => simpa using Derives.cos ih

end Derive

/-! ## Plans and values -/

section Plan

variable [Zero K] [One K] [Neg K] [Add K] [Sub K] [Mul K] [BEq K] [Elementary K] {e e' : Expr K}

theorem differentiate_rename (hinj : Function.Injective h) {x : String}
    (hx : e.differentiate x = .ok e') :
    (e.rename h).differentiate (h x) = .ok (e'.rename h) := by
  obtain ⟨d, hderives, hsimplify⟩ := differentiate_eq_ok_iff.1 hx
  refine differentiate_eq_ok_iff.2 ⟨d.rename h, hderives.rename hinj, ?_⟩
  rw [simplify_rename, hsimplify]
  rfl

theorem differentiateAll_rename (hinj : Function.Injective h) {plan : List String}
    (hplan : e.differentiateAll plan = .ok e') :
    (e.rename h).differentiateAll (plan.map h) = .ok (e'.rename h) := by
  induction plan generalizing e with
  | nil => rw [← Except.ok.inj hplan]; rfl
  | cons x plan ih =>
    obtain ⟨d, hd, hrest⟩ := differentiateAll_cons_eq_ok_iff.1 hplan
    exact differentiateAll_cons_eq_ok_iff.2 ⟨d.rename h, differentiate_rename hinj hd, ih hrest⟩

end Plan

theorem evaluate_rename [Zero K] [One K] [Add K] [Sub K] [Mul K] [Elementary K]
    (point : String → K) (e : Expr K) :
    (e.rename h).evaluate point = e.evaluate fun x ↦ point (h x) := by
  induction e using Expr.induction with
  | const c => rw [rename_const, evaluate_const, evaluate_const]
  | var x => rw [rename_var, evaluate_var, evaluate_var]
  | op o es ih =>
    have hoperands : (es.map (rename h)).mapM (·.evaluate point) =
        es.mapM (·.evaluate fun x ↦ point (h x)) := by
      rw [List.mapM_map]
      exact mapM_congr ih
    rw [rename_op, evaluate_op, evaluate_op, hoperands]

/-- **Names do not matter.** A renaming that keeps different names apart carries the simplified
tree, the derivative and the end of a plan over to those of the renamed tree. At points that give
the old and the new names the same values, the end of the plan has the same value before and after
renaming, and so the same result. -/
theorem differentiateAll_equivariant (hinj : Function.Injective h) {e : Expr Float}
    (he : e.WellFormed 0) (x : String) (plan : List String) :
    (∃ s, e.simplify = .ok s ∧ (e.rename h).simplify = .ok (s.rename h)) ∧
    (∃ d, e.derivative x = .ok d ∧ (e.rename h).derivative (h x) = .ok (d.rename h)) ∧
    ∃ t, e.differentiateAll plan = .ok t ∧
      (e.rename h).differentiateAll (plan.map h) = .ok (t.rename h) ∧
      ∀ p q : Point, (∀ y ∈ e.names, q.get (h y) = p.get y) →
        ∃ a, t.evaluate p.get = .ok a ∧ (t.rename h).evaluate q.get = .ok a ∧
          resultText <$> (t.rename h).evaluate q.get = .ok (resultText a) := by
  obtain ⟨s, hs⟩ := he.exists_simplify_eq_ok
  obtain ⟨d, hd⟩ := he.exists_derivative_eq_ok x
  obtain ⟨t, ht⟩ := he.exists_differentiateAll_eq_ok (Nat.zero_le 2) plan
  refine ⟨⟨s, hs, by rw [simplify_rename, hs]; rfl⟩,
    ⟨d, hd, ((derivative_eq_ok_iff.1 hd).rename hinj).derivative_eq⟩,
    t, ht, differentiateAll_rename hinj ht, fun p q hagree ↦ ?_⟩
  have hvalue : t.evaluate p.get = .ok (t.value p.get) :=
    (he.differentiateAll (Nat.zero_le 2) ht).evaluable.evaluate_eq
  have hrenamed : (t.rename h).evaluate q.get = t.evaluate p.get := by
    rw [evaluate_rename]
    exact evaluate_congr fun y hy ↦ hagree y (names_differentiateAll_subset ht hy)
  refine ⟨_, hvalue, hrenamed.trans hvalue, ?_⟩
  rw [hrenamed, hvalue]
  rfl

/-- Two names are exchanged. -/
theorem differentiateAll_equivariant_of_swap :
    let h := Equiv.swap "x" "y"
    let e : Expr Float := mul [.var "x", .var "y", .var "y"]
    let t : Expr Float := add [.var "x", .var "x"]
    let p : Point := ⟨[("x", 2), ("y", 3)]⟩
    let q : Point := ⟨[("x", 3), ("y", 2)]⟩
    Function.Injective h ∧ e.WellFormed 0 ∧ (∀ y ∈ e.names, q.get (h y) = p.get y) ∧
      e.differentiateAll ["y", "y"] = .ok t ∧
      (e.rename h).differentiateAll ["x", "x"] = .ok (t.rename h) ∧
      ∃ a, t.evaluate p.get = .ok a ∧ (t.rename h).evaluate q.get = .ok a := by
  intro h e t p q
  have he : e.WellFormed 0 := by decide
  have hagree : ∀ y ∈ e.names, q.get (h y) = p.get y := by
    have hnames : e.names = ["x", "y", "y"] := rfl
    rw [hnames]
    decide +kernel
  have ht : e.differentiateAll ["y", "y"] = .ok t := rfl
  obtain ⟨-, -, t', ht', hrename, hvalue⟩ :=
    differentiateAll_equivariant h.injective he "y" ["y", "y"]
  obtain rfl : t = t' := Except.ok.inj (ht.symm.trans ht')
  obtain ⟨a, ha, ha', -⟩ := hvalue p q hagree
  exact ⟨h.injective, he, hagree, ht, hrename, a, ha, ha'⟩

end SymbolicDerivatives.Expr
