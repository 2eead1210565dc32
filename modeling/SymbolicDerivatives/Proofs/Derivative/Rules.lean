import SymbolicDerivatives.Expr.Derivative
import SymbolicDerivatives.Proofs.Nodes
import SymbolicDerivatives.Proofs.Traversal

/-!
# The rules of differentiation

Differentiation chooses a rule by the operator and, for a power, by the operands in which the
variable occurs and by what they are equal to. `Expr.Derives` says the same as a relation, with one
constructor for each rule and, as its hypotheses, the conditions under which the rule is chosen.
`derivative_eq_ok_iff` says that the two agree on every tree. What derivatives have in common is
then proved by induction on the relation, rule by rule.

Operands are compared by `==`. A tree that is equal to a variable is that variable, whatever the
test of the constants is, but two equal operands need not be the same.
-/

namespace SymbolicDerivatives.Expr

variable {K : Type}

theorem beq_var_iff [BEq K] {e : Expr K} {x : String} : (e == .var x) = true ↔ e = .var x := by
  change e.same (.var x) = true ↔ e = .var x
  cases e <;> simp [same]

theorem isConst_eq_false_of_dependsOn {e : Expr K} {x : String} (h : e.dependsOn x = true) :
    e.isConst = false := by
  cases e with
  | const c => rw [dependsOn_const] at h; cases h
  | _ => rfl

/-! ## The terms of a product -/

theorem length_productTerms (before es ds : List (Expr K)) :
    (productTerms before es ds).length = min es.length ds.length := by
  induction es generalizing before ds with
  | nil => simp [productTerms]
  | cons e es ih =>
    cases ds with
    | nil => simp [productTerms]
    | cons d ds =>
      rw [productTerms, List.length_cons, ih, List.length_cons, List.length_cons,
        Nat.add_min_add_right]

/-- A term of the product rule is the product of the derivative of one operand and the others. -/
theorem exists_of_mem_productTerms {before es ds : List (Expr K)} {t : Expr K}
    (h : t ∈ productTerms before es ds) :
    ∃ left e right d, es = left ++ e :: right ∧ (e, d) ∈ es.zip ds ∧
      t = mul (d :: (before ++ (left ++ right))) := by
  induction es generalizing before ds with
  | nil => simp [productTerms] at h
  | cons e es ih =>
    cases ds with
    | nil => simp [productTerms] at h
    | cons d ds =>
      rw [productTerms, List.mem_cons] at h
      rcases h with rfl | h
      · exact ⟨[], e, es, d, rfl, List.mem_cons_self, rfl⟩
      · obtain ⟨left, e', right, d', rfl, hmem, rfl⟩ := ih h
        refine ⟨e :: left, e', right, d', rfl, List.mem_cons_of_mem _ hmem, ?_⟩
        rw [List.append_assoc, List.singleton_append, List.cons_append]

/-- A term of the product rule is a product of as many operands as there were, each of them an
operand or a derivative. -/
theorem mem_productTerms {before es ds : List (Expr K)} {t : Expr K}
    (h : t ∈ productTerms before es ds) :
    ∃ run, t = mul run ∧ run.length = before.length + es.length ∧
      ∀ e ∈ run, e ∈ before ∨ e ∈ es ∨ e ∈ ds := by
  obtain ⟨left, e, right, d, rfl, hmem, rfl⟩ := exists_of_mem_productTerms h
  have hd := (List.of_mem_zip hmem).2
  refine ⟨_, rfl, by simp; omega, fun a ha ↦ ?_⟩
  simp only [List.mem_cons, List.mem_append] at ha ⊢
  rcases ha with rfl | ha
  · exact .inr (.inr hd)
  · tauto

variable [Zero K] [One K] [Neg K] [Sub K] [BEq K] {x : String}

/-! ## One constructor for each rule -/

/-- `Derives x e d`: the rules give `d` as the derivative of `e` with respect to `x`. -/
inductive Derives (x : String) : Expr K → Expr K → Prop
  | const (c : K) : Derives x (.const c) (.const 0)
  | var (y : String) : Derives x (.var y) (.const (if y == x then 1 else 0))
  | add {es ds : List (Expr K)} (length_eq : es.length = ds.length)
      (operands : ∀ e d, (e, d) ∈ es.zip ds → Derives x e d) : Derives x (add es) (add ds)
  | sub {u v du dv : Expr K} (left : Derives x u du) (right : Derives x v dv) :
      Derives x (sub u v) (sub du dv)
  | mul {es ds : List (Expr K)} (length_eq : es.length = ds.length)
      (operands : ∀ e d, (e, d) ∈ es.zip ds → Derives x e d) :
      Derives x (mul es) (add (productTerms [] es ds))
  /-- The variable to the power of itself. -/
  | powSelf : Derives x (pow (.var x) (.var x))
      (mul [add [apply .ln (.var x), .const 1], pow (.var x) (.var x)])
  /-- A tree to the power of itself. -/
  | powSame {u v du : Expr K} (hu : u.dependsOn x = true) (hv : v.dependsOn x = true)
      (hself : ¬(u = .var x ∧ v = .var x)) (hsame : (u == v) = true) (base : Derives x u du) :
      Derives x (pow u v) (mul [add [apply .ln u, .const 1], pow u u, du])
  /-- The variable occurs in both operands. -/
  | powBoth {u v du dv : Expr K} (hu : u.dependsOn x = true) (hv : v.dependsOn x = true)
      (hdiffer : (u == v) = false) (base : Derives x u du) (exponent : Derives x v dv) :
      Derives x (pow u v)
        (mul [pow u v, add [mul [dv, apply .ln u], mul [v, pow u (.const (-1)), du]]])
  /-- The exponent is zero. -/
  | powZero {u : Expr K} {c : K} (hu : u.dependsOn x = true) (hc : (c == 0) = true) :
      Derives x (pow u (.const c)) (.const 0)
  /-- The exponent is another constant. -/
  | powConst {u du : Expr K} {c : K} (hu : u.dependsOn x = true) (hc : (c == 0) = false)
      (base : Derives x u du) :
      Derives x (pow u (.const c)) (mul [.const c, pow u (.const (c - 1)), du])
  /-- The variable occurs in the base only, and the exponent is no constant. -/
  | powBase {u v du : Expr K} (hu : u.dependsOn x = true) (hv : v.dependsOn x = false)
      (hconst : v.isConst = false) (base : Derives x u du) :
      Derives x (pow u v) (mul [v, pow u (add [v, .const (-1)]), du])
  /-- The variable occurs in the exponent only, and the base is zero or one. -/
  | powTrivial {u v : Expr K} (hu : u.dependsOn x = false) (hv : v.dependsOn x = true)
      (hvalue : (u.isValue 0 || u.isValue 1) = true) : Derives x (pow u v) (.const 0)
  /-- The variable occurs in the exponent only, and the base is another tree. -/
  | powExponent {u v dv : Expr K} (hu : u.dependsOn x = false) (hv : v.dependsOn x = true)
      (hvalue : (u.isValue 0 || u.isValue 1) = false) (exponent : Derives x v dv) :
      Derives x (pow u v) (mul [pow u v, apply .ln u, dv])
  /-- The variable occurs in neither operand. -/
  | powFree {u v : Expr K} (hu : u.dependsOn x = false) (hv : v.dependsOn x = false) :
      Derives x (pow u v) (.const 0)
  /-- The logarithm of the variable. -/
  | lnVar : Derives x (apply .ln (.var x)) (pow (.var x) (.const (-1)))
  | ln {u du : Expr K} (hu : u ≠ .var x) (argument : Derives x u du) :
      Derives x (apply .ln u) (mul [pow u (.const (-1)), du])
  | sin {u du : Expr K} (argument : Derives x u du) :
      Derives x (apply .sin u) (mul [apply .cos u, du])
  | cos {u du : Expr K} (argument : Derives x u du) :
      Derives x (apply .cos u) (mul [.const (-1), apply .sin u, du])

/-! ## The relation agrees with the function -/

/-- The rules for powers as one equation, for the exponents that are constants and the others. -/
theorem derivative_pow (u v : Expr K) : (pow u v).derivative x =
    if u.dependsOn x && v.dependsOn x then
      if u == .var x && v == .var x then
        .ok (mul [add [apply .ln u, .const 1], pow u u])
      else if u == v then
        (fun du ↦ mul [add [apply .ln u, .const 1], pow u u, du]) <$> u.derivative x
      else do
        let dv ← v.derivative x
        let du ← u.derivative x
        return mul [pow u v, add [mul [dv, apply .ln u], mul [v, pow u (.const (-1)), du]]]
    else if u.dependsOn x then
      match v with
      | .const c =>
        if c == 0 then .ok (.const 0)
        else (fun du ↦ mul [.const c, pow u (.const (c - 1)), du]) <$> u.derivative x
      | v => (fun du ↦ mul [v, pow u (add [v, .const (-1)]), du]) <$> u.derivative x
    else if v.dependsOn x then
      if u.isValue 0 || u.isValue 1 then .ok (.const 0)
      else (fun dv ↦ mul [pow u v, apply .ln u, dv]) <$> v.derivative x
    else .ok (.const 0) := by
  cases v <;> rfl

theorem Derives.derivative_eq {e d : Expr K} (h : Derives x e d) : e.derivative x = .ok d := by
  induction h with
  | const c => rw [derivative]
  | var y => rw [derivative]
  | @add es ds length_eq _ ih =>
    have hds : es.mapM (derivative x) = .ok ds :=
      mapM_eq_ok_iff.2 (List.forall₂_iff_zip.2 ⟨length_eq, fun h ↦ ih _ _ h⟩)
    rw [Expr.add, derivative, derivativeList_eq_mapM, hds]
    rfl
  | sub _ _ ihu ihv =>
    rw [Expr.sub, derivative, ihu, ihv]
    rfl
  | @mul es ds length_eq _ ih =>
    have hds : es.mapM (derivative x) = .ok ds :=
      mapM_eq_ok_iff.2 (List.forall₂_iff_zip.2 ⟨length_eq, fun h ↦ ih _ _ h⟩)
    rw [Expr.mul, derivative, derivativeList_eq_mapM, hds]
    rfl
  | powSelf => simp [derivative_pow, beq_var_iff]
  | powSame hu hv hself hsame _ ih => simp [derivative_pow, beq_var_iff, hu, hv, hself, hsame, ih]
  | @powBoth u v du dv hu hv hdiffer _ _ ihu ihv =>
    -- operands that differ are not both the variable
    have hself : (u == .var x && v == .var x) = false := by
      rw [Bool.eq_false_iff]
      intro h
      rw [Bool.and_eq_true, beq_var_iff, beq_var_iff] at h
      rw [h.1, h.2, beq_var_iff.2 rfl] at hdiffer
      cases hdiffer
    simp only [derivative_pow, hu, hv, hself, hdiffer, ihu, ihv]
    rfl
  | powZero hu hc => simp [derivative_pow, hu, hc]
  | powConst hu hc _ ih => simp [derivative_pow, hu, hc, ih]
  | @powBase u v du hu hv hconst _ ih =>
    cases v with
    | const c => cases hconst
    | _ => rw [derivative_pow]; simp [hu, hv, ih]
  | powTrivial hu hv hvalue => simp [derivative_pow, hu, hv, hvalue]
  | powExponent hu hv hvalue _ ih => simp [derivative_pow, hu, hv, hvalue, ih]
  | powFree hu hv => simp [derivative_pow, hu, hv]
  | lnVar => simp [apply, derivative, beq_var_iff]
  | ln hu _ ih =>
    have hvar : ¬(_ == Expr.var x) = true := fun h ↦ hu (beq_var_iff.1 h)
    rw [apply, derivative, if_neg hvar, ih]
    rfl
  | sin _ ih => rw [apply, derivative, ih]; rfl
  | cos _ ih => rw [apply, derivative, ih]; rfl

theorem derives_pow_of_derivative_eq_ok {u v d : Expr K}
    (ihu : ∀ d, u.derivative x = .ok d → Derives x u d)
    (ihv : ∀ d, v.derivative x = .ok d → Derives x v d) (h : (pow u v).derivative x = .ok d) :
    Derives x (pow u v) d := by
  rw [derivative_pow] at h
  cases hu : u.dependsOn x <;> cases hv : v.dependsOn x <;>
    simp only [hu, hv, Bool.and_true, Bool.and_false, Bool.false_eq_true, if_true, if_false] at h
  · -- the variable occurs in neither operand
    rw [← Except.ok.inj h]
    exact .powFree hu hv
  · -- the variable occurs in the exponent only
    split at h
    · next hvalue =>
      rw [← Except.ok.inj h]
      exact .powTrivial hu hv hvalue
    · next hvalue =>
      obtain ⟨dv, hdv, rfl⟩ := map_eq_ok_iff.1 h
      exact .powExponent hu hv (Bool.eq_false_iff.2 hvalue) (ihv dv hdv)
  · -- the variable occurs in the base only
    cases v with
    | const c =>
      simp only at h
      split at h
      · next hc =>
        rw [← Except.ok.inj h]
        exact .powZero hu hc
      · next hc =>
        obtain ⟨du, hdu, rfl⟩ := map_eq_ok_iff.1 h
        exact .powConst hu (Bool.eq_false_iff.2 hc) (ihu du hdu)
    | var | op =>
      obtain ⟨du, hdu, rfl⟩ := map_eq_ok_iff.1 h
      exact .powBase hu hv rfl (ihu du hdu)
  · -- the variable occurs in both operands
    split at h
    · next hself =>
      rw [Bool.and_eq_true, beq_var_iff, beq_var_iff] at hself
      rw [← Except.ok.inj h, hself.1, hself.2]
      exact .powSelf
    next hself =>
    rw [Bool.and_eq_true, beq_var_iff, beq_var_iff] at hself
    split at h
    · next hsame =>
      obtain ⟨du, hdu, rfl⟩ := map_eq_ok_iff.1 h
      exact .powSame hu hv hself hsame (ihu du hdu)
    · next hdiffer =>
      obtain ⟨dv, hdv, h⟩ := bind_eq_ok_iff.1 h
      obtain ⟨du, hdu, h⟩ := bind_eq_ok_iff.1 h
      rw [← Except.ok.inj h]
      exact .powBoth hu hv (Bool.eq_false_iff.2 hdiffer) (ihu du hdu) (ihv dv hdv)

/-- The relation holds of a tree and its derivative, and of no other trees. -/
theorem derivative_eq_ok_iff {e d : Expr K} : e.derivative x = .ok d ↔ Derives x e d := by
  refine ⟨fun h ↦ ?_, Derives.derivative_eq⟩
  induction e using Expr.induction generalizing d with
  | const c =>
    rw [derivative] at h
    rw [← Except.ok.inj h]
    exact .const c
  | var y =>
    rw [derivative] at h
    rw [← Except.ok.inj h]
    exact .var y
  | op o es ih =>
    have hall : ∀ ds, derivativeList x es = .ok ds →
        es.length = ds.length ∧ ∀ e d, (e, d) ∈ es.zip ds → Derives x e d := by
      intro ds hds
      rw [derivativeList_eq_mapM, mapM_eq_ok_iff, List.forall₂_iff_zip] at hds
      exact ⟨hds.1, fun e d hmem ↦ ih e (List.of_mem_zip hmem).1 (hds.2 hmem)⟩
    match o, es, ih, h with
    | .add, es, ih, h =>
      rw [derivative] at h
      obtain ⟨ds, hds, h⟩ := bind_eq_ok_iff.1 h
      rw [← Except.ok.inj h]
      exact .add (hall ds hds).1 (hall ds hds).2
    | .mul, es, ih, h =>
      rw [derivative] at h
      obtain ⟨ds, hds, h⟩ := bind_eq_ok_iff.1 h
      rw [← Except.ok.inj h]
      exact .mul (hall ds hds).1 (hall ds hds).2
    | .sub, [u, v], ih, h =>
      rw [derivative] at h
      obtain ⟨du, hdu, h⟩ := bind_eq_ok_iff.1 h
      obtain ⟨dv, hdv, h⟩ := bind_eq_ok_iff.1 h
      rw [← Except.ok.inj h]
      exact .sub (ih u (by simp) hdu) (ih v (by simp) hdv)
    | .pow, [u, v], ih, h =>
      exact derives_pow_of_derivative_eq_ok (fun d ↦ ih u (by simp)) (fun d ↦ ih v (by simp)) h
    | .fn .ln, [u], ih, h =>
      rw [derivative] at h
      split at h
      · next hu =>
        rw [← Except.ok.inj h, beq_var_iff.1 hu]
        exact .lnVar
      · next hu =>
        obtain ⟨du, hdu, h⟩ := bind_eq_ok_iff.1 h
        rw [← Except.ok.inj h]
        exact .ln (fun hvar ↦ hu (beq_var_iff.2 hvar)) (ih u (by simp) hdu)
    | .fn .sin, [u], ih, h =>
      rw [derivative] at h
      obtain ⟨du, hdu, h⟩ := bind_eq_ok_iff.1 h
      rw [← Except.ok.inj h]
      exact .sin (ih u (by simp) hdu)
    | .fn .cos, [u], ih, h =>
      rw [derivative] at h
      obtain ⟨du, hdu, h⟩ := bind_eq_ok_iff.1 h
      rw [← Except.ok.inj h]
      exact .cos (ih u (by simp) hdu)
    | .other s, es, ih, h => cases h

/-! ## What differentiation keeps -/

/-- The property `node` holds of the nodes that the rules make, if it holds of the node that they
are made for. The rules for an exponent that is no constant make a logarithm of the base. -/
structure KeptByRules (node : Operator → List (Expr K) → Prop) : Prop where
  pair {o : Operator} (ho : o.isNary = true) (u v : Expr K) (es : List (Expr K)) :
    node o (u :: v :: es)
  run {o p : Operator} {es fs : List (Expr K)} (ho : o.isNary = true) (hp : p.isNary = true)
    (hlen : es.length ≤ fs.length) (h : node o es) : node p fs
  sub (u v : Expr K) : node .sub [u, v]
  sin (u : Expr K) : node (.fn .sin) [u]
  cos (u : Expr K) : node (.fn .cos) [u]
  inverse {u : Expr K} (h : node (.fn .ln) [u]) : node .pow [u, .const (-1)]
  ln {u v : Expr K} (hv : v.isConst = false) (h : node .pow [u, v]) : node (.fn .ln) [u]
  pow {u v : Expr K} (hv : v.isConst = false) (h : node .pow [u, v]) (w : Expr K) :
    node .pow [u, w]
  lower {u : Expr K} {c : K} (hc : (c == 0) = false) (h : node .pow [u, .const c]) :
    node .pow [u, .const (c - 1)]

/-- Differentiation keeps a property of every node that its rules keep. -/
theorem Derives.everywhere {node : Operator → List (Expr K) → Prop} (hnode : KeptByRules node)
    {e d : Expr K} (h : Derives x e d) (he : e.Everywhere node) : d.Everywhere node := by
  have hsum (u v : Expr K) (es : List (Expr K)) : node .add (u :: v :: es) := hnode.pair rfl u v es
  have hproduct (u v : Expr K) (es : List (Expr K)) : node .mul (u :: v :: es) :=
    hnode.pair rfl u v es
  induction h with
  | const | var | powZero | powTrivial | powFree => exact .const _
  | @add es ds length_eq _ ih =>
    obtain ⟨here, below⟩ := everywhere_add_iff.1 he
    refine .op (hnode.run rfl rfl (Nat.le_of_eq length_eq) here) fun d hd ↦ ?_
    obtain ⟨e, hmem, hzip⟩ := exists_mem_zip length_eq hd
    exact ih e d hzip (below e hmem)
  | @mul es ds length_eq _ ih =>
    obtain ⟨here, below⟩ := everywhere_mul_iff.1 he
    have hterms : es.length = (productTerms [] es ds).length := by
      rw [length_productTerms, ← length_eq, Nat.min_self]
    refine .op (hnode.run rfl rfl (Nat.le_of_eq hterms) here) fun t ht ↦ ?_
    -- every term of the product rule is a product with as many factors as the node
    obtain ⟨run, rfl, hlen, hrun⟩ := mem_productTerms ht
    rw [List.length_nil, Nat.zero_add] at hlen
    refine .op (hnode.run rfl rfl (Nat.le_of_eq hlen.symm) here) fun a ha ↦ ?_
    rcases hrun a ha with ha | ha | ha
    · cases ha
    · exact below a ha
    · obtain ⟨e, hmem, hzip⟩ := exists_mem_zip length_eq ha
      exact ih e a hzip (below e hmem)
  | sub _ _ ihu ihv =>
    obtain ⟨-, hu, hv⟩ := everywhere_sub_iff.1 he
    exact everywhere_sub_iff.2 ⟨hnode.sub _ _, ihu hu, ihv hv⟩
  | powSelf =>
    obtain ⟨here, -, -⟩ := everywhere_pow_iff.1 he
    simp [hsum, hproduct, here, hnode.ln rfl here]
  | powSame _ hv _ _ _ ih =>
    obtain ⟨here, hu, -⟩ := everywhere_pow_iff.1 he
    have hconst := isConst_eq_false_of_dependsOn hv
    simp [hsum, hproduct, hnode.ln hconst here, hnode.pow hconst here, hu, ih hu]
  | powBoth _ hdep _ _ _ ihu ihv =>
    obtain ⟨here, hu, hv⟩ := everywhere_pow_iff.1 he
    have hconst := isConst_eq_false_of_dependsOn hdep
    simp [hsum, hproduct, hnode.ln hconst here, hnode.pow hconst here, hu, ihu hu, hv, ihv hv]
  | powConst _ hc _ ih =>
    obtain ⟨here, hu, -⟩ := everywhere_pow_iff.1 he
    simp [hproduct, hnode.lower hc here, hu, ih hu]
  | powBase _ _ hconst _ ih =>
    obtain ⟨here, hu, hv⟩ := everywhere_pow_iff.1 he
    simp [hsum, hproduct, hnode.pow hconst here, hu, hv, ih hu]
  | powExponent _ hdep _ _ ih =>
    obtain ⟨here, hu, hv⟩ := everywhere_pow_iff.1 he
    have hconst := isConst_eq_false_of_dependsOn hdep
    simp [hproduct, here, hnode.ln hconst here, hu, hv, ih hv]
  | lnVar =>
    obtain ⟨here, -⟩ := everywhere_apply_iff.1 he
    simp [hnode.inverse here]
  | ln _ _ ih =>
    obtain ⟨here, hu⟩ := everywhere_apply_iff.1 he
    simp [hproduct, hnode.inverse here, hu, ih hu]
  | sin _ ih =>
    obtain ⟨-, hu⟩ := everywhere_apply_iff.1 he
    simp [hproduct, hnode.cos, hu, ih hu]
  | cos _ ih =>
    obtain ⟨-, hu⟩ := everywhere_apply_iff.1 he
    simp [hproduct, hnode.sin, hu, ih hu]

theorem WellFormed.derives {least : Nat} (hleast : least ≤ 2) {e d : Expr K}
    (he : e.WellFormed least) (h : Derives x e d) : d.WellFormed least := by
  rw [wellFormed_iff_everywhere] at he ⊢
  refine h.everywhere ?_ he
  have hnary : ∀ {o : Operator} {es : List (Expr K)}, o.isNary = true →
      (Fits least o es ↔ least ≤ es.length) := by
    intro o es ho
    rcases Operator.isNary_iff.1 ho with rfl | rfl <;> rfl
  exact {
    pair := fun ho u v es ↦ (hnary ho).2 (Nat.le_trans hleast (Nat.le_add_left 2 es.length))
    run := fun ho hp hlen h ↦ (hnary hp).2 (Nat.le_trans ((hnary ho).1 h) hlen)
    sub := fun _ _ ↦ rfl
    sin := fun _ ↦ rfl
    cos := fun _ ↦ rfl
    inverse := fun _ ↦ rfl
    ln := fun _ _ ↦ rfl
    pow := fun _ _ _ ↦ rfl
    lower := fun _ _ ↦ rfl }

/-! ## Differentiation of well-formed trees succeeds -/

theorem WellFormed.exists_derivative_eq_ok {least : Nat} {e : Expr K} (h : e.WellFormed least)
    (x : String) : ∃ d, e.derivative x = .ok d := by
  induction h using WellFormed.shapes with
  | const c => exact ⟨_, (Derives.const c).derivative_eq⟩
  | var y => exact ⟨_, (Derives.var y).derivative_eq⟩
  | add es _ _ ih =>
    obtain ⟨ds, hds⟩ := exists_mapM_eq_ok ih
    rw [add, derivative, derivativeList_eq_mapM, hds]
    exact ⟨_, rfl⟩
  | mul es _ _ ih =>
    obtain ⟨ds, hds⟩ := exists_mapM_eq_ok ih
    rw [mul, derivative, derivativeList_eq_mapM, hds]
    exact ⟨_, rfl⟩
  | sub u v _ _ ihu ihv =>
    obtain ⟨du, hdu⟩ := ihu
    obtain ⟨dv, hdv⟩ := ihv
    rw [sub, derivative, hdu, hdv]
    exact ⟨_, rfl⟩
  | pow u v _ _ ihu ihv =>
    obtain ⟨du, hdu⟩ := ihu
    obtain ⟨dv, hdv⟩ := ihv
    rw [derivative_pow, hdu, hdv]
    split
    · split
      · exact ⟨_, rfl⟩
      · split <;> exact ⟨_, rfl⟩
    split
    · split
      · split <;> exact ⟨_, rfl⟩
      · exact ⟨_, rfl⟩
    split
    · split <;> exact ⟨_, rfl⟩
    · exact ⟨_, rfl⟩
  | apply f u _ ih =>
    obtain ⟨du, hdu⟩ := ih
    cases f with
    | ln =>
      rw [apply, derivative, hdu]
      split <;> exact ⟨_, rfl⟩
    | sin => exact ⟨_, (Derives.sin (derivative_eq_ok_iff.1 hdu)).derivative_eq⟩
    | cos => exact ⟨_, (Derives.cos (derivative_eq_ok_iff.1 hdu)).derivative_eq⟩

end SymbolicDerivatives.Expr
