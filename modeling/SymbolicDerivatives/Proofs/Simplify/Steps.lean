import SymbolicDerivatives.Expr.Simplify
import SymbolicDerivatives.Proofs.Value

/-!
# What one simplification step can do

`Expr.simplifyNode` is the step that simplification takes at every node, on operands that are
simplified already. This file says once what comes out of it, and in what order the proofs about
simplification use it:

* sums and products share `gather`, which drops the unit and merges the constants;
  `simplifySum_eq` and `simplifyProduct_eq` write both rules with it,
* `simplifySymbolic_cases` lists the trees that a step can return: a constant, one of the operands,
  the node as it is, or a run of operands and constants,
* `Everywhere.simplify` carries a property of every node through a whole pass.
-/

namespace SymbolicDerivatives.Expr

variable {K : Type}

/-! ## Operands that are constants -/

theorem isConst_iff {e : Expr K} : e.isConst = true ↔ ∃ c, e = .const c := by
  rw [isConst, Option.isSome_iff_exists]
  exact exists_congr fun c ↦ const?_eq_some_iff

@[simp] theorem isConst_const (c : K) : (Expr.const c).isConst = true := rfl

theorem mapM_const?_eq_some_iff {es : List (Expr K)} {values : List K} :
    es.mapM const? = some values ↔ es = values.map .const := by
  induction es generalizing values with
  | nil =>
    rw [List.mapM_nil, eq_comm (a := []), List.map_eq_nil_iff]
    exact ⟨fun h ↦ (Option.some.inj h).symm, fun h ↦ by rw [h]; rfl⟩
  | cons e es ih =>
    rw [List.mapM_cons]
    constructor
    · intro h
      obtain ⟨c, hc, h⟩ := Option.bind_eq_some_iff.1 h
      obtain ⟨cs, hcs, h⟩ := Option.bind_eq_some_iff.1 h
      cases h
      rw [const?_eq_some_iff.1 hc, ih.1 hcs, List.map_cons]
    · intro h
      obtain ⟨c, cs, rfl⟩ : ∃ c cs, values = c :: cs := by
        cases values with
        | nil => cases h
        | cons c cs => exact ⟨c, cs, rfl⟩
      rw [List.map_cons, List.cons.injEq] at h
      rw [h.1, const?_const, ih.2 h.2]
      rfl

theorem mapM_const?_eq_none_iff {es : List (Expr K)} :
    es.mapM const? = none ↔ ∃ e ∈ es, e.isConst = false := by
  rw [← not_iff_not, ← ne_eq, Option.ne_none_iff_exists']
  simp only [mapM_const?_eq_some_iff]
  push Not
  constructor
  · rintro ⟨values, rfl⟩ e he
    obtain ⟨c, -, rfl⟩ := List.mem_map.1 he
    simp
  · intro h
    refine ⟨es.filterMap const?, ?_⟩
    induction es with
    | nil => rfl
    | cons e es ih =>
      have he : e.isConst = true := by simpa using h e List.mem_cons_self
      obtain ⟨c, rfl⟩ := isConst_iff.1 he
      rw [List.filterMap_cons_some (const?_const c), List.map_cons,
        ← ih fun e he ↦ h e (List.mem_cons_of_mem _ he)]

theorem length_filterMap_const? (es : List (Expr K)) :
    (es.filterMap const?).length = es.countP isConst :=
  List.length_filterMap_eq_countP

/-! ## Nested runs -/

/-- An operand of a flattened run is an operand, or an operand of an operand that is such a run. -/
theorem mem_flatten {o : Operator} {es : List (Expr K)} {x : Expr K} (h : x ∈ flatten o es) :
    (x ∈ es ∧ ∀ inner, x ≠ .op o inner) ∨ ∃ inner, .op o inner ∈ es ∧ x ∈ inner := by
  obtain ⟨e, he, hx⟩ := List.mem_flatMap.1 h
  cases e with
  | const c =>
    rw [List.mem_singleton.1 hx]
    exact .inl ⟨he, fun _ h ↦ by cases h⟩
  | var y =>
    rw [List.mem_singleton.1 hx]
    exact .inl ⟨he, fun _ h ↦ by cases h⟩
  | op p inner =>
    -- a nested run gives its operands, every other node stands for itself
    by_cases hp : p = o
    · simp only [if_pos hp] at hx
      subst hp
      exact .inr ⟨inner, he, hx⟩
    · simp only [if_neg hp] at hx
      rw [List.mem_singleton.1 hx]
      exact .inl ⟨he, fun _ h ↦ hp (Expr.op.inj h).1⟩

theorem flatten_eq_self {o : Operator} {es : List (Expr K)}
    (h : ∀ e ∈ es, ∀ inner, e ≠ .op o inner) : flatten o es = es := by
  rw [flatten]
  induction es with
  | nil => rfl
  | cons e es ih =>
    rw [List.flatMap_cons, ih fun e he ↦ h e (List.mem_cons_of_mem _ he)]
    cases e with
    | const c => rfl
    | var x => rfl
    | op p inner =>
      have hp : p ≠ o := fun hp ↦ h _ List.mem_cons_self inner (by rw [hp])
      simp only [if_neg hp, List.singleton_append]

/-- The operands that a step works on: those of a sum or a product are flattened first. -/
def stepOperands (o : Operator) (es : List (Expr K)) : List (Expr K) :=
  if o.isNary then flatten o es else es

theorem everywhere_of_mem_stepOperands {node : Operator → List (Expr K) → Prop} {o : Operator}
    {es : List (Expr K)} (hes : ∀ e ∈ es, Everywhere node e) {x : Expr K}
    (hx : x ∈ stepOperands o es) : Everywhere node x := by
  rw [stepOperands] at hx
  split at hx
  · rcases mem_flatten hx with ⟨hx, -⟩ | ⟨inner, hinner, hx⟩
    · exact hes x hx
    · exact (everywhere_op_iff.1 (hes _ hinner)).2 x hx
  · exact hes x hx

theorem stepOperands_map_const (o : Operator) (values : List K) :
    stepOperands o (values.map .const) = values.map .const := by
  have hleaves : ∀ e ∈ values.map Expr.const, ∀ inner, e ≠ .op o inner := by
    intro e he inner
    obtain ⟨c, -, rfl⟩ := List.mem_map.1 he
    exact nofun
  rw [stepOperands, flatten_eq_self hleaves, ite_self]

/-! ## Runs without the unit and with one constant -/

/-- What becomes of a run of any length. -/
theorem collapse_cases (o : Operator) (unit : K) (es : List (Expr K)) :
    (es = [] ∧ collapse o unit es = .const unit) ∨
      (∃ e, es = [e] ∧ collapse o unit es = e) ∨
      (2 ≤ es.length ∧ collapse o unit es = .op o es) := by
  match es with
  | [] => exact .inl ⟨rfl, rfl⟩
  | [e] => exact .inr (.inl ⟨e, rfl, rfl⟩)
  | _ :: _ :: rest => exact .inr (.inr ⟨Nat.le_add_left 2 rest.length, rfl⟩)

theorem collapse_of_two_le (o : Operator) (unit : K) {es : List (Expr K)} (h : 2 ≤ es.length) :
    collapse o unit es = .op o es := by
  rcases collapse_cases o unit es with ⟨rfl, -⟩ | ⟨e, rfl, -⟩ | ⟨-, h⟩
  · cases h
  · exact absurd h (by simp)
  · exact h

section Gather

variable [BEq K] (unit : K) (fold : List K → K)

/-- The constants among the operands of a run, the unit apart. -/
def looseConstants (es : List (Expr K)) : List K :=
  (es.filter fun e ↦ !e.isValue unit).filterMap const?

/-- The operands of a run without those that are the unit. Two or more constants become one in
front, unless that one is the unit. -/
def gather (es : List (Expr K)) : List (Expr K) :=
  if 2 ≤ (looseConstants unit es).length then
    if fold (looseConstants unit es) == unit then
      (es.filter fun e ↦ !e.isValue unit).filter fun e ↦ !e.isConst
    else
      .const (fold (looseConstants unit es)) ::
        (es.filter fun e ↦ !e.isValue unit).filter fun e ↦ !e.isConst
  else es.filter fun e ↦ !e.isValue unit

variable {unit fold} {es : List (Expr K)} {x : Expr K}

theorem isConst_of_isValue {c : K} (h : x.isValue c = true) : x.isConst = true := by
  cases x with
  | const v => rfl
  | _ => cases h

theorem mem_gather (h : x ∈ gather unit fold es) :
    (x ∈ es ∧ x.isValue unit = false) ∨ (2 ≤ (looseConstants unit es).length ∧
      x = .const (fold (looseConstants unit es)) ∧ x.isValue unit = false) := by
  have hkept : ∀ y ∈ es.filter (fun e ↦ !e.isValue unit), y ∈ es ∧ y.isValue unit = false := by
    intro y hy
    obtain ⟨hmem, hvalue⟩ := List.mem_filter.1 hy
    exact ⟨hmem, by simpa using hvalue⟩
  rw [gather] at h
  split at h
  · next htwo =>
    split at h
    · exact .inl (hkept x (List.mem_filter.1 h).1)
    · next hunit =>
      rcases List.mem_cons.1 h with rfl | h
      · exact .inr ⟨htwo, rfl, by simpa [isValue] using hunit⟩
      · exact .inl (hkept x (List.mem_filter.1 h).1)
  · exact .inl (hkept x h)

theorem mem_gather_of_isConst_eq_false (h : x ∈ es) (hx : x.isConst = false) :
    x ∈ gather unit fold es := by
  have hvalue : x.isValue unit = false := by
    by_contra hne
    rw [isConst_of_isValue (by simpa using hne)] at hx
    cases hx
  have hkept : x ∈ es.filter fun e ↦ !e.isValue unit := List.mem_filter.2 ⟨h, by simp [hvalue]⟩
  have hothers : x ∈ (es.filter fun e ↦ !e.isValue unit).filter fun e ↦ !e.isConst :=
    List.mem_filter.2 ⟨hkept, by simp [hx]⟩
  rw [gather]
  split
  · split
    · exact hothers
    · exact List.mem_cons_of_mem _ hothers
  · exact hkept

theorem countP_isConst_gather_le (es : List (Expr K)) :
    (gather unit fold es).countP isConst ≤ 1 := by
  have hothers : ((es.filter fun e ↦ !e.isValue unit).filter fun e ↦ !e.isConst).countP isConst
      = 0 := by
    refine List.countP_eq_zero.2 fun y hy ↦ ?_
    simpa using (List.mem_filter.1 hy).2
  rw [gather]
  split
  · split
    · rw [hothers]; exact Nat.zero_le 1
    · exact Nat.le_of_eq (by rw [List.countP_cons_of_pos (isConst_const _), hothers])
  · next hfew =>
    -- nothing was merged, because there was at most one constant
    rw [looseConstants, length_filterMap_const?] at hfew
    omega

/-- What is left is some of the operands, in their order, behind a constant or not. -/
theorem exists_sublist_gather (unit : K) (fold : List K → K) (es : List (Expr K)) :
    ∃ kept, kept.Sublist es ∧
      (gather unit fold es = kept ∨ ∃ c, gather unit fold es = .const c :: kept) := by
  have hkept : (es.filter fun e ↦ !e.isValue unit).Sublist es := List.filter_sublist
  have hothers := (List.filter_sublist (p := fun e ↦ !e.isConst)).trans hkept
  rw [gather]
  split
  · split
    · exact ⟨_, hothers, .inl rfl⟩
    · exact ⟨_, hothers, .inr ⟨_, rfl⟩⟩
  · exact ⟨_, hkept, .inl rfl⟩

theorem filter_eq_self_of_isValue_eq_false (hunit : ∀ e ∈ es, e.isValue unit = false) :
    (es.filter fun e ↦ !e.isValue unit) = es :=
  List.filter_eq_self.2 fun e he ↦ by simp [hunit e he]

theorem length_looseConstants_lt (hunit : ∀ e ∈ es, e.isValue unit = false)
    (hcount : es.countP isConst ≤ 1) : ¬2 ≤ (looseConstants unit es).length := by
  rw [looseConstants, filter_eq_self_of_isValue_eq_false hunit, length_filterMap_const?]
  omega

theorem gather_eq_self (hunit : ∀ e ∈ es, e.isValue unit = false)
    (hcount : es.countP isConst ≤ 1) : gather unit fold es = es := by
  rw [gather, if_neg (length_looseConstants_lt hunit hcount),
    filter_eq_self_of_isValue_eq_false hunit]

/-- A run after its constants were merged: the unit, one operand, or a shorter run. -/
theorem collapse_gather_cases (o : Operator) (unit : K) (fold : List K → K)
    (es : List (Expr K)) :
    (∃ c, collapse o unit (gather unit fold es) = .const c) ∨
      collapse o unit (gather unit fold es) ∈ es ∨
      ∃ run, collapse o unit (gather unit fold es) = .op o run ∧ 2 ≤ run.length ∧
        ∀ e ∈ run, e ∈ es ∨ e.isConst = true := by
  have hrun : ∀ e ∈ gather unit fold es, e ∈ es ∨ e.isConst = true := by
    intro e he
    rcases mem_gather he with ⟨he, -⟩ | ⟨-, rfl, -⟩
    · exact .inl he
    · exact .inr (isConst_const _)
  rcases collapse_cases o unit (gather unit fold es) with ⟨-, h⟩ | ⟨e, he, h⟩ | ⟨htwo, h⟩
  · exact .inl ⟨unit, h⟩
  · rw [h]
    rcases hrun e (by rw [he]; exact List.mem_singleton_self e) with hmem | hconst
    · exact .inr (.inl hmem)
    · exact .inl (isConst_iff.1 hconst)
  · exact .inr (.inr ⟨_, h, htwo, hrun⟩)

end Gather

/-! ## The rules for sums and products -/

theorem simplifySum_eq [Zero K] [Add K] [BEq K] (es : List (Expr K)) :
    simplifySum es = collapse .add 0 (gather 0 sum es) := by
  rw [simplifySum, gather, looseConstants]
  split
  · rfl
  · rfl

/-- A product with a zero among its operands, or whose constants multiply to zero, is zero. -/
theorem simplifyProduct_eq [Zero K] [One K] [Mul K] [BEq K] (es : List (Expr K)) :
    simplifyProduct es =
      if es.any (·.isValue 0) then .const 0
      else if 2 ≤ (looseConstants 1 es).length ∧ (product (looseConstants 1 es) == 0) = true then
        .const 0
      else collapse .mul 1 (gather 1 product es) := by
  rw [simplifyProduct, gather, looseConstants]
  split
  · rfl
  · dsimp only
    by_cases htwo : 2 ≤ ((es.filter fun e ↦ !e.isValue 1).filterMap const?).length
    · rw [if_pos htwo, if_pos htwo]
      simp only [htwo, true_and]
    · rw [if_neg htwo, if_neg htwo]
      simp only [htwo, false_and, if_false]

/-! ## The step -/

variable [Zero K] [One K] [Add K] [Mul K] [BEq K]

/-- **What a step returns**: a constant, one of the operands, the node as it is, or, for a sum or
a product, a run of operands and constants. -/
theorem simplifySymbolic_cases {o : Operator} {es : List (Expr K)} {e' : Expr K}
    (h : simplifySymbolic o es = .ok e') :
    (∃ c, e' = .const c) ∨ e' ∈ es ∨ (o.isNary = false ∧ e' = .op o es) ∨
      (o.isNary = true ∧ ∃ run, e' = .op o run ∧ 2 ≤ run.length ∧
        ∀ e ∈ run, e ∈ es ∨ e.isConst = true) := by
  match o, es, h with
  | .add, es, h =>
    rw [← Except.ok.inj h, simplifySum_eq]
    rcases collapse_gather_cases .add 0 sum es with hc | he | hrun
    · exact .inl hc
    · exact .inr (.inl he)
    · exact .inr (.inr (.inr ⟨rfl, hrun⟩))
  | .mul, es, h =>
    rw [← Except.ok.inj h, simplifyProduct_eq]
    split
    · exact .inl ⟨0, rfl⟩
    split
    · exact .inl ⟨0, rfl⟩
    rcases collapse_gather_cases .mul 1 product es with hc | he | hrun
    · exact .inl hc
    · exact .inr (.inl he)
    · exact .inr (.inr (.inr ⟨rfl, hrun⟩))
  | .pow, [u, v], h =>
    rw [← Except.ok.inj h, simplifyPower]
    split
    · split
      · exact .inl ⟨0, rfl⟩
      · exact .inl ⟨1, rfl⟩
    split
    · exact .inr (.inl List.mem_cons_self)
    split
    · exact .inl ⟨1, rfl⟩
    · exact .inr (.inr (.inl ⟨rfl, rfl⟩))
  | .sub, [u, v], h =>
    rw [← Except.ok.inj h]
    split
    · exact .inr (.inl List.mem_cons_self)
    · exact .inr (.inr (.inl ⟨rfl, rfl⟩))
  | .fn f, es, h => exact .inr (.inr (.inl ⟨rfl, (Except.ok.inj h).symm⟩))
  | .other s, es, h => exact .inr (.inr (.inl ⟨rfl, (Except.ok.inj h).symm⟩))

variable [Sub K] [Elementary K]

/-- A step computes constants, and leaves the rest to the rules. -/
theorem simplifyNode_eq_ok_iff {o : Operator} {es : List (Expr K)} {e' : Expr K} :
    simplifyNode o es = .ok e' ↔
      (∃ values a, stepOperands o es = values.map .const ∧ o.apply values = .ok a ∧
        e' = .const a) ∨
      ((∃ e ∈ stepOperands o es, e.isConst = false) ∧
        simplifySymbolic o (stepOperands o es) = .ok e') := by
  rw [simplifyNode, ← stepOperands]
  cases hconst : (stepOperands o es).mapM const? with
  | some values =>
    have hvalues := mapM_const?_eq_some_iff.1 hconst
    rw [map_eq_ok_iff]
    constructor
    · rintro ⟨a, ha, rfl⟩
      exact .inl ⟨values, a, hvalues, ha, rfl⟩
    · rintro (⟨values', a, hvalues', ha, rfl⟩ | ⟨hsymbolic, -⟩)
      · rw [mapM_const?_eq_some_iff.2 hvalues'] at hconst
        rw [← Option.some.inj hconst]
        exact ⟨a, ha, rfl⟩
      · rw [mapM_const?_eq_none_iff.2 hsymbolic] at hconst
        cases hconst
  | none =>
    have hsymbolic := mapM_const?_eq_none_iff.1 hconst
    constructor
    · exact fun h ↦ .inr ⟨hsymbolic, h⟩
    · rintro (⟨values, a, hvalues, -, -⟩ | ⟨-, h⟩)
      · rw [mapM_const?_eq_some_iff.2 hvalues] at hconst
        cases hconst
      · exact h

theorem simplify_const_eq_ok_iff {c : K} {e' : Expr K} :
    (Expr.const c).simplify = .ok e' ↔ e' = .const c := by
  rw [simplify_const, Except.ok.injEq, eq_comm]

theorem simplify_var_eq_ok_iff {x : String} {e' : Expr K} :
    (Expr.var x : Expr K).simplify = .ok e' ↔ e' = .var x := by
  rw [simplify_var, Except.ok.injEq, eq_comm]

/-- Simplification of a node goes on from its simplified operands. -/
theorem simplify_op_eq_ok_iff {o : Operator} {es : List (Expr K)} {e' : Expr K} :
    (Expr.op o es).simplify = .ok e' ↔
      ∃ es', List.Forall₂ (fun e e' ↦ e.simplify = .ok e') es es' ∧
        simplifyNode o es' = .ok e' := by
  rw [simplify_op, bind_eq_ok_iff]
  simp only [mapM_eq_ok_iff]

/-- A node of constants is computed, and fails if the operation fails. -/
theorem simplifyNode_map_const (o : Operator) (values : List K) :
    simplifyNode o (values.map .const) = .const <$> o.apply values := by
  rw [simplifyNode, ← stepOperands, stepOperands_map_const, mapM_const?_eq_some_iff.2 rfl]

/-- A product with a zero among its operands is zero, unless all its operands are constants: then it
is computed. -/
theorem simplifyNode_mul_of_isValue_zero {es : List (Expr K)} {e : Expr K} (he : e ∈ es)
    (hzero : e.isValue 0 = true) :
    simplifyNode .mul es = .ok (.const 0) ∨ ∃ values : List K, flatten .mul es = values.map .const ∧
      e ∈ flatten .mul es ∧ simplifyNode .mul es = .ok (.const (product values)) := by
  have hmem : e ∈ flatten .mul es := by
    obtain ⟨c, rfl⟩ := isConst_iff.1 (isConst_of_isValue hzero)
    exact List.mem_flatMap.2 ⟨.const c, he, List.mem_singleton_self _⟩
  by_cases hconst : ∃ values : List K, flatten .mul es = values.map .const
  · obtain ⟨values, hvalues⟩ := hconst
    exact .inr ⟨values, hvalues, hmem,
      simplifyNode_eq_ok_iff.2 (.inl ⟨values, _, hvalues, rfl, rfl⟩)⟩
  · have hsymbolic : ∃ e ∈ flatten .mul es, e.isConst = false := by
      rw [← mapM_const?_eq_none_iff, Option.eq_none_iff_forall_ne_some]
      exact fun values hvalues ↦ hconst ⟨values, mapM_const?_eq_some_iff.1 hvalues⟩
    have hany : ((flatten .mul es).any (·.isValue 0)) = true := List.any_eq_true.2 ⟨e, hmem, hzero⟩
    refine .inl (simplifyNode_eq_ok_iff.2 (.inr ⟨hsymbolic, ?_⟩))
    exact congrArg Except.ok ((simplifyProduct_eq _).trans (if_pos hany))

/-! ## What a pass keeps -/

variable {node : Operator → List (Expr K) → Prop}

/-- A step keeps a property of every node, if runs of two or more operands have it. -/
theorem Everywhere.simplifyNode
    (hrun : ∀ o run, o.isNary = true → 2 ≤ run.length → node o run) {o : Operator}
    {es : List (Expr K)} {e' : Expr K} (he : Everywhere node (.op o es))
    (h : simplifyNode o es = .ok e') : Everywhere node e' := by
  obtain ⟨hnode, hes⟩ := everywhere_op_iff.1 he
  rcases simplifyNode_eq_ok_iff.1 h with ⟨values, a, -, -, rfl⟩ | ⟨-, h⟩
  · exact .const a
  rcases simplifySymbolic_cases h with ⟨c, rfl⟩ | hmem | ⟨ho, rfl⟩ | ⟨ho, run, rfl, htwo, hmem⟩
  · exact .const c
  · exact everywhere_of_mem_stepOperands hes hmem
  · rw [stepOperands, if_neg (by simp [ho])]
    exact he
  · refine .op (hrun o run ho htwo) fun e he ↦ ?_
    rcases hmem e he with he | he
    · exact everywhere_of_mem_stepOperands hes he
    · exact .of_isConst he

/-- A pass keeps a property of every node, if runs of two or more operands have it and it survives
when the operands of a node are simplified. -/
theorem Everywhere.simplify (hrun : ∀ o run, o.isNary = true → 2 ≤ run.length → node o run)
    (hstep : ∀ o es es', node o es → es.mapM Expr.simplify = .ok es' → node o es')
    {e e' : Expr K} (he : Everywhere node e) (h : e.simplify = .ok e') : Everywhere node e' := by
  induction he generalizing e' with
  | const c =>
    rw [simplify_const_eq_ok_iff.1 h]
    exact .const c
  | var x =>
    rw [simplify_var_eq_ok_iff.1 h]
    exact .var x
  | @op o es here _ ih =>
    rw [simplify_op] at h
    obtain ⟨es', hes', h⟩ := bind_eq_ok_iff.1 h
    refine Everywhere.simplifyNode hrun (.op (hstep o es es' here hes') fun x hx ↦ ?_) h
    obtain ⟨e, he, hx⟩ := exists_mem_left_of_forall₂ (mapM_eq_ok_iff.1 hes') hx
    exact ih e he hx

/-- Simplification of a tree keeps the number of operands of a node, or makes runs of two or more,
so it keeps well-formedness. -/
theorem WellFormed.simplify {least : Nat} (hleast : least ≤ 2) {e e' : Expr K}
    (he : e.WellFormed least) (h : e.simplify = .ok e') : e'.WellFormed least := by
  rw [wellFormed_iff_everywhere] at he ⊢
  refine he.simplify ?_ ?_ h
  · intro o run ho htwo
    rcases Operator.isNary_iff.1 ho with rfl | rfl <;> exact Nat.le_trans hleast htwo
  · intro o es es' hfits hes'
    rw [Fits, ← (mapM_eq_ok_iff.1 hes').length_eq]
    exact hfits

theorem Evaluable.simplify {e e' : Expr K} (he : e.Evaluable) (h : e.simplify = .ok e') :
    e'.Evaluable := by
  refine Everywhere.simplify ?_ ?_ he h
  · intro o run ho _
    rcases Operator.isNary_iff.1 ho with rfl | rfl <;> trivial
  · intro o es es' hcomputes hes'
    rwa [← (mapM_eq_ok_iff.1 hes').length_eq]

/-! ## Simplification of well-formed trees succeeds -/

theorem exists_simplifyNode_eq_ok {o : Operator} {es : List (Expr K)}
    (h : o.Accepts 0 es.length) : ∃ e', simplifyNode o es = .ok e' := by
  have hrules : ∃ e', simplifySymbolic o (stepOperands o es) = .ok e' := by
    rcases accepts_cases h with ⟨ho, -⟩ | ⟨rfl, u, v, rfl⟩ | ⟨rfl, u, v, rfl⟩ | ⟨f, u, rfl, rfl⟩
    · rcases Operator.isNary_iff.1 ho with rfl | rfl <;> exact ⟨_, rfl⟩
    all_goals exact ⟨_, rfl⟩
  have hcomputes : ∀ values : List K, stepOperands o es = values.map .const →
      o.Computes values.length := by
    intro values hvalues
    rcases accepts_cases h with ⟨ho, -⟩ | hfixed
    · rcases Operator.isNary_iff.1 ho with rfl | rfl <;> trivial
    · have hes : stepOperands o es = es := by
        rcases hfixed with ⟨rfl, -⟩ | ⟨rfl, -⟩ | ⟨f, u, rfl, -⟩ <;> rfl
      rw [← hes, hvalues, List.length_map] at h
      exact h.computes
  cases hconst : (stepOperands o es).mapM const? with
  | some values =>
    have hvalues := mapM_const?_eq_some_iff.1 hconst
    have happly := Operator.apply_eq_ok_value (hcomputes values hvalues)
    exact ⟨_, simplifyNode_eq_ok_iff.2 (.inl ⟨values, _, hvalues, happly, rfl⟩)⟩
  | none =>
    obtain ⟨e', he'⟩ := hrules
    exact ⟨e', simplifyNode_eq_ok_iff.2 (.inr ⟨mapM_const?_eq_none_iff.1 hconst, he'⟩)⟩

theorem WellFormed.exists_simplify_eq_ok {e : Expr K} (h : e.WellFormed 0) :
    ∃ e', e.simplify = .ok e' := by
  induction h with
  | const c => exact ⟨_, simplify_const c⟩
  | var x => exact ⟨_, simplify_var x⟩
  | @op o es accepts _ ih =>
    obtain ⟨es', hes'⟩ := exists_mapM_eq_ok ih
    rw [(mapM_eq_ok_iff.1 hes').length_eq] at accepts
    obtain ⟨e', he'⟩ := exists_simplifyNode_eq_ok accepts
    exact ⟨e', by rw [simplify_op]; exact bind_eq_ok_iff.2 ⟨es', hes', he'⟩⟩

end SymbolicDerivatives.Expr
