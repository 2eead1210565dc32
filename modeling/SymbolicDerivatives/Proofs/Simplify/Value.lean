import SymbolicDerivatives.Proofs.Simplify.Steps
import Mathlib.Algebra.BigOperators.Group.List.Basic
import Mathlib.Algebra.BigOperators.Group.Finset.Defs
import Mathlib.Algebra.BigOperators.Ring.List
import Mathlib.Algebra.Ring.Int.Defs

/-!
# Simplification keeps values

Over a commutative ring whose powers satisfy `a ^ 0 = 1`, `a ^ 1 = a` and `1 ^ b = 1`, a simplified
tree has the value of the tree it was made from, at every point.

A sum and a product go through the same three steps: nested runs are flattened, `gather` drops the
unit and merges the constants, and a run of one operand collapses to it. Each step is right for
every way `g` of reading trees in a commutative monoid that reads a run as the product of its
operands (`ReadsRuns`). The value itself reads products, and the value in the additive monoid reads
sums, so each step is proved once.
-/

namespace SymbolicDerivatives

/-- The laws of powers that simplification relies on. -/
class LawfulElementary (K : Type) [Zero K] [One K] [Elementary K] : Prop where
  pow_zero (a : K) : Elementary.pow a 0 = 1
  pow_one (a : K) : Elementary.pow a 1 = a
  one_pow (a : K) : Elementary.pow 1 a = 1

theorem sum_eq_list_sum {K : Type} [AddMonoid K] (values : List K) : sum values = values.sum :=
  List.sum_eq_foldl.symm

theorem product_eq_list_prod {K : Type} [Monoid K] (values : List K) :
    product values = values.prod :=
  List.prod_eq_foldl.symm

namespace Expr

variable {K : Type}

/-! ## Reading runs in a monoid -/

/-- The constants of a run and its other operands make up the run, in another order. -/
theorem map_const_append_perm (es : List (Expr K)) :
    ((es.filterMap const?).map Expr.const ++ es.filter fun e ↦ !e.isConst).Perm es := by
  have hconst : (es.filterMap const?).map Expr.const = es.filter isConst := by
    induction es with
    | nil => rfl
    | cons e es ih =>
      cases e with
      | const c =>
        rw [List.filterMap_cons_some (const?_const c), List.map_cons, ih,
          List.filter_cons_of_pos (isConst_const c)]
      | var x =>
        rw [List.filterMap_cons_none (const?_var x), ih,
          List.filter_cons_of_neg (by simp [isConst])]
      | op o inner =>
        rw [List.filterMap_cons_none (const?_op o inner), ih,
          List.filter_cons_of_neg (by simp [isConst])]
  rw [hconst]
  exact List.filter_append_perm isConst es

/-- A way to read trees in a commutative monoid, for which a run of `o` is a product, the constant
`unit` counts for nothing, and `fold` merges constants. -/
structure ReadsRuns {M : Type} [CommMonoid M] [BEq K] (o : Operator) (unit : K)
    (fold : List K → K) (g : Expr K → M) : Prop where
  run : ∀ es, g (.op o es) = (es.map g).prod
  of_isValue : ∀ e : Expr K, e.isValue unit = true → g e = 1
  const_unit : g (.const unit) = 1
  merged : ∀ values : List K, g (.const (fold values)) = ((values.map .const).map g).prod

namespace ReadsRuns

variable {M : Type} [CommMonoid M] [BEq K] {o : Operator} {unit : K} {fold : List K → K}
  {g : Expr K → M} (hg : ReadsRuns o unit fold g)

include hg

theorem prod_map_flatten (es : List (Expr K)) : ((flatten o es).map g).prod = (es.map g).prod := by
  induction es with
  | nil => rfl
  | cons e es ih =>
    rw [flatten, List.flatMap_cons, ← flatten, List.map_append, List.prod_append, ih,
      List.map_cons, List.prod_cons]
    congr 1
    cases e with
    | const c => exact List.prod_singleton
    | var x => exact List.prod_singleton
    | op p inner =>
      by_cases hp : p = o
      · subst hp
        simp only [if_true, hg.run]
      · simp only [if_neg hp, List.map_singleton, List.prod_singleton]

theorem prod_map_filter (es : List (Expr K)) :
    ((es.filter fun e ↦ !e.isValue unit).map g).prod = (es.map g).prod := by
  induction es with
  | nil => rfl
  | cons e es ih =>
    rw [List.map_cons, List.prod_cons, ← ih]
    cases he : e.isValue unit with
    | true => rw [List.filter_cons_of_neg (by simp [he]), hg.of_isValue e he, one_mul]
    | false => rw [List.filter_cons_of_pos (by simp [he]), List.map_cons, List.prod_cons]

/-- The merged constant times the operands that are no constants. -/
theorem merged_mul_prod_map (es : List (Expr K)) :
    g (.const (fold (looseConstants unit es))) *
      (((es.filter fun e ↦ !e.isValue unit).filter fun e ↦ !e.isConst).map g).prod
        = (es.map g).prod := by
  rw [← hg.prod_map_filter es, hg.merged, looseConstants, ← List.prod_append, ← List.map_append]
  exact ((map_const_append_perm _).map g).prod_eq

theorem prod_map_gather (es : List (Expr K)) :
    ((gather unit fold es).map g).prod = (es.map g).prod := by
  have hmerged := hg.merged_mul_prod_map es
  rw [gather]
  split
  · split
    · next hunit =>
      rw [← hmerged, hg.of_isValue (.const (fold (looseConstants unit es))) hunit, one_mul]
    · rw [List.map_cons, List.prod_cons, hmerged]
  · exact hg.prod_map_filter es

theorem read_collapse (es : List (Expr K)) : g (collapse o unit es) = (es.map g).prod := by
  rcases collapse_cases o unit es with ⟨rfl, h⟩ | ⟨e, rfl, h⟩ | ⟨-, h⟩
  · rw [h, hg.const_unit]; rfl
  · rw [h, List.map_singleton, List.prod_singleton]
  · rw [h, hg.run]

/-- A run is read as before after its constants were merged. -/
theorem read_collapse_gather (es : List (Expr K)) :
    g (collapse o unit (gather unit fold es)) = g (.op o es) := by
  rw [hg.read_collapse, hg.prod_map_gather, hg.run]

theorem read_flatten (es : List (Expr K)) : g (.op o (flatten o es)) = g (.op o es) := by
  rw [hg.run, hg.prod_map_flatten, hg.run]

end ReadsRuns

/-! ## The rules keep values -/

variable [CommRing K] [BEq K] [LawfulBEq K] [Elementary K] (point : String → K)

theorem value_of_isValue {c : K} {e : Expr K} (h : e.isValue c = true) : e.value point = c := by
  cases e with
  | const v =>
    rw [value_const]
    exact eq_of_beq h
  | _ => cases h

theorem readsRuns_mul : ReadsRuns .mul 1 product (value point) where
  run es := by rw [value_op, Operator.value_mul, product_eq_list_prod]
  of_isValue e he := value_of_isValue point he
  const_unit := value_const point 1
  merged values := by
    rw [value_const, product_eq_list_prod, List.map_map]
    congr 1
    exact (List.map_id' values).symm.trans
      (List.map_congr_left fun c _ ↦ (value_const point c).symm)

theorem readsRuns_add :
    ReadsRuns .add 0 sum fun e ↦ Multiplicative.ofAdd (e.value point) where
  run es := by
    rw [value_op, Operator.value_add, sum_eq_list_sum, ofAdd_list_prod, List.map_map]
    rfl
  of_isValue e he := by rw [value_of_isValue point he, ofAdd_zero]
  const_unit := by rw [value_const, ofAdd_zero]
  merged values := by
    rw [value_const, sum_eq_list_sum, ofAdd_list_prod, List.map_map]
    rfl

theorem value_simplifySum (es : List (Expr K)) :
    (simplifySum es).value point = (Expr.op .add es).value point := by
  rw [simplifySum_eq]
  exact Multiplicative.ofAdd.injective ((readsRuns_add point).read_collapse_gather es)

theorem value_simplifyProduct (es : List (Expr K)) :
    (simplifyProduct es).value point = (Expr.op .mul es).value point := by
  have hg := readsRuns_mul (K := K) point
  rw [simplifyProduct_eq]
  split
  · next hzero =>
    obtain ⟨e, he, hvalue⟩ := List.any_eq_true.1 hzero
    rw [value_const, hg.run]
    refine (List.prod_eq_zero ?_).symm
    exact List.mem_map.2 ⟨e, he, value_of_isValue point hvalue⟩
  split
  · next hmerged =>
    rw [value_const, hg.run, ← hg.merged_mul_prod_map es, value_const, eq_of_beq hmerged.2,
      zero_mul]
  · exact hg.read_collapse_gather es

theorem value_simplifyPower [LawfulElementary K] {u v : Expr K}
    (hsymbolic : u.isConst = false ∨ v.isConst = false) :
    (simplifyPower u v).value point = Elementary.pow (u.value point) (v.value point) := by
  rw [simplifyPower]
  split
  · next hv =>
    split
    · next hu =>
      -- both operands would be constants
      rw [isConst_of_isValue hu, isConst_of_isValue hv] at hsymbolic
      simp at hsymbolic
    · rw [value_const, value_of_isValue point hv, LawfulElementary.pow_zero]
  split
  · next hv => rw [value_of_isValue point hv, LawfulElementary.pow_one]
  split
  · next hu => rw [value_const, value_of_isValue point hu, LawfulElementary.one_pow]
  · exact value_pow point u v

theorem value_simplifySymbolic [LawfulElementary K] {o : Operator} {es : List (Expr K)}
    {e' : Expr K} (hsymbolic : ∃ e ∈ es, e.isConst = false)
    (h : simplifySymbolic o es = .ok e') : e'.value point = (Expr.op o es).value point := by
  match o, es, h with
  | .add, es, h => rw [← Except.ok.inj h, value_simplifySum]
  | .mul, es, h => rw [← Except.ok.inj h, value_simplifyProduct]
  | .pow, [u, v], h =>
    have huv : u.isConst = false ∨ v.isConst = false := by simpa using hsymbolic
    rw [← Except.ok.inj h, value_simplifyPower point huv]
    exact (value_pow point u v).symm
  | .sub, [u, v], h =>
    rw [← Except.ok.inj h]
    split
    · next hv =>
      have hsub := value_sub point u v
      rw [value_of_isValue point hv, sub_zero] at hsub
      exact hsub.symm
    · rfl
  | .fn f, es, h => rw [← Except.ok.inj h]
  | .other s, es, h => rw [← Except.ok.inj h]

/-! ## A pass keeps values -/

theorem value_stepOperands (o : Operator) (es : List (Expr K)) :
    (Expr.op o (stepOperands o es)).value point = (Expr.op o es).value point := by
  cases o with
  | add => exact Multiplicative.ofAdd.injective ((readsRuns_add point).read_flatten es)
  | mul => exact (readsRuns_mul point).read_flatten es
  | _ => rfl

theorem value_simplifyNode [LawfulElementary K] {o : Operator} {es : List (Expr K)} {e' : Expr K}
    (h : simplifyNode o es = .ok e') : e'.value point = (Expr.op o es).value point := by
  rw [← value_stepOperands]
  rcases simplifyNode_eq_ok_iff.1 h with ⟨values, a, hvalues, happly, rfl⟩ | ⟨hsymbolic, h⟩
  · -- folding applies the operator that evaluation applies
    have hmap : (values.map Expr.const).map (value point) = values := by
      rw [List.map_map]
      exact (List.map_congr_left fun c _ ↦ value_const point c).trans (List.map_id' values)
    rw [hvalues, value_op, hmap, value_const, (Operator.apply_eq_ok_iff.1 happly).2]
  · exact value_simplifySymbolic point hsymbolic h

theorem value_simplify [LawfulElementary K] {e e' : Expr K} (h : e.simplify = .ok e') :
    e'.value point = e.value point := by
  induction e using Expr.induction generalizing e' with
  | const c => rw [simplify_const_eq_ok_iff.1 h]
  | var x => rw [simplify_var_eq_ok_iff.1 h]
  | op o es ih =>
    rw [simplify_op] at h
    obtain ⟨es', hes', h⟩ := bind_eq_ok_iff.1 h
    have hvalues : es'.map (value point) = es.map (value point) :=
      map_eq_of_mapM_eq_ok hes' fun e he e' he' ↦ ih e he he'
    rw [value_simplifyNode point h, value_op, value_op, hvalues]

/-- **Simplification keeps values.** If a tree has a value at a point and simplification succeeds
on it, the simplified tree has the same value there. -/
theorem evaluate_simplify [LawfulElementary K] {e e' : Expr K} {a : K}
    (ha : e.evaluate point = .ok a) (h : e.simplify = .ok e') : e'.evaluate point = .ok a := by
  rw [evaluate_eq_ok_iff] at ha ⊢
  obtain ⟨hevaluable, rfl⟩ := ha
  exact ⟨hevaluable.simplify h, value_simplify point h⟩

/-- Whole powers of integers, with the identity in place of the functions. -/
@[reducible] def wholePowers : Elementary ℤ where
  pow a b := a ^ b.natAbs
  ln a := a
  sin a := a
  cos a := a

theorem lawfulElementary_wholePowers : @LawfulElementary ℤ _ _ wholePowers :=
  let _ := wholePowers
  { pow_zero := fun a ↦ pow_zero a
    pow_one := fun a ↦ pow_one a
    one_pow := fun b ↦ one_pow b.natAbs }

/-- A nested sum with two constants, a power of one and a factor of one. -/
theorem evaluate_simplify_of_integers :
    letI := wholePowers
    let e : Expr ℤ :=
      mul [add [.const 2, .var "x", add [.const 3, .var "y"]], pow (.var "x") (.const 1), .const 1]
    let e' : Expr ℤ := mul [add [.const 5, .var "x", .var "y"], .var "x"]
    let point : String → ℤ := fun x ↦ if x = "x" then 4 else -1
    e.evaluate point = .ok 32 ∧ e.simplify = .ok e' ∧ e'.evaluate point = .ok 32 := by
  let _ := wholePowers
  have _ := lawfulElementary_wholePowers
  intro e e' point
  have hvalue : e.evaluate point = .ok 32 := rfl
  have hsimplify : e.simplify = .ok e' := rfl
  exact ⟨hvalue, hsimplify, evaluate_simplify point hvalue hsimplify⟩

end Expr

end SymbolicDerivatives
