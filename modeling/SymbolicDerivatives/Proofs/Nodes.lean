import SymbolicDerivatives.Expr.Basic
import Mathlib.Data.List.Basic

/-!
# Properties of every node

Several properties of trees speak of the inner nodes one by one: that an operator accepts the number
of its operands, that a node can be computed, that a logarithm has a positive argument. They are all
`Expr.Everywhere node` for a property `node` of an operator and its operands, so what a pass keeps
is proved once, of `Everywhere`.
-/

namespace SymbolicDerivatives

theorem Operator.isNary_iff {o : Operator} : o.isNary = true ↔ o = add ∨ o = mul := by
  cases o <;> simp [isNary]

namespace Expr

variable {K : Type} {node other : Operator → List (Expr K) → Prop}

/-- Every inner node of a tree satisfies `node`, with its operator and its operands. -/
inductive Everywhere (node : Operator → List (Expr K) → Prop) : Expr K → Prop
  | const (c : K) : Everywhere node (.const c)
  | var (x : String) : Everywhere node (.var x)
  | op {o : Operator} {operands : List (Expr K)} (here : node o operands)
      (below : ∀ e ∈ operands, Everywhere node e) : Everywhere node (.op o operands)

theorem everywhere_op_iff {o : Operator} {es : List (Expr K)} :
    Everywhere node (.op o es) ↔ node o es ∧ ∀ e ∈ es, Everywhere node e := by
  constructor
  · intro h
    cases h with
    | op here below => exact ⟨here, below⟩
  · exact fun ⟨here, below⟩ ↦ .op here below

@[simp] theorem everywhere_const (c : K) : Everywhere node (.const c) := .const c

@[simp] theorem everywhere_var (x : String) : Everywhere node (.var x) := .var x

@[simp] theorem everywhere_add_iff {es : List (Expr K)} :
    Everywhere node (add es) ↔ node .add es ∧ ∀ e ∈ es, Everywhere node e := everywhere_op_iff

@[simp] theorem everywhere_mul_iff {es : List (Expr K)} :
    Everywhere node (mul es) ↔ node .mul es ∧ ∀ e ∈ es, Everywhere node e := everywhere_op_iff

@[simp] theorem everywhere_sub_iff {u v : Expr K} :
    Everywhere node (sub u v) ↔ node .sub [u, v] ∧ Everywhere node u ∧ Everywhere node v := by
  rw [sub, everywhere_op_iff, List.forall_mem_cons, List.forall_mem_singleton]

@[simp] theorem everywhere_pow_iff {u v : Expr K} :
    Everywhere node (pow u v) ↔ node .pow [u, v] ∧ Everywhere node u ∧ Everywhere node v := by
  rw [pow, everywhere_op_iff, List.forall_mem_cons, List.forall_mem_singleton]

@[simp] theorem everywhere_apply_iff {f : Func} {u : Expr K} :
    Everywhere node (apply f u) ↔ node (.fn f) [u] ∧ Everywhere node u := by
  rw [apply, everywhere_op_iff, List.forall_mem_singleton]

theorem Everywhere.of_isConst {e : Expr K} (h : e.isConst = true) : Everywhere node e := by
  obtain ⟨c, hc⟩ := Option.isSome_iff_exists.1 h
  rw [const?_eq_some_iff.1 hc]
  exact .const c

theorem Everywhere.imp (himp : ∀ o es, node o es → other o es) {e : Expr K}
    (h : Everywhere node e) : Everywhere other e := by
  induction h with
  | const c => exact .const c
  | var x => exact .var x
  | op here _ ih => exact .op (himp _ _ here) ih

theorem Everywhere.and {e : Expr K} (h : Everywhere node e) (h' : Everywhere other e) :
    Everywhere (fun o es ↦ node o es ∧ other o es) e := by
  induction h with
  | const c => exact .const c
  | var x => exact .var x
  | op here _ ih =>
    obtain ⟨here', below'⟩ := everywhere_op_iff.1 h'
    exact .op ⟨here, here'⟩ fun e he ↦ ih e he (below' e he)

mutual

/-- Whether every inner node of a tree passes a test. -/
def testEverywhere (test : Operator → List (Expr K) → Bool) : Expr K → Bool
  | .const _ | .var _ => true
  | .op o operands => test o operands && testEverywhereList test operands

def testEverywhereList (test : Operator → List (Expr K) → Bool) : List (Expr K) → Bool
  | [] => true
  | e :: es => e.testEverywhere test && testEverywhereList test es

end

theorem testEverywhereList_eq_all (test : Operator → List (Expr K) → Bool) (es : List (Expr K)) :
    testEverywhereList test es = es.all (testEverywhere test) := by
  induction es with
  | nil => rw [testEverywhereList, List.all_nil]
  | cons e es ih => rw [testEverywhereList, ih, List.all_cons]

theorem testEverywhere_eq_true_iff {test : Operator → List (Expr K) → Bool} {e : Expr K} :
    e.testEverywhere test = true ↔ Everywhere (fun o es ↦ test o es = true) e := by
  induction e using Expr.induction with
  | const c => exact ⟨fun _ ↦ .const c, fun _ ↦ by rw [testEverywhere]⟩
  | var x => exact ⟨fun _ ↦ .var x, fun _ ↦ by rw [testEverywhere]⟩
  | op o es ih =>
    rw [testEverywhere, testEverywhereList_eq_all, Bool.and_eq_true, List.all_eq_true,
      everywhere_op_iff]
    exact and_congr_right fun _ ↦ forall₂_congr ih

instance [∀ o es, Decidable (node o es)] (e : Expr K) : Decidable (Everywhere node e) :=
  decidable_of_iff (e.testEverywhere fun o es ↦ decide (node o es)) <| by
    simp only [testEverywhere_eq_true_iff, decide_eq_true_eq]

/-- The operator accepts the number of operands that it has. -/
def Fits (least : Nat) (o : Operator) (operands : List (Expr K)) : Prop :=
  o.Accepts least operands.length

theorem wellFormed_iff_everywhere {least : Nat} {e : Expr K} :
    e.WellFormed least ↔ e.Everywhere (Fits least) := by
  constructor
  · intro h
    induction h with
    | const c => exact .const c
    | var x => exact .var x
    | op accepts _ ih => exact .op accepts ih
  · intro h
    induction h with
    | const c => exact .const c
    | var x => exact .var x
    | op here _ ih => exact .op here ih

instance (least : Nat) (o : Operator) (es : List (Expr K)) : Decidable (Fits least o es) :=
  inferInstanceAs (Decidable (o.Accepts least es.length))

instance (least : Nat) (e : Expr K) : Decidable (e.WellFormed least) :=
  decidable_of_iff _ wellFormed_iff_everywhere.symm

/-! ## Well-formed trees by their shapes -/

/-- The operands of an operator that accepts them, shape by shape. -/
theorem accepts_cases {least : Nat} {o : Operator} {es : List (Expr K)}
    (h : o.Accepts least es.length) :
    (o.isNary = true ∧ least ≤ es.length) ∨ (o = .sub ∧ ∃ u v, es = [u, v]) ∨
      (o = .pow ∧ ∃ u v, es = [u, v]) ∨ ∃ f u, o = .fn f ∧ es = [u] := by
  cases o with
  | add | mul => exact .inl ⟨rfl, h⟩
  | sub => exact .inr (.inl ⟨rfl, List.length_eq_two.1 h⟩)
  | pow => exact .inr (.inr (.inl ⟨rfl, List.length_eq_two.1 h⟩))
  | fn f =>
    obtain ⟨u, hu⟩ := List.length_eq_one_iff.1 h
    exact .inr (.inr (.inr ⟨f, u, rfl, hu⟩))
  | other s => exact h.elim

theorem wellFormed_add_iff {least : Nat} {es : List (Expr K)} :
    (add es).WellFormed least ↔ least ≤ es.length ∧ ∀ e ∈ es, e.WellFormed least := by
  simp only [wellFormed_iff_everywhere, everywhere_add_iff, Fits, Operator.Accepts]

theorem wellFormed_mul_iff {least : Nat} {es : List (Expr K)} :
    (mul es).WellFormed least ↔ least ≤ es.length ∧ ∀ e ∈ es, e.WellFormed least := by
  simp only [wellFormed_iff_everywhere, everywhere_mul_iff, Fits, Operator.Accepts]

theorem wellFormed_sub_iff {least : Nat} {u v : Expr K} :
    (sub u v).WellFormed least ↔ u.WellFormed least ∧ v.WellFormed least := by
  simp only [wellFormed_iff_everywhere, everywhere_sub_iff]
  exact and_iff_right rfl

theorem wellFormed_pow_iff {least : Nat} {u v : Expr K} :
    (pow u v).WellFormed least ↔ u.WellFormed least ∧ v.WellFormed least := by
  simp only [wellFormed_iff_everywhere, everywhere_pow_iff]
  exact and_iff_right rfl

theorem wellFormed_apply_iff {least : Nat} {f : Func} {u : Expr K} :
    (apply f u).WellFormed least ↔ u.WellFormed least := by
  simp only [wellFormed_iff_everywhere, everywhere_apply_iff]
  exact and_iff_right rfl

/-- To prove a property of all well-formed trees, prove it of the leaves and of each of the seven
operations from its operands. -/
@[elab_as_elim]
theorem WellFormed.shapes {least : Nat} {motive : (e : Expr K) → e.WellFormed least → Prop}
    (const : ∀ c, motive (.const c) (.const c)) (var : ∀ x, motive (.var x) (.var x))
    (add : ∀ (es : List (Expr K)) (hlen : least ≤ es.length) (hes : ∀ e ∈ es, e.WellFormed least),
      (∀ (e : Expr K) (he : e ∈ es), motive e (hes e he)) →
        motive (add es) (wellFormed_add_iff.2 ⟨hlen, hes⟩))
    (mul : ∀ (es : List (Expr K)) (hlen : least ≤ es.length) (hes : ∀ e ∈ es, e.WellFormed least),
      (∀ (e : Expr K) (he : e ∈ es), motive e (hes e he)) →
        motive (mul es) (wellFormed_mul_iff.2 ⟨hlen, hes⟩))
    (sub : ∀ (u v : Expr K) (hu : u.WellFormed least) (hv : v.WellFormed least),
      motive u hu → motive v hv → motive (sub u v) (wellFormed_sub_iff.2 ⟨hu, hv⟩))
    (pow : ∀ (u v : Expr K) (hu : u.WellFormed least) (hv : v.WellFormed least),
      motive u hu → motive v hv → motive (pow u v) (wellFormed_pow_iff.2 ⟨hu, hv⟩))
    (apply : ∀ (f : Func) (u : Expr K) (hu : u.WellFormed least),
      motive u hu → motive (apply f u) (wellFormed_apply_iff.2 hu))
    {e : Expr K} (h : e.WellFormed least) : motive e h := by
  induction h with
  | const c => exact const c
  | var x => exact var x
  | @op o es accepts operands_wf ih =>
    rcases accepts_cases accepts with ⟨ho, hlen⟩ | ⟨rfl, u, v, rfl⟩ | ⟨rfl, u, v, rfl⟩ |
      ⟨f, u, rfl, rfl⟩
    · rcases Operator.isNary_iff.1 ho with rfl | rfl
      · exact add es hlen operands_wf ih
      · exact mul es hlen operands_wf ih
    · exact sub u v (operands_wf u (by simp)) (operands_wf v (by simp)) (ih u (by simp))
        (ih v (by simp))
    · exact pow u v (operands_wf u (by simp)) (operands_wf v (by simp)) (ih u (by simp))
        (ih v (by simp))
    · exact apply f u (operands_wf u (by simp)) (ih u (by simp))

end Expr

end SymbolicDerivatives
