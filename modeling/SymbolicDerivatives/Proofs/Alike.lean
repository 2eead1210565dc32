import SymbolicDerivatives.Proofs.Traversal
import SymbolicDerivatives.Expr.Basic

/-!
# Trees that are alike

The program compares trees by `==` at the leaves, where a not-a-number differs from itself and the
two zeros are equal. `Expr.Alike` compares in the same way, except that a constant always equals
itself; so every tree is alike to itself, whatever its constants are.
-/

namespace SymbolicDerivatives.Expr

variable {K : Type} [BEq K]

/-- Equal trees, where constants are equal if they are the same or pass the test `==`. -/
inductive Alike : Expr K → Expr K → Prop
  | const {c d : K} (h : c = d ∨ (c == d) = true) : Alike (.const c) (.const d)
  | var (x : String) : Alike (.var x) (.var x)
  | op {o : Operator} {es fs : List (Expr K)} (length_eq : es.length = fs.length)
      (operands : ∀ e f, (e, f) ∈ es.zip fs → Alike e f) : Alike (.op o es) (.op o fs)

namespace Alike

theorem refl (e : Expr K) : Alike e e := by
  induction e using Expr.induction with
  | const c => exact .const (.inl rfl)
  | var x => exact .var x
  | op o es ih =>
    refine .op rfl fun e f h ↦ ?_
    have heq : e = f := List.forall₂_zip (List.forall₂_same.2 fun _ _ ↦ rfl) h
    exact heq ▸ ih e (List.of_mem_zip h).1

variable {e f : Expr K}

theorem isConst_eq (h : Alike e f) : e.isConst = f.isConst := by
  cases h <;> rfl

theorem ne_op {o : Operator} (h : Alike e f) (he : ∀ inner, e ≠ .op o inner) :
    ∀ inner, f ≠ .op o inner := by
  rintro inner rfl
  cases h with
  | op => exact he _ rfl

theorem isValue_eq [PartialEquivBEq K] (h : Alike e f) (c : K) : e.isValue c = f.isValue c := by
  cases h with
  | const h =>
    rcases h with rfl | h
    · rfl
    · rw [isValue, isValue, Bool.eq_iff_iff]
      exact ⟨PartialEquivBEq.trans (PartialEquivBEq.symm h), PartialEquivBEq.trans h⟩
  | _ => rfl

theorem countP_isConst_eq {es fs : List (Expr K)} (h : List.Forall₂ Alike es fs) :
    es.countP isConst = fs.countP isConst := by
  induction h with
  | nil => rfl
  | cons hef _ ih => rw [List.countP_cons, List.countP_cons, ih, hef.isConst_eq]

end Alike

/-! ## Structural equality -/

theorem sameList_eq_true_iff {es fs : List (Expr K)} :
    sameList es fs = true ↔ List.Forall₂ (fun e f ↦ e.same f = true) es fs := by
  induction es generalizing fs with
  | nil => cases fs <;> simp [sameList]
  | cons e es ih => cases fs <;> simp [sameList, ih]

theorem same_op_iff {o p : Operator} {es fs : List (Expr K)} :
    (Expr.op o es).same (.op p fs) = true ↔
      o = p ∧ List.Forall₂ (fun e f ↦ e.same f = true) es fs := by
  rw [same, Bool.and_eq_true, decide_eq_true_eq, sameList_eq_true_iff]

/-- A tree is alike to every tree that passes the test of equality with it. -/
theorem alike_of_same [PartialEquivBEq K] {e f : Expr K} (h : e.same f = true) : Alike f e := by
  induction e using Expr.induction generalizing f with
  | const c =>
    cases f with
    | const d =>
      rw [same] at h
      exact .const (.inr (PartialEquivBEq.symm h))
    | _ => simp [same] at h
  | var x =>
    cases f with
    | var y =>
      rw [same, beq_iff_eq] at h
      exact h ▸ .var x
    | _ => simp [same] at h
  | op o es ih =>
    cases f with
    | op p fs =>
      obtain ⟨rfl, hall⟩ := same_op_iff.1 h
      exact .op hall.length_eq.symm fun f e hfe ↦
        ih e (List.of_mem_zip hfe).2 (List.forall₂_zip hall.flip hfe)
    | _ => simp [same] at h

end SymbolicDerivatives.Expr
