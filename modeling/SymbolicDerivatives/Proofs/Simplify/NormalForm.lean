import SymbolicDerivatives.Proofs.Alike
import SymbolicDerivatives.Proofs.Simplify.Steps
import SymbolicDerivatives.Proofs.Number.Double
import SymbolicDerivatives.Number.Arithmetic

/-!
# The normal form

Simplification goes over a tree once and leaves nothing for a second pass. `Expr.Normal` says what
the result looks like, without mentioning simplification; the well-formed trees that simplification
leaves as they are are exactly the normal ones.

A second pass changes nothing on other trees either, where there is no arity to rely on. For these
`Expr.Settled` is the invariant: it asks of sums, products, powers and differences what `Normal`
asks, and of every other node only that not all operands are constants. On well-formed trees the two
agree (`normal_iff`), so all is proved of `Settled`.

Nothing here uses a law of arithmetic. Constants are compared by `==`, so on doubles a negative zero
is a zero, and a merged constant may be anything, infinite or no number at all.
-/

namespace SymbolicDerivatives.Expr

variable {K : Type}

/-! ## Normal nodes -/

/-- The operands of a sum or a product in normal form: at least two, none of them a run of the same
operator, at least one that is no constant, and at most one constant. -/
structure IsRun (o : Operator) (operands : List (Expr K)) : Prop where
  two_le : 2 ≤ operands.length
  flat : ∀ e ∈ operands, ∀ inner, e ≠ .op o inner
  symbolic : ∃ e ∈ operands, e.isConst = false
  constants_le : operands.countP isConst ≤ 1

theorem IsRun.alike [BEq K] {o : Operator} {es fs : List (Expr K)} (hes : IsRun o es)
    (h : List.Forall₂ Alike es fs) : IsRun o fs where
  two_le := h.length_eq ▸ hes.two_le
  flat f hf := by
    obtain ⟨e, he, hef⟩ := exists_mem_left_of_forall₂ h hf
    exact hef.ne_op (hes.flat e he)
  symbolic := by
    obtain ⟨e, he, hconst⟩ := hes.symbolic
    obtain ⟨f, hf, hef⟩ := exists_mem_right_of_forall₂ h he
    exact ⟨f, hf, hef.isConst_eq ▸ hconst⟩
  constants_le := Alike.countP_isConst_eq h ▸ hes.constants_le

/-- Merging constants keeps what makes a run normal, as long as two operands are left. -/
theorem isRun_gather [BEq K] {o : Operator} {unit : K} {fold : List K → K} {es : List (Expr K)}
    (hflat : ∀ e ∈ es, ∀ inner, e ≠ .op o inner)
    (hsymbolic : ∃ e ∈ es, e.isConst = false) (htwo : 2 ≤ (gather unit fold es).length) :
    IsRun o (gather unit fold es) where
  two_le := htwo
  flat e he := by
    rcases mem_gather he with ⟨he, -⟩ | ⟨-, rfl, -⟩
    · exact hflat e he
    · exact fun _ h ↦ by cases h
  symbolic := by
    obtain ⟨e, he, hconst⟩ := hsymbolic
    exact ⟨e, mem_gather_of_isConst_eq_false he hconst, hconst⟩
  constants_le := countP_isConst_gather_le es

variable [Zero K] [One K] [BEq K]

/-- What the operands of a node in normal form satisfy, besides being in normal form. -/
def NormalNode : Operator → List (Expr K) → Prop
  | .add, es => IsRun .add es ∧ ∀ e ∈ es, e.isValue 0 = false
  | .mul, es => IsRun .mul es ∧ ∀ e ∈ es, e.isValue 0 = false ∧ e.isValue 1 = false
  | .pow, [u, v] =>
    (u.isConst = false ∨ v.isConst = false) ∧ v.isValue 0 = false ∧ v.isValue 1 = false ∧
      u.isValue 1 = false
  | .sub, [u, v] => (u.isConst = false ∨ v.isConst = false) ∧ v.isValue 0 = false
  | .fn _, [u] => u.isConst = false
  | _, _ => False

/-- The normal form: constants, variables, and the nodes whose operands are in normal form and
satisfy `NormalNode`. -/
def Normal (e : Expr K) : Prop := e.Everywhere NormalNode

/-! ### Trees alike to a normal one -/

theorem NormalNode.alike [PartialEquivBEq K] {o : Operator} {es fs : List (Expr K)}
    (hes : NormalNode o es) (h : List.Forall₂ Alike es fs) : NormalNode o fs := by
  match o, es, hes, h with
  | .add, es, ⟨hrun, hzero⟩, h =>
    refine ⟨hrun.alike h, fun f hf ↦ ?_⟩
    obtain ⟨e, he, hef⟩ := exists_mem_left_of_forall₂ h hf
    rw [← hef.isValue_eq]
    exact hzero e he
  | .mul, es, ⟨hrun, hvalue⟩, h =>
    refine ⟨hrun.alike h, fun f hf ↦ ?_⟩
    obtain ⟨e, he, hef⟩ := exists_mem_left_of_forall₂ h hf
    rw [← hef.isValue_eq, ← hef.isValue_eq]
    exact hvalue e he
  | .pow, [u, v], hnode, .cons hu (.cons hv .nil) =>
    rwa [NormalNode, ← hu.isConst_eq, ← hv.isConst_eq, ← hv.isValue_eq, ← hv.isValue_eq,
      ← hu.isValue_eq]
  | .sub, [u, v], hnode, .cons hu (.cons hv .nil) =>
    rwa [NormalNode, ← hu.isConst_eq, ← hv.isConst_eq, ← hv.isValue_eq]
  | .fn f, [u], hnode, .cons hu .nil =>
    rwa [NormalNode, ← hu.isConst_eq]

theorem Normal.alike [PartialEquivBEq K] {e f : Expr K} (he : e.Normal) (h : Alike e f) :
    f.Normal := by
  induction h with
  | const => exact .const _
  | var x => exact .var x
  | @op o es fs length_eq operands ih =>
    obtain ⟨hnode, hbelow⟩ := everywhere_op_iff.1 he
    have halike : List.Forall₂ Alike es fs := List.forall₂_iff_zip.2 ⟨length_eq, operands _ _⟩
    have hnormal : List.Forall₂ (fun e f ↦ Normal e → Normal f) es fs :=
      List.forall₂_iff_zip.2 ⟨length_eq, fun h ↦ ih _ _ h⟩
    refine .op (hnode.alike halike) fun f hf ↦ ?_
    obtain ⟨e, hmem, h⟩ := exists_mem_left_of_forall₂ hnormal hf
    exact h (hbelow e hmem)

/-! ## Settled nodes -/

/-- What the operands of a node satisfy that a step leaves as it is. -/
def SettledNode : Operator → List (Expr K) → Prop
  | .fn _, es | .other _, es => ∃ e ∈ es, e.isConst = false
  | o, es => NormalNode o es

/-- A step leaves every node of the tree as it is. -/
def Settled (e : Expr K) : Prop := e.Everywhere SettledNode

theorem normalNode_iff {o : Operator} {es : List (Expr K)} :
    NormalNode o es ↔ SettledNode o es ∧ Fits 0 o es := by
  cases o with
  | add | mul => exact ⟨fun h ↦ ⟨h, Nat.zero_le _⟩, fun h ↦ h.1⟩
  | sub | pow =>
    refine ⟨fun h ↦ ⟨h, ?_⟩, fun h ↦ h.1⟩
    match es, h with
    | [u, v], _ => rfl
  | fn f =>
    constructor
    · intro h
      match es, h with
      | [u], h => exact ⟨⟨u, List.mem_singleton_self u, h⟩, rfl⟩
    · rintro ⟨⟨e, he, hconst⟩, hfits⟩
      obtain ⟨u, rfl⟩ := List.length_eq_one_iff.1 hfits
      rw [List.mem_singleton.1 he] at hconst
      exact hconst
  | other s => exact ⟨fun h ↦ by cases es <;> exact h.elim, fun h ↦ h.2.elim⟩

/-- On well-formed trees, the settled ones are those in normal form. -/
theorem normal_iff {e : Expr K} : e.Normal ↔ e.Settled ∧ e.WellFormed 0 := by
  rw [wellFormed_iff_everywhere]
  constructor
  · intro h
    exact ⟨h.imp fun _ _ h ↦ (normalNode_iff.1 h).1, h.imp fun _ _ h ↦ (normalNode_iff.1 h).2⟩
  · rintro ⟨hsettled, hfits⟩
    exact (hsettled.and hfits).imp fun _ _ h ↦ normalNode_iff.2 h

theorem SettledNode.isRun {o : Operator} {es : List (Expr K)} (ho : o.isNary = true)
    (h : SettledNode o es) : IsRun o es := by
  rcases Operator.isNary_iff.1 ho with rfl | rfl <;> exact h.1

theorem SettledNode.symbolic {o : Operator} {es : List (Expr K)} (h : SettledNode o es) :
    ∃ e ∈ es, e.isConst = false := by
  match o, es, h with
  | .add, _, h | .mul, _, h => exact h.1.symbolic
  | .pow, [u, v], h | .sub, [u, v], h => simpa using h.1
  | .fn _, _, h | .other _, _, h => exact h

/-! ## The step reaches a settled node -/

section Runs

variable {o : Operator} {es : List (Expr K)}

theorem flat_flatten (ho : o.isNary = true) (hes : ∀ e ∈ es, Settled e) :
    ∀ x ∈ flatten o es, ∀ inner, x ≠ .op o inner := by
  intro x hx
  rcases mem_flatten hx with ⟨-, hflat⟩ | ⟨inner, hinner, hx⟩
  · exact hflat
  · exact ((everywhere_op_iff.1 (hes _ hinner)).1.isRun ho).flat x hx

variable {unit : K} {fold : List K → K}

/-- A run whose constants were merged is settled, if the run that is left is a settled node. -/
theorem settled_collapse_gather (hes : ∀ e ∈ es, Settled e)
    (hflat : ∀ e ∈ es, ∀ inner, e ≠ .op o inner) (hsymbolic : ∃ e ∈ es, e.isConst = false)
    (hnode : IsRun o (gather unit fold es) → SettledNode o (gather unit fold es)) :
    Settled (collapse o unit (gather unit fold es)) := by
  have hmem : ∀ e ∈ gather unit fold es, Settled e := by
    intro e he
    rcases mem_gather he with ⟨he, -⟩ | ⟨-, rfl, -⟩
    · exact hes e he
    · exact .const _
  rcases collapse_cases o unit (gather unit fold es) with ⟨-, h⟩ | ⟨e, he, h⟩ | ⟨htwo, h⟩
  · rw [h]; exact .const unit
  · rw [h]; exact hmem e (by rw [he]; exact List.mem_singleton_self e)
  · rw [h]; exact .op (hnode (isRun_gather hflat hsymbolic htwo)) hmem

end Runs

variable [Add K] [Mul K]

theorem settled_simplifySymbolic {o : Operator} {es : List (Expr K)} {e' : Expr K}
    (hes : ∀ e ∈ es, Settled e) (hflat : o.isNary = true → ∀ e ∈ es, ∀ inner, e ≠ .op o inner)
    (hsymbolic : ∃ e ∈ es, e.isConst = false) (h : simplifySymbolic o es = .ok e') :
    Settled e' := by
  match o, es, h with
  | .add, es, h =>
    rw [← Except.ok.inj h, simplifySum_eq]
    refine settled_collapse_gather hes (hflat rfl) hsymbolic fun hrun ↦ ⟨hrun, fun e he ↦ ?_⟩
    rcases mem_gather he with ⟨-, hunit⟩ | ⟨-, -, hunit⟩ <;> exact hunit
  | .mul, es, h =>
    rw [← Except.ok.inj h, simplifyProduct_eq]
    split
    · exact .const 0
    next hzero =>
    split
    · exact .const 0
    next hmerged =>
    refine settled_collapse_gather hes (hflat rfl) hsymbolic fun hrun ↦ ⟨hrun, fun e he ↦ ?_⟩
    -- a zero among the operands or as the merged constant would have taken the whole product
    rcases mem_gather he with ⟨he, hunit⟩ | ⟨htwo, rfl, hunit⟩
    · have hne : ¬e.isValue 0 = true := fun hvalue ↦ hzero (List.any_eq_true.2 ⟨e, he, hvalue⟩)
      exact ⟨by simpa using hne, hunit⟩
    · have hne : ¬(product (looseConstants 1 es) == 0) = true := fun hvalue ↦
        hmerged ⟨htwo, hvalue⟩
      exact ⟨by simpa [isValue] using hne, hunit⟩
  | .pow, [u, v], h =>
    have hu := hes u List.mem_cons_self
    rw [← Except.ok.inj h, simplifyPower]
    split
    · split
      · exact .const 0
      · exact .const 1
    next hv0 =>
    split
    · exact hu
    next hv1 =>
    split
    · exact .const 1
    next hu1 =>
    refine .op ⟨by simpa using hsymbolic, ?_, ?_, ?_⟩ hes
    · simpa using hv0
    · simpa using hv1
    · simpa using hu1
  | .sub, [u, v], h =>
    rw [← Except.ok.inj h]
    split
    · exact hes u List.mem_cons_self
    · next hv0 => exact .op ⟨by simpa using hsymbolic, by simpa using hv0⟩ hes
  | .fn f, es, h => rw [← Except.ok.inj h]; exact .op hsymbolic hes
  | .other s, es, h => rw [← Except.ok.inj h]; exact .op hsymbolic hes

theorem simplifySymbolic_of_settledNode {o : Operator} {es : List (Expr K)}
    (h : SettledNode o es) : simplifySymbolic o es = .ok (.op o es) := by
  match o, es, h with
  | .add, es, ⟨hrun, hzero⟩ =>
    rw [simplifySymbolic, simplifySum_eq, gather_eq_self hzero hrun.constants_le,
      collapse_of_two_le .add 0 hrun.two_le]
  | .mul, es, ⟨hrun, hvalue⟩ =>
    have hone : ∀ e ∈ es, e.isValue 1 = false := fun e he ↦ (hvalue e he).2
    have hzero : ¬(es.any (·.isValue 0)) = true := by
      intro hany
      obtain ⟨e, he, h⟩ := List.any_eq_true.1 hany
      rw [(hvalue e he).1] at h
      cases h
    rw [simplifySymbolic, simplifyProduct_eq, if_neg hzero,
      if_neg fun h ↦ length_looseConstants_lt hone hrun.constants_le h.1,
      gather_eq_self hone hrun.constants_le, collapse_of_two_le .mul 1 hrun.two_le]
  | .pow, [u, v], ⟨_, hv0, hv1, hu1⟩ =>
    rw [simplifySymbolic, simplifyPower, if_neg (by simp [hv0]), if_neg (by simp [hv1]),
      if_neg (by simp [hu1]), pow]
  | .sub, [u, v], ⟨_, hv0⟩ =>
    rw [simplifySymbolic, if_neg (by simp [hv0]), sub]
  | .fn f, es, _ => rfl
  | .other s, es, _ => rfl

variable [Sub K] [Elementary K]

theorem settled_simplifyNode {o : Operator} {es : List (Expr K)} {e' : Expr K}
    (hes : ∀ e ∈ es, Settled e) (h : simplifyNode o es = .ok e') : Settled e' := by
  rcases simplifyNode_eq_ok_iff.1 h with ⟨values, a, -, -, rfl⟩ | ⟨hsymbolic, h⟩
  · exact .const a
  · refine settled_simplifySymbolic (fun e he ↦ everywhere_of_mem_stepOperands hes he) ?_
      hsymbolic h
    intro ho
    rw [stepOperands, if_pos ho]
    exact flat_flatten ho hes

/-- Simplification settles every tree on which it succeeds. -/
theorem settled_simplify {e e' : Expr K} (h : e.simplify = .ok e') : Settled e' := by
  induction e using Expr.induction generalizing e' with
  | const c => rw [simplify_const_eq_ok_iff.1 h]; exact .const c
  | var x => rw [simplify_var_eq_ok_iff.1 h]; exact .var x
  | op o es ih =>
    obtain ⟨es', hes', h⟩ := simplify_op_eq_ok_iff.1 h
    refine settled_simplifyNode (fun x hx ↦ ?_) h
    obtain ⟨e, he, hx⟩ := exists_mem_left_of_forall₂ hes' hx
    exact ih e he hx

/-! ## The step leaves a settled node -/

theorem simplifyNode_of_settledNode {o : Operator} {es : List (Expr K)} (h : SettledNode o es) :
    simplifyNode o es = .ok (.op o es) := by
  have hflat : stepOperands o es = es := by
    rw [stepOperands]
    split
    · next ho => exact flatten_eq_self (h.isRun ho).flat
    · rfl
  rw [simplifyNode_eq_ok_iff, hflat]
  exact .inr ⟨h.symbolic, simplifySymbolic_of_settledNode h⟩

theorem Settled.simplify_eq {e : Expr K} (h : e.Settled) : e.simplify = .ok e := by
  unfold Settled at h
  induction h with
  | const c => exact simplify_const c
  | var x => exact simplify_var x
  | @op o es here _ ih =>
    rw [simplify_op, mapM_eq_ok_map (g := id) ih, List.map_id]
    exact simplifyNode_of_settledNode here

/-! ## Simplification computes the normal form -/

/-- **Simplification computes a normal form, in one pass.** It takes every well-formed tree to one
in normal form. The well-formed trees that it leaves as they are, exactly or up to the comparison of
trees, are those in normal form. And a second pass changes nothing on any tree. -/
theorem simplify_normal [PartialEquivBEq K] :
    (∀ e : Expr K, e.WellFormed 0 → ∃ n, e.simplify = .ok n ∧ n.Normal) ∧
      (∀ n : Expr K, n.WellFormed 0 →
        (n.simplify = .ok n ↔ n.Normal) ∧ ((∃ m, n.simplify = .ok m ∧ m.Alike n) ↔ n.Normal)) ∧
      ∀ e n : Expr K, e.simplify = .ok n → n.simplify = .ok n := by
  have hnormal : ∀ e n : Expr K, e.WellFormed 0 → e.simplify = .ok n → n.Normal := by
    intro e n he h
    exact normal_iff.2 ⟨settled_simplify h, he.simplify (Nat.zero_le 2) h⟩
  have hfixed : ∀ n : Expr K, n.Normal → n.simplify = .ok n := by
    intro n hn
    exact (normal_iff.1 hn).1.simplify_eq
  refine ⟨?_, ?_, ?_⟩
  · intro e he
    obtain ⟨n, hn⟩ := he.exists_simplify_eq_ok
    exact ⟨n, hn, hnormal e n he hn⟩
  · intro n hn
    refine ⟨⟨hnormal n n hn, hfixed n⟩, ?_, ?_⟩
    · rintro ⟨m, hm, hmn⟩
      exact (hnormal n m hn hm).alike hmn
    · exact fun h ↦ ⟨n, hfixed n h, .refl n⟩
  · exact fun e n h ↦ (settled_simplify h).simplify_eq

/-- Two constants that multiply to one, a negative zero in a sum and an exponent one: what is left
is a product of two variables. -/
theorem simplify_normal_of_doubles :
    let e : Expr Float :=
      mul [.const 2, mul [.var "x", .const 0.5], pow (add [.var "y", .const (-0.0)]) (.const 1)]
    let n : Expr Float := mul [.var "x", .var "y"]
    e.WellFormed 0 ∧ e.simplify = .ok n ∧ n.Normal ∧ n.simplify = .ok n := by
  intro e n
  have he : e.WellFormed 0 := by decide
  have hn : e.simplify = .ok n := by rfl
  obtain ⟨m, hm, hnormal⟩ := simplify_normal.1 e he
  have hmn : m = n := Except.ok.inj (hm.symm.trans hn)
  exact ⟨he, hn, hmn ▸ hnormal, simplify_normal.2.2 e n hn⟩

end SymbolicDerivatives.Expr
