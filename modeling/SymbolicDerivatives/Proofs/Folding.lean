import SymbolicDerivatives.Proofs.Calculation

/-!
# Folding is evaluation

Simplification computes a node whose operands have all become constants by the rule that evaluation
uses too. In a tree without variables every node is of this kind: the rules for zeros and ones are
never asked, and no run is flattened, because its operands are constants by then. So simplifying a
tree whose variables were replaced by their values and evaluating it are the same computation, down
to the failure that is met first.
-/

namespace SymbolicDerivatives

namespace Expr

variable {K : Type}

/-! ## Trees without variables -/

theorem substitute_eq_self {e : Expr K} (h : e.names = []) (point : String → K) :
    e.substitute point = e := by
  induction e using Expr.induction with
  | const c => rw [substitute]
  | var x => rw [names] at h; cases h
  | op o es ih =>
    rw [names_op, List.flatMap_eq_nil_iff] at h
    rw [substitute_op, List.map_congr_left fun e he ↦ ih e he (h e he), List.map_id']

/-! ## Simplification as evaluation -/

variable [Zero K] [One K] [Add K] [Sub K] [Mul K] [BEq K] [Elementary K]

/-- A tree with values in place of its variables is simplified to the constant that the tree
evaluates to. -/
theorem simplify_substitute (point : String → K) (e : Expr K) :
    (e.substitute point).simplify = .const <$> e.evaluate point := by
  induction e using Expr.induction with
  | const c => rw [substitute, simplify_const, evaluate_const]; rfl
  | var x => rw [substitute, simplify_const, evaluate_var]; rfl
  | op o es ih =>
    have hoperands : (es.map (·.substitute point)).mapM simplify =
        List.map .const <$> es.mapM (·.evaluate point) := by
      rw [List.mapM_map]
      exact mapM_eq_map_mapM ih
    rw [substitute_op, simplify_op, evaluate_op, hoperands]
    cases es.mapM (·.evaluate point) with
    | error failure => rfl
    | ok values => exact simplifyNode_map_const o values

end Expr

namespace Formula

/-- **Folding is evaluation.** A tree whose variables are replaced by their values at a point is
simplified to a constant if and only if the tree evaluates to that constant there, and
simplification fails if and only if evaluation fails, for the same cause. So a formula without
variables is read as the one constant that its tree, as written, evaluates to at every point. -/
theorem simplify_eq_evaluate :
    (∀ (e : Expr Float) (p : Point),
      (∀ c, (e.substitute p.get).simplify = .ok (.const c) ↔ e.evaluate p.get = .ok c) ∧
      ∀ failure, (e.substitute p.get).simplify = .error failure ↔
        e.evaluate p.get = .error failure) ∧
    ∀ known formula e, (parse known formula).value = .ok e → e.names = [] →
      ∃ c, (∀ p : Point, e.evaluate p.get = .ok c) ∧
        ∀ known, (read known (some formula)).run.value = .ok (.const c) := by
  refine ⟨fun e p ↦ ?_, fun known formula e hparse hnames ↦ ?_⟩
  · rw [Expr.simplify_substitute]
    cases e.evaluate p.get with
    | error failure => exact ⟨fun c ↦ ⟨nofun, nofun⟩, fun failure ↦ by simp⟩
    | ok a => exact ⟨fun c ↦ by simp, fun failure ↦ ⟨nofun, nofun⟩⟩
  · obtain ⟨tokens, hscan, hphrase⟩ := parse_value_eq_ok_iff.1 hparse
    obtain ⟨n, hn⟩ := hphrase.wellFormed.passes.simplify
    have hfold (p : Point) : .const <$> e.evaluate p.get = .ok n := by
      rw [← Expr.simplify_substitute, Expr.substitute_eq_self hnames, hn]
    obtain ⟨c, -, rfl⟩ := map_eq_ok_iff.1 (hfold ⟨[]⟩)
    refine ⟨c, fun p ↦ ?_, fun known ↦ (read_value_of_phrase hscan hphrase).trans hn⟩
    obtain ⟨a, ha, hac⟩ := map_eq_ok_iff.1 (hfold p)
    rw [ha, Expr.const.inj hac]

/-- A product with a zero is computed as well, and an operator without rules fails in both ways. -/
theorem simplify_eq_evaluate_of_zero :
    let e : Expr Float := .sub (.mul [.const 0, .const (-3)]) (.const 0.5)
    let p : Point := ⟨[("x", 1e400)]⟩
    (parse [] "0*-3 - 0.5").value = .ok e ∧ e.names = [] ∧ e.evaluate p.get = .ok (-0.5) ∧
      (read [] (some "0*-3 - 0.5")).run.value = .ok (.const (-0.5)) ∧
      (Expr.substitute p.get (.mul [.const 0, .var "x"])).simplify =
        .ok (.const Number.notANumber) ∧
      (Expr.substitute p.get (.op (.other "/") [.var "x"])).simplify =
        .error (.unsupported .evaluation (.other "/")) := by
  intro e p
  have hscan : Token.scan "0*-3 - 0.5" =
      .ok [.number "0", .times, .minus, .number "3", .minus, .number "0.5"] := by
    decide +kernel
  have hproduct : Phrase .term [.number "0", .times, .minus, .number "3"] _ :=
    .term (.base (.number "0")) [(_, _)] (List.forall_mem_singleton.2 (.base (.negative "3")))
  have hlast : Phrase .term [.number "0.5"] _ :=
    .term (.base (.number "0.5")) [] (List.forall_mem_nil _)
  have hphrase : Phrase .expression _ e :=
    .expression hproduct [(.minus, _, _)] (List.forall_mem_singleton.2 hlast)
  have hparse : (parse [] "0*-3 - 0.5").value = .ok e :=
    parse_value_eq_ok_iff.2 ⟨_, hscan, hphrase⟩
  have hvalue : e.evaluate p.get = .ok (-0.5) := by decide +kernel
  obtain ⟨htrees, hformulas⟩ := simplify_eq_evaluate
  obtain ⟨c, hc, hread⟩ := hformulas [] _ e hparse rfl
  obtain rfl : c = -0.5 := Except.ok.inj ((hc p).symm.trans hvalue)
  exact ⟨hparse, rfl, hvalue, hread [], ((htrees _ p).1 _).2 (by decide +kernel),
    ((htrees _ p).2 _).2 rfl⟩

end Formula

end SymbolicDerivatives
