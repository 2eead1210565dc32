import SymbolicDerivatives.Proofs.Calculation
import SymbolicDerivatives.Proofs.Names

/-!
# What the bindings can change

The line of bindings reaches the result in one place only, where the last derivative is evaluated.
Before that, the reader is told which names have values, but it only keeps records of the others;
and no derivative has a name that the formula does not have. So the result depends on the values of
the names in the formula, and on nothing else that the line says.
-/

namespace SymbolicDerivatives

namespace Course

variable {formula : Option String} {plan values : String} {e : Expr Float} {steps : List Step}
  {c : Calculation}

theorem names_lastTree_subset (h : Course formula plan values e steps c) :
    (Derivation.lastTree e steps).names ⊆ e.names :=
  Expr.names_differentiateAll_subset h.trace.differentiateAll_eq

/-- The calculations of a formula along a plan have the same value, if the names of the formula have
the same values. -/
theorem value_eq_of_agree {values' : String} {e' : Expr Float} {steps' : List Step}
    {c' : Calculation} (h : Course formula plan values e steps c)
    (h' : Course formula plan values' e' steps' c')
    (hagree : ∀ x ∈ e.names,
      (Point.ofLine (some values)).value.get x = (Point.ofLine (some values')).value.get x) :
    c.value = c'.value := by
  obtain rfl : e = e' := Except.ok.inj ((h.read []).symm.trans (h'.read []))
  have hsteps : steps = steps' := Except.ok.inj (h.value_derive.symm.trans h'.value_derive)
  have hvalue := h.value
  rw [Expr.evaluate_congr fun x hx ↦ hagree x (h.names_lastTree_subset hx), hsteps, h'.value]
    at hvalue
  exact (Except.ok.inj hvalue).symm

end Course

namespace Calculation

/-- **Only the values of names in the formula count.** A plan brings no names into a tree, so points
that agree on the names of the tree give the end of the plan the same value. The tree of a formula
does not depend on the names that are known. So two inputs with the same formula and plan have the
same result, if the points of their bindings agree on the names in the tree of the formula. -/
theorem resultOf_congr :
    (∀ (e t : Expr Float) (plan : List String), e.differentiateAll plan = .ok t →
      (∀ x ∈ t.names, x ∈ e.names) ∧
      ∀ p q : Point, (∀ x ∈ e.names, p.get x = q.get x) → t.evaluate p.get = t.evaluate q.get) ∧
    (∀ (formula : String) (known known' : List String) (e : Expr Float),
      (Formula.parse known formula).value = .ok e ↔
        (Formula.parse known' formula).value = .ok e) ∧
    ∀ formula : String, ∃ e : Expr Float,
      (∀ known, (Formula.read known (some formula)).run.value = .ok e) ∧
      ∀ (plan values values' : String) (input input' : Option String),
        splitInput input = (formula, plan, values) →
        splitInput input' = (formula, plan, values') →
        (∀ x ∈ e.names, (Point.ofLine (some values)).value.get x =
          (Point.ofLine (some values')).value.get x) →
        ∃ result, (resultOf input).run.value = .ok result ∧
          (resultOf input').run.value = .ok result := by
  refine ⟨fun e t plan hplan ↦ ?_, fun formula known known' e ↦ ?_, fun formula ↦ ?_⟩
  · have hnames := Expr.names_differentiateAll_subset hplan
    exact ⟨fun x hx ↦ hnames hx,
      fun p q hagree ↦ Expr.evaluate_congr fun x hx ↦ hagree x (hnames hx)⟩
  · rw [Formula.parse_value_eq_ok_iff, Formula.parse_value_eq_ok_iff]
  · obtain ⟨e, -, hread⟩ := Formula.exists_read_value_eq_ok (some formula)
    refine ⟨e, hread, fun plan values values' input input' hinput hinput' hagree ↦ ?_⟩
    obtain ⟨f, steps, c, h⟩ := exists_course (some formula) plan values
    obtain ⟨f', steps', c', h'⟩ := exists_course (some formula) plan values'
    obtain rfl : e = f := Except.ok.inj ((hread []).symm.trans (h.read []))
    refine ⟨c.result, h.resultOf_value hinput, ?_⟩
    rw [h'.resultOf_value hinput', result, result, h.value_eq_of_agree h' hagree]

/-- Other names, earlier values of a name and a last word without a value do not count. -/
theorem resultOf_congr_of_duplicates :
    let first := some "x*y\nx\ny 3"
    let second := some "x*y\nx\ny 2 z 5 e nan y 3 w"
    splitInput first = ("x*y", "x", "y 3") ∧
      splitInput second = ("x*y", "x", "y 2 z 5 e nan y 3 w") ∧
      (∀ x ∈ ["x", "y"], (Point.ofLine (some "y 3")).value.get x =
        (Point.ofLine (some "y 2 z 5 e nan y 3 w")).value.get x) ∧
      ∃ result, (resultOf first).run.value = .ok result ∧
        (resultOf second).run.value = .ok result := by
  intro first second
  have hfirst : splitInput first = ("x*y", "x", "y 3") := by decide +kernel
  have hsecond : splitInput second = ("x*y", "x", "y 2 z 5 e nan y 3 w") := by decide +kernel
  have hagree : ∀ x ∈ ["x", "y"], (Point.ofLine (some "y 3")).value.get x =
      (Point.ofLine (some "y 2 z 5 e nan y 3 w")).value.get x := by decide +kernel
  have hscan : Token.scan "x*y" = .ok [.name "x", .times, .name "y"] := by decide +kernel
  have hphrase : Formula.Phrase .expression _ _ :=
    .expression (.term (.base (.name "x")) [(_, _)]
      (List.forall_mem_singleton.2 (.base (.name "y")))) [] (List.forall_mem_nil _)
  have hread : (Formula.read [] (some "x*y")).run.value = .ok (.mul [.var "x", .var "y"]) :=
    (Formula.read_value_of_phrase hscan hphrase).trans rfl
  obtain ⟨e, he, hresult⟩ := resultOf_congr.2.2 "x*y"
  obtain rfl := Except.ok.inj ((he []).symm.trans hread)
  exact ⟨hfirst, hsecond, hagree, hresult _ _ _ _ _ hfirst hsecond hagree⟩

end Calculation

end SymbolicDerivatives
