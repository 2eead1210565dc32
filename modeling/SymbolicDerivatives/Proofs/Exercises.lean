import SymbolicDerivatives.Proofs.Algebra.Derivative
import SymbolicDerivatives.Proofs.Algebra.Latex
import SymbolicDerivatives.Proofs.Algebra.Random
import SymbolicDerivatives.Service

/-!
# Exercises can be solved

Whatever the draws are, a request for a random term that has all it needs is answered. The exercise
is a formula that the parser reads as the term, and so is the derivative that comes with it for
reference, which has the value of the iterated partial derivative. Drawing fails only if there are
trees to draw and no symbols for them.
-/

namespace SymbolicDerivatives.Service

open Token (IsName)

variable {names : List String} {t : Term} {plan? : Option String}

/-- The exercise shows a term made from symbols: its formula is read as the term, its LaTeX is
that of the term, and the derivative that a plan asks for is a formula too. -/
structure Exercise.Shows (names : List String) (plan? : Option String) (t : Term)
    (exercise : Exercise) : Prop where
  madeFrom : t.MadeFrom ⟨names, exerciseFunctions⟩
  text_read : ∀ known, (Formula.parse known exercise.text).value = .ok t.tree
  names_subset : t.tree.names ⊆ names
  latex_eq : exercise.latex = t.latex
  latex_balanced : Text.Balanced exercise.latex
  no_derivative : plan? = none ∨ plan? = some "" → exercise.derivative? = none
  derivative : ∀ plan ≠ "", plan? = some plan → ∃ (text : String) (d : Term),
    exercise.derivative? = some text ∧
    (∀ known, (Formula.parse known text).value = .ok d.tree) ∧ d.tree.names ⊆ names ∧
    ∀ r, HasIteratedPartialAt (planOfLine plan) (fun p ↦ t.value p) (d.value r) r

/-- The functions of exercises have keywords, so a term made with them has a formula. -/
theorem exists_writeTerm_eq_ok (h : t.MadeFrom ⟨names, exerciseFunctions⟩) :
    ∃ text, writeTerm t = .ok text ∧ t.formula = .ok text := by
  have hkeywords : ∀ f ∈ exerciseFunctions, f.keyword?.isSome = true := by decide
  obtain ⟨text, htext⟩ := Term.exists_formula_eq_ok (h.foreign_eq_nil hkeywords)
  exact ⟨text, by rw [writeTerm, htext]; rfl, htext⟩

theorem exists_ofTerm_eq_ok (hnames : ∀ x ∈ names, IsName x.toList)
    (h : t.MadeFrom ⟨names, exerciseFunctions⟩) (plan? : Option String) :
    ∃ exercise, Exercise.ofTerm t plan? = .ok exercise ∧ exercise.Shows names plan? t := by
  obtain ⟨text, hwrite, htext⟩ := exists_writeTerm_eq_ok h
  have hbalanced : Text.Balanced t.latex :=
    (h.balanced fun x hx ↦ Term.balanced_of_isName (hnames x hx)).1
  have hread := (h.readable hnames).parse_value htext
  by_cases hasked : ∃ plan ≠ "", plan? = some plan
  · obtain ⟨plan, hne, rfl⟩ := hasked
    have hi := Ingredients.smooth_of_sin_cos names
    have hd := h.foldl_derivative hi (planOfLine plan)
    obtain ⟨reference, hreference, hformula⟩ := exists_writeTerm_eq_ok hd
    refine ⟨⟨text, t.latex, some reference⟩, ?_, h, hread, h.names_tree_subset, rfl, hbalanced,
      ?_, ?_⟩
    · rw [Exercise.ofTerm.eq_def, hwrite]
      split
      · next heq => cases heq
      · next heq => exact absurd (Option.some.inj heq) hne
      · next heq =>
        obtain rfl := Option.some.inj heq
        rw [hreference]
        rfl
    · rintro (hnone | hempty)
      · cases hnone
      · exact absurd (Option.some.inj hempty) hne
    · rintro _ - heq
      obtain rfl := Option.some.inj heq
      exact ⟨reference, _, rfl, (hd.readable hnames).parse_value hformula, hd.names_tree_subset,
        fun r ↦ h.hasIteratedPartialAt hi _ r⟩
  · refine ⟨⟨text, t.latex, none⟩, ?_, h, hread, h.names_tree_subset, rfl, hbalanced,
      fun _ ↦ rfl, fun plan hne heq ↦ absurd ⟨plan, hne, heq⟩ hasked⟩
    rw [Exercise.ofTerm.eq_def, hwrite]
    split
    · rfl
    · rfl
    · next plan hne => exact absurd ⟨plan, fun hempty ↦ hne (hempty ▸ rfl), rfl⟩ hasked

/-- **Exercises can be solved.** With symbols that are names, and a depth if there are trees to
draw, a request gives an exercise, whatever the draws are; only without any symbols there is nothing
to draw a tree from. -/
theorem generate_shows {symbols count depth plan : Member} {number : ℤ} {depth? : Option ℤ}
    (hsymbols : symbols.texts? ["x"] = some (some names))
    (hcount : count.whole? 3 = some (some number)) (hdepth : depth.whole? 2 = some depth?)
    (hplan : plan.optionalText? = some plan?) (hneeded : 0 < number → depth? ≠ none)
    (hnames : ∀ x ∈ names, IsName x.toList) (draws : List ℕ) :
    (∃ exercise t, generate symbols count depth plan draws = .ok exercise ∧
      exercise.Shows names plan? t) ∨
    (names = [] ∧ 0 < number ∧
      generate symbols count depth plan draws = .error (.draw .emptyChoice)) := by
  obtain ⟨levels, hlevels⟩ : ∃ levels, (if number ≤ 0 then some 0 else depth?) = some levels := by
    split
    · exact ⟨0, rfl⟩
    · next hpos => exact Option.ne_none_iff_exists'.1 (hneeded (Int.not_le.1 hpos))
  have hgenerate : generate symbols count depth plan draws =
      (do
        let result ← drawTerm ⟨names, exerciseFunctions⟩ number levels draws
        Exercise.ofTerm result.1 plan?) := by
    simp only [generate, hsymbols, hcount, hdepth, hplan, hlevels]
  have hterm := Ingredients.term_gives (i := ⟨names, exerciseFunctions⟩) number levels draws
  rw [hgenerate, drawTerm]
  cases hrun : (Ingredients.term ⟨names, exerciseFunctions⟩ number levels).run draws with
  | error failure =>
    rw [hrun] at hterm
    cases failure
    exact .inr ⟨hterm.1, hterm.2, rfl⟩
  | ok result =>
    rw [hrun] at hterm
    obtain ⟨exercise, heq, hshows⟩ := exists_ofTerm_eq_ok hnames hterm plan?
    exact .inl ⟨exercise, result.1, heq, hshows⟩

-- Without draws each of the three trees is the first symbol.
example : (generate .missing .missing .missing (.text "x") []).toOption.map
    (fun exercise ↦ (exercise.text, exercise.latex, exercise.derivative?)) =
      some ("(3*x)", "3 x", some "3") := by
  decide +kernel

end SymbolicDerivatives.Service
