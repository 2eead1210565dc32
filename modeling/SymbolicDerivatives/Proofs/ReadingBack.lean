import SymbolicDerivatives.Proofs.Calculation
import SymbolicDerivatives.Proofs.Formula.Written
import SymbolicDerivatives.Proofs.Number.Double
import SymbolicDerivatives.Proofs.Simplify.NormalForm

/-!
# What is written reads back

Every tree that the calculator writes down comes from a formula by simplification and
differentiation. Neither brings in names, so the names are words of the formula, and a simplified
tree stays as it is when it is read again. So the text of such a tree with finite constants is read
as the tree itself, exactly if none of its constants is written with an exponent: a formula has no
literals with exponents, so one small constant makes the whole text unreadable.
-/

namespace SymbolicDerivatives

open Token (IsName)

/-! ## Names of formulas -/

namespace Formula

variable {known : List String}

theorem names_run (o : Operator) (es : List (Expr Float)) :
    (run o es).names = es.flatMap Expr.names := by
  match es with
  | [] | [e] => simp [run]
  | e :: e' :: es => exact Expr.names_op o _

theorem names_joinTerms (terms : List (Expr Float)) (others : List (Sign × Expr Float)) :
    (joinTerms terms others).names =
      terms.flatMap Expr.names ++ others.flatMap fun t ↦ t.2.names := by
  induction others generalizing terms with
  | nil => rw [List.flatMap_nil, List.append_nil]; exact names_run .add terms
  | cons t others ih =>
    obtain ⟨sign, e⟩ := t
    have hcons : joinTerms terms ((sign, e) :: others) = joinTerms (sign.join terms e) others := rfl
    have hjoin : (sign.join terms e).flatMap Expr.names = terms.flatMap Expr.names ++ e.names := by
      cases sign with
      | plus => rw [Sign.join, List.flatMap_append, List.flatMap_singleton]
      | minus => rw [Sign.join, List.flatMap_singleton, Expr.names_sub, names_run]
    rw [hcons, ih, hjoin, List.flatMap_cons, List.append_assoc]

/-- A name of one of several phrases with signs between them. -/
theorem name_mem_append_flatMap {α : Type} {x : String} {names : List String}
    {tokens : List Token} {others : List α} {sign : α → Token} {tokensOf : α → List Token}
    {namesOf : α → List String} (hfirst : x ∈ names → .name x ∈ tokens)
    (hothers : ∀ t ∈ others, x ∈ namesOf t → .name x ∈ tokensOf t)
    (hx : x ∈ names ++ others.flatMap namesOf) :
    .name x ∈ tokens ++ others.flatMap fun t ↦ sign t :: tokensOf t := by
  rcases List.mem_append.1 hx with hx | hx
  · exact List.mem_append_left _ (hfirst hx)
  · obtain ⟨t, ht, hx⟩ := List.mem_flatMap.1 hx
    have hmem : .name x ∈ sign t :: tokensOf t := List.mem_cons_of_mem _ (hothers t ht hx)
    exact List.mem_append_right _ (List.mem_flatMap.2 ⟨t, ht, hmem⟩)

/-- The names of a tree are among its tokens. -/
theorem Phrase.name_mem {level : Level} {tokens : List Token} {e : Expr Float}
    (h : Phrase level tokens e) {x : String} (hx : x ∈ e.names) : .name x ∈ tokens := by
  induction h with
  | @expression tokens e _ others _ ihfirst ih =>
    rw [names_joinTerms, List.flatMap_singleton, List.flatMap_map] at hx
    exact name_mem_append_flatMap ihfirst ih hx
  | @term tokens e _ others _ ihfirst ih =>
    rw [names_run, List.flatMap_cons, List.flatMap_map] at hx
    exact name_mem_append_flatMap ihfirst ih hx
  | base _ ih | operand _ ih => exact ih hx
  | power _ _ ihbase ihexponent =>
    rw [Expr.names_pow, List.mem_append] at hx
    rcases hx with hx | hx
    · exact List.mem_append_left _ (ihbase hx)
    · exact List.mem_append_right _ (List.mem_cons_of_mem _ (ihexponent hx))
  | number | negative =>
    rw [Expr.names_const] at hx
    cases hx
  | name word =>
    rw [Expr.names_var, List.mem_singleton] at hx
    rw [hx]
    exact List.mem_singleton_self _
  | parentheses _ ih => exact List.mem_cons_of_mem _ (List.mem_append_left _ (ih hx))
  | closedFunction f _ ih | openFunction f _ ih =>
    rw [Expr.names_apply] at hx
    exact List.mem_cons_of_mem _ (ih hx)
  | negated _ _ ih =>
    rw [Expr.names_mul, List.flatMap_cons, Expr.names_const, List.nil_append,
      List.flatMap_singleton] at hx
    exact List.mem_cons_of_mem _ (ih hx)

end Formula

/-! ## Trees that are written down -/

namespace Expr

/-- What holds of every tree that the calculator writes down. -/
structure Finished (e : Expr Float) : Prop where
  wellFormed : e.WellFormed 2
  settled : e.Settled
  names : ∀ x ∈ e.names, IsName x.toList

namespace Finished

variable {e e' : Expr Float}

theorem normal (h : Finished e) : e.Normal :=
  normal_iff.2 ⟨h.settled, h.wellFormed.mono (Nat.zero_le 2)⟩

theorem differentiate (h : Finished e) {x : String} (hx : e.differentiate x = .ok e') :
    Finished e' where
  wellFormed := h.wellFormed.differentiate (Nat.le_refl 2) hx
  settled := by
    obtain ⟨d, -, hsimplify⟩ := differentiate_eq_ok_iff.1 hx
    exact settled_simplify hsimplify
  names y hy := h.names y (names_differentiate_subset hx hy)

theorem differentiateAll (h : Finished e) {plan : List String}
    (hplan : e.differentiateAll plan = .ok e') : Finished e' := by
  induction plan generalizing e with
  | nil => rwa [← Except.ok.inj hplan]
  | cons x plan ih =>
    obtain ⟨d, hd, hrest⟩ := differentiateAll_cons_eq_ok_iff.1 hplan
    exact ih (h.differentiate hd) hrest

theorem of_phrase {formula : String} {tokens : List Token} (hscan : Token.scan formula = .ok tokens)
    (hphrase : Formula.Phrase .expression tokens e) (h : e.simplify = .ok e') : Finished e' where
  wellFormed := hphrase.wellFormed.simplify (Nat.le_refl 2) h
  settled := settled_simplify h
  names _ hx :=
    Token.isName_of_mem_scanFrom hscan (hphrase.name_mem (names_simplify_subset h hx))

/-- Reading a formula gives such a tree, also if the formula counts as `0`. -/
theorem of_read {known : List String} {formula : Option String}
    (h : (Formula.read known formula).run.value = .ok e) : Finished e := by
  rw [← Formula.read_value_getD] at h
  by_cases hphrase : ∃ tokens tree, Token.scan (formula.getD "") = .ok tokens ∧
    Formula.Phrase .expression tokens tree
  · obtain ⟨tokens, tree, hscan, hphrase⟩ := hphrase
    rw [Formula.read_value_of_phrase hscan hphrase] at h
    exact of_phrase hscan hphrase h
  · rw [Formula.read_value_of_no_phrase hphrase] at h
    rw [← Except.ok.inj h]
    refine ⟨.const 0, .const 0, ?_⟩
    rw [names_const]
    exact fun _ hx ↦ nomatch hx

end Finished

end Expr

/-! ## Reading back -/

namespace Formula

/-- The text is read as the tree, up to the sign of a zero. -/
def ReadsAs (s : String) (e : Expr Float) : Prop :=
  ∀ known, ∃ f, (read known (some s)).run.value = .ok f ∧ (f == e) = true

/-- A text that is no formula is read as `0`, which is written without an exponent. -/
theorem const_zero_beq_eq_false {e : Expr Float} (h : ¬HasLiterals e) :
    (Expr.const 0 == e) = false := by
  rw [← Bool.not_eq_true]
  intro hsame
  replace hsame : (Expr.const 0).same e = true := hsame
  cases e with
  | const c =>
    rw [Expr.same, Number.beq_iff] at hsame
    obtain ⟨s, hs⟩ : ∃ s, c.toModel.unpack = .zero s := by
      rcases hsame with ⟨-, s, -, hs⟩ | ⟨hzero, -⟩
      · exact ⟨s, hs⟩
      · exact ⟨_, hzero.symm.trans rfl⟩
    refine h (hasLiterals_const_iff.2 ?_)
    rw [Number.toList_plainText_of_zero hs]
    decide
  | _ => simp [Expr.same] at hsame

/-- The text of a tree with finite constants is read as the tree exactly if no exponent is written.
-/
theorem readsAs_text_iff {e : Expr Float} (h : e.Finished)
    (hfinite : ∀ c ∈ e.constants, c.isFinite = true) {s : String} (hs : e.text = .ok s) :
    ReadsAs s e ↔ HasLiterals e := by
  obtain ⟨tokens, hscan, hphrase, hnone⟩ := scan_text h.wellFormed ⟨h.names, hfinite⟩ hs
  constructor
  · intro hreads
    by_contra hexponent
    have hnone : ¬∃ tokens f, Token.scan s = .ok tokens ∧ Phrase .expression tokens f := by
      rintro ⟨tokens', f, htokens, hphrase⟩
      cases hscan.symm.trans htokens
      exact hnone hexponent f hphrase
    obtain ⟨f, hf, hsame⟩ := hreads []
    rw [read_value_of_no_phrase hnone] at hf
    rw [← Except.ok.inj hf, const_zero_beq_eq_false hexponent] at hsame
    cases hsame
  · intro hliterals known
    obtain ⟨f, hphrase, hsame⟩ := hphrase hliterals
    -- Both trees are in normal form, so the second reading has nothing to simplify.
    have hsettled := (Expr.normal_iff.1 (h.normal.alike (Expr.alike_of_same hsame))).1
    refine ⟨f, ?_, hsame⟩
    rw [read_value_of_phrase hscan hphrase, hsettled.simplify_eq]

/-- **What is written reads back, if no exponent is written.** Suppose that the constants of a tree
are finite. If it is the tree that a formula is read as, the tree of a stage of a calculation or the
derivative at its end, its text is read as the tree, up to the sign of a zero, exactly if no
constant is written with an exponent. -/
theorem text_reads_back (formula : Option String) (plan values : String) :
    ∃ e c, (∀ known, (read known formula).run.value = .ok e) ∧
      (∃ s, e.text = .ok s ∧ ((∀ c ∈ e.constants, c.isFinite = true) →
        (ReadsAs s e ↔ HasLiterals e))) ∧
      (Calculation.ofTexts formula plan values).run.value = .ok c ∧
      c.stages.length = (planOfLine plan).length + 1 ∧
      (∀ k ≤ (planOfLine plan).length, ∃ s t, c.stages[k]? = some s ∧
        e.differentiateAll ((planOfLine plan).take k) = .ok t ∧ t.text = .ok s.text ∧
        ((∀ c ∈ t.constants, c.isFinite = true) → (ReadsAs s.text t ↔ HasLiterals t))) ∧
      ∃ t, e.differentiateAll (planOfLine plan) = .ok t ∧ t.text = .ok c.derivative ∧
        ((∀ c ∈ t.constants, c.isFinite = true) → (ReadsAs c.derivative t ↔ HasLiterals t)) := by
  obtain ⟨e, steps, c, h⟩ := exists_course formula plan values
  have hfinished := Expr.Finished.of_read (h.read [])
  refine ⟨e, c, h.read, ?_, h.ofTexts_value, h.length_stages, fun k hk ↦ ?_, ?_⟩
  · obtain ⟨s, hs⟩ := h.wellFormed.exists_text_eq_ok
    exact ⟨s, hs, fun hfinite ↦ readsAs_text_iff hfinished hfinite hs⟩
  · obtain ⟨s, t, hs, ht, htext, -⟩ := h.exists_stage hk
    have hshown := hfinished.differentiateAll ht
    exact ⟨s, t, hs, ht, htext, fun hfinite ↦ readsAs_text_iff hshown hfinite htext⟩
  · have ht := h.trace.differentiateAll_eq
    have hshown := hfinished.differentiateAll ht
    exact ⟨_, ht, h.derivative, fun hfinite ↦ readsAs_text_iff hshown hfinite h.derivative⟩

/-- The exponent of a negative power stands in no parentheses, in the formula, in the stage of its
derivative and in the result. -/
theorem text_reads_back_of_power :
    let e : Expr Float := .mul [.const (-0.25), .pow (.var "x") (.const (-2))]
    let e' : Expr Float := .mul [.const 0.5, .pow (.var "x") (.const (-3))]
    (read [] (some "-0.25 * x^-2")).run.value = .ok e ∧ (∀ c ∈ e.constants, c.isFinite = true) ∧
      e.text = .ok "(-0.25*(x^-2))" ∧ ReadsAs "(-0.25*(x^-2))" e ∧
      e.differentiateAll ["x"] = .ok e' ∧ (∀ c ∈ e'.constants, c.isFinite = true) ∧
      e'.text = .ok "(0.5*(x^-3))" ∧
      ∃ c s, (Calculation.ofTexts (some "-0.25 * x^-2") "x" "").run.value = .ok c ∧
        c.stages.length = 2 ∧ c.stages[1]? = some s ∧ s.text = "(0.5*(x^-3))" ∧
        ReadsAs s.text e' ∧ c.derivative = "(0.5*(x^-3))" ∧ ReadsAs c.derivative e' := by
  intro e e'
  have hscan : Token.scan "-0.25 * x^-2" =
      .ok [.minus, .number "0.25", .times, .name "x", .caret, .minus, .number "2"] := by
    decide +kernel
  have hphrase : Phrase .term _ _ := .term (.base (.negative "0.25")) [(_, _)]
    (List.forall_mem_singleton.2 (.power (.name "x") (.base (.negative "2"))))
  have hread : (read [] (some "-0.25 * x^-2")).run.value = .ok e :=
    (read_value_of_phrase hscan hphrase.term_expression).trans rfl
  have hplan : planOfLine "x" = ["x"] := by decide +kernel
  have hderivative : e.differentiateAll ["x"] = .ok e' := rfl
  have hfinite : ∀ c ∈ [(-0.25 : Float), -2], c.isFinite = true := by decide +kernel
  have hfinite' : ∀ c ∈ [(0.5 : Float), -3], c.isFinite = true := by decide +kernel
  have hliterals : ∀ c ∈ [(-0.25 : Float), -2], 'e' ∉ (Number.plainText c).toList := by
    decide +kernel
  have hliterals' : ∀ c ∈ [(0.5 : Float), -3], 'e' ∉ (Number.plainText c).toList := by
    decide +kernel
  have htext : e.text = .ok "(-0.25*(x^-2))" := by decide +kernel
  have htext' : e'.text = .ok "(0.5*(x^-3))" := by decide +kernel
  obtain ⟨e₀, c, hread₀, ⟨s₀, hs₀, hreads⟩, hc, hlength, hstages, t, ht, hderived, hreads'⟩ :=
    text_reads_back (some "-0.25 * x^-2") "x" ""
  obtain rfl : e₀ = e := Except.ok.inj ((hread₀ []).symm.trans hread)
  rw [hplan] at hlength hstages ht
  obtain ⟨s, t₁, hs, ht₁, hshown, hreads₁⟩ := hstages 1 le_rfl
  cases hs₀.symm.trans htext
  cases ht.symm.trans hderivative
  cases ht₁.symm.trans hderivative
  exact ⟨hread, hfinite, htext, (hreads hfinite).2 hliterals, hderivative, hfinite', htext', c, s,
    hc, hlength, hs, Except.ok.inj (hshown.symm.trans htext'), (hreads₁ hfinite').2 hliterals',
    Except.ok.inj (hderived.symm.trans htext'), (hreads' hfinite').2 hliterals'⟩

/-- A constant that is written with an exponent is not read back: there is no such literal. -/
theorem text_does_not_read_back :
    (∀ known, (read known (some "0.00001")).run.value = .ok (.const 0.00001)) ∧
      (0.00001 : Float).isFinite = true ∧ (Expr.const 0.00001).text = .ok "1e-05" ∧
      (∀ known, (read known (some "1e-05")).run.value = .ok (.const 0)) ∧
      ((Expr.const 0 : Expr Float) == .const 0.00001) = false := by
  refine ⟨fun known ↦ ?_, by decide +kernel, by decide +kernel, fun known ↦ ?_, by decide +kernel⟩
  · have hscan : Token.scan "0.00001" = .ok [.number "0.00001"] := by decide +kernel
    rw [read_value_of_phrase hscan (Phrase.number _).closed_term.term_expression,
      Expr.simplify_const]
    rfl
  · refine read_value_of_no_phrase ?_
    rintro ⟨tokens, e, hscan, hphrase⟩
    have htokens : Token.scan "1e-05" = .ok [.number "1", .name "e", .minus, .number "05"] := by
      decide +kernel
    cases hscan.symm.trans htokens
    exact (List.isChain_cons_cons.1 hphrase.isChain).1

end Formula

end SymbolicDerivatives
