import SymbolicDerivatives.Proofs.Formula.Written
import SymbolicDerivatives.Proofs.Number.Result
import SymbolicDerivatives.Proofs.Service

/-!
# The endpoints agree

There are three ways to ask for a derivative: as a text of three lines, which gives the result
alone, as three texts, and as a stream. In the first one typographic signs are spelled out in all
lines and in the others only in the formula, but spelling them out goes line by line. So all three
answer with the same calculation.
-/

namespace SymbolicDerivatives

/-! ## Three lines -/

namespace Formula

theorem normalize_append (s t : String) : normalize (s ++ t) = normalize s ++ normalize t := by
  rw [normalize, String.toList_append, List.flatMap_append, String.ofList_append]
  rfl

theorem newline_notMem_spellOut {c : Char} (h : c ≠ '\n') : '\n' ∉ spellOut c := by
  unfold spellOut
  split
  · decide
  · decide
  · decide
  · decide
  · exact fun hmem ↦ h (List.mem_singleton.1 hmem).symm

theorem newline_notMem_normalize {s : String} (h : '\n' ∉ s.toList) :
    '\n' ∉ (normalize s).toList := by
  rw [normalize, String.toList_ofList, List.mem_flatMap]
  rintro ⟨c, hc, hspell⟩
  exact newline_notMem_spellOut (ne_of_mem_of_not_mem hc h) hspell

end Formula

theorem splitInput_lines {formula plan values : String} (hformula : '\n' ∉ formula.toList)
    (hplan : '\n' ∉ plan.toList) (hvalues : '\n' ∉ values.toList) :
    splitInput (some (formula ++ "\n" ++ plan ++ "\n" ++ values)) = (formula, plan, values) := by
  have htext : (formula ++ "\n" ++ plan ++ "\n" ++ values).toList =
      ['\n'].intercalate [formula.toList, plan.toList, values.toList] := by
    simp [String.toList_append]
  have hlines : Text.lines (formula ++ "\n" ++ plan ++ "\n" ++ values) =
      [formula, plan, values] := by
    rw [Text.lines, htext, List.splitOn_intercalate _ ?_ (List.cons_ne_nil _ _)]
    · simp only [List.map_cons, List.map_nil, String.ofList_toList]
    · exact List.forall_mem_cons.2 ⟨hformula, List.forall_mem_cons.2
        ⟨hplan, List.forall_mem_singleton.2 hvalues⟩⟩
  rw [splitInput, Option.getD_some, hlines]

/-- The lines of an input can be spelled out one by one. -/
theorem splitInput_normalize {f o b : String} (hf : '\n' ∉ f.toList) (ho : '\n' ∉ o.toList)
    (hb : '\n' ∉ b.toList) :
    splitInput (some (Formula.normalize (f ++ "\n" ++ o ++ "\n" ++ b))) =
      (Formula.normalize f, Formula.normalize o, Formula.normalize b) := by
  have hnewline : Formula.normalize "\n" = "\n" := by decide
  rw [Formula.normalize_append, Formula.normalize_append, Formula.normalize_append,
    Formula.normalize_append, hnewline]
  exact splitInput_lines (Formula.newline_notMem_normalize hf)
    (Formula.newline_notMem_normalize ho) (Formula.newline_notMem_normalize hb)

namespace Service

/-! ## Announced stages -/

theorem getElem?_filterMap_ofStage? {stages : List Stage} {plan : List String}
    (h : stages.map Stage.name? = plan.map some) {k : ℕ} {x : String} (hx : plan[k]? = some x) :
    ∃ s, stages[k]? = some s ∧ s.name? = some x ∧
      (stages.filterMap Event.ofStage?)[k]? = some (.step x s.text s.latex) := by
  induction stages generalizing plan k with
  | nil =>
    rw [List.map_nil, eq_comm, List.map_eq_nil_iff] at h
    rw [h, List.getElem?_nil] at hx
    cases hx
  | cons s stages ih =>
    cases plan with
    | nil => cases hx
    | cons y plan =>
      obtain ⟨hname, htail⟩ := List.cons_eq_cons.1 h
      have hevent : Event.ofStage? s = some (.step y s.text s.latex) := by
        rw [Event.ofStage?, hname, Option.map_some]
      rw [List.filterMap_cons_some hevent]
      cases k with
      | zero =>
        obtain rfl := Option.some.inj hx
        exact ⟨s, rfl, hname, rfl⟩
      | succ k => exact ih htail hx

variable {formula plan values : String} {e : Expr Float} {steps : List Step} {c : Calculation}

/-- Event `k` of a stream announces stage `k + 1`, which is that of variable `k` of the plan. -/
theorem exists_announced (h : Course (some formula) plan values e steps c) {k : ℕ} {x : String}
    (hx : (planOfLine plan)[k]? = some x) :
    ∃ s, c.stages[k + 1]? = some s ∧ s.name? = some x ∧
      (c.stages.filterMap Event.ofStage?)[k]? = some (.step x s.text s.latex) := by
  obtain ⟨first, later, hfirst, -, hstages⟩ := h.stages
  have hnames := h.map_name?
  rw [hstages] at hnames ⊢
  rw [List.filterMap_cons_none (Event.ofStage?_of_initial_eq_ok hfirst), List.getElem?_cons_succ]
  exact getElem?_filterMap_ofStage? (List.cons_eq_cons.1 hnames).2 hx

theorem length_announced (h : Course (some formula) plan values e steps c) :
    (c.stages.filterMap Event.ofStage?).length = (planOfLine plan).length :=
  (forall₂_announced h).length_eq.symm

/-- The last event before the result has the derivative. -/
theorem eq_of_getLast?_announced (h : Course (some formula) plan values e steps c)
    {x text latex : String}
    (hlast : (c.stages.filterMap Event.ofStage?).getLast? = some (.step x text latex)) :
    text = c.derivative ∧ latex = c.latex := by
  rw [List.getLast?_eq_getElem?, length_announced h] at hlast
  obtain ⟨k, hk⟩ : ∃ k, (planOfLine plan).length = k + 1 := by
    refine Nat.exists_eq_succ_of_ne_zero fun hzero ↦ ?_
    rw [List.eq_nil_of_length_eq_zero ((length_announced h).trans hzero)] at hlast
    cases hlast
  obtain ⟨y, hy⟩ : ∃ y, (planOfLine plan)[k]? = some y :=
    ⟨_, List.getElem?_eq_getElem (hk ▸ Nat.lt_succ_self k)⟩
  obtain ⟨s, hs, -, hevent⟩ := exists_announced h hy
  obtain ⟨t, ht, htext, hlatex⟩ := h.exists_last_stage
  rw [hk, Nat.add_sub_cancel, hevent] at hlast
  rw [List.getLast?_eq_getElem?, h.length_stages, hk] at ht
  obtain rfl := Option.some.inj (hs.symm.trans ht)
  cases hlast
  exact ⟨htext, hlatex⟩

theorem finiteValue?_eq_none_iff (c : Calculation) :
    c.finiteValue? = none ↔
      c.result = "NaN" ∨ c.result = "Infinity" ∨ c.result = "-Infinity" := by
  have hwords : c.result ∈ Exact.words ↔ c.value.isFinite = false :=
    resultText_mem_words_iff c.value
  rw [Exact.words, List.mem_cons, List.mem_cons, List.mem_singleton] at hwords
  rw [hwords, Calculation.finiteValue?, ite_eq_right_iff, ← Bool.not_eq_true]
  exact ⟨fun h hfinite ↦ Option.some_ne_none _ (h hfinite), fun h hfinite ↦ absurd hfinite h⟩

/-! ## Agreement -/

/-- **The endpoints agree.** An input of three lines has the result of the calculation of the three
texts, of which the last two are spelled out, and a stream ends with it. Stage `k` of the
calculation shows the derivative of the formula by the first `k` variables of the plan, and event
`k` of the stream announces stage `k + 1`; the last of them has the derivative that the result
repeats. There is no finite value exactly if the result is a word. -/
theorem endpoints_agree {f o b : String} (hf : '\n' ∉ f.toList) (ho : '\n' ∉ o.toList)
    (hb : '\n' ∉ b.toList) :
    ∃ (e : Expr Float) (c : Calculation) (events : List Event),
      (∀ known, (Formula.read known (some (Formula.normalize f))).run.value = .ok e) ∧
      (run (.text (f ++ "\n" ++ o ++ "\n" ++ b))).run.value = .ok c.result ∧
      (differentiate (.text f) (.text (Formula.normalize o))
        (.text (Formula.normalize b))).run.value = .ok c ∧
      (solveStream (.text f) (.text (Formula.normalize o))
        (.text (Formula.normalize b))).run.value =
          .ok (events ++ [.complete c.derivative c.latex c.result]) ∧
      c.stages.map Stage.name? = none :: (planOfLine (Formula.normalize o)).map some ∧
      (∀ k ≤ (planOfLine (Formula.normalize o)).length, ∃ s t, c.stages[k]? = some s ∧
        e.differentiateAll ((planOfLine (Formula.normalize o)).take k) = .ok t ∧
        t.text = .ok s.text ∧ t.latex = .ok s.latex) ∧
      events.length = (planOfLine (Formula.normalize o)).length ∧
      (∀ k x, (planOfLine (Formula.normalize o))[k]? = some x → ∃ s,
        c.stages[k + 1]? = some s ∧ s.name? = some x ∧
        events[k]? = some (.step x s.text s.latex)) ∧
      (∃ s, c.stages.getLast? = some s ∧ s.text = c.derivative ∧ s.latex = c.latex) ∧
      (∀ x text latex, events.getLast? = some (.step x text latex) →
        text = c.derivative ∧ latex = c.latex) ∧
      (c.finiteValue? = none ↔
        c.result = "NaN" ∨ c.result = "Infinity" ∨ c.result = "-Infinity") := by
  obtain ⟨e, steps, c, h⟩ := exists_course (some (Formula.normalize f)) (Formula.normalize o)
    (Formula.normalize b)
  refine ⟨e, c, c.stages.filterMap Event.ofStage?, h.read, ?_, ?_, ?_, h.map_name?,
    fun k hk ↦ h.exists_stage hk, length_announced h, fun k x hx ↦ exists_announced h hx,
    h.exists_last_stage, fun x text latex ↦ eq_of_getLast?_announced h,
    finiteValue?_eq_none_iff c⟩
  · rw [run_value, h.resultOf_value (splitInput_normalize hf ho hb)]
    rfl
  · rw [differentiate_value, h.ofTexts_value]
    rfl
  · rw [solveStream_value, stream_value h]
    rfl

/-- Typographic signs in the formula and in the values, and a plan with two steps. -/
theorem endpoints_agree_of_signs :
    ∃ c, (run (.text "2·x×π\nx x\nx −1")).run.value = .ok c.result ∧
      (differentiate (.text "2·x×π") (.text "x x") (.text "x -1")).run.value = .ok c ∧
      (solveStream (.text "2·x×π") (.text "x x") (.text "x -1")).run.value =
        .ok [.step "x" "(2*pi)" "2pi", .step "x" "0" "0", .complete "0" "0" c.result] ∧
      c.stages.map (fun s ↦ (s.name?, s.text, s.latex)) =
        [(none, "(2*x*pi)", "2x \\cdot pi"), (some "x", "(2*pi)", "2pi"), (some "x", "0", "0")] ∧
      c.derivative = "0" ∧ c.latex = "0" ∧
      (c.finiteValue? = none ↔
        c.result = "NaN" ∨ c.result = "Infinity" ∨ c.result = "-Infinity") := by
  have hformula : Formula.normalize "2·x×π" = "2*x*pi" := by decide
  have hplan : Formula.normalize "x x" = "x x" := by decide
  have hvalues : Formula.normalize "x −1" = "x -1" := by decide
  have hwords : planOfLine "x x" = ["x", "x"] := by decide +kernel
  have he : (Formula.read [] (some "2*x*pi")).run.value =
      .ok (.mul [.const 2, .var "x", .var "pi"]) := by
    have hscan : Token.scan "2*x*pi" =
        .ok [.number "2", .times, .name "x", .times, .name "pi"] := by decide +kernel
    have hphrase : Formula.Phrase .term _ _ := .term (.base (.number "2")) [(_, _), (_, _)]
      (List.forall_mem_cons.2 ⟨.base (.name "x"), List.forall_mem_singleton.2 (.base (.name "pi"))⟩)
    exact (Formula.read_value_of_phrase hscan hphrase.term_expression).trans rfl
  obtain ⟨e, c, events, hread, hrun, hdifferentiate, hstream, hnames, hstages, hlength, hevents,
      ⟨s, hs, hderivative, hlatex⟩, -, hvalue⟩ :=
    endpoints_agree (f := "2·x×π") (o := "x x") (b := "x −1") (by decide) (by decide) (by decide)
  obtain rfl := Except.ok.inj ((hformula ▸ hread []).symm.trans he)
  rw [hplan, hvalues] at hdifferentiate hstream
  rw [hplan, hwords] at hnames hstages hlength hevents
  obtain ⟨s₀, s₁, s₂, hlist⟩ : ∃ s₀ s₁ s₂, c.stages = [s₀, s₁, s₂] :=
    List.length_eq_three.1 (by simpa using congrArg List.length hnames)
  obtain ⟨event, event', rfl⟩ := List.length_eq_two.1 hlength
  rw [hlist] at hnames hstages hevents hs
  have hshown {k : ℕ} {t : Expr Float} {text latex : String} (hk : k ≤ 2)
      (ht : Expr.differentiateAll (["x", "x"].take k) (.mul [.const 2, .var "x", .var "pi"]) =
        .ok t)
      (htext : t.text = .ok text) (hlatex : t.latex = .ok latex) :
      [s₀, s₁, s₂][k]?.map (fun s ↦ (s.text, s.latex)) = some (text, latex) := by
    obtain ⟨s, t', hs, ht', htext', hlatex'⟩ := hstages k hk
    obtain rfl := Except.ok.inj (ht.symm.trans ht')
    rw [hs, Option.map_some, Except.ok.inj (htext'.symm.trans htext),
      Except.ok.inj (hlatex'.symm.trans hlatex)]
  have h₀ : (s₀.text, s₀.latex) = ("(2*x*pi)", "2x \\cdot pi") :=
    Option.some.inj (hshown (k := 0) (by decide) rfl (by decide +kernel) (by decide +kernel))
  have h₁ : (s₁.text, s₁.latex) = ("(2*pi)", "2pi") :=
    Option.some.inj (hshown (k := 1) (t := .mul [.const 2, .var "pi"]) (by decide) rfl
      (by decide +kernel) (by decide +kernel))
  have h₂ : (s₂.text, s₂.latex) = ("0", "0") :=
    Option.some.inj (hshown (k := 2) (t := .const 0) (by decide) rfl (by decide +kernel)
      (by decide +kernel))
  obtain ⟨_, hs₁, -, hevent⟩ := hevents 0 "x" rfl
  obtain ⟨_, hs₂, -, hevent'⟩ := hevents 1 "x" rfl
  obtain rfl := Option.some.inj hs₁
  obtain rfl := Option.some.inj hs₂
  obtain rfl : s₂ = s := Option.some.inj hs
  obtain rfl := Option.some.inj hevent
  obtain rfl := Option.some.inj hevent'
  simp only [List.map_cons, List.map_nil, List.cons.injEq, and_true] at hnames
  simp only [Prod.mk.injEq] at h₀ h₁ h₂
  refine ⟨c, hrun, hdifferentiate, ?_, ?_, hderivative ▸ h₂.1, hlatex ▸ h₂.2, hvalue⟩
  · rw [hstream, ← hderivative, ← hlatex, h₁.1, h₁.2, h₂.1, h₂.2]
    rfl
  · simp only [hlist, List.map_cons, List.map_nil, hnames, h₀, h₁, h₂]

end Service

end SymbolicDerivatives
