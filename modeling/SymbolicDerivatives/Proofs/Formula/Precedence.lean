import SymbolicDerivatives.Proofs.Formula.Written

/-!
# Functions before powers

A function takes the operand after it and nothing more, so a power after that operand has the
function as its base. This holds for numbers, with a sign or without, for names, for parentheses
and for functions of such operands. It does not hold where the operand has a sign of its own: the
sign takes the whole factor after it, and with it every power, so that `sin -x^2` is the sine of
`-(x^2)` while `sin -2^x` is a power of `sin -2`.

`Phrase.exists_power` says that an operand with a sign goes on with the power after it;
`readAll_function_power` is the exact condition.
-/

namespace SymbolicDerivatives.Formula

variable {known : List String} {level : Level} {tokens u v w : List Token} {U V W e : Expr Float}
  {fs : List Func}

/-! ## Operands with a sign -/

/-- The tokens have a sign that belongs to no number, with nothing but keywords before it. -/
def Signed (tokens : List Token) : Prop :=
  ∃ (fs : List Func) (v : List Token), tokens = fs.map .function ++ .minus :: v ∧
    ∀ literal, v.head? ≠ some (.number literal)

theorem Phrase.not_signed (h : Phrase .closed tokens e) : ¬Signed tokens := by
  rintro ⟨fs, v, rfl, hnumber⟩
  induction fs generalizing e with
  | nil =>
    cases h with
    | negative literal => exact hnumber literal rfl
  | cons f fs ih =>
    cases h with
    | closedFunction _ argument => exact ih argument

theorem Phrase.signed (h : Phrase .opened tokens e) : Signed tokens := by
  generalize hlevel : Level.opened = level at h
  induction h with
  | negated _ noNumber => exact ⟨[], _, rfl, noNumber⟩
  | openFunction f _ ih =>
    obtain ⟨fs, v, rfl, hnumber⟩ := ih hlevel
    exact ⟨f :: fs, v, rfl, hnumber⟩
  | _ => cases hlevel

theorem Phrase.factor_of_sign (h : Phrase .opened (fs.map .function ++ .minus :: v) e) :
    ∃ V, Phrase .factor v V := by
  induction fs generalizing e with
  | nil =>
    cases h with
    | negated factor => exact ⟨_, factor⟩
  | cons f fs ih =>
    cases h with
    | openFunction _ argument => exact ih argument

/-- Functions of the negative of a factor. -/
theorem Phrase.opened_of_factor (h : Phrase .factor v V)
    (hnumber : ∀ literal, v.head? ≠ some (.number literal)) (fs : List Func) :
    Phrase .opened (fs.map .function ++ .minus :: v)
      (fs.foldr Expr.apply (.mul [.const (-1), V])) := by
  induction fs with
  | nil => exact .negated h hnumber
  | cons f fs ih => exact .openFunction f ih

/-- An operand with a sign does not end before a power: it goes on with it, and so does a factor. -/
theorem Phrase.exists_power (h : Phrase level tokens e) (hlevel : level = .factor ∨ level = .opened)
    (hw : Phrase .factor w W) : ∃ e', Phrase level (tokens ++ .caret :: w) e' := by
  induction h with
  | base operand => exact ⟨_, .power operand hw⟩
  | power base _ _ ih =>
    obtain ⟨exponent, hexponent⟩ := ih (.inl rfl)
    rw [List.append_assoc, List.cons_append]
    exact ⟨_, .power base hexponent⟩
  | operand _ ih =>
    obtain ⟨_, hoperand⟩ := ih (.inr rfl)
    exact ⟨_, .operand hoperand⟩
  | negated factor noNumber ih =>
    obtain ⟨_, hfactor⟩ := ih (.inl rfl)
    refine ⟨_, .negated hfactor fun literal ↦ ?_⟩
    exact (List.head?_append_of_ne_nil _ factor.ne_nil).trans_ne (noNumber literal)
  | openFunction f _ ih =>
    obtain ⟨_, hargument⟩ := ih (.inr rfl)
    exact ⟨_, .openFunction f hargument⟩
  | _ => simp at hlevel

/-! ## The power after a function -/

theorem Phrase.exists_readAll (h : Phrase .factor tokens e) :
    ∃ names shorter, readAll known tokens = .done names e [] shorter :=
  Reading.exists_eq_done_iff.2 (readAll_phrase?_iff.2 h.factor_term.term_expression)

theorem Phrase.exists_readFactor (h : Phrase .factor tokens e) :
    ∃ names shorter, readFactor known tokens = .done names e [] shorter := by
  have hread : Formula.readLevel known (tokens ++ []) .factor = some (e, []) :=
    h.readLevel (by simp [Level.StopsAt])
  rw [List.append_nil] at hread
  exact Reading.exists_eq_done_iff.2 hread

theorem Phrase.exists_readOperand (h : Phrase .opened tokens e) :
    ∃ names shorter, readOperand known tokens = .done names e [] shorter := by
  have hread : Formula.readLevel known (tokens ++ []) .opened = some (e, []) :=
    h.readLevel (by simp [Level.StopsAt])
  rw [List.append_nil] at hread
  exact Reading.exists_eq_done_iff.2 hread

/-- **Functions bind tighter than powers, except before a sign.** Let `u` be read to its end as an
operand `U` and `w` as a factor `W`. The tokens `f u ^ w` are read as the power of `f U` by `W` if
and only if `u` has no sign of its own. If it has one, the factor after the sign takes the power,
and `f` takes all of that. -/
theorem readAll_function_power (f : Func)
    (hu : ∃ names shorter, readOperand known u = .done names U [] shorter)
    (hw : ∃ names shorter, readFactor known w = .done names W [] shorter) :
    ((∃ names shorter, readAll known (.function f :: (u ++ .caret :: w)) =
        .done names (.pow (.apply f U) W) [] shorter) ↔ ¬Signed u) ∧
    ∀ (fs : List Func) (v : List Token), u = fs.map .function ++ .minus :: v →
      (∀ literal, v.head? ≠ some (.number literal)) → ∃ V,
        (∃ names shorter, readFactor known (v ++ .caret :: w) = .done names V [] shorter) ∧
        ∃ names shorter, readAll known (.function f :: (u ++ .caret :: w)) =
          .done names (.apply f (fs.foldr .apply (.mul [.const (-1), V]))) [] shorter := by
  obtain ⟨front, hfront, hoperand⟩ := phrase_of_readOperand (Reading.exists_eq_done_iff.1 hu)
  obtain ⟨front', hfront', hexponent, -⟩ := phrase_of_readFactor (Reading.exists_eq_done_iff.1 hw)
  rw [List.append_nil] at hfront hfront'
  subst hfront hfront'
  have hsigned (fs : List Func) (v : List Token) (hu : u = fs.map .function ++ .minus :: v)
      (hnumber : ∀ literal, v.head? ≠ some (.number literal)) : ∃ V,
      Phrase .factor (v ++ .caret :: w) V ∧ Phrase .factor (.function f :: (u ++ .caret :: w))
        (.apply f (fs.foldr .apply (.mul [.const (-1), V]))) := by
    have hopened := (hoperand.resolve_left fun h ↦ h.not_signed ⟨fs, v, hu, hnumber⟩).1
    subst hu
    obtain ⟨V₀, hV₀⟩ := hopened.factor_of_sign
    obtain ⟨V, hV⟩ := hV₀.exists_power (.inl rfl) hexponent
    have hnumber' : ∀ literal, (v ++ .caret :: w).head? ≠ some (.number literal) := by
      rwa [List.head?_append_of_ne_nil _ hV₀.ne_nil]
    rw [List.append_assoc, List.cons_append]
    exact ⟨V, hV, .operand (.openFunction f (hV.opened_of_factor hnumber' fs))⟩
  refine ⟨⟨?_, fun hclosed ↦ ?_⟩, fun fs v hu hnumber ↦ ?_⟩
  · rintro hpower ⟨fs, v, hu, hnumber⟩
    obtain ⟨V, -, hV⟩ := hsigned fs v hu hnumber
    have hphrase := readAll_phrase?_iff.1 (Reading.exists_eq_done_iff.1 hpower)
    cases hphrase.unique hV.factor_term.term_expression
  · have hu : Phrase .closed u U := hoperand.resolve_right fun h ↦ hclosed h.1.signed
    exact (Phrase.power (.closedFunction f hu) hexponent).exists_readAll
  · obtain ⟨V, hV, hphrase⟩ := hsigned fs v hu hnumber
    exact ⟨V, hV.exists_readFactor, hphrase.exists_readAll⟩

/-- The sign of a number does not take the power, and the sign of a name does. -/
theorem readAll_function_power_of_signs :
    (∃ names shorter, readAll [] [.function .sin, .minus, .number "2", .caret, .name "x"] =
      .done names (.pow (.apply .sin (.const (-2))) (.var "x")) [] shorter) ∧
    (∃ names shorter,
      readAll [] [.function .ln, .function .cos, .minus, .name "x", .caret, .number "2"] =
        .done names (.apply .ln (.apply .cos
          (.mul [.const (-1), .pow (.var "x") (.const 2)]))) [] shorter) := by
  have hnumber : ∃ names shorter,
      readOperand [] [.minus, .number "2"] = .done names (.const (-2)) [] shorter :=
    Reading.exists_eq_done_iff.2 (readOperand_negative "2")
  have hname : ∃ names shorter, readFactor [] [.name "x"] = .done names (.var "x") [] shorter :=
    (Phrase.base (.name "x")).exists_readFactor
  have hoperand : ∃ names shorter, readOperand [] [.function .cos, .minus, .name "x"] =
      .done names (.apply .cos (.mul [.const (-1), .var "x"])) [] shorter :=
    (Phrase.openFunction .cos (.negated (.base (.name "x")) (by simp))).exists_readOperand
  have htwo : ∃ names shorter, readFactor [] [.number "2"] = .done names (.const 2) [] shorter :=
    (Phrase.base (.number "2")).exists_readFactor
  have hunsigned : ¬Signed [.minus, .number "2"] := (Phrase.negative "2").not_signed
  have hpower : ∃ names shorter, readFactor [] [.name "x", .caret, .number "2"] =
      .done names (.pow (.var "x") (.const 2)) [] shorter :=
    (Phrase.power (.name "x") (.base (.number "2"))).exists_readFactor
  obtain ⟨V, hV, hread⟩ := (readAll_function_power .ln hoperand htwo).2 [.cos] [.name "x"] rfl
    (by simp)
  cases (Reading.exists_eq_done_iff.1 hV).symm.trans (Reading.exists_eq_done_iff.1 hpower)
  exact ⟨(readAll_function_power .sin hnumber hname).1.2 hunsigned, hread⟩

/-- Read on its own, `-x` is an operand, and a power of its sine would be the tree if functions
always took the operand only. But the power is within the sine. -/
theorem signed_operand_takes_power :
    let u : List Token := [.minus, .name "x"]
    let w : List Token := [.number "2"]
    let tokens : List Token := .function .sin :: (u ++ .caret :: w)
    (∃ names shorter,
      readOperand [] u = .done names (.mul [.const (-1), .var "x"]) [] shorter) ∧
      (∃ names shorter, readFactor [] w = .done names (.const 2) [] shorter) ∧
      Token.scan "sin -x^2" = .ok tokens ∧
      (∃ names shorter, readAll [] tokens =
        .done names (.apply .sin (.mul [.const (-1), .pow (.var "x") (.const 2)])) [] shorter) ∧
      ¬∃ names shorter, readAll [] tokens =
        .done names (.pow (.apply .sin (.mul [.const (-1), .var "x"])) (.const 2)) [] shorter := by
  intro u w tokens
  have hu : Phrase .opened u (.mul [.const (-1), .var "x"]) :=
    .negated (.base (.name "x")) (by simp)
  have hpower : Phrase .factor [.name "x", .caret, .number "2"] (.pow (.var "x") (.const 2)) :=
    .power (.name "x") (.base (.number "2"))
  have htokens : Phrase .factor tokens _ :=
    .operand (.openFunction .sin (.negated hpower (by simp)))
  refine ⟨hu.exists_readOperand, (Phrase.base (.number "2")).exists_readFactor, by decide +kernel,
    htokens.exists_readAll, fun hread ↦ ?_⟩
  have hphrase := readAll_phrase?_iff.1 (Reading.exists_eq_done_iff.1 hread)
  cases hphrase.unique htokens.factor_term.term_expression

end SymbolicDerivatives.Formula
