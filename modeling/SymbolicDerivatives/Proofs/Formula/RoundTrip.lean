import SymbolicDerivatives.Proofs.Formula.Written
import SymbolicDerivatives.Proofs.Number.Exponent
import SymbolicDerivatives.Proofs.Writing

/-!
# Trees read back as they are

The reader gives a tree as it is written, before anything is simplified. So the text of any tree
that a formula can denote reads back node for node: a run stays apart from a run inside of it, a
name that is spelled like a function stays a name, and a negative constant stays a leaf wherever it
stands. The only texts that do not read back are those with a constant that needs an exponent.
-/

namespace SymbolicDerivatives.Formula

open Number (IsWhole)
open Token (IsName)

variable {e : Expr Float}

/-- The constants that are written without an exponent are the whole ones and those of size at least
`0.0001`. -/
theorem hasLiterals_iff (hfinite : ∀ c ∈ e.constants, c.isFinite = true) :
    HasLiterals e ↔ ∀ c ∈ e.constants, IsWhole c ∨ 0.0001 ≤ Float.abs c :=
  forall₂_congr fun c hc ↦ Number.e_notMem_plainText_iff (hfinite c hc)

/-- **Trees read back as they are.** Let the names of a well-formed tree be words and its constants
be finite. Whatever names are known, its text is read as the tree, node for node and up to the sign
of a zero, if and only if no constant is written with an exponent, which means that every constant
is a whole number or at least `0.0001` in size. -/
theorem parse_text (hwf : e.WellFormed 2) (hnames : ∀ x ∈ e.names, IsName x.toList)
    (hfinite : ∀ c ∈ e.constants, c.isFinite = true) :
    (HasLiterals e ↔ ∀ c ∈ e.constants, IsWhole c ∨ 0.0001 ≤ Float.abs c) ∧
    ∃ s, e.text = .ok s ∧ ∀ known,
      (∃ f, (parse known s).value = .ok f ∧ (f == e) = true) ↔ HasLiterals e := by
  obtain ⟨s, hs⟩ := hwf.exists_text_eq_ok
  obtain ⟨tokens, hscan, hphrase, hnone⟩ := scan_text hwf ⟨hnames, hfinite⟩ hs
  refine ⟨hasLiterals_iff hfinite, s, hs, fun known ↦ ⟨?_, fun hliterals ↦ ?_⟩⟩
  · rintro ⟨f, hparse, -⟩
    obtain ⟨tokens', htokens, hf⟩ := parse_value_eq_ok_iff.1 hparse
    cases hscan.symm.trans htokens
    exact not_not.1 fun hexponent ↦ hnone hexponent f hf
  · obtain ⟨f, hf, hsame⟩ := hphrase hliterals
    exact ⟨f, parse_value_eq_ok_iff.2 ⟨tokens, hscan, hf⟩, hsame⟩

/-- Nothing is merged, and no name is taken for a function. -/
theorem parse_text_of_nested :
    let e : Expr Float := .add [.add [.var "ln", .const (-2.5)],
      .pow (.const (-0.5)) (.mul [.var "sin", .mul [.const 0, .apply .cos (.var "cos")]])]
    e.WellFormed 2 ∧ (∀ x ∈ e.names, IsName x.toList) ∧ (∀ c ∈ e.constants, c.isFinite = true) ∧
      (∀ c ∈ e.constants, IsWhole c ∨ 0.0001 ≤ Float.abs c) ∧
      e.text = .ok "((ln+-2.5)+(-0.5^(sin*(0*cos(cos)))))" ∧
      ∃ f, (parse [] "((ln+-2.5)+(-0.5^(sin*(0*cos(cos)))))").value = .ok f ∧ (f == e) = true := by
  intro e
  have hwf : e.WellFormed 2 := by decide
  have hnames : ∀ x ∈ e.names, IsName x.toList := by
    change ∀ x ∈ [Func.ln, .sin, .cos].map Func.keyword, IsName x.toList
    exact List.forall_mem_map.2 fun f _ ↦ Token.isName_keyword f
  have hfinite : ∀ c ∈ [(-2.5 : Float), -0.5, 0], c.isFinite = true := by decide +kernel
  have hsize : ∀ c ∈ [(-2.5 : Float), -0.5], 0.0001 ≤ Float.abs c := by decide +kernel
  have hconstants : ∀ c ∈ [(-2.5 : Float), -0.5] ++ [0], IsWhole c ∨ 0.0001 ≤ Float.abs c := by
    rw [List.forall_mem_append, List.forall_mem_singleton]
    exact ⟨fun c hc ↦ .inr (hsize c hc), .inl ⟨false, 0, _, rfl, Nat.dvd_zero _⟩⟩
  have htext : e.text = .ok "((ln+-2.5)+(-0.5^(sin*(0*cos(cos)))))" := by decide +kernel
  obtain ⟨hliterals, s, hs, hread⟩ := parse_text hwf hnames hfinite
  cases hs.symm.trans htext
  exact ⟨hwf, hnames, hfinite, hconstants, htext, (hread []).2 (hliterals.2 hconstants)⟩

end SymbolicDerivatives.Formula
