import SymbolicDerivatives.Expr.Latex
import SymbolicDerivatives.Expr.Text
import SymbolicDerivatives.Proofs.Nodes
import SymbolicDerivatives.Proofs.Traversal

/-!
# Well-formed trees can be written

A text exists as soon as every function has an operand. LaTeX also looks for the second operand of a
product that starts with a constant, so it needs runs of two or more operands: those are the trees
that formulas denote.
-/

namespace SymbolicDerivatives.Expr

/-! ## Texts -/

theorem exists_textNode_eq_ok {least : Nat} {o : Operator} {operands : List String}
    (h : o.Accepts least operands.length) : ∃ s, textNode o operands = .ok s := by
  cases o with
  | fn f =>
    obtain ⟨argument, rfl⟩ := List.length_eq_one_iff.1 h
    exact ⟨_, rfl⟩
  | _ => exact ⟨_, rfl⟩

theorem WellFormed.exists_text_eq_ok {least : Nat} {e : Expr Float} (h : e.WellFormed least) :
    ∃ s, e.text = .ok s := by
  induction h with
  | const c => exact ⟨_, by rw [text]⟩
  | var x => exact ⟨_, by rw [text]⟩
  | @op o es accepts _ ih =>
    obtain ⟨texts, htexts⟩ := exists_mapM_eq_ok ih
    rw [(mapM_eq_ok_iff.1 htexts).length_eq] at accepts
    obtain ⟨s, hs⟩ := exists_textNode_eq_ok accepts
    exact ⟨s, by rw [text_op, bind_eq_ok_iff]; exact ⟨texts, htexts, hs⟩⟩

/-! ## LaTeX -/

theorem latex_op (o : Operator) (es : List (Expr Float)) :
    (Expr.op o es).latex = es.mapM latex >>= fun texts ↦ latexNode o (es.zip texts) := by
  rw [latex, latexList_eq_mapM]

/-- A product can be typeset if a second operand follows its leading constant. -/
theorem exists_latexProduct_eq_ok {operands : List (Expr Float × String)}
    (h : 2 ≤ operands.length) : ∃ s, latexProduct operands = .ok s := by
  obtain ⟨first, second, rest, rfl⟩ : ∃ first second rest, operands = first :: second :: rest := by
    match operands, h with
    | first :: second :: rest, _ => exact ⟨first, second, rest, rfl⟩
  obtain ⟨e, s⟩ := first
  cases e with
  | const c =>
    rw [latexProduct, List.map_cons, List.map_cons, latexOperands]
    dsimp only
    split
    · exact ⟨_, rfl⟩
    · cases second.1 <;> exact ⟨_, rfl⟩
  | var x => exact ⟨_, rfl⟩
  | op o es => exact ⟨_, rfl⟩

theorem exists_latexNode_eq_ok {o : Operator} {operands : List (Expr Float × String)}
    (h : o.Accepts 2 operands.length) : ∃ s, latexNode o operands = .ok s := by
  cases o with
  | add => exact ⟨_, rfl⟩
  | mul => exact exists_latexProduct_eq_ok h
  | sub =>
    obtain ⟨u, v, rfl⟩ := List.length_eq_two.1 h
    exact ⟨_, rfl⟩
  | pow =>
    obtain ⟨u, v, rfl⟩ := List.length_eq_two.1 h
    exact ⟨_, rfl⟩
  | fn f =>
    obtain ⟨u, rfl⟩ := List.length_eq_one_iff.1 h
    exact ⟨_, rfl⟩
  | other name => exact h.elim

theorem WellFormed.exists_latex_eq_ok {e : Expr Float} (h : e.WellFormed 2) :
    ∃ s, e.latex = .ok s := by
  induction h with
  | const c => exact ⟨_, by rw [latex]⟩
  | var x => exact ⟨_, by rw [latex]⟩
  | @op o es accepts _ ih =>
    obtain ⟨texts, htexts⟩ := exists_mapM_eq_ok ih
    have hlen : (es.zip texts).length = es.length := by
      rw [List.length_zip, ← (mapM_eq_ok_iff.1 htexts).length_eq, Nat.min_self]
    rw [← hlen] at accepts
    obtain ⟨s, hs⟩ := exists_latexNode_eq_ok accepts
    exact ⟨s, by rw [latex_op, bind_eq_ok_iff]; exact ⟨texts, htexts, hs⟩⟩

end SymbolicDerivatives.Expr
