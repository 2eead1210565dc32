import SymbolicDerivatives.Algebra.Latex
import SymbolicDerivatives.Proofs.Algebra.Ingredients
import SymbolicDerivatives.Proofs.Balanced

/-!
# The LaTeX of random terms is balanced

Every command is followed by its arguments in brackets of its own, and a sum gets parentheses where
it is a factor or a base. So the brackets of the LaTeX of a term are balanced, if its symbols have
none.
-/

namespace SymbolicDerivatives

open Text (Balanced balanced_intercalate balanced_of_notMem)
open Token (IsName)

namespace Term

variable {s : String}

theorem balanced_braced (h : Balanced s) : Balanced (braced s) :=
  h.enclosed (c := '\x7d') (fun _ ↦ rfl) fun _ ↦ rfl

theorem balanced_bracketed (h : Balanced s) : Balanced (bracketed s) :=
  h.enclosed (c := ')') (fun _ ↦ rfl) fun _ ↦ rfl

theorem balanced_command (f : TermFunc) : Balanced (TermFunc.command f) := by
  cases f <;> exact fun _ ↦ rfl

theorem balanced_latexFunction (f : TermFunc) {exponent : Option String}
    (hexponent : ∀ n ∈ exponent, Balanced n) (h : Balanced s) :
    Balanced (latexFunction f exponent s) := by
  have happlied : Balanced (braced ("\\left(" ++ s ++ " \\right)")) :=
    balanced_braced (h.enclosed (c := ')') (fun _ ↦ rfl) fun _ ↦ rfl)
  have hpower : Balanced ((exponent.map fun n ↦ "^" ++ braced n).getD "") := by
    rcases exponent with _ | n
    · exact fun _ ↦ rfl
    · exact Balanced.append (fun _ ↦ rfl) (balanced_braced (hexponent n rfl))
  rw [latexFunction.eq_def]
  dsimp only
  split
  · exact ((balanced_command .log).append happlied).append hpower
  · exact ((balanced_command f).append hpower).append happlied

theorem balanced_bracketSum (t : Term) (h : Balanced s) : Balanced (bracketSum t s) := by
  rw [bracketSum.eq_def]
  split
  · exact balanced_bracketed h
  · exact h

theorem balanced_integerText (n : ℤ) : Balanced (integerText n) := by
  refine balanced_of_notMem fun c hc hbracket ↦ ?_
  have hnot : c.isDigit = false ∧ c ≠ '-' := by
    simp only [Text.brackets, List.mem_cons, List.not_mem_nil, or_false] at hbracket
    rcases hbracket with rfl | rfl | rfl | rfl <;> decide
  have hdigit {d : Char} (hd : d ∈ Nat.toDigits 10 n.natAbs) : d ≠ c := by
    rintro rfl
    exact Bool.eq_false_iff.1 hnot.1 (Number.isDigit_of_mem_toDigits hd)
  rw [integerText, String.toList_ofList, Number.signed] at hc
  split at hc
  · rcases List.mem_cons.1 hc with rfl | hc
    · exact hnot.2 rfl
    · exact hdigit hc rfl
  · exact hdigit hc rfl

theorem balanced_of_isName (h : IsName s.toList) : Balanced s := by
  have hparts : ∀ c ∈ s.toList, Token.isNamePart c = true := by
    generalize s.toList = cs at h
    obtain ⟨start, parts⟩ := h
    exact List.forall_mem_cons.2 ⟨Token.isNamePart_of_isNameStart start, parts⟩
  refine balanced_of_notMem fun c hc hbracket ↦ ?_
  have hbrackets : ∀ c ∈ Text.brackets, Token.isNamePart c ≠ true := by
    simp [Text.brackets, Token.isNamePart]
  exact hbrackets c hbracket (hparts c hc)

theorem latexList_eq_map (ts : List Term) : latexList ts = ts.map latex := by
  induction ts with
  | nil => rw [latexList, List.map_nil]
  | cons t ts ih => rw [latexList, ih, List.map_cons]

theorem forall_mem_integerLast {P : String → Prop} {terms : List (Term × String)}
    (h : ∀ p ∈ terms, P p.2) : ∀ s ∈ integerLast terms, P s := by
  rw [integerLast.eq_def]
  split
  · obtain ⟨hfirst, hrest⟩ := List.forall_mem_cons.1 h
    exact List.forall_mem_append.2 ⟨List.forall_mem_map.2 hrest, List.forall_mem_singleton.2 hfirst⟩
  · exact List.forall_mem_map.2 h

theorem balanced_latexProduct {factors : List (Term × String)} (h : ∀ p ∈ factors, Balanced p.2) :
    Balanced (latexProduct factors) := by
  have hside {factors : List (Term × String)} (h : ∀ p ∈ factors, Balanced p.2) :
      Balanced (latexProduct.latexFactors factors) :=
    balanced_intercalate (fun _ ↦ rfl)
      (List.forall_mem_map.2 fun p hp ↦ balanced_bracketSum p.1 (h p hp))
  rw [latexProduct.eq_def]
  split
  · exact Balanced.append (fun _ ↦ rfl) (hside (List.forall_mem_cons.1 h).2)
  · exact hside h

theorem balanced_zip {ts : List Term} (h : ∀ t ∈ ts, Balanced t.latex) :
    ∀ p ∈ ts.zip (latexList ts), Balanced p.2 := by
  intro p hp
  rw [latexList_eq_map] at hp
  obtain ⟨t, ht, hlatex⟩ := List.mem_map.1 (List.of_mem_zip hp).2
  exact hlatex ▸ h t ht

/-- The LaTeX of a term is balanced, and so is that of the argument of a function: a power writes
its exponent between the two. -/
theorem MadeFrom.balanced {i : Ingredients} {t : Term} (hsymbols : ∀ x ∈ i.symbols, Balanced x)
    (h : MadeFrom i t) : Balanced t.latex ∧ ∀ f s, t = Term.apply f s → Balanced s.latex := by
  induction h with
  | symbol mem =>
    rw [latex]
    exact ⟨hsymbols _ mem, fun _ _ h ↦ nomatch h⟩
  | integer n =>
    rw [latex]
    exact ⟨balanced_integerText n, fun _ _ h ↦ nomatch h⟩
  | add _ _ ih =>
    rw [latex]
    refine ⟨balanced_intercalate (fun _ ↦ rfl) (forall_mem_integerLast ?_), fun _ _ h ↦ nomatch h⟩
    exact balanced_zip fun t ht ↦ (ih t ht).1
  | mul _ _ ih =>
    rw [latex]
    refine ⟨balanced_latexProduct ?_, fun _ _ h ↦ nomatch h⟩
    exact balanced_zip fun t ht ↦ (ih t ht).1
  | @pow base n hbase _ ih =>
    refine ⟨?_, fun _ _ h ↦ nomatch h⟩
    have hexponent : Balanced (Term.integer n).latex := by
      rw [latex]
      exact balanced_integerText n
    by_cases hfunction : ∃ f s, base = Term.apply f s
    · obtain ⟨f, s, rfl⟩ := hfunction
      rw [latex]
      exact balanced_latexFunction f (fun _ h ↦ Option.some.inj h ▸ hexponent) (ih.2 f s rfl)
    · have hcaret : Balanced "^" := fun _ ↦ rfl
      rw [latex]
      · exact ((balanced_bracketSum base ih.1).append hcaret).append (balanced_braced hexponent)
      · exact fun f s heq ↦ hfunction ⟨f, s, heq⟩
      · rintro name ts rfl
        exact nomatch hbase
  | apply mem h ih =>
    rw [latex]
    refine ⟨balanced_latexFunction _ (fun _ h ↦ nomatch h) ih.1, fun f s heq ↦ ?_⟩
    exact (Term.apply.inj heq).2 ▸ ih.1

end Term

end SymbolicDerivatives
