import SymbolicDerivatives.Proofs.Latex.Shows
import SymbolicDerivatives.Proofs.ReadingBack
import SymbolicDerivatives.Proofs.Writing

/-!
# What is seen of a formula determines its function

A formula is typeset with few parentheses, a product often without a dot, and the braces around a
base are not seen. The function can still be told from what is seen, for the trees that
`Expr.Legible` picks out: of a legible tree the seen text is a phrase of the grammar with the value
of the tree (`Latex.exists_phrase`), and a phrase has one tree. The trees of two formulas that look
the same may differ, but only in the grouping of their terms.

Two rules of typesetting go wrong for the other trees. A negative constant gets no parentheses as
the base of a power, so its sign is seen as that of the power; and a factor after a leading constant
gets no dot even if its first digit is seen directly after the digits of the constant.
`Latex.confused_of_numerals` has an instance of each.
-/

namespace SymbolicDerivatives

/-! ## Legible trees -/

namespace Expr

/-- Whether a node is neither a power with a negative constant as its base, nor a product in which a
constant other than `-1` is directly followed by a power of a constant. -/
def isLegibleNode : Operator → List (Expr Float) → Bool
  | .pow, .const c :: _ => !(c < 0)
  | .mul, .const c :: .op .pow (.const _ :: _) :: _ => c == -1
  | _, _ => true

/-- Every node of the tree is legible. -/
def Legible (e : Expr Float) : Prop := e.Everywhere fun o es ↦ isLegibleNode o es = true

instance (e : Expr Float) : Decidable e.Legible := inferInstanceAs (Decidable (Everywhere _ e))

end Expr

namespace Latex

open SymbolicDerivatives.Expr (latexOperand latexOperands needsParens dot)

/-! ## Assignments -/

/-- An assignment to names and numerals that extends one to names: numerals have their numbers. -/
structure Extends (r r' : String → ℝ) : Prop where
  name : ∀ x, Token.IsName x.toList → r' x = r x
  numeral : ∀ c : Float, c.isFinite = true → ¬c < 0 → r' (Number.plainText c) = Number.toRat c

/-- Numerals are no names, and each has one number. -/
theorem exists_extends (r : String → ℝ) : ∃ r', Extends r r' := by
  classical
  let IsConstant (word : String) (c : Float) : Prop :=
    c.isFinite = true ∧ ¬c < 0 ∧ Number.plainText c = word
  refine ⟨fun word ↦ if h : ∃ c, IsConstant word c then (Number.toRat h.choose : ℝ) else r word,
    fun x hx ↦ dif_neg ?_, fun c hfinite hsign ↦ ?_⟩
  · -- a name does not start with a digit
    rintro ⟨c, hfinite, hsign, rfl⟩
    obtain ⟨d, hd, hdigit⟩ := (Number.numeral_of_not_lt_zero hfinite hsign).head?_isDigit
    generalize (Number.plainText c).toList = cs at hx hd
    obtain ⟨start, -⟩ := hx
    obtain rfl := Option.some.inj hd
    rw [isDigit_of_isNameStart start] at hdigit
    cases hdigit
  · -- the constant chosen for the text may be another one than `c`, but equals it
    have hexists : ∃ d, IsConstant (Number.plainText c) d := ⟨c, hfinite, hsign, rfl⟩
    have hchoose := hexists.choose_spec
    have hbeq := Number.beq_of_plainText_eq hchoose.1 hfinite hchoose.2.2
    rw [dif_pos hexists, Number.toRat_eq_of_beq hbeq]

/-! ## Operands -/

/-- The level of what is seen of a tree. -/
def levelOf : Expr Float → Formula.Level
  | .const c => if c < 0 then .term else .closed
  | .op .pow _ => .factor
  | .op .mul _ => .term
  | .op .add _ | .op .sub _ => .expression
  | _ => .closed

/-- A tree with its LaTeX. -/
structure Typeset (r r' : String → ℝ) (p : Expr Float × String) : Prop where
  latex_eq : p.1.latex = .ok p.2
  normal : p.1.Normal
  spelled : Formula.Spelled p.1
  shows : Shows r' (levelOf p.1) p.2.toList (p.1.realValue r)

variable {r r' : String → ℝ}

theorem toList_latexOperand (o : Operator) (isFirst : Bool) (p : Expr Float × String) :
    (latexOperand o isFirst p).toList =
      if needsParens o isFirst p.1 then '(' :: (p.2.toList ++ [')']) else p.2.toList := by
  rw [latexOperand]
  split
  · rw [String.toList_append, String.toList_append]
    rfl
  · rfl

namespace Typeset

variable {p : Expr Float × String}

/-- A sum or a difference is an expression only, and any other tree is a term as well. -/
theorem term (h : Typeset r r' p) (hadd : ∀ es, p.1 ≠ .op .add es)
    (hsub : ∀ es, p.1 ≠ .op .sub es) :
    Shows r' .term p.2.toList (p.1.realValue r) := by
  have hshows := h.shows
  match p, hshows, hadd, hsub with
  | (.const c, s), hshows, _, _ =>
    by_cases hc : c < 0
    · rwa [levelOf, if_pos hc] at hshows
    · rw [levelOf, if_neg hc] at hshows
      exact hshows.factor.term
  | (.var x, s), hshows, _, _ => exact hshows.factor.term
  | (.op .add es, s), _, hadd, _ => exact absurd rfl (hadd es)
  | (.op .sub es, s), _, _, hsub => exact absurd rfl (hsub es)
  | (.op .mul es, s), hshows, _, _ => exact hshows
  | (.op .pow es, s), hshows, _, _ => exact hshows.term
  | (.op (.fn f) es, s), hshows, _, _ => exact hshows.factor.term
  | (.op (.other name) es, s), hshows, _, _ => exact hshows.factor.term

theorem expression (h : Typeset r r' p) : Shows r' .expression p.2.toList (p.1.realValue r) := by
  by_cases hsum : ∃ es, p.1 = .op .add es ∨ p.1 = .op .sub es
  · have hshows := h.shows
    obtain ⟨es, heq | heq⟩ := hsum
    · rwa [heq, levelOf, ← heq] at hshows
    · rwa [heq, levelOf, ← heq] at hshows
  · exact (h.term (fun es heq ↦ hsum ⟨es, .inl heq⟩) fun es heq ↦ hsum ⟨es, .inr heq⟩).expression

/-- Every operand shows as an expression. -/
theorem operand_expression (h : Typeset r r' p) (o : Operator) (isFirst : Bool) :
    Shows r' .expression (latexOperand o isFirst p).toList (p.1.realValue r) := by
  rw [toList_latexOperand]
  split
  · exact h.expression.parentheses.factor.term.expression
  · exact h.expression

/-- An operand shows as a term if sums and differences are in parentheses. -/
theorem operand_term (h : Typeset r r' p) {o : Operator} {isFirst : Bool}
    (hadd : ∀ es, needsParens o isFirst (.op .add es) = true)
    (hsub : ∀ es, needsParens o isFirst (.op .sub es) = true) :
    Shows r' .term (latexOperand o isFirst p).toList (p.1.realValue r) := by
  rw [toList_latexOperand]
  split
  · exact h.expression.parentheses.factor.term
  · next hparens =>
    refine h.term (fun es heq ↦ hparens ?_) fun es heq ↦ hparens ?_
    · rw [heq, hadd]
    · rw [heq, hsub]

/-- A base is in parentheses unless it is a leaf. -/
theorem operand_base (h : Typeset r r' p) (hconst : ∀ c, p.1 = .const c → ¬c < 0) :
    Shows r' .closed (latexOperand .pow true p).toList (p.1.realValue r) := by
  rw [toList_latexOperand]
  have hshows := h.shows
  match p, h, hshows, hconst with
  | (.const c, s), _, hshows, hconst =>
    rw [levelOf, if_neg (hconst c rfl)] at hshows
    rw [if_neg (by simp [needsParens])]
    exact hshows
  | (.var x, s), _, hshows, _ => exact hshows
  | (.op (.other name) es, s), _, hshows, _ => exact hshows
  | (.op .add es, s), h, _, _ | (.op .sub es, s), h, _, _ | (.op .mul es, s), h, _, _
  | (.op .pow es, s), h, _, _ | (.op (.fn f) es, s), h, _, _ => exact h.expression.parentheses

end Typeset

/-! ## Nodes -/

section Nodes

variable {ps : List (Expr Float × String)}

theorem forall₂_latexOperands {o : Operator} {level : Formula.Level}
    (h : ∀ p ∈ ps, ∀ isFirst,
      Shows r' level (latexOperand o isFirst p).toList (p.1.realValue r)) :
    List.Forall₂ (Shows r' level) ((latexOperands o ps).map String.toList)
      (ps.map fun p ↦ p.1.realValue r) := by
  match ps with
  | [] => exact .nil
  | first :: others =>
    obtain ⟨hfirst, hothers⟩ := List.forall_mem_cons.1 h
    rw [latexOperands, List.map_cons, List.map_cons, List.map_map]
    refine .cons (hfirst true) (List.forall₂_map_left_iff.2 (List.forall₂_map_right_iff.2 ?_))
    exact List.forall₂_same.2 fun p hp ↦ hothers p hp false

theorem latexOperands_ne_nil (o : Operator) (hne : ps ≠ []) :
    (latexOperands o ps).map String.toList ≠ [] := by
  obtain ⟨first, others, rfl⟩ := List.exists_cons_of_ne_nil hne
  exact List.cons_ne_nil _ _

theorem shows_sum (h : ∀ p ∈ ps, Typeset r r' p) (hne : ps ≠ []) :
    Shows r' .expression (" + ".intercalate (latexOperands .add ps)).toList
      (ps.map fun p ↦ p.1.realValue r).sum := by
  rw [String.toList_intercalate]
  refine Shows.intercalate (fun a ↦ List.sum_singleton) (fun hl hl' ↦ ?_)
    (forall₂_latexOperands fun p hp isFirst ↦ (h p hp).operand_expression .add isFirst)
    (latexOperands_ne_nil .add hne)
  rw [List.sum_cons, List.append_assoc]
  exact hl.sum hl'

theorem shows_dots {texts : List String} {values : List ℝ}
    (h : List.Forall₂ (Shows r' .term) (texts.map String.toList) values) (hne : texts ≠ []) :
    Shows r' .term (dot.intercalate texts).toList values.prod := by
  rw [String.toList_intercalate]
  refine Shows.intercalate (fun a ↦ List.prod_singleton) (fun hl hl' ↦ ?_) h
    fun hnil ↦ hne (List.map_eq_nil_iff.1 hnil)
  rw [List.prod_cons, List.append_assoc]
  exact hl.product hl'

theorem operand_mul {p : Expr Float × String} (h : Typeset r r' p) (isFirst : Bool) :
    Shows r' .term (latexOperand .mul isFirst p).toList (p.1.realValue r) :=
  h.operand_term (fun _ ↦ rfl) fun _ ↦ rfl

theorem shows_factors (h : ∀ p ∈ ps, Typeset r r' p) (hne : ps ≠ []) :
    Shows r' .term (dot.intercalate (ps.map (latexOperand .mul false))).toList
      (ps.map fun p ↦ p.1.realValue r).prod := by
  refine shows_dots ?_ fun hnil ↦ hne (List.map_eq_nil_iff.1 hnil)
  rw [List.map_map]
  refine List.forall₂_map_left_iff.2 (List.forall₂_map_right_iff.2 (List.forall₂_same.2 ?_))
  exact fun p hp ↦ operand_mul (h p hp) false

end Nodes

/-! ## Factors after a numeral -/

theorem leads_intercalate {text : String} (h : Leads text.toList) (texts : List String) :
    Leads (dot.intercalate (text :: texts)).toList := by
  rw [String.toList_intercalate, List.map_cons]
  by_cases hnil : texts = []
  · rw [hnil, List.map_nil, List.intercalate_singleton]
    exact h
  · intro rest _
    rw [List.intercalate_cons_of_ne_nil (mt List.map_eq_nil_iff.1 hnil), List.append_assoc,
      List.append_assoc]
    exact h _ (ends_cons (by decide) _)

/-! ### LaTeX of nodes -/

theorem exists_latexNode {o : Operator} {es : List (Expr Float)} {s : String}
    (h : (Expr.op o es).latex = .ok s) :
    ∃ texts, List.Forall₂ (fun e t ↦ e.latex = .ok t) es texts ∧
      Expr.latexNode o (es.zip texts) = .ok s := by
  rw [Expr.latex_op] at h
  obtain ⟨texts, htexts, hnode⟩ := bind_eq_ok_iff.1 h
  exact ⟨texts, mapM_eq_ok_iff.1 htexts, hnode⟩

theorem toList_call (f : Func) (argument : String) :
    ("\\" ++ f.keyword ++ "(" ++ argument ++ ")").toList =
      '\\' :: (f.keyword.toList ++ '(' :: (argument.toList ++ [')'])) := by
  simp only [String.toList_append, List.append_assoc]
  rfl

theorem leads_var {x s : String} (h : (Expr.var x).latex = .ok s)
    (hspelled : Formula.Spelled (.var x)) : Leads s.toList := by
  rw [Expr.latex] at h
  rw [← Except.ok.inj h]
  exact leads_name (hspelled.names x (by rw [Expr.names_var]; exact List.mem_singleton_self x))

/-- A base that is no constant is a name or in parentheses. -/
theorem leads_base {u : Expr Float} {t : String} (hlatex : u.latex = .ok t)
    (hspelled : Formula.Spelled u) (hnormal : u.Normal) (hconst : ∀ c, u ≠ .const c) :
    Leads (latexOperand .pow true (u, t)).toList := by
  rw [toList_latexOperand]
  match u, hlatex, hspelled, hnormal, hconst with
  | .const c, _, _, _, hconst => exact absurd rfl (hconst c)
  | .var x, hlatex, hspelled, _, _ => exact leads_var hlatex hspelled
  | .op .add _, _, _, _, _ | .op .sub _, _, _, _, _ | .op .mul _, _, _, _, _
  | .op .pow _, _, _, _, _ | .op (.fn _) _, _, _, _, _ => exact leads_opening _
  | .op (.other _) _, _, _, hnormal, _ => exact (Expr.everywhere_op_iff.1 hnormal).1.elim

/-- A second factor can follow a constant directly if it is neither a constant itself, nor a
product, nor a power of a constant. -/
theorem Typeset.leads {p : Expr Float × String} (h : Typeset r r' p) (hconst : ∀ c, p.1 ≠ .const c)
    (hmul : ∀ es, p.1 ≠ .op .mul es) (hpow : ∀ c es, p.1 ≠ .op .pow (.const c :: es)) :
    Leads (latexOperand .mul false p).toList := by
  rw [toList_latexOperand]
  obtain ⟨e, s⟩ := p
  have hlatex := h.latex_eq
  match e, h, hlatex, hconst, hmul, hpow with
  | .const c, _, _, hconst, _, _ => exact absurd rfl (hconst c)
  | .op .mul es, _, _, _, hmul, _ => exact absurd rfl (hmul es)
  | .var x, h, hlatex, _, _, _ => exact leads_var hlatex h.spelled
  | .op .add es, _, _, _, _, _ | .op .sub es, _, _, _, _, _ => exact leads_opening _
  | .op (.other name) es, h, _, _, _, _ => exact (Expr.everywhere_op_iff.1 h.normal).1.elim
  | .op (.fn f) es, h, hlatex, _, _, _ =>
    obtain ⟨texts, htexts, hnode⟩ := exists_latexNode hlatex
    match es, texts, htexts, hnode with
    | u :: _, t :: _, _, hnode =>
      rw [← Except.ok.inj hnode, toList_call]
      exact leads_call _
  | .op .pow es, h, hlatex, _, _, hpow =>
    obtain ⟨texts, htexts, hnode⟩ := exists_latexNode hlatex
    match es, texts, h, htexts, hnode, hpow with
    | [u, v], [t, t'], h, .cons hu _, hnode, hpow =>
      obtain ⟨-, hbelow⟩ := Expr.everywhere_op_iff.1 h.normal
      rw [← Except.ok.inj hnode, toList_power]
      refine leads_power (leads_base hu (h.spelled.of_mem List.mem_cons_self)
        (hbelow u List.mem_cons_self) fun c heq ↦ hpow c [v] ?_) _
      rw [heq]

/-! ## Products -/

section Products

variable {c : Float} {t : String} {first second : Expr Float × String}
  {others : List (Expr Float × String)}

theorem latexProduct_neg (hone : (c == -1) = true) :
    Expr.latexProduct ((.const c, t) :: others) =
      .ok ("-" ++ dot.intercalate (others.map (latexOperand .mul false))) := by
  rw [Expr.latexProduct, List.map_cons, latexOperands]
  dsimp only
  rw [if_pos hone]

theorem latexProduct_coefficient (hone : ¬(c == -1) = true) (hsecond : ∀ d, second.1 ≠ .const d) :
    Expr.latexProduct ((.const c, t) :: second :: others) =
      .ok (t ++ dot.intercalate ((second :: others).map (latexOperand .mul false))) := by
  have hhead : latexOperand .mul true (.const c, t) = t := by
    rw [latexOperand, if_neg (by simp [needsParens])]
  rw [Expr.latexProduct, List.map_cons, List.map_cons, latexOperands, hhead]
  dsimp only
  rw [if_neg hone]
  split
  · next hnil => cases hnil
  · next heq => exact absurd (List.cons.inj heq).1 (hsecond _)
  · rfl

theorem latexProduct_constants {d : Float} (hone : ¬(c == -1) = true)
    (hsecond : second.1 = .const d) :
    Expr.latexProduct ((.const c, t) :: second :: others) =
      .ok (dot.intercalate (latexOperands .mul ((.const c, t) :: second :: others))) := by
  rw [Expr.latexProduct, List.map_cons, List.map_cons, latexOperands, hsecond]
  dsimp only
  rw [if_neg hone]

theorem latexProduct_dots (hfirst : ∀ c, first.1 ≠ .const c) :
    Expr.latexProduct (first :: others) =
      .ok (dot.intercalate (latexOperands .mul (first :: others))) := by
  rw [Expr.latexProduct, List.map_cons, latexOperands]
  split
  · next heq _ => exact absurd (List.cons.inj heq).1 (hfirst _)
  · next heq => cases heq
  · rfl

/-- A leading constant is a sign, or a numeral, perhaps with a sign before it. -/
theorem shows_coefficient {latex : List Char} {a : ℝ} (hextends : Extends r r')
    (hfinite : c.isFinite = true) (h : Shows r' .term latex a) (hleads : Leads latex) :
    Shows r' .term ((Number.plainText c).toList ++ latex) (Number.toRat c * a) := by
  by_cases hsign : c < 0
  · obtain ⟨htext, hfinite', hsign', hvalue⟩ := Number.opposite_of_lt_zero hfinite hsign
    have hnumeral := Number.numeral_of_not_lt_zero hfinite' hsign'
    have hcoefficient := (Shows.coefficient hnumeral h hleads).negated
    rw [String.ofList_toList, hextends.numeral _ hfinite' hsign'] at hcoefficient
    rw [htext, List.cons_append, hvalue, Rat.cast_neg, neg_mul]
    exact hcoefficient
  · have hcoefficient := Shows.coefficient (Number.numeral_of_not_lt_zero hfinite hsign) h hleads
    rwa [String.ofList_toList, hextends.numeral _ hfinite hsign] at hcoefficient

theorem shows_product {ps : List (Expr Float × String)} {s : String} (hextends : Extends r r')
    (h : ∀ p ∈ ps, Typeset r r' p) (hnormal : Expr.NormalNode .mul (ps.map Prod.fst))
    (hlegible : Expr.isLegibleNode .mul (ps.map Prod.fst) = true)
    (hs : Expr.latexProduct ps = .ok s) :
    Shows r' .term s.toList (ps.map fun p ↦ p.1.realValue r).prod := by
  obtain ⟨⟨e, t⟩, second, others, rfl⟩ :
      ∃ first second others, ps = first :: second :: others := by
    match ps, hnormal.1.two_le with
    | first :: second :: others, _ => exact ⟨first, second, others, rfl⟩
  obtain ⟨hfirst, hrest⟩ := List.forall_mem_cons.1 h
  have hdots : Shows r' .term
      (dot.intercalate (latexOperands .mul ((e, t) :: second :: others))).toList
      (((e, t) :: second :: others).map fun p ↦ p.1.realValue r).prod :=
    shows_dots (forall₂_latexOperands fun p hp isFirst ↦ operand_mul (h p hp) isFirst)
      (List.cons_ne_nil _ _)
  have hfactors := shows_factors hrest (List.cons_ne_nil _ _)
  by_cases hconst : ∃ c, e = .const c
  · obtain ⟨c, rfl⟩ := hconst
    have hvalue : (((Expr.const c, t) :: second :: others).map fun p ↦ p.1.realValue r).prod =
        Number.toRat c * ((second :: others).map fun p ↦ p.1.realValue r).prod := by
      rw [List.map_cons, List.prod_cons, Expr.realValue_const]
    -- `-1` shows as a sign, before a second constant stands a dot, and before anything else nothing
    by_cases hone : (c == -1) = true
    · rw [latexProduct_neg hone] at hs
      rw [Number.toRat_eq_of_beq hone, Number.toRat_neg_one, Rat.cast_neg, Rat.cast_one,
        neg_one_mul] at hvalue
      rw [← Except.ok.inj hs, hvalue, String.toList_append]
      exact hfactors.negated
    by_cases hsecond : ∃ d, second.1 = .const d
    · obtain ⟨d, hd⟩ := hsecond
      rw [latexProduct_constants hone hd] at hs
      rwa [← Except.ok.inj hs]
    · rw [latexProduct_coefficient hone fun d hd ↦ hsecond ⟨d, hd⟩] at hs
      have htext : Number.plainText c = t := by
        have hlatex := hfirst.latex_eq
        rw [Expr.latex] at hlatex
        exact Except.ok.inj hlatex
      have hleads := (hrest second List.mem_cons_self).leads (fun d hd ↦ hsecond ⟨d, hd⟩)
        (fun es ↦ hnormal.1.flat second.1 (by simp) es) fun d es hd ↦ ?_
      · rw [← Except.ok.inj hs, hvalue, ← htext, String.toList_append]
        refine shows_coefficient hextends (hfirst.spelled.constants c ?_) hfactors
          (leads_intercalate hleads _)
        rw [Expr.constants]
        exact List.mem_singleton_self c
      · rw [List.map_cons, List.map_cons, hd] at hlegible
        exact hone hlegible
  · rw [latexProduct_dots fun c hc ↦ hconst ⟨c, hc⟩] at hs
    rwa [← Except.ok.inj hs]

end Products

/-! ## Trees -/

theorem shows_const {c : Float} (hextends : Extends r r') (hfinite : c.isFinite = true) :
    Shows r' (levelOf (.const c)) (Number.plainText c).toList (Number.toRat c) := by
  by_cases hsign : c < 0
  · obtain ⟨htext, hfinite', hsign', hvalue⟩ := Number.opposite_of_lt_zero hfinite hsign
    have hnumeral := Shows.numeral (r := r') (Number.numeral_of_not_lt_zero hfinite' hsign')
    rw [String.ofList_toList, hextends.numeral _ hfinite' hsign'] at hnumeral
    rw [levelOf, if_pos hsign, htext, hvalue, Rat.cast_neg]
    exact hnumeral.factor.term.negated
  · have hnumeral := Shows.numeral (r := r') (Number.numeral_of_not_lt_zero hfinite hsign)
    rw [String.ofList_toList, hextends.numeral _ hfinite hsign] at hnumeral
    rwa [levelOf, if_neg hsign]

theorem shows_op {o : Operator} {ps : List (Expr Float × String)} {s : String}
    (hextends : Extends r r') (h : ∀ p ∈ ps, Typeset r r' p)
    (hnormal : Expr.NormalNode o (ps.map Prod.fst))
    (hlegible : Expr.isLegibleNode o (ps.map Prod.fst) = true)
    (hs : Expr.latexNode o ps = .ok s) :
    Shows r' (levelOf (.op o (ps.map Prod.fst))) s.toList
      ((Expr.op o (ps.map Prod.fst)).realValue r) := by
  match o, ps, hnormal with
  | .add, ps, hnormal =>
    have hne : ps ≠ [] := by
      rintro rfl
      exact absurd hnormal.1.two_le (by decide)
    have hsum := shows_sum h hne
    rw [← Except.ok.inj hs, Expr.realValue_op, Operator.value_add, sum_eq_list_sum, List.map_map]
    exact hsum
  | .mul, ps, hnormal =>
    have hproduct := shows_product hextends h hnormal hlegible hs
    rw [Expr.realValue_op, Operator.value_mul, product_eq_list_prod, List.map_map]
    exact hproduct
  | .sub, [u, v], _ =>
    have hu := h u (by simp)
    have hv := h v (by simp)
    have hright : Shows r' .term (latexOperand .sub false v).toList (v.1.realValue r) :=
      hv.operand_term (fun _ ↦ rfl) fun _ ↦ rfl
    have hdifference := (hu.operand_expression .sub true).difference hright
    rw [← Except.ok.inj hs, String.toList_append, String.toList_append, List.append_assoc]
    exact (Expr.realValue_sub r u.1 v.1).symm ▸ hdifference
  | .pow, [u, v], _ =>
    have hu := h u (by simp)
    have hv := h v (by simp)
    have hbase := hu.operand_base fun c hc ↦ by
      rw [List.map_cons, hc] at hlegible
      exact of_decide_eq_false (Bool.not_eq_true' _ ▸ hlegible)
    rw [← Except.ok.inj hs, toList_power]
    exact (Expr.realValue_pow r u.1 v.1).symm ▸ hbase.power hv.expression
  | .fn f, [u], _ =>
    have hu := h u (by simp)
    rw [← Except.ok.inj hs, toList_call]
    exact (Expr.realValue_apply r f u.1).symm ▸ hu.expression.call f

theorem typeset {e : Expr Float} {s : String} (hextends : Extends r r') (hnormal : e.Normal)
    (hlegible : e.Legible) (hspelled : Formula.Spelled e) (hs : e.latex = .ok s) :
    Typeset r r' (e, s) := by
  refine ⟨hs, hnormal, hspelled, ?_⟩
  induction e using Expr.induction generalizing s with
  | const c =>
    rw [Expr.latex] at hs
    rw [← Except.ok.inj hs, Expr.realValue_const]
    refine shows_const hextends (hspelled.constants c ?_)
    rw [Expr.constants]
    exact List.mem_singleton_self c
  | var x =>
    rw [Expr.latex] at hs
    have hname := hspelled.names x (by rw [Expr.names_var]; exact List.mem_singleton_self x)
    have hshows := Shows.name (r := r') hname
    rw [String.ofList_toList, hextends.name x hname] at hshows
    rw [← Except.ok.inj hs, Expr.realValue_var]
    exact hshows
  | op o es ih =>
    obtain ⟨hnode, hbelow⟩ := Expr.everywhere_op_iff.1 hnormal
    obtain ⟨hlegibleNode, hlegibleBelow⟩ := Expr.everywhere_op_iff.1 hlegible
    obtain ⟨texts, htexts, hlatex⟩ := exists_latexNode hs
    have hfst : (es.zip texts).map Prod.fst = es := List.map_fst_zip htexts.length_eq.le
    rw [← hfst] at hnode hlegibleNode ⊢
    refine shows_op hextends (fun p hp ↦ ?_) hnode hlegibleNode hlatex
    have he := (List.of_mem_zip hp).1
    have ht := List.forall₂_zip htexts hp
    exact ⟨ht, hbelow _ he, hspelled.of_mem he,
      ih _ he (hbelow _ he) (hlegibleBelow _ he) (hspelled.of_mem he) ht⟩

/-- The tokens of what is seen of a formula are an expression with its value. -/
theorem exists_phrase {e : Expr Float} {s : String} (hextends : Extends r r')
    (hfinished : e.Finished) (hfinite : ∀ c ∈ e.constants, c.isFinite = true) (hlegible : e.Legible)
    (hs : e.latex = .ok s) :
    ∃ f, Formula.Phrase .expression (tokens (seen s).toList) f ∧
      f.realValue r' = e.realValue r := by
  have htypeset := typeset hextends hfinished.normal hlegible ⟨hfinished.names, hfinite⟩ hs
  obtain ⟨ts, f, hphrase, -, hvalue, hreads⟩ := htypeset.expression
  have htokens : tokens (seen s).toList = ts := by
    have hnil : reads [] = [] := by rw [reads, seenFrom, tokens]
    have hall := hreads [] ends_nil
    rw [hnil, List.append_nil, List.append_nil] at hall
    rw [seen, String.toList_ofList]
    exact hall
  exact ⟨f, htokens.symm ▸ hphrase, hvalue⟩

/-- **What is seen of a typeset formula determines its function.** Two trees that are read from
formulas, have finite constants and are legible have the same value at every point, if their LaTeX
texts are equal without the braces around bases. -/
theorem realValue_eq_of_seen_eq {known known' : List String} {formula formula' : Option String}
    {e e' : Expr Float} (he : (Formula.read known formula).run.value = .ok e)
    (he' : (Formula.read known' formula').run.value = .ok e')
    (hfinite : ∀ c ∈ e.constants, c.isFinite = true)
    (hfinite' : ∀ c ∈ e'.constants, c.isFinite = true) (hlegible : e.Legible)
    (hlegible' : e'.Legible) :
    ∃ s s', e.latex = .ok s ∧ e'.latex = .ok s' ∧
      (seen s = seen s' → ∀ r, e.realValue r = e'.realValue r) := by
  have hfinished := Expr.Finished.of_read he
  have hfinished' := Expr.Finished.of_read he'
  obtain ⟨s, hs⟩ := hfinished.wellFormed.exists_latex_eq_ok
  obtain ⟨s', hs'⟩ := hfinished'.wellFormed.exists_latex_eq_ok
  refine ⟨s, s', hs, hs', fun hseen r ↦ ?_⟩
  obtain ⟨r', hextends⟩ := exists_extends r
  obtain ⟨f, hphrase, hvalue⟩ := exists_phrase hextends hfinished hfinite hlegible hs
  obtain ⟨f', hphrase', hvalue'⟩ := exists_phrase hextends hfinished' hfinite' hlegible' hs'
  -- the trees may differ, but both have the value of the one tree of the tokens
  rw [hseen] at hphrase
  rw [← hvalue, ← hvalue', hphrase.unique hphrase']

/-- The text of a sum does not say where its differences start. -/
theorem realValue_eq_of_seen_eq_of_sums :
    let e : Expr Float := .add [.mul [.const 2, .pow (.var "x") (.const 3)],
      .sub (.var "y") (.const 0.5)]
    let e' : Expr Float := .sub (.add [.mul [.const 2, .pow (.var "x") (.const 3)], .var "y"])
      (.const 0.5)
    (Formula.read [] (some "2*x^3+(y-0.5)")).run.value = .ok e ∧
      (Formula.read [] (some "2*x^3+y-0.5")).run.value = .ok e' ∧
      e.latex = .ok "2\x7bx\x7d^\x7b3\x7d + y - 0.5" ∧ e'.latex = e.latex ∧
      ∀ r, e.realValue r = e'.realValue r := by
  intro e e'
  have hcube : Formula.Phrase .term _ _ := .term (.base (.number "2")) [(_, _)]
    (List.forall_mem_singleton.2 (.power (.name "x") (.base (.number "3"))))
  have hy : Formula.Phrase .term _ _ := (Formula.Phrase.name "y").closed_term
  have hhalf : Formula.Phrase .term _ _ := (Formula.Phrase.number "0.5").closed_term
  have hread : (Formula.read [] (some "2*x^3+(y-0.5)")).run.value = .ok e := by
    have hscan : Token.scan "2*x^3+(y-0.5)" = .ok [.number "2", .times, .name "x", .caret,
      .number "3", .plus, .opening, .name "y", .minus, .number "0.5", .closing] := by
      decide +kernel
    have hinner : Formula.Phrase .expression _ _ :=
      .expression hy [(.minus, _, _)] (List.forall_mem_singleton.2 hhalf)
    have hphrase : Formula.Phrase .expression _ _ := .expression hcube [(.plus, _, _)]
      (List.forall_mem_singleton.2 (Formula.Phrase.parentheses hinner).closed_term)
    exact (Formula.read_value_of_phrase hscan hphrase).trans rfl
  have hread' : (Formula.read [] (some "2*x^3+y-0.5")).run.value = .ok e' := by
    have hscan : Token.scan "2*x^3+y-0.5" = .ok [.number "2", .times, .name "x", .caret,
      .number "3", .plus, .name "y", .minus, .number "0.5"] := by decide +kernel
    have hphrase : Formula.Phrase .expression _ _ :=
      .expression hcube [(.plus, _, _), (.minus, _, _)]
        (List.forall_mem_cons.2 ⟨hy, List.forall_mem_singleton.2 hhalf⟩)
    exact (Formula.read_value_of_phrase hscan hphrase).trans rfl
  have hlatex : e.latex = .ok "2\x7bx\x7d^\x7b3\x7d + y - 0.5" := by decide +kernel
  have hlatex' : e'.latex = .ok "2\x7bx\x7d^\x7b3\x7d + y - 0.5" := by decide +kernel
  obtain ⟨s, s', hs, hs', heq⟩ := realValue_eq_of_seen_eq hread hread' (by decide +kernel)
    (by decide +kernel) (by decide +kernel) (by decide +kernel)
  cases hs.symm.trans hlatex
  cases hs'.symm.trans hlatex'
  exact ⟨hread, hread', hlatex, hlatex'.trans hlatex.symm, heq rfl⟩

/-- Two formulas with different functions look the same, with these LaTeX texts. -/
def Confused (formula formula' s s' : String) : Prop :=
  ∃ e e' : Expr Float, (∀ known, (Formula.read known (some formula)).run.value = .ok e) ∧
    (∀ known, (Formula.read known (some formula')).run.value = .ok e') ∧
    (∀ c ∈ e.constants ++ e'.constants, c.isFinite = true) ∧ e.latex = .ok s ∧ e'.latex = .ok s' ∧
    seen s = seen s' ∧ ∃ r, e.realValue r ≠ e'.realValue r

/-- A negative base is not told from a negated power, nor a factor before a numeral from its first
digits. -/
theorem confused_of_numerals :
    Confused "(-2)^x" "-1*2^x" "\x7b-2\x7d^\x7bx\x7d" "-\x7b2\x7d^\x7bx\x7d" ∧
      Confused "2*3^x" "23^x" "2\x7b3\x7d^\x7bx\x7d" "\x7b23\x7d^\x7bx\x7d" := by
  have hx : Formula.Phrase .factor [.name "x"] (.var "x") := .base (.name "x")
  constructor
  · have hscan : Token.scan "(-2)^x" =
        .ok [.opening, .minus, .number "2", .closing, .caret, .name "x"] := by decide +kernel
    have hphrase := (Formula.Phrase.power
      (.parentheses (Formula.Phrase.negative "2").closed_term.term_expression) hx).factor_term
    have hscan' : Token.scan "-1*2^x" =
        .ok [.minus, .number "1", .times, .number "2", .caret, .name "x"] := by decide +kernel
    have hphrase' : Formula.Phrase .term _ _ := .term (.base (.negative "1")) [(_, _)]
      (List.forall_mem_singleton.2 (.power (.number "2") hx))
    refine ⟨.pow (.const (-2)) (.var "x"), .mul [.const (-1), .pow (.const 2) (.var "x")],
      fun known ↦ (Formula.read_value_of_phrase hscan hphrase.term_expression).trans rfl,
      fun known ↦ (Formula.read_value_of_phrase hscan' hphrase'.term_expression).trans rfl,
      by decide +kernel, by decide +kernel, by decide +kernel, by decide +kernel, fun _ ↦ 0, ?_⟩
    rw [Expr.realValue_pow, Expr.realValue_mul, List.map_cons, List.map_singleton, List.prod_pair,
      Expr.realValue_pow, Expr.realValue_var, Real.rpow_zero, Real.rpow_zero, Expr.realValue_const,
      Number.toRat_neg_one]
    norm_num
  · have hscan : Token.scan "2*3^x" =
        .ok [.number "2", .times, .number "3", .caret, .name "x"] := by decide +kernel
    have hphrase : Formula.Phrase .term _ _ := .term (.base (.number "2")) [(_, _)]
      (List.forall_mem_singleton.2 (.power (.number "3") hx))
    have hscan' : Token.scan "23^x" = .ok [.number "23", .caret, .name "x"] := by decide +kernel
    have hphrase' := (Formula.Phrase.power (.number "23") hx).factor_term
    refine ⟨.mul [.const 2, .pow (.const 3) (.var "x")], .pow (.const 23) (.var "x"),
      fun known ↦ (Formula.read_value_of_phrase hscan hphrase.term_expression).trans rfl,
      fun known ↦ (Formula.read_value_of_phrase hscan' hphrase'.term_expression).trans rfl,
      by decide +kernel, by decide +kernel, by decide +kernel, by decide +kernel, fun _ ↦ 0, ?_⟩
    have htwo : Number.toRat 2 = 2 := by decide +kernel
    rw [Expr.realValue_pow, Expr.realValue_mul, List.map_cons, List.map_singleton, List.prod_pair,
      Expr.realValue_pow, Expr.realValue_var, Real.rpow_zero, Real.rpow_zero, Expr.realValue_const,
      htwo]
    norm_num

end Latex

end SymbolicDerivatives
