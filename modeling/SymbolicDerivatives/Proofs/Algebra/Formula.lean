import SymbolicDerivatives.Algebra.Term
import SymbolicDerivatives.Proofs.Formula.Written

/-!
# Formulas of terms

`Term.tree` translates a term node by node: a quotient is a product with an inverse, the constants
are variables, and a function without a keyword becomes an operator of its name. `Term.foreign`
lists the names of these functions in the order in which they are written, a function before its
arguments.

A term has a formula exactly if that list is empty, and otherwise the failure names the first of the
list. The formula is read as the translation, node for node: it is a `Formula.Written` piece, built
up from the leaves like the formulas of trees.
-/

namespace SymbolicDerivatives

open Token (IsName)

namespace Number

/-- The double nearest to an integer. -/
def ofInteger (n : Int) : Float := if n < 0 then -nearest n.natAbs 0 else nearest n.natAbs 0

theorem ofInteger_natCast (n : Nat) : ofInteger n = nearest n 0 :=
  if_neg (not_lt.2 (Int.natCast_nonneg n))

theorem ofInteger_neg {n : Nat} (hn : 0 < n) : ofInteger (-n) = -ofInteger n := by
  rw [ofInteger_natCast, ofInteger, if_pos (by omega), Int.natAbs_neg, Int.natAbs_natCast]

theorem roundsTo_ofInteger (n : Nat) : RoundsTo .positive n (ofInteger n) := by
  rw [ofInteger_natCast]
  by_cases hn : n = 0
  · subst hn
    refine ⟨_, @Rounds.intro .positive 0 0 (-1074) ⟨le_rfl, by positivity, .inr rfl⟩ ?_, rfl⟩
    exact .of_lt (by norm_num) (by norm_num)
  · refine roundsTo_nearest_of_le (by rw [zpow_zero, mul_one]) ?_
    calc
      (10 : ℚ) ^ (-330 : ℤ) ≤ 1 := zpow_le_one_of_nonpos₀ (by norm_num) (by norm_num)
      _ ≤ n := by exact_mod_cast Nat.one_le_iff_ne_zero.2 hn

end Number

def TermFunc.operator : TermFunc → Operator
  | sin => .fn .sin
  | cos => .fn .cos
  | log => .fn .ln
  | f => .other f.name

namespace Term

/-! ## Translation -/

mutual

/-- A term as a tree, node by node. -/
def tree : Term → Expr Float
  | symbol name => .var name
  | integer n => .const (Number.ofInteger n)
  | quotient p q => .mul [.const (Number.ofInteger p),
      .pow (.const (Number.ofInteger q)) (.const (-1))]
  | decimal x => .const (if x == 0 then 0 else x)
  | e => .var "e"
  | pi => .var "pi"
  | add terms => .add (trees terms)
  | mul factors => .mul (trees factors)
  | pow base exponent => .pow (tree base) (tree exponent)
  | apply f argument => .op f.operator [tree argument]
  | other name arguments => .op (.other name) (trees arguments)

def trees : List Term → List (Expr Float)
  | [] => []
  | t :: ts => t.tree :: trees ts

end

theorem trees_eq_map (ts : List Term) : trees ts = ts.map tree := by
  induction ts with
  | nil => rw [trees, List.map_nil]
  | cons t ts ih => rw [trees, ih, List.map_cons]

mutual

/-- The names of the functions that formulas do not have, in writing order. -/
def foreign : Term → List String
  | add ts | mul ts => foreignNames ts
  | pow base exponent => foreign base ++ foreign exponent
  | apply f t => (if f.keyword?.isNone then [f.name] else []) ++ foreign t
  | other name ts => name :: foreignNames ts
  | _ => []

def foreignNames : List Term → List String
  | [] => []
  | t :: ts => foreign t ++ foreignNames ts

end

/-- The terms whose formulas can be read: symbols are words, decimals are finite and written without
an exponent, and sums and products have two operands or more. -/
inductive Readable : Term → Prop
  | symbol {name : String} (h : IsName name.toList) : Readable (symbol name)
  | integer (n : Int) : Readable (integer n)
  | quotient (p : Int) (q : Nat) : Readable (quotient p q)
  | decimal {x : Float} (finite : x.isFinite = true) (literal : 'e' ∉ (decimalText x).toList) :
      Readable (decimal x)
  | e : Readable e
  | pi : Readable pi
  | add {ts : List Term} (two_le : 2 ≤ ts.length) (terms : ∀ t ∈ ts, Readable t) :
      Readable (add ts)
  | mul {ts : List Term} (two_le : 2 ≤ ts.length) (factors : ∀ t ∈ ts, Readable t) :
      Readable (mul ts)
  | pow {base exponent : Term} (hbase : Readable base) (hexponent : Readable exponent) :
      Readable (pow base exponent)
  | apply (f : TermFunc) {t : Term} (h : Readable t) : Readable (apply f t)
  | other (name : String) {ts : List Term} (arguments : ∀ t ∈ ts, Readable t) :
      Readable (other name ts)

/-! ## Whether there is a formula -/

/-- The function named by a failure. -/
def named {α : Type} : Except Unwritable α → Option String
  | .ok _ => none
  | .error u => some u.function

theorem named_bind {α β γ : Type} (x : Except Unwritable α) (y : Except Unwritable β)
    (f : α → β → γ) :
    named (do return f (← x) (← y)) = (named x).or (named y) := by
  cases x with
  | error u => rfl
  | ok a => cases y <;> rfl

theorem named_map {α β : Type} (x : Except Unwritable α) (f : α → β) :
    named (f <$> x) = named x := by
  cases x <;> rfl

theorem named_formulas {ts : List Term} (h : ∀ t ∈ ts, named t.formula = t.foreign.head?) :
    named (formulas ts) = (foreignNames ts).head? := by
  induction ts with
  | nil => rfl
  | cons t ts ih =>
    obtain ⟨ht, hts⟩ := List.forall_mem_cons.1 h
    rw [formulas, named_bind, ht, ih hts, foreignNames, List.head?_append]

/-- The failure names the first function that formulas do not have. -/
theorem named_formula (t : Term) : named t.formula = t.foreign.head? := by
  induction t using Term.induction with
  | symbol | integer | quotient | decimal | e | pi => rfl
  | add ts ih | mul ts ih => rw [formula, foreign, ← named_formulas ih]; exact named_map _ _
  | pow base exponent ihbase ihexponent =>
    rw [formula, foreign, named_bind, ihbase, ihexponent, List.head?_append]
  | apply f t ih =>
    rw [formula, foreign]
    cases hf : f.keyword? with
    | none => rfl
    | some word => exact (named_map _ _).trans ih
  | other name ts => rfl

theorem exists_formula_eq_ok {t : Term} (h : t.foreign = []) : ∃ s, t.formula = .ok s := by
  have hnamed := t.named_formula
  rw [h] at hnamed
  cases hs : t.formula with
  | ok s => exact ⟨s, rfl⟩
  | error u => rw [hs] at hnamed; cases hnamed

theorem formula_eq_error {t : Term} {name : String} {rest : List String}
    (h : t.foreign = name :: rest) : t.formula = .error ⟨name⟩ := by
  have hnamed := t.named_formula
  rw [h] at hnamed
  cases hs : t.formula with
  | ok s => rw [hs] at hnamed; cases hnamed
  | error u =>
    rw [hs] at hnamed
    exact congrArg Except.error (congrArg Unwritable.mk (Option.some.inj hnamed))

end Term

/-! ## What is read -/

namespace Formula.Written

open Piece (joinedTokens)

/-- A text is a written operand with this tree. -/
def Shows (s : String) (e : Expr Float) : Prop := ∃ w : Written, s.toList = w.chars ∧ w.tree = e

theorem shows_name {name : String} (h : IsName name.toList) : Shows name (.var name) :=
  ⟨⟨.name h, _, .name _⟩, rfl, congrArg Expr.var String.ofList_toList⟩

theorem shows_literal {s : String} {negative : Bool} {cs : List Char} {q : ℚ}
    (hs : s.toList = Number.signed negative cs) (h : Number.Spells cs q) :
    Shows s (.const (if negative then -Number.ofLiteral (String.ofList cs)
      else Number.ofLiteral (String.ofList cs))) := by
  cases negative with
  | false => exact ⟨⟨.number h, _, .number _⟩, hs, rfl⟩
  | true => exact ⟨⟨.negative (.number h), _, .negative _⟩, hs, rfl⟩

theorem exists_list {texts : List String} {es : List (Expr Float)}
    (h : List.Forall₂ Shows texts es) :
    ∃ ws : List Written, texts.map String.toList = ws.map (·.chars) ∧ ws.map tree = es := by
  induction h with
  | nil => exact ⟨[], rfl, rfl⟩
  | cons hw _ ih =>
    obtain ⟨w, hchars, rfl⟩ := hw
    obtain ⟨ws, hall, rfl⟩ := ih
    exact ⟨w :: ws, congrArg₂ List.cons hchars hall, rfl⟩

theorem shows_node {o : Operator} {c : Char} {t : Token} (hsymbol : o.symbol.toList = [c])
    (hc : c ∈ Token.enders) (ht : Token.sign? c = some t) {texts : List String}
    {es : List (Expr Float)} (h : List.Forall₂ Shows texts es) (hne : es ≠ [])
    (hphrase : ∀ (first : Written) (others : List Written), (first :: others).length = es.length →
      Phrase .expression (joinedTokens t first.toPiece (others.map Written.toPiece))
        (.op o ((first :: others).map tree))) :
    Shows ("(" ++ o.symbol.intercalate texts ++ ")") (.op o es) := by
  obtain ⟨ws, hchars, rfl⟩ := exists_list h
  obtain ⟨first, others, rfl⟩ : ∃ first others, ws = first :: others :=
    List.exists_cons_of_ne_nil fun hnil ↦ hne (by rw [hnil, List.map_nil])
  have hparentheses := Phrase.parentheses (hphrase first others (by rw [List.length_map]))
  refine ⟨⟨.node hc ht first.toPiece (others.map toPiece), _, hparentheses⟩, ?_, rfl⟩
  refine Piece.toList_node hsymbol hc ht ?_
  rw [hchars, List.map_cons, List.map_cons, List.map_map]
  rfl

theorem shows_sum {texts : List String} {es : List (Expr Float)} (h : List.Forall₂ Shows texts es)
    (hlen : 2 ≤ es.length) : Shows ("(" ++ "+".intercalate texts ++ ")") (.add es) := by
  refine shows_node (o := .add) rfl (by decide) rfl h ?_ fun first others hothers ↦
    first.phrase_sum (hothers ▸ hlen)
  rintro rfl
  cases hlen

theorem shows_product {texts : List String} {es : List (Expr Float)}
    (h : List.Forall₂ Shows texts es) (hlen : 2 ≤ es.length) :
    Shows ("(" ++ "*".intercalate texts ++ ")") (.mul es) := by
  refine shows_node (o := .mul) rfl (by decide) rfl h ?_ fun first others hothers ↦
    first.phrase_product (hothers ▸ hlen)
  rintro rfl
  cases hlen

theorem shows_power {base exponent : String} {u v : Expr Float} (hu : Shows base u)
    (hv : Shows exponent v) : Shows ("(" ++ base ++ "^" ++ exponent ++ ")") (.pow u v) := by
  have hnode : Shows ("(" ++ Operator.pow.symbol.intercalate [base, exponent] ++ ")")
      (.op .pow [u, v]) := by
    refine shows_node rfl (by decide) rfl (.cons hu (.cons hv .nil)) (List.cons_ne_nil _ _)
      fun first others hothers ↦ ?_
    obtain ⟨second, rfl⟩ := List.length_eq_one_iff.1 (Nat.succ.inj hothers)
    exact first.phrase_power second
  rwa [String.intercalate_cons_cons, String.intercalate_singleton, ← String.append_assoc,
    ← String.append_assoc] at hnode

theorem shows_call (f : Func) {s : String} {u : Expr Float} (h : Shows s u) :
    Shows (f.keyword ++ "(" ++ s ++ ")") (.apply f u) := by
  obtain ⟨w, hw, rfl⟩ := h
  have hparentheses := Phrase.parentheses w.phrase.closed_term.term_expression
  exact ⟨⟨.call f w.toPiece, _, .closedFunction f hparentheses⟩, Piece.toList_call hw, rfl⟩

end Formula.Written

namespace Term

open Formula.Written (Shows shows_name shows_literal shows_sum shows_product shows_power shows_call)

theorem shows_integer (n : Int) : Shows (integerText n) (.const (Number.ofInteger n)) := by
  have h := shows_literal (s := integerText n) String.toList_ofList
    (Number.spells_toDigits n.natAbs)
  rw [Number.ofLiteral_toDigits] at h
  simpa only [Number.ofInteger, decide_eq_true_eq] using h

theorem shows_decimal {x : Float} (hfinite : x.isFinite = true)
    (hliteral : 'e' ∉ (decimalText x).toList) :
    Shows (decimalText x) (.const (if x == 0 then 0 else x)) := by
  by_cases hzero : (x == 0) = true
  · have hspells : Number.Spells (['0'] ++ '.' :: ['0']) _ :=
      .pointed (by decide) (List.all_eq_true.1 (by decide))
    have hread : Number.ofLiteral (String.ofList (['0'] ++ '.' :: ['0'])) = 0 := by decide +kernel
    have htext : "0.0".toList = Number.signed false (['0'] ++ '.' :: ['0']) := rfl
    have hshows := shows_literal htext hspells
    rw [if_neg Bool.false_ne_true, hread] at hshows
    rwa [decimalText, if_pos hzero, if_pos hzero]
  · rw [decimalText, if_neg hzero] at hliteral
    obtain ⟨negative, cs, q, htext, hspells, hread⟩ :=
      Number.exists_literal_text hfinite (Bool.eq_false_iff.2 hzero) hliteral
    have hshows := shows_literal htext hspells
    rw [hread] at hshows
    rwa [decimalText, if_neg hzero, if_neg hzero]

/-- The inverse of an integer, with the negative exponent as one constant. -/
theorem shows_inverse (q : Int) :
    Shows ("(" ++ integerText q ++ "^-1)") (.pow (.const (Number.ofInteger q)) (.const (-1))) := by
  have hread : Number.ofInteger (-1) = -1 := by decide +kernel
  have hminus : integerText (-1) = "-1" := by decide +kernel
  have hone := shows_integer (-1)
  rw [hread, hminus] at hone
  have htext : "(" ++ integerText q ++ "^-1)" = "(" ++ integerText q ++ "^" ++ "-1" ++ ")" := by
    simp only [String.append_assoc]
    rfl
  exact htext ▸ shows_power (shows_integer q) hone

theorem shows_quotient (p : Int) (q : Nat) :
    Shows ("(" ++ integerText p ++ "*(" ++ integerText q ++ "^-1))") (quotient p q).tree := by
  have htext : "(" ++ integerText p ++ "*(" ++ integerText q ++ "^-1))" =
      "(" ++ "*".intercalate [integerText p, "(" ++ integerText q ++ "^-1)"] ++ ")" := by
    rw [String.intercalate_cons_cons, String.intercalate_singleton]
    simp only [String.append_assoc]
    rfl
  rw [tree]
  exact htext ▸ shows_product (.cons (shows_integer p) (.cons (shows_inverse q) .nil)) le_rfl

theorem forall₂_shows {ts : List Term} {texts : List String}
    (h : ∀ t ∈ ts, ∀ s, t.formula = .ok s → Shows s t.tree) (htexts : formulas ts = .ok texts) :
    List.Forall₂ Shows texts (trees ts) := by
  rw [formulas_eq_mapM, mapM_eq_ok_iff] at htexts
  rw [trees_eq_map, List.forall₂_map_right_iff]
  have hmem : List.Forall₂ (fun t s ↦ t ∈ ts ∧ t.formula = .ok s) ts texts :=
    (List.forall₂_and_left _ _).2 ⟨fun _ ht ↦ ht, htexts⟩
  exact (hmem.imp fun t s ⟨ht, hs⟩ ↦ h t ht s hs).flip

theorem Readable.shows {t : Term} (ht : t.Readable) {s : String} (hs : t.formula = .ok s) :
    Shows s t.tree := by
  induction ht generalizing s with
  | symbol h =>
    rw [formula] at hs
    exact Except.ok.inj hs ▸ shows_name h
  | integer n =>
    rw [formula] at hs
    exact Except.ok.inj hs ▸ shows_integer n
  | quotient p q =>
    rw [formula] at hs
    exact Except.ok.inj hs ▸ shows_quotient p q
  | decimal hfinite hliteral =>
    rw [formula] at hs
    exact Except.ok.inj hs ▸ shows_decimal hfinite hliteral
  | e =>
    rw [formula] at hs
    exact Except.ok.inj hs ▸ shows_name (.intro (by decide) (List.forall_mem_nil _))
  | pi =>
    rw [formula] at hs
    exact Except.ok.inj hs ▸ shows_name (.intro (by decide) (List.all_eq_true.1 (by decide)))
  | @add ts two_le _ ih =>
    rw [formula] at hs
    obtain ⟨texts, htexts, rfl⟩ := map_eq_ok_iff.1 hs
    exact shows_sum (forall₂_shows ih htexts) (by rwa [trees_eq_map, List.length_map])
  | @mul ts two_le _ ih =>
    rw [formula] at hs
    obtain ⟨texts, htexts, rfl⟩ := map_eq_ok_iff.1 hs
    exact shows_product (forall₂_shows ih htexts) (by rwa [trees_eq_map, List.length_map])
  | pow _ _ ihbase ihexponent =>
    rw [formula] at hs
    obtain ⟨base, hbase, hs⟩ := bind_eq_ok_iff.1 hs
    obtain ⟨exponent, hexponent, hs⟩ := bind_eq_ok_iff.1 hs
    exact Except.ok.inj hs ▸ shows_power (ihbase hbase) (ihexponent hexponent)
  | @apply f t _ ih =>
    rw [formula] at hs
    -- the functions with a keyword, and the others have no formula
    have hcall (g : Func) (hs : (fun s ↦ g.keyword ++ "(" ++ s ++ ")") <$> t.formula = .ok s) :
        Shows s (.apply g t.tree) := by
      obtain ⟨argument, hargument, rfl⟩ := map_eq_ok_iff.1 hs
      exact shows_call g (ih hargument)
    rw [tree]
    cases f with
    | sin => exact hcall .sin hs
    | cos => exact hcall .cos hs
    | log => exact hcall .ln hs
    | exp | tan | abs => cases hs
  | other name _ _ => cases hs

/-- A readable term is read back from its formula. -/
theorem Readable.parse_value {t : Term} (ht : t.Readable) {s : String} (hs : t.formula = .ok s)
    (known : List String) : (Formula.parse known s).value = .ok t.tree := by
  obtain ⟨w, hw, htree⟩ := ht.shows hs
  have hscan : Token.scan s = .ok w.tokens :=
    Token.Scans.scan_eq (hw ▸ w.scans [] Token.endsOperand_nil)
  exact Formula.parse_value_eq_ok_iff.2
    ⟨w.tokens, hscan, htree ▸ w.phrase.closed_term.term_expression⟩

/-- **Terms and their formulas agree.** A readable term without foreign functions has a formula,
which is read as its translation, node for node. A term with such functions has none, and the
failure names the first of them in writing order. The constant that an integer is translated to is
the double nearest to it. -/
theorem formula_reads_back :
    (∀ t : Term, t.Readable → t.foreign = [] → ∃ s, t.formula = .ok s ∧
      ∀ known, (Formula.parse known s).value = .ok t.tree) ∧
    (∀ (t : Term) (name : String) (rest : List String), t.foreign = name :: rest →
      t.formula = .error ⟨name⟩) ∧
    ∀ n : ℕ, Number.RoundsTo .positive n (Number.ofInteger n) ∧
      (0 < n → Number.ofInteger (-n) = -Number.ofInteger n) := by
  refine ⟨fun t ht hforeign ↦ ?_, fun t name rest hforeign ↦ ?_, fun n ↦
    ⟨Number.roundsTo_ofInteger n, Number.ofInteger_neg⟩⟩
  · obtain ⟨s, hs⟩ := exists_formula_eq_ok hforeign
    exact ⟨s, hs, ht.parse_value hs⟩
  · exact formula_eq_error hforeign

/-- Constants, words and keywords beside operators, and two foreign functions of which one is an
argument of the other. -/
theorem formula_reads_back_of_nested :
    let t : Term := add [mul [integer (-2), pow (symbol "ln") (quotient (-1) 2)],
      apply .log (mul [decimal (-0.25), pi])]
    let t' : Term := mul [t, other "atan2" [apply .exp (symbol "x"), e]]
    t.Readable ∧ t.foreign = [] ∧ t'.foreign = ["atan2", "exp"] ∧
      t.formula = .ok "((-2*(ln^(-1*(2^-1))))+ln((-0.25*pi)))" ∧
      (Formula.parse [] "((-2*(ln^(-1*(2^-1))))+ln((-0.25*pi)))").value = .ok t.tree ∧
      t'.formula = .error ⟨"atan2"⟩ ∧ Number.RoundsTo .positive (2 : ℕ) (Number.ofInteger 2) ∧
      Number.ofInteger (-2) = -Number.ofInteger 2 := by
  intro t t'
  have hformula : t.formula = .ok "((-2*(ln^(-1*(2^-1))))+ln((-0.25*pi)))" := by decide +kernel
  have hname : IsName "ln".toList := Token.isName_keyword .ln
  have hpower : (pow (symbol "ln") (quotient (-1) 2)).Readable :=
    .pow (.symbol hname) (.quotient (-1) 2)
  have hdecimal : (decimal (-0.25)).Readable := .decimal (by decide +kernel) (by decide +kernel)
  have ht : t.Readable := by
    refine .add (by decide) (List.forall_mem_cons.2 ⟨?_, List.forall_mem_singleton.2 ?_⟩)
    · exact .mul (by decide) (by simp [Readable.integer, hpower])
    · exact .apply .log (.mul (by decide) (by simp [Readable.pi, hdecimal]))
  have hforeign : t'.foreign = ["atan2", "exp"] := by decide
  obtain ⟨hread, hfail, hnearest⟩ := formula_reads_back
  obtain ⟨s, hs, hparse⟩ := hread t ht (by decide)
  cases hs.symm.trans hformula
  exact ⟨ht, by decide, hforeign, hformula, hparse [], hfail t' _ _ hforeign, (hnearest 2).1,
    (hnearest 2).2 (by decide)⟩

end Term

end SymbolicDerivatives
