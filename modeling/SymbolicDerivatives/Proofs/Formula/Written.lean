import SymbolicDerivatives.Proofs.Alike
import SymbolicDerivatives.Proofs.Formula.Pieces
import SymbolicDerivatives.Proofs.Names

/-!
# Written formulas are phrases

The text of a well-formed tree is a piece, if its names can be found again in a text and its
constants are finite. If these are all literals, the piece is a closed operand of the grammar, and
its tree is the one that was written, up to the sign of a zero. If one of them has an exponent, the
piece is no phrase at all.
-/

namespace SymbolicDerivatives.Formula

open Token (Adjacent IsName)

/-! ## Phrases in parentheses -/

theorem Phrase.factor_term {tokens : List Token} {e : Expr Float} (h : Phrase .factor tokens e) :
    Phrase .term tokens e := by
  have hterm := Phrase.term h [] (List.forall_mem_nil _)
  rwa [List.flatMap_nil, List.append_nil] at hterm

theorem Phrase.closed_term {tokens : List Token} {e : Expr Float} (h : Phrase .closed tokens e) :
    Phrase .term tokens e :=
  (Phrase.base h).factor_term

theorem Phrase.term_expression {tokens : List Token} {e : Expr Float} (h : Phrase .term tokens e) :
    Phrase .expression tokens e := by
  have hexpression := Phrase.expression h [] (List.forall_mem_nil _)
  rwa [List.flatMap_nil, List.append_nil] at hexpression

theorem joinTerms_plus (terms others : List (Expr Float)) :
    joinTerms terms (others.map fun e ↦ (.plus, e)) = run .add (terms ++ others) := by
  have hfold : (others.map fun e ↦ (Sign.plus, e)).foldl (fun terms t ↦ t.1.join terms t.2) terms =
      terms ++ others := by
    induction others generalizing terms with
    | nil => rw [List.append_nil]; rfl
    | cons e others ih =>
      rw [List.map_cons, List.foldl_cons, ih, Sign.join, List.append_assoc, List.singleton_append]
  rw [joinTerms, hfold]

theorem run_eq_op (o : Operator) {es : List (Expr Float)} (h : 2 ≤ es.length) :
    run o es = .op o es := by
  match es, h with
  | _ :: _ :: _, _ => rfl

/-- A piece whose tokens are an operand that a `^` can follow, with its tree. -/
structure Written extends Piece where
  tree : Expr Float
  phrase : Phrase .closed tokens tree

namespace Written

open Piece (joinedTokens)

variable (first : Written)

theorem phrase_sum {others : List Written} (h : 2 ≤ (first :: others).length) :
    Phrase .expression (joinedTokens .plus first.toPiece (others.map toPiece))
      (.add ((first :: others).map tree)) := by
  have hphrase := Phrase.expression first.phrase.closed_term
    (others.map fun w ↦ (.plus, w.tokens, w.tree))
    (List.forall_mem_map.2 fun w _ ↦ w.phrase.closed_term)
  have hjoin := joinTerms_plus [first.tree] (others.map tree)
  rw [List.map_map] at hjoin
  rw [List.map_map, List.flatMap_map] at hphrase
  rw [Expr.add, ← run_eq_op .add (by rwa [List.length_map]), joinedTokens, List.flatMap_map]
  exact hjoin ▸ hphrase

theorem phrase_product {others : List Written} (h : 2 ≤ (first :: others).length) :
    Phrase .expression (joinedTokens .times first.toPiece (others.map toPiece))
      (.mul ((first :: others).map tree)) := by
  have hphrase := Phrase.term (.base first.phrase) (others.map fun w ↦ (w.tokens, w.tree))
    (List.forall_mem_map.2 fun w _ ↦ .base w.phrase)
  rw [List.map_map, List.flatMap_map] at hphrase
  rw [Expr.mul, ← run_eq_op .mul (by rwa [List.length_map]), joinedTokens, List.flatMap_map]
  exact hphrase.term_expression

variable (second : Written)

theorem phrase_difference :
    Phrase .expression (joinedTokens .minus first.toPiece [second.toPiece])
      (.sub first.tree second.tree) :=
  .expression first.phrase.closed_term [(.minus, second.tokens, second.tree)]
    (List.forall_mem_singleton.2 second.phrase.closed_term)

theorem phrase_power :
    Phrase .expression (joinedTokens .caret first.toPiece [second.toPiece])
      (.pow first.tree second.tree) := by
  rw [joinedTokens, List.flatMap_singleton]
  exact (Phrase.power first.phrase (.base second.phrase)).factor_term.term_expression

end Written

/-! ## Leaves -/

/-- The names of a tree are found again in a text, and its constants are finite. -/
structure Spelled (e : Expr Float) : Prop where
  names : ∀ x ∈ e.names, IsName x.toList
  constants : ∀ c ∈ e.constants, c.isFinite = true

/-- The constants of a tree are written without an exponent. -/
def HasLiterals (e : Expr Float) : Prop := ∀ c ∈ e.constants, 'e' ∉ (Number.plainText c).toList

theorem Spelled.of_mem {o : Operator} {es : List (Expr Float)} (h : Spelled (.op o es))
    {e : Expr Float} (he : e ∈ es) : Spelled e where
  names x hx := h.names x (Expr.names_subset_of_mem he hx)
  constants c hc := by
    refine h.constants c ?_
    rw [Expr.constants_op]
    exact List.mem_flatMap.2 ⟨e, he, hc⟩

theorem hasLiterals_const_iff {c : Float} :
    HasLiterals (.const c) ↔ 'e' ∉ (Number.plainText c).toList := by
  rw [HasLiterals, Expr.constants, List.forall_mem_singleton]

theorem hasLiterals_var (x : String) : HasLiterals (.var x) := by
  rw [HasLiterals, Expr.constants]
  exact List.forall_mem_nil _

theorem hasLiterals_op_iff {o : Operator} {es : List (Expr Float)} :
    HasLiterals (.op o es) ↔ ∀ e ∈ es, HasLiterals e := by
  simp only [HasLiterals, Expr.constants_op, List.mem_flatMap]
  exact ⟨fun h e he c hc ↦ h c ⟨e, he, hc⟩, fun h c ⟨e, he, hc⟩ ↦ h e he c hc⟩

/-! ## Trees -/

namespace Piece

/-- A piece is the text of a tree: a phrase for the tree, if the constants of the tree are literals,
and no phrase otherwise. -/
structure Shows (p : Piece) (s : String) (e : Expr Float) : Prop where
  toList_eq : s.toList = p.chars
  phrase : HasLiterals e → ∃ f, Phrase .closed p.tokens f ∧ f.same e = true
  not_isChain : ¬HasLiterals e → ¬p.tokens.IsChain Adjacent

variable {o : Operator} {es : List (Expr Float)} {texts : List String} {ps : List Piece}

theorem exists_operands (h : List.Forall₂ (fun e s ↦ ∃ p : Piece, p.Shows s e) es texts) :
    ∃ ps : List Piece, texts.map String.toList = ps.map chars ∧
      List.Forall₂ (fun e p ↦ ∃ s, p.Shows s e) es ps := by
  induction h with
  | nil => exact ⟨[], rfl, .nil⟩
  | @cons e s es texts hp _ ih =>
    obtain ⟨p, hp⟩ := hp
    obtain ⟨ps, hchars, hpieces⟩ := ih
    exact ⟨p :: ps, congrArg₂ List.cons hp.toList_eq hchars, .cons ⟨s, hp⟩ hpieces⟩

theorem exists_written (h : List.Forall₂ (fun e p ↦ ∃ s, p.Shows s e) es ps)
    (hliterals : ∀ e ∈ es, HasLiterals e) :
    ∃ ws : List Written, ps = ws.map Written.toPiece ∧
      List.Forall₂ (fun f e ↦ f.same e = true) (ws.map Written.tree) es := by
  induction h with
  | nil => exact ⟨[], rfl, .nil⟩
  | @cons e p es ps hp _ ih =>
    obtain ⟨s, hp⟩ := hp
    obtain ⟨he, hes⟩ := List.forall_mem_cons.1 hliterals
    obtain ⟨f, hphrase, hsame⟩ := hp.phrase he
    obtain ⟨ws, rfl, htrees⟩ := ih hes
    exact ⟨⟨p, f, hphrase⟩ :: ws, rfl, .cons hsame htrees⟩

theorem exists_node {c : Char} {t : Token} (hsymbol : o.symbol.toList = [c])
    (hc : c ∈ Token.enders) (ht : Token.sign? c = some t)
    (hoperands : List.Forall₂ (fun e s ↦ ∃ p : Piece, p.Shows s e) es texts) (hne : es ≠ [])
    (hphrase : ∀ (first : Written) (others : List Written), (first :: others).length = es.length →
      Phrase .expression (joinedTokens t first.toPiece (others.map Written.toPiece))
        (.op o ((first :: others).map Written.tree))) :
    ∃ p : Piece, p.Shows ("(" ++ o.symbol.intercalate texts ++ ")") (.op o es) := by
  obtain ⟨ps, hchars, hpieces⟩ := exists_operands hoperands
  obtain ⟨first, others, rfl⟩ : ∃ first others, ps = first :: others := by
    refine List.exists_cons_of_ne_nil ?_
    rintro rfl
    exact hne (List.forall₂_nil_right_iff.1 hpieces)
  refine ⟨node hc ht first others, toList_node hsymbol hc ht hchars, ?_, ?_⟩
  · intro hliterals
    obtain ⟨ws, hws, htrees⟩ := exists_written hpieces (hasLiterals_op_iff.1 hliterals)
    obtain ⟨v, vs, rfl, rfl, rfl⟩ := List.map_eq_cons_iff.1 hws.symm
    have hlength := htrees.length_eq
    rw [List.length_map] at hlength
    exact ⟨_, .parentheses (hphrase v vs hlength), Expr.same_op_iff.2 ⟨rfl, htrees⟩⟩
  · rw [hasLiterals_op_iff]
    intro hexponent
    push Not at hexponent
    obtain ⟨e, he, hexponent⟩ := hexponent
    obtain ⟨p, hp, s, hshows⟩ := exists_mem_right_of_forall₂ hpieces he
    exact not_isChain_node hc ht hp (hshows.not_isChain hexponent)

theorem exists_call (f : Func) {u : Expr Float} {p : Piece} {s : String} (h : p.Shows s u) :
    ∃ p : Piece, p.Shows (f.keyword ++ "(" ++ s ++ ")") (.apply f u) := by
  have hoperand : HasLiterals (.apply f u) ↔ HasLiterals u := by
    rw [Expr.apply, hasLiterals_op_iff, List.forall_mem_singleton]
  refine ⟨call f p, toList_call h.toList_eq, ?_, ?_⟩
  · rw [hoperand]
    intro hliterals
    obtain ⟨e, hphrase, hsame⟩ := h.phrase hliterals
    exact ⟨_, .closedFunction f (.parentheses hphrase.closed_term.term_expression),
      Expr.same_op_iff.2 ⟨rfl, .cons hsame .nil⟩⟩
  · rw [hoperand]
    exact fun hexponent ↦ not_isChain_call f (h.not_isChain hexponent)

theorem exists_op {s : String} (accepts : o.Accepts 2 es.length)
    (htext : Expr.textNode o texts = .ok s)
    (hoperands : List.Forall₂ (fun e s ↦ ∃ p : Piece, p.Shows s e) es texts) :
    ∃ p : Piece, p.Shows s (.op o es) := by
  rcases Expr.accepts_cases accepts with ⟨ho, hlen⟩ | ⟨rfl, u, v, rfl⟩ | ⟨rfl, u, v, rfl⟩ |
    ⟨f, u, rfl, rfl⟩
  · have hne : es ≠ [] := by
      rintro rfl
      exact absurd hlen (by decide)
    rcases Operator.isNary_iff.1 ho with rfl | rfl
    · exact Except.ok.inj htext ▸ exists_node rfl (by decide) rfl hoperands hne
        fun first others hothers ↦ first.phrase_sum (hothers ▸ hlen)
    · exact Except.ok.inj htext ▸ exists_node rfl (by decide) rfl hoperands hne
        fun first others hothers ↦ first.phrase_product (hothers ▸ hlen)
  · refine Except.ok.inj htext ▸ exists_node rfl (by decide) rfl hoperands (List.cons_ne_nil _ _)
      fun first others hothers ↦ ?_
    obtain ⟨second, rfl⟩ := List.length_eq_one_iff.1 (Nat.succ.inj hothers)
    exact first.phrase_difference second
  · refine Except.ok.inj htext ▸ exists_node rfl (by decide) rfl hoperands (List.cons_ne_nil _ _)
      fun first others hothers ↦ ?_
    obtain ⟨second, rfl⟩ := List.length_eq_one_iff.1 (Nat.succ.inj hothers)
    exact first.phrase_power second
  · obtain ⟨text, _, ⟨p, hp⟩, htail, rfl⟩ := List.forall₂_cons_left_iff.1 hoperands
    cases List.forall₂_nil_left_iff.1 htail
    exact Except.ok.inj htext ▸ exists_call f hp

theorem exists_const {c : Float} (hfinite : c.isFinite = true) :
    ∃ p : Piece, p.Shows (Number.plainText c) (.const c) := by
  by_cases hexponent : 'e' ∈ (Number.plainText c).toList
  · obtain ⟨p, hchars, hchain⟩ := exists_of_exponential hfinite hexponent
    exact ⟨p, hchars, fun hliterals ↦ absurd hexponent (hasLiterals_const_iff.1 hliterals),
      fun _ ↦ hchain⟩
  · have hliterals := hasLiterals_const_iff.2 hexponent
    obtain ⟨isNegative, cs, q, htext, hspells, heq⟩ := Number.exists_literal hfinite hexponent
    cases isNegative with
    | false =>
      exact ⟨number hspells, htext, fun _ ↦ ⟨_, .number _, by rw [Expr.same]; exact heq⟩,
        fun h ↦ absurd hliterals h⟩
    | true =>
      exact ⟨negative (number hspells), htext,
        fun _ ↦ ⟨_, .negative _, by rw [Expr.same]; exact heq⟩, fun h ↦ absurd hliterals h⟩

end Piece

open Piece in
/-- The text of a well-formed tree is a piece. -/
theorem exists_piece {e : Expr Float} (hwf : e.WellFormed 2) (h : Spelled e) {s : String}
    (hs : e.text = .ok s) : ∃ p : Piece, p.Shows s e := by
  induction hwf generalizing s with
  | const c =>
    rw [Expr.text] at hs
    refine Except.ok.inj hs ▸ exists_const (h.constants c ?_)
    rw [Expr.constants]
    exact List.mem_cons_self
  | var x =>
    rw [Expr.text] at hs
    have hx := h.names x (by rw [Expr.names_var]; exact List.mem_cons_self)
    refine ⟨name hx, congrArg String.toList (Except.ok.inj hs).symm, fun _ ↦ ⟨_, .name _, ?_⟩,
      fun hexponent ↦ absurd (hasLiterals_var x) hexponent⟩
    rw [String.ofList_toList, Expr.same, beq_self_eq_true]
  | @op o es accepts _ ih =>
    rw [Expr.text_op] at hs
    obtain ⟨texts, htexts, htext⟩ := bind_eq_ok_iff.1 hs
    have hall := mapM_eq_ok_iff.1 htexts
    refine exists_op accepts htext (List.forall₂_iff_zip.2 ⟨hall.length_eq, fun hmem ↦ ?_⟩)
    have he := (List.of_mem_zip hmem).1
    exact ih _ he (h.of_mem he) (List.forall₂_zip hall hmem)

/-- The text of a tree can be cut into tokens. They are an expression for the tree if no exponent is
written, and no expression at all otherwise. -/
theorem scan_text {e : Expr Float} (hwf : e.WellFormed 2) (h : Spelled e) {s : String}
    (hs : e.text = .ok s) : ∃ tokens, Token.scan s = .ok tokens ∧
      (HasLiterals e → ∃ f, Phrase .expression tokens f ∧ f.same e = true) ∧
      (¬HasLiterals e → ∀ f, ¬Phrase .expression tokens f) := by
  obtain ⟨p, hp⟩ := exists_piece hwf h hs
  refine ⟨p.tokens, Token.Scans.scan_eq (hp.toList_eq ▸ p.scans [] Token.endsOperand_nil),
    fun hliterals ↦ ?_, fun hexponent f hphrase ↦ hp.not_isChain hexponent hphrase.isChain⟩
  obtain ⟨f, hphrase, hsame⟩ := hp.phrase hliterals
  exact ⟨f, hphrase.closed_term.term_expression, hsame⟩

end SymbolicDerivatives.Formula
