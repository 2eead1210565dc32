import SymbolicDerivatives.Formula.Tree
import SymbolicDerivatives.Proofs.Derivative.Plan
import SymbolicDerivatives.Proofs.Formula.Levels

/-!
# The grammar of formulas

A formula is a sequence of tokens of the grammar

```text
expression := term (('+' | '-') term)*
term       := factor ('*' factor)*
factor     := closed | closed '^' factor | open
closed     := NUMBER | NAME | '-' NUMBER | '(' expression ')' | FUNCTION closed
open       := '-' factor | FUNCTION open
```

where the factor after the sign of an open operand does not start with a number. `Formula.Phrase`
is this grammar as a relation between a level, the tokens of a phrase and its tree. It does not
mention the way in which formulas are read.

An open operand ends with a whole factor, so it has taken every `^` that could follow it; a closed
one leaves the `^` to the factor that it is the base of. So a level never has to give back a token,
and reading is exact: `Phrase.readLevel` reads every phrase to its end, and `phrase_of_readTerm`
and its companions say that nothing else is read. That a sequence has at most one tree follows,
because reading is a function.
-/

namespace SymbolicDerivatives.Formula

/-! ## Phrases -/

/-- The signs between the terms of an expression. -/
inductive Sign where
  | plus
  | minus

def Sign.token : Sign → Token
  | plus => .plus
  | minus => .minus

/-- The last run of `+` in an expression after one more term: a `+` prolongs the run, and a `-` has
all that is before it as its left operand. -/
def Sign.join : Sign → List (Expr Float) → Expr Float → List (Expr Float)
  | plus, terms, e => terms ++ [e]
  | minus, terms, e => [.sub (run .add terms) e]

/-- The tree of an expression, from the terms of its first run of `+` and the signed terms after
them. -/
def joinTerms (terms : List (Expr Float)) (others : List (Sign × Expr Float)) : Expr Float :=
  run .add (others.foldl (fun terms t ↦ t.1.join terms t.2) terms)

/-- The levels of the grammar. -/
inductive Level where
  | expression
  | term
  | factor
  /-- An operand that a `^` can follow. -/
  | closed
  /-- An operand with a sign that has taken every `^` after it. -/
  | opened

/-- `Phrase level tokens e`: the tokens are a phrase of the level, with the tree `e`. -/
inductive Phrase : Level → List Token → Expr Float → Prop
  | expression {tokens : List Token} {e : Expr Float} (first : Phrase .term tokens e)
      (others : List (Sign × List Token × Expr Float))
      (terms : ∀ t ∈ others, Phrase .term t.2.1 t.2.2) :
      Phrase .expression (tokens ++ others.flatMap fun t ↦ t.1.token :: t.2.1)
        (joinTerms [e] (others.map fun t ↦ (t.1, t.2.2)))
  | term {tokens : List Token} {e : Expr Float} (first : Phrase .factor tokens e)
      (others : List (List Token × Expr Float)) (factors : ∀ t ∈ others, Phrase .factor t.1 t.2) :
      Phrase .term (tokens ++ others.flatMap fun t ↦ .times :: t.1)
        (run .mul (e :: others.map Prod.snd))
  | base {tokens : List Token} {e : Expr Float} (operand : Phrase .closed tokens e) :
      Phrase .factor tokens e
  | power {tokens tokens' : List Token} {u v : Expr Float} (base : Phrase .closed tokens u)
      (exponent : Phrase .factor tokens' v) :
      Phrase .factor (tokens ++ .caret :: tokens') (.pow u v)
  | operand {tokens : List Token} {e : Expr Float} (operand : Phrase .opened tokens e) :
      Phrase .factor tokens e
  | number (literal : String) :
      Phrase .closed [.number literal] (.const (Number.ofLiteral literal))
  | name (word : String) : Phrase .closed [.name word] (.var word)
  | negative (literal : String) :
      Phrase .closed [.minus, .number literal] (.const (-Number.ofLiteral literal))
  | parentheses {tokens : List Token} {e : Expr Float} (inner : Phrase .expression tokens e) :
      Phrase .closed (.opening :: (tokens ++ [.closing])) e
  | closedFunction (f : Func) {tokens : List Token} {e : Expr Float}
      (argument : Phrase .closed tokens e) : Phrase .closed (.function f :: tokens) (.apply f e)
  | negated {tokens : List Token} {e : Expr Float} (factor : Phrase .factor tokens e)
      (noNumber : ∀ literal, tokens.head? ≠ some (.number literal)) :
      Phrase .opened (.minus :: tokens) (.mul [.const (-1), e])
  | openFunction (f : Func) {tokens : List Token} {e : Expr Float}
      (argument : Phrase .opened tokens e) : Phrase .opened (.function f :: tokens) (.apply f e)

/-! ## Every phrase is read to its end -/

/-- What is read at a level, and the tokens after it. -/
def readLevel (known : List String) (tokens : List Token) :
    Level → Option (Expr Float × List Token)
  | .expression => (readExpression known tokens).phrase?
  | .term => (readTerm known tokens).phrase?
  | .factor => (readFactor known tokens).phrase?
  | .closed | .opened => (readOperand known tokens).phrase?

/-- The token after a phrase does not prolong it. -/
def Level.StopsAt (next : Option Token) : Level → Prop
  | expression => next ≠ some .plus ∧ next ≠ some .minus ∧ next ≠ some .times ∧ next ≠ some .caret
  | term => next ≠ some .times ∧ next ≠ some .caret
  | factor | opened => next ≠ some .caret
  | closed => True

/-- A factor stops at the `*` before the next one, and where its term stops. -/
theorem stopsAt_factor_of_term (others : List (List Token × Expr Float)) {rest : List Token}
    (h : Level.term.StopsAt rest.head?) :
    Level.factor.StopsAt ((others.flatMap fun t ↦ .times :: t.1) ++ rest).head? := by
  cases others with
  | nil => exact h.2
  | cons t others => simp [Level.StopsAt]

/-- A term stops at the sign before the next one, and where its expression stops. -/
theorem stopsAt_term_of_expression (others : List (Sign × List Token × Expr Float))
    {rest : List Token} (h : Level.expression.StopsAt rest.head?) :
    Level.term.StopsAt ((others.flatMap fun t ↦ t.1.token :: t.2.1) ++ rest).head? := by
  cases others with
  | nil => exact h.2.2
  | cons t others => cases hsign : t.1 <;> simp [Level.StopsAt, Sign.token, hsign]

theorem Phrase.ne_nil {level : Level} {tokens : List Token} {e : Expr Float}
    (h : Phrase level tokens e) : tokens ≠ [] := by
  induction h with
  | expression _ _ _ ih | term _ _ _ ih => exact List.append_ne_nil_of_left_ne_nil ih _
  | base _ ih | operand _ ih => exact ih
  | power _ _ ih => exact List.append_ne_nil_of_left_ne_nil ih _
  | _ => exact List.cons_ne_nil _ _

variable {known : List String}

theorem readTerms_sign_iff (sign : Sign) {tokens : List Token} {es : List (Expr Float)}
    {p : Expr Float × List Token} :
    (readTerms known es (sign.token :: tokens)).phrase? = some p ↔
      ∃ e rest, (readTerm known tokens).phrase? = some (e, rest) ∧
        (readTerms known (sign.join es e) rest).phrase? = some p := by
  cases sign with
  | plus => exact readTerms_plus_iff
  | minus => exact readTerms_minus_iff

theorem readFactors_of_factors {others : List (List Token × Expr Float)} {rest : List Token}
    (hfactors : ∀ t ∈ others, ∀ rest : List Token, Level.factor.StopsAt rest.head? →
      (readFactor known (t.1 ++ rest)).phrase? = some (t.2, rest))
    (hrest : Level.term.StopsAt rest.head?) (es : List (Expr Float)) :
    (readFactors known es ((others.flatMap fun t ↦ .times :: t.1) ++ rest)).phrase? =
      some (run .mul (es ++ others.map Prod.snd), rest) := by
  induction others generalizing es with
  | nil =>
    rw [List.flatMap_nil, List.nil_append, List.map_nil, List.append_nil]
    exact readFactors_stop hrest.1
  | cons t others ih =>
    have hfactor := hfactors t List.mem_cons_self _ (stopsAt_factor_of_term others hrest)
    have hothers := ih (fun t ht ↦ hfactors t (List.mem_cons_of_mem _ ht)) (es ++ [t.2])
    rw [List.append_assoc] at hothers
    rw [List.flatMap_cons, List.cons_append, List.cons_append, List.append_assoc]
    exact readFactors_times_iff.2 ⟨t.2, _, hfactor, hothers⟩

theorem readTerms_of_terms {others : List (Sign × List Token × Expr Float)} {rest : List Token}
    (hterms : ∀ t ∈ others, ∀ rest : List Token, Level.term.StopsAt rest.head? →
      (readTerm known (t.2.1 ++ rest)).phrase? = some (t.2.2, rest))
    (hrest : Level.expression.StopsAt rest.head?) (es : List (Expr Float)) :
    (readTerms known es ((others.flatMap fun t ↦ t.1.token :: t.2.1) ++ rest)).phrase? =
      some (joinTerms es (others.map fun t ↦ (t.1, t.2.2)), rest) := by
  induction others generalizing es with
  | nil => exact readTerms_stop hrest.1 hrest.2.1
  | cons t others ih =>
    obtain ⟨sign, tokens, e⟩ := t
    have hterm := hterms _ List.mem_cons_self _ (stopsAt_term_of_expression others hrest)
    have hothers := ih fun t ht ↦ hterms t (List.mem_cons_of_mem _ ht)
    rw [List.flatMap_cons, List.cons_append, List.cons_append, List.append_assoc]
    exact (readTerms_sign_iff sign).2 ⟨e, _, hterm, hothers _⟩

/-- A phrase before a token that does not prolong it is read to its end. -/
theorem Phrase.readLevel {level : Level} {tokens : List Token} {e : Expr Float}
    (h : Phrase level tokens e) {rest : List Token} (hrest : level.StopsAt rest.head?) :
    readLevel known (tokens ++ rest) level = some (e, rest) := by
  induction h generalizing rest with
  | @expression tokens e _ others _ ihfirst ih =>
    rw [List.append_assoc]
    exact readExpression_iff.2 ⟨e, _, ihfirst (stopsAt_term_of_expression others hrest),
      readTerms_of_terms (fun t ht _ h ↦ ih t ht h) hrest [e]⟩
  | @term tokens e _ others _ ihfirst ih =>
    rw [List.append_assoc]
    exact readTerm_iff.2 ⟨e, _, ihfirst (stopsAt_factor_of_term others hrest),
      readFactors_of_factors (fun t ht _ h ↦ ih t ht h) hrest [e]⟩
  | @base tokens e _ ih =>
    exact readFactor_iff.2 ⟨e, rest, ih trivial, .inr ⟨hrest, rfl⟩⟩
  | @power tokens tokens' u v _ _ ihbase ihexponent =>
    rw [List.append_assoc, List.cons_append]
    exact readFactor_iff.2 ⟨u, _, ihbase trivial, .inl ⟨_, v, rest, rfl, ihexponent hrest, rfl⟩⟩
  | @operand tokens e _ ih =>
    exact readFactor_iff.2 ⟨e, rest, ih hrest, .inr ⟨hrest, rfl⟩⟩
  | number literal =>
    exact (readOperand_of_head?_ne (by simp)).trans (readAtom_number literal)
  | name word => exact (readOperand_of_head?_ne (by simp)).trans (readAtom_name word)
  | negative literal => exact readOperand_negative literal
  | @parentheses tokens e _ ih =>
    refine (readOperand_of_head?_ne (by simp)).trans ?_
    rw [List.cons_append, List.append_assoc]
    exact readAtom_opening_iff.2 ⟨e, rest, ih (by simp [Level.StopsAt]), rfl⟩
  | @closedFunction f tokens e _ ih =>
    refine (readOperand_of_head?_ne (by simp)).trans ?_
    exact (readAtom_function_iff f).2 ⟨e, rest, ih trivial, rfl⟩
  | @negated tokens e hfactor noNumber ih =>
    have hnext : ∀ literal, (tokens ++ rest).head? ≠ some (.number literal) := by
      rwa [List.head?_append_of_ne_nil _ hfactor.ne_nil]
    exact (readOperand_minus_iff hnext).2 ⟨e, rest, ih hrest, rfl⟩
  | @openFunction f tokens e _ ih =>
    refine (readOperand_of_head?_ne (by simp)).trans ?_
    exact (readAtom_function_iff f).2 ⟨e, rest, ih hrest, rfl⟩

/-! ## Only phrases are read -/

open Reading (length_lt_of_phrase?)

mutual

theorem phrase_of_readExpression {tokens rest : List Token} {e : Expr Float}
    (h : (readExpression known tokens).phrase? = some (e, rest)) :
    ∃ front, tokens = front ++ rest ∧ Phrase .expression front e := by
  obtain ⟨first, middle, hfirst, hothers⟩ := readExpression_iff.1 h
  -- the first term takes a token at least, so what is left is shorter
  have hlen := length_lt_of_phrase? hfirst
  obtain ⟨front, rfl, hphrase⟩ := phrase_of_readTerm hfirst
  obtain ⟨others, rfl, hterms, rfl⟩ := terms_of_readTerms hothers
  exact ⟨_, (List.append_assoc ..).symm, .expression hphrase others hterms⟩
termination_by (tokens.length, 4)

theorem terms_of_readTerms {tokens rest : List Token} {es : List (Expr Float)} {e : Expr Float}
    (h : (readTerms known es tokens).phrase? = some (e, rest)) :
    ∃ others : List (Sign × List Token × Expr Float),
      tokens = (others.flatMap fun t ↦ t.1.token :: t.2.1) ++ rest ∧
      (∀ t ∈ others, Phrase .term t.2.1 t.2.2) ∧
      e = joinTerms es (others.map fun t ↦ (t.1, t.2.2)) := by
  by_cases hsign : ∃ sign : Sign, tokens.head? = some sign.token
  · obtain ⟨sign, hsign⟩ := hsign
    obtain ⟨tokens, rfl⟩ := List.head?_eq_some_iff.1 hsign
    obtain ⟨term, middle, hterm, hothers⟩ := (readTerms_sign_iff sign).1 h
    have hlen := length_lt_of_phrase? hterm
    obtain ⟨front, rfl, hphrase⟩ := phrase_of_readTerm hterm
    obtain ⟨others, rfl, hterms, rfl⟩ := terms_of_readTerms hothers
    exact ⟨(sign, front, term) :: others, by simp, List.forall_mem_cons.2 ⟨hphrase, hterms⟩, rfl⟩
  · have hno := not_exists.1 hsign
    rw [readTerms_stop (hno .plus) (hno .minus)] at h
    cases h
    exact ⟨[], rfl, List.forall_mem_nil _, rfl⟩
termination_by (tokens.length, 0)

theorem phrase_of_readTerm {tokens rest : List Token} {e : Expr Float}
    (h : (readTerm known tokens).phrase? = some (e, rest)) :
    ∃ front, tokens = front ++ rest ∧ Phrase .term front e := by
  obtain ⟨first, middle, hfirst, hothers⟩ := readTerm_iff.1 h
  have hlen := length_lt_of_phrase? hfirst
  obtain ⟨front, rfl, hphrase, -⟩ := phrase_of_readFactor hfirst
  obtain ⟨others, rfl, hfactors, rfl⟩ := factors_of_readFactors hothers
  exact ⟨_, (List.append_assoc ..).symm, .term hphrase others hfactors⟩
termination_by (tokens.length, 3)

theorem factors_of_readFactors {tokens rest : List Token} {es : List (Expr Float)}
    {e : Expr Float} (h : (readFactors known es tokens).phrase? = some (e, rest)) :
    ∃ others : List (List Token × Expr Float),
      tokens = (others.flatMap fun t ↦ .times :: t.1) ++ rest ∧
      (∀ t ∈ others, Phrase .factor t.1 t.2) ∧ e = run .mul (es ++ others.map Prod.snd) := by
  by_cases htimes : tokens.head? = some .times
  · obtain ⟨tokens, rfl⟩ := List.head?_eq_some_iff.1 htimes
    obtain ⟨factor, middle, hfactor, hothers⟩ := readFactors_times_iff.1 h
    have hlen := length_lt_of_phrase? hfactor
    obtain ⟨front, rfl, hphrase, -⟩ := phrase_of_readFactor hfactor
    obtain ⟨others, rfl, hfactors, rfl⟩ := factors_of_readFactors hothers
    refine ⟨(front, factor) :: others, by simp, List.forall_mem_cons.2 ⟨hphrase, hfactors⟩, ?_⟩
    rw [List.append_assoc]
    rfl
  · rw [readFactors_stop htimes] at h
    cases h
    exact ⟨[], rfl, List.forall_mem_nil _, by rw [List.map_nil, List.append_nil]⟩
termination_by (tokens.length, 0)

theorem phrase_of_readFactor {tokens rest : List Token} {e : Expr Float}
    (h : (readFactor known tokens).phrase? = some (e, rest)) :
    ∃ front, tokens = front ++ rest ∧ Phrase .factor front e ∧ rest.head? ≠ some .caret := by
  obtain ⟨base, middle, hbase, hpower⟩ := readFactor_iff.1 h
  have hlen := length_lt_of_phrase? hbase
  obtain ⟨front, rfl, hphrase⟩ := phrase_of_readOperand hbase
  rcases hpower with ⟨tokens', exponent, rest', rfl, hexponent, heq⟩ | ⟨hcaret, heq⟩
  · cases heq
    -- an operand that takes the power after it has left no `^` behind
    rcases hphrase with hclosed | ⟨-, hcaret⟩
    · rw [List.length_cons] at hlen
      obtain ⟨front', rfl, hphrase', hcaret⟩ := phrase_of_readFactor hexponent
      exact ⟨_, by rw [List.append_assoc, List.cons_append], .power hclosed hphrase', hcaret⟩
    · exact absurd rfl hcaret
  · cases heq
    rcases hphrase with hclosed | ⟨hopened, -⟩
    · exact ⟨front, rfl, .base hclosed, hcaret⟩
    · exact ⟨front, rfl, .operand hopened, hcaret⟩
termination_by (tokens.length, 2)

theorem phrase_of_readOperand {tokens rest : List Token} {e : Expr Float}
    (h : (readOperand known tokens).phrase? = some (e, rest)) :
    ∃ front, tokens = front ++ rest ∧
      (Phrase .closed front e ∨ Phrase .opened front e ∧ rest.head? ≠ some .caret) := by
  by_cases hminus : tokens.head? = some .minus
  · obtain ⟨tokens, rfl⟩ := List.head?_eq_some_iff.1 hminus
    by_cases hnumber : ∃ literal, tokens.head? = some (.number literal)
    · obtain ⟨literal, hnumber⟩ := hnumber
      obtain ⟨tokens, rfl⟩ := List.head?_eq_some_iff.1 hnumber
      rw [readOperand_negative] at h
      cases h
      exact ⟨_, rfl, .inl (.negative literal)⟩
    · have hno := not_exists.1 hnumber
      obtain ⟨u, rest, hfactor, heq⟩ := (readOperand_minus_iff hno).1 h
      cases heq
      obtain ⟨front, rfl, hphrase, hcaret⟩ := phrase_of_readFactor hfactor
      rw [List.head?_append_of_ne_nil _ hphrase.ne_nil] at hno
      exact ⟨_, rfl, .inr ⟨.negated hphrase hno, hcaret⟩⟩
  · rw [readOperand_of_head?_ne hminus] at h
    exact phrase_of_readAtom h
termination_by (tokens.length, 1)

theorem phrase_of_readAtom {tokens rest : List Token} {e : Expr Float}
    (h : (readAtom known tokens).phrase? = some (e, rest)) :
    ∃ front, tokens = front ++ rest ∧
      (Phrase .closed front e ∨ Phrase .opened front e ∧ rest.head? ≠ some .caret) := by
  rcases readAtom_cases h with ⟨literal, tokens, rfl⟩ | ⟨word, tokens, rfl⟩ | ⟨f, tokens, rfl⟩ |
    ⟨tokens, rfl⟩
  · rw [readAtom_number] at h
    cases h
    exact ⟨_, rfl, .inl (.number literal)⟩
  · rw [readAtom_name] at h
    cases h
    exact ⟨_, rfl, .inl (.name word)⟩
  · obtain ⟨u, rest, hargument, heq⟩ := (readAtom_function_iff f).1 h
    cases heq
    obtain ⟨front, rfl, hphrase | ⟨hphrase, hrest⟩⟩ := phrase_of_readOperand hargument
    · exact ⟨_, rfl, .inl (.closedFunction f hphrase)⟩
    · exact ⟨_, rfl, .inr ⟨.openFunction f hphrase, hrest⟩⟩
  · obtain ⟨u, rest, hinner, heq⟩ := readAtom_opening_iff.1 h
    cases heq
    obtain ⟨front, rfl, hphrase⟩ := phrase_of_readExpression hinner
    exact ⟨_, by simp, .inl (.parentheses hphrase)⟩
termination_by (tokens.length, 0)

end

/-! ## Reading is exact -/

/-- A formula is read if and only if it is an expression of the grammar, and then it is read as its
tree. -/
theorem readAll_phrase?_iff {tokens : List Token} {e : Expr Float} :
    (readAll known tokens).phrase? = some (e, []) ↔ Phrase .expression tokens e := by
  rw [readAll_iff]
  constructor
  · rintro ⟨e', hexpression, heq⟩
    cases heq
    obtain ⟨front, rfl, hphrase⟩ := phrase_of_readExpression hexpression
    rwa [List.append_nil]
  · intro h
    have hread : readLevel known (tokens ++ []) .expression = some (e, []) :=
      h.readLevel (by simp [Level.StopsAt])
    rw [List.append_nil] at hread
    exact ⟨e, hread, rfl⟩

theorem readAll_phrase?_eq_none_iff {tokens : List Token} :
    (readAll known tokens).phrase? = none ↔ ∀ e, ¬Phrase .expression tokens e := by
  constructor
  · intro h e hphrase
    rw [readAll_phrase?_iff.2 hphrase] at h
    cases h
  · intro h
    by_contra hne
    obtain ⟨p, hp⟩ := Option.ne_none_iff_exists'.1 hne
    obtain ⟨e, -, rfl⟩ := readAll_iff.1 hp
    exact h e (readAll_phrase?_iff.1 hp)

theorem Phrase.unique {tokens : List Token} {e e' : Expr Float}
    (h : Phrase .expression tokens e) (h' : Phrase .expression tokens e') : e = e' := by
  have hread : (readAll [] tokens).phrase? = some (e, []) := readAll_phrase?_iff.2 h
  rw [readAll_phrase?_iff.2 h'] at hread
  cases hread
  rfl

/-! ## Trees of phrases are well-formed -/

theorem wellFormed_run {o : Operator} (ho : o.isNary = true) {es : List (Expr Float)}
    (hne : es ≠ []) (hes : ∀ e ∈ es, e.WellFormed 2) : (run o es).WellFormed 2 := by
  match es, hne, hes with
  | [e], _, hes => exact hes e List.mem_cons_self
  | e :: e' :: es, _, hes =>
    refine .op ?_ hes
    rcases Operator.isNary_iff.1 ho with rfl | rfl <;> exact Nat.le_add_left 2 es.length

theorem wellFormed_joinTerms {terms : List (Expr Float)} {others : List (Sign × Expr Float)}
    (hne : terms ≠ []) (hterms : ∀ e ∈ terms, e.WellFormed 2)
    (hothers : ∀ t ∈ others, t.2.WellFormed 2) : (joinTerms terms others).WellFormed 2 := by
  induction others generalizing terms with
  | nil => exact wellFormed_run rfl hne hterms
  | cons t others ih =>
    obtain ⟨ht, hrest⟩ := List.forall_mem_cons.1 hothers
    obtain ⟨sign, e⟩ := t
    cases sign with
    | plus =>
      refine ih (List.append_ne_nil_of_left_ne_nil hne _) ?_ hrest
      exact List.forall_mem_append.2 ⟨hterms, List.forall_mem_singleton.2 ht⟩
    | minus =>
      refine ih (List.cons_ne_nil _ _) (List.forall_mem_singleton.2 ?_) hrest
      exact Expr.wellFormed_sub_iff.2 ⟨wellFormed_run rfl hne hterms, ht⟩

theorem Phrase.wellFormed {level : Level} {tokens : List Token} {e : Expr Float}
    (h : Phrase level tokens e) : e.WellFormed 2 := by
  induction h with
  | expression _ others _ ihfirst ih =>
    refine wellFormed_joinTerms (List.cons_ne_nil _ _) (List.forall_mem_singleton.2 ihfirst) ?_
    exact List.forall_mem_map.2 ih
  | term _ others _ ihfirst ih =>
    refine wellFormed_run rfl (List.cons_ne_nil _ _) ?_
    exact List.forall_mem_cons.2 ⟨ihfirst, List.forall_mem_map.2 ih⟩
  | base _ ih | operand _ ih | parentheses _ ih => exact ih
  | power _ _ ihbase ihexponent => exact Expr.wellFormed_pow_iff.2 ⟨ihbase, ihexponent⟩
  | number | negative => exact .const _
  | name word => exact .var word
  | closedFunction f _ ih | openFunction f _ ih => exact Expr.wellFormed_apply_iff.2 ih
  | negated _ _ ih =>
    refine Expr.wellFormed_mul_iff.2 ⟨Nat.le_refl 2, ?_⟩
    exact List.forall_mem_cons.2 ⟨.const _, List.forall_mem_singleton.2 ih⟩

/-! ## The tree of a text -/

/-- A text has a tree if its tokens are an expression of the grammar. -/
theorem parse_value_eq_ok_iff {formula : String} {e : Expr Float} :
    (parse known formula).value = .ok e ↔
      ∃ tokens, Token.scan formula = .ok tokens ∧ Phrase .expression tokens e := by
  rw [parse]
  cases hscan : Token.scan formula with
  | error stray => simp
  | ok tokens =>
    simp only [Except.ok.injEq, exists_eq_left', ← @readAll_phrase?_iff known]
    cases hread : readAll known tokens with
    | done names tree rest shorter =>
      have hphrase : (readAll known tokens).phrase? = some (tree, rest) := by rw [hread]; rfl
      obtain ⟨tree', -, heq⟩ := readAll_iff.1 hphrase
      cases heq
      simp
    | refused names refusal rest => simp

/-- The tree that a text is read as: the simplified one, and `0` for a text without a tree. -/
theorem read_value (formula : Option String) :
    (read known formula).run.value =
      match (parse known (formula.getD "")).value with
      | .error _ => .ok (.const 0)
      | .ok e => e.simplify := by
  rw [read, Logging.value_run_bind_of_eq_ok (Logging.value_run_lift _)]
  cases (parse known (formula.getD "")).value with
  | error e => rfl
  | ok e =>
    dsimp only
    rw [Logging.value_run_bind, Logging.value_run_ofExcept]
    cases e.simplify <;> rfl

/-- A text that is not there is read as an empty one. -/
theorem read_value_getD (formula : Option String) :
    (read known (some (formula.getD ""))).run.value = (read known formula).run.value := by
  rw [read_value, read_value, Option.getD_some]

theorem read_value_of_phrase {formula : String} {tokens : List Token} {e : Expr Float}
    (hscan : Token.scan formula = .ok tokens) (h : Phrase .expression tokens e) :
    (read known (some formula)).run.value = e.simplify := by
  rw [read_value, Option.getD_some, parse_value_eq_ok_iff.2 ⟨tokens, hscan, h⟩]

theorem read_value_of_no_phrase {formula : String}
    (h : ¬∃ tokens e, Token.scan formula = .ok tokens ∧ Phrase .expression tokens e) :
    (read known (some formula)).run.value = .ok (.const 0) := by
  rw [read_value, Option.getD_some]
  cases hparse : (parse known formula).value with
  | error _ => rfl
  | ok e =>
    obtain ⟨tokens, hscan, hphrase⟩ := parse_value_eq_ok_iff.1 hparse
    exact absurd ⟨tokens, e, hscan, hphrase⟩ h

/-- **Formulas are read by the grammar.** Whatever names are known, a sequence of tokens is read to
its end if and only if it is an expression, and as its tree; every other sequence is refused. An
expression has exactly one tree. The tree of a text is the simplified tree of its tokens, and `0`
for a text that cannot be cut into the tokens of an expression. -/
theorem readAll_grammar (known : List String) :
    (∀ tokens e,
      (∃ names h, readAll known tokens = .done names e [] h) ↔ Phrase .expression tokens e) ∧
    (∀ tokens, (∃ names refusal rest, readAll known tokens = .refused names refusal rest) ↔
      ¬∃ e, Phrase .expression tokens e) ∧
    (∀ tokens, (∃ e, Phrase .expression tokens e) → ∃! e, Phrase .expression tokens e) ∧
    ∀ formula : String,
      (∀ tokens e, Token.scan formula = .ok tokens → Phrase .expression tokens e →
        ∃ n, e.simplify = .ok n ∧ (read known (some formula)).run.value = .ok n) ∧
      ((¬∃ tokens e, Token.scan formula = .ok tokens ∧ Phrase .expression tokens e) →
        (read known (some formula)).run.value = .ok (.const 0)) := by
  refine ⟨fun tokens e ↦ ?_, fun tokens ↦ ?_, fun tokens ↦ ?_, fun formula ↦ ⟨?_, ?_⟩⟩
  · rw [Reading.exists_eq_done_iff, readAll_phrase?_iff]
  · rw [Reading.exists_eq_refused_iff, readAll_phrase?_eq_none_iff, not_exists]
  · rintro ⟨e, he⟩
    exact ⟨e, he, fun e' he' ↦ he'.unique he⟩
  · intro tokens e hscan hphrase
    obtain ⟨n, hn⟩ := (hphrase.wellFormed.mono (Nat.zero_le 2)).exists_simplify_eq_ok
    exact ⟨n, hn, (read_value_of_phrase hscan hphrase).trans hn⟩
  · exact read_value_of_no_phrase

/-- A sign before a name takes the whole power, a function only the operand after it. -/
theorem readAll_grammar_of_signs :
    let tokens : List Token := [.minus, .name "x", .caret, .number "2", .minus, .function .sin,
      .minus, .number "3", .caret, .name "y"]
    let e : Expr Float := .sub (.mul [.const (-1), .pow (.var "x") (.const 2)])
      (.pow (.apply .sin (.const (-3))) (.var "y"))
    Phrase .expression tokens e ∧ (∃! e, Phrase .expression tokens e) ∧
      (∃ names h, readAll ["x"] tokens = .done names e [] h) ∧
      Token.scan "-x^2 - sin -3^y" = .ok tokens ∧
      ∃ n, e.simplify = .ok n ∧ (read ["x"] (some "-x^2 - sin -3^y")).run.value = .ok n := by
  intro tokens e
  have hfirst : Phrase .term [.minus, .name "x", .caret, .number "2"] _ :=
    .term (.operand (.negated (.power (.name "x") (.base (.number "2"))) (by simp))) []
      (List.forall_mem_nil _)
  have hsecond : Phrase .term [.function .sin, .minus, .number "3", .caret, .name "y"] _ :=
    .term (.power (.closedFunction .sin (.negative "3")) (.base (.name "y"))) []
      (List.forall_mem_nil _)
  have hphrase : Phrase .expression tokens e :=
    .expression hfirst [(.minus, _, _)] (List.forall_mem_singleton.2 hsecond)
  have hscan : Token.scan "-x^2 - sin -3^y" = .ok tokens := by decide +kernel
  obtain ⟨hiff, -, hunique, hread⟩ := readAll_grammar ["x"]
  exact ⟨hphrase, hunique tokens ⟨e, hphrase⟩, (hiff tokens e).2 hphrase, hscan,
    (hread _).1 tokens e hscan hphrase⟩

end SymbolicDerivatives.Formula
