import SymbolicDerivatives.Formula.Reading

/-!
# What the levels read

A level of the grammar gives a `Reading`, whose type holds a bound on the tokens left and whose
value holds the names met on the way. `Reading.phrase?` keeps the tree and the tokens left only, and
the lemmas of this file say what each level reads in these terms, one lemma for each way in which a
level can go on. The functions themselves are not opened anywhere else.
-/

namespace SymbolicDerivatives

/-! ## Phrases -/

namespace Reading

variable {a b : Nat}

/-- The tree of a phrase that was read, and the tokens after it. -/
def phrase? : Reading a → Option (Expr Float × List Token)
  | done _ tree rest _ => some (tree, rest)
  | refused .. => none

@[simp] theorem phrase?_done (names : List String) (tree : Expr Float) (rest : List Token)
    (h : rest.length < a) : (done names tree rest h).phrase? = some (tree, rest) := rfl

@[simp] theorem phrase?_refused (names : List String) (refusal : Refusal) (rest : List Token) :
    (refused names refusal rest : Reading a).phrase? = none := rfl

@[simp] theorem phrase?_after (earlier : List String) (r : Reading a) :
    (r.after earlier).phrase? = r.phrase? := by
  cases r <;> rfl

@[simp] theorem phrase?_widen (h : a ≤ b) (r : Reading a) : (r.widen h).phrase? = r.phrase? := by
  cases r <;> rfl

theorem length_lt_of_phrase? {r : Reading a} {tree : Expr Float} {rest : List Token}
    (h : r.phrase? = some (tree, rest)) : rest.length < a := by
  cases r with
  | done _ _ _ shorter => cases h; exact shorter
  | refused => cases h

theorem phrase?_andThen_eq_some_iff {r : Reading a}
    {next : (tree : Expr Float) → (rest : List Token) → rest.length < a → Reading b}
    {p : Expr Float × List Token} :
    (r.andThen next).phrase? = some p ↔
      ∃ tree rest h, r.phrase? = some (tree, rest) ∧ (next tree rest h).phrase? = some p := by
  cases r with
  | done names tree rest shorter =>
    rw [andThen_done, phrase?_after, phrase?_done]
    constructor
    · exact fun h ↦ ⟨tree, rest, shorter, rfl, h⟩
    · rintro ⟨tree', rest', _, heq, h⟩
      cases heq
      exact h
  | refused => simp

/-- Reading on in a way that does not look at the bound. -/
theorem phrase?_andThen_iff_of {r : Reading a}
    {next : (tree : Expr Float) → (rest : List Token) → rest.length < a → Reading b}
    {g : Expr Float → List Token → Option (Expr Float × List Token)}
    {p : Expr Float × List Token} (hg : ∀ tree rest h, (next tree rest h).phrase? = g tree rest) :
    (r.andThen next).phrase? = some p ↔
      ∃ tree rest, r.phrase? = some (tree, rest) ∧ g tree rest = some p := by
  simp only [phrase?_andThen_eq_some_iff, hg]
  constructor
  · rintro ⟨tree, rest, _, hphrase, h⟩
    exact ⟨tree, rest, hphrase, h⟩
  · rintro ⟨tree, rest, hphrase, h⟩
    exact ⟨tree, rest, length_lt_of_phrase? hphrase, hphrase, h⟩

theorem exists_eq_done_iff {r : Reading a} {tree : Expr Float} {rest : List Token} :
    (∃ names h, r = .done names tree rest h) ↔ r.phrase? = some (tree, rest) := by
  cases r with
  | done names tree' rest' shorter =>
    rw [phrase?_done]
    constructor
    · rintro ⟨names', h, heq⟩
      cases heq
      rfl
    · intro h
      cases h
      exact ⟨names, shorter, rfl⟩
  | refused => simp

theorem exists_eq_refused_iff {r : Reading a} :
    (∃ names refusal rest, r = .refused names refusal rest) ↔ r.phrase? = none := by
  cases r with
  | done => simp
  | refused names refusal rest => simp

end Reading

namespace Formula

variable {known : List String} {tokens rest : List Token} {e : Expr Float}
  {es : List (Expr Float)} {p : Expr Float × List Token}

open Reading (phrase?_andThen_eq_some_iff phrase?_andThen_iff_of length_lt_of_phrase?)

/-! ## Expressions and terms -/

theorem readExpression_iff :
    (readExpression known tokens).phrase? = some p ↔
      ∃ e rest, (readTerm known tokens).phrase? = some (e, rest) ∧
        (readTerms known [e] rest).phrase? = some p := by
  rw [readExpression]
  exact phrase?_andThen_iff_of fun _ _ _ ↦ Reading.phrase?_widen _ _

theorem readTerms_plus_iff :
    (readTerms known es (.plus :: tokens)).phrase? = some p ↔
      ∃ e rest, (readTerm known tokens).phrase? = some (e, rest) ∧
        (readTerms known (es ++ [e]) rest).phrase? = some p := by
  rw [readTerms]
  exact phrase?_andThen_iff_of fun _ _ _ ↦ Reading.phrase?_widen _ _

theorem readTerms_minus_iff :
    (readTerms known es (.minus :: tokens)).phrase? = some p ↔
      ∃ e rest, (readTerm known tokens).phrase? = some (e, rest) ∧
        (readTerms known [.sub (run .add es) e] rest).phrase? = some p := by
  rw [readTerms]
  exact phrase?_andThen_iff_of fun _ _ _ ↦ Reading.phrase?_widen _ _

theorem readTerms_stop (hplus : tokens.head? ≠ some .plus) (hminus : tokens.head? ≠ some .minus) :
    (readTerms known es tokens).phrase? = some (run .add es, tokens) := by
  rw [readTerms.eq_def]
  split
  · simp at hplus
  · simp at hminus
  · rfl

theorem readTerm_iff :
    (readTerm known tokens).phrase? = some p ↔
      ∃ e rest, (readFactor known tokens).phrase? = some (e, rest) ∧
        (readFactors known [e] rest).phrase? = some p := by
  rw [readTerm]
  exact phrase?_andThen_iff_of fun _ _ _ ↦ Reading.phrase?_widen _ _

theorem readFactors_times_iff :
    (readFactors known es (.times :: tokens)).phrase? = some p ↔
      ∃ e rest, (readFactor known tokens).phrase? = some (e, rest) ∧
        (readFactors known (es ++ [e]) rest).phrase? = some p := by
  rw [readFactors]
  exact phrase?_andThen_iff_of fun _ _ _ ↦ Reading.phrase?_widen _ _

theorem readFactors_stop (htimes : tokens.head? ≠ some .times) :
    (readFactors known es tokens).phrase? = some (run .mul es, tokens) := by
  rw [readFactors.eq_def]
  split
  · simp at htimes
  · rfl

/-! ## Factors -/

theorem readFactor_iff :
    (readFactor known tokens).phrase? = some p ↔
      ∃ base rest, (readOperand known tokens).phrase? = some (base, rest) ∧
        ((∃ tokens' exponent rest', rest = .caret :: tokens' ∧
            (readFactor known tokens').phrase? = some (exponent, rest') ∧
            p = (.pow base exponent, rest')) ∨
          (rest.head? ≠ some .caret ∧ p = (base, rest))) := by
  rw [readFactor, phrase?_andThen_eq_some_iff]
  constructor
  · rintro ⟨base, rest, _, hbase, h⟩
    refine ⟨base, rest, hbase, ?_⟩
    split at h
    · next tokens' _ =>
      obtain ⟨exponent, rest', _, hexponent, h⟩ := phrase?_andThen_eq_some_iff.1 h
      exact .inl ⟨tokens', exponent, rest', rfl, hexponent, (Option.some.inj h).symm⟩
    · next hcaret =>
      refine .inr ⟨fun hhead ↦ ?_, (Option.some.inj h).symm⟩
      obtain ⟨tokens', rfl⟩ := List.head?_eq_some_iff.1 hhead
      exact hcaret tokens' _ rfl HEq.rfl
  · rintro ⟨base, rest, hbase, ⟨tokens', exponent, rest', rfl, hexponent, rfl⟩ | ⟨hcaret, rfl⟩⟩
    · refine ⟨base, _, length_lt_of_phrase? hbase, hbase, phrase?_andThen_eq_some_iff.2 ?_⟩
      exact ⟨exponent, rest', length_lt_of_phrase? hexponent, hexponent, rfl⟩
    · refine ⟨base, rest, length_lt_of_phrase? hbase, hbase, ?_⟩
      split
      · simp at hcaret
      · rfl

/-! ## Operands and atoms -/

theorem readOperand_negative (literal : String) :
    (readOperand known (.minus :: .number literal :: rest)).phrase? =
      some (.const (-Number.ofLiteral literal), rest) := by
  rw [readOperand]; rfl

theorem readOperand_minus_iff (h : ∀ literal, tokens.head? ≠ some (.number literal)) :
    (readOperand known (.minus :: tokens)).phrase? = some p ↔
      ∃ e rest, (readFactor known tokens).phrase? = some (e, rest) ∧
        p = (.mul [.const (-1), e], rest) := by
  rw [readOperand]
  · refine (phrase?_andThen_iff_of (g := fun e rest ↦ some (.mul [.const (-1), e], rest))
      fun _ _ _ ↦ rfl).trans ?_
    simp only [Option.some.injEq, eq_comm]
  · rintro literal rest rfl
    exact h literal rfl

theorem readOperand_of_head?_ne (h : tokens.head? ≠ some .minus) :
    (readOperand known tokens).phrase? = (readAtom known tokens).phrase? := by
  rw [readOperand.eq_def]
  split
  · simp at h
  · simp at h
  · rfl

theorem readAtom_number (literal : String) :
    (readAtom known (.number literal :: rest)).phrase? =
      some (.const (Number.ofLiteral literal), rest) := by
  rw [readAtom]; rfl

theorem readAtom_name (word : String) :
    (readAtom known (.name word :: rest)).phrase? = some (.var word, rest) := by
  rw [readAtom]; rfl

theorem readAtom_function_iff (f : Func) :
    (readAtom known (.function f :: tokens)).phrase? = some p ↔
      ∃ e rest, (readOperand known tokens).phrase? = some (e, rest) ∧ p = (.apply f e, rest) := by
  rw [readAtom]
  refine (phrase?_andThen_iff_of (g := fun e rest ↦ some (.apply f e, rest))
    fun _ _ _ ↦ rfl).trans ?_
  simp only [Option.some.injEq, eq_comm]

theorem readClosing_iff :
    (readClosing e tokens).phrase? = some p ↔
      ∃ rest, tokens = .closing :: rest ∧ p = (e, rest) := by
  rw [readClosing.eq_def]
  split
  · next rest =>
    constructor
    · exact fun h ↦ ⟨rest, rfl, (Option.some.inj h).symm⟩
    · rintro ⟨rest', hrest, rfl⟩
      cases hrest
      rfl
  · next hclosing =>
    constructor
    · exact fun h ↦ by cases h
    · rintro ⟨rest, rfl, -⟩
      exact (hclosing rest rfl).elim

theorem readAtom_opening_iff :
    (readAtom known (.opening :: tokens)).phrase? = some p ↔
      ∃ e rest, (readExpression known tokens).phrase? = some (e, .closing :: rest) ∧
        p = (e, rest) := by
  rw [readAtom]
  refine (phrase?_andThen_iff_of (g := fun e rest ↦ (readClosing e rest).phrase?)
    fun _ _ _ ↦ Reading.phrase?_widen _ _).trans ?_
  simp only [readClosing_iff]
  constructor
  · rintro ⟨e, _, hexpression, rest, rfl, rfl⟩
    exact ⟨e, rest, hexpression, rfl⟩
  · rintro ⟨e, rest, hexpression, rfl⟩
    exact ⟨e, _, hexpression, rest, rfl, rfl⟩

/-- The tokens that an atom can start with. -/
theorem readAtom_cases (h : (readAtom known tokens).phrase? = some p) :
    (∃ literal rest, tokens = .number literal :: rest) ∨
      (∃ word rest, tokens = .name word :: rest) ∨
        (∃ f rest, tokens = .function f :: rest) ∨ ∃ rest, tokens = .opening :: rest := by
  rw [readAtom.eq_def] at h
  split at h
  · exact .inl ⟨_, _, rfl⟩
  · exact .inr (.inl ⟨_, _, rfl⟩)
  · exact .inr (.inr (.inl ⟨_, _, rfl⟩))
  · exact .inr (.inr (.inr ⟨_, rfl⟩))
  · cases h

/-! ## Whole formulas -/

theorem readAll_iff :
    (readAll known tokens).phrase? = some p ↔
      ∃ e, (readExpression known tokens).phrase? = some (e, []) ∧ p = (e, []) := by
  rw [readAll, phrase?_andThen_eq_some_iff]
  constructor
  · rintro ⟨e, rest, _, hexpression, h⟩
    split at h
    · exact ⟨e, hexpression, (Option.some.inj h).symm⟩
    · cases h
  · rintro ⟨e, hexpression, rfl⟩
    exact ⟨e, [], length_lt_of_phrase? hexpression, hexpression, rfl⟩

end Formula

end SymbolicDerivatives
