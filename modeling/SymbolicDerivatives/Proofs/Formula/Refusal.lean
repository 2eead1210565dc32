import SymbolicDerivatives.Proofs.Formula.Grammar

/-!
# Formulas are refused as early as possible

What may come next in a formula depends on little of what is before it: on whether an operand is due
or has just ended, and on the number of open parentheses. A `Place` says that much, and walking from
place to place along the tokens knows nothing of trees or of levels. Every phrase leads from a place
where an operand is due to the place after the operand, and every place can be completed.

A reading that is refused has walked to a place that the refused token cannot leave; the lemmas
`stuck_of_readExpression` and its companions follow the levels to find it. So the tokens before the
refused one begin a formula, and with that token they begin none.
-/

namespace SymbolicDerivatives

/-! ## What is refused -/

namespace Reading

variable {a b : Nat}

/-- Why a phrase was refused, and the tokens from the refused one on. -/
def refusal? : Reading a → Option (Refusal × List Token)
  | done .. => none
  | refused _ refusal rest => some (refusal, rest)

@[simp] theorem refusal?_done (names : List String) (tree : Expr Float) (rest : List Token)
    (h : rest.length < a) : (done names tree rest h).refusal? = none := rfl

@[simp] theorem refusal?_refused (names : List String) (refusal : Refusal) (rest : List Token) :
    (refused names refusal rest : Reading a).refusal? = some (refusal, rest) := rfl

@[simp] theorem refusal?_after (earlier : List String) (r : Reading a) :
    (r.after earlier).refusal? = r.refusal? := by
  cases r <;> rfl

@[simp] theorem refusal?_widen (h : a ≤ b) (r : Reading a) :
    (r.widen h).refusal? = r.refusal? := by
  cases r <;> rfl

theorem refusal?_eq_some_iff {r : Reading a} {refusal : Refusal} {rest : List Token} :
    r.refusal? = some (refusal, rest) ↔ ∃ names, r = .refused names refusal rest := by
  cases r <;> simp

theorem phrase?_eq_none_of_refusal? {r : Reading a} {q : Refusal × List Token}
    (h : r.refusal? = some q) : r.phrase? = none := by
  cases r with
  | done => cases h
  | refused => rfl

/-- What is read in two parts is refused in the first one, or in the second one after it. -/
theorem refusal?_andThen_cases {r : Reading a}
    {next : (tree : Expr Float) → (rest : List Token) → rest.length < a → Reading b}
    {q : Refusal × List Token} (h : (r.andThen next).refusal? = some q) :
    r.refusal? = some q ∨
      ∃ tree rest shorter, r.phrase? = some (tree, rest) ∧
        (next tree rest shorter).refusal? = some q := by
  cases r with
  | done names tree rest shorter =>
    rw [andThen_done, refusal?_after] at h
    exact .inr ⟨tree, rest, shorter, rfl, h⟩
  | refused => exact .inl h

/-- The second part may be read on its own and then be counted as a reading of the whole. -/
theorem refusal?_andThen_cases_of {r : Reading a}
    {next : (tree : Expr Float) → (rest : List Token) → rest.length < a → Reading b}
    {g : Expr Float → List Token → Option (Refusal × List Token)}
    (hg : ∀ tree rest shorter, (next tree rest shorter).refusal? = g tree rest)
    {q : Refusal × List Token} (h : (r.andThen next).refusal? = some q) :
    r.refusal? = some q ∨ ∃ tree rest, r.phrase? = some (tree, rest) ∧ g tree rest = some q := by
  refine (refusal?_andThen_cases h).imp_right ?_
  rintro ⟨tree, rest, shorter, hfirst, hsecond⟩
  exact ⟨tree, rest, hfirst, (hg tree rest shorter).symm.trans hsecond⟩

end Reading

namespace Formula

/-! ## Places -/

/-- A place between the tokens of a formula, by the number of parentheses that are open there. -/
inductive Place where
  /-- An operand is due. -/
  | operand (depth : ℕ)
  /-- An operand has ended. -/
  | operator (depth : ℕ)

namespace Place

/-- The place after a token, if the token can stand there. -/
def step : Place → Token → Option Place
  | operand d, .number _ | operand d, .name _ => some (operator d)
  | operand d, .minus | operand d, .function _ => some (operand d)
  | operand d, .opening => some (operand (d + 1))
  | operator d, .plus | operator d, .minus | operator d, .times | operator d, .caret =>
    some (operand d)
  | operator (d + 1), .closing => some (operator d)
  | _, _ => none

/-- The place after a sequence of tokens. -/
def walk (p : Place) (tokens : List Token) : Option Place := tokens.foldlM step p

@[simp] theorem walk_nil (p : Place) : p.walk [] = some p := rfl

@[simp] theorem walk_cons (p : Place) (t : Token) (tokens : List Token) :
    p.walk (t :: tokens) = (p.step t).bind fun q ↦ q.walk tokens := rfl

theorem walk_append (p : Place) (tokens tokens' : List Token) :
    p.walk (tokens ++ tokens') = (p.walk tokens).bind fun q ↦ q.walk tokens' :=
  List.foldlM_append

theorem walk_replicate_closing (d : ℕ) :
    (operator d).walk (.replicate d .closing) = some (operator 0) := by
  induction d with
  | zero => rfl
  | succ d ih => exact ih

/-- A formula can end after every place: an operand is put in if one is due, and the open
parentheses are closed. -/
theorem exists_walk_eq_end (p : Place) : ∃ tokens, p.walk tokens = some (operator 0) := by
  cases p with
  | operand d => exact ⟨.name "x" :: .replicate d .closing, walk_replicate_closing d⟩
  | operator d => exact ⟨.replicate d .closing, walk_replicate_closing d⟩

/-- Neither does a formula go on with the next token, nor is it complete if there is none. -/
def Blocks (p : Place) : Option Token → Prop
  | some t => p.step t = none
  | none => p ≠ operator 0

theorem Blocks.walk_cons {p : Place} {t : Token} (h : p.Blocks (some t)) (tokens : List Token) :
    p.walk (t :: tokens) = none := by
  have hstep : p.step t = none := h
  rw [Place.walk_cons, hstep, Option.bind_none]

theorem Blocks.walk_ne {p : Place} {tokens : List Token} (h : p.Blocks tokens.head?) :
    p.walk tokens ≠ some (operator 0) := by
  cases tokens with
  | nil => exact fun hwalk ↦ h (Option.some.inj hwalk)
  | cons t tokens =>
    rw [h.walk_cons]
    exact fun hwalk ↦ nomatch hwalk

theorem blocks_operand {d : ℕ} {next : Option Token} (hminus : next ≠ some .minus)
    (hnumber : ∀ literal, next ≠ some (.number literal))
    (hname : ∀ word, next ≠ some (.name word)) (hfunction : ∀ f, next ≠ some (.function f))
    (hopening : next ≠ some .opening) : (operand d).Blocks next := by
  match next with
  | none => exact Place.noConfusion
  | some (.number literal) => exact absurd rfl (hnumber literal)
  | some (.name word) => exact absurd rfl (hname word)
  | some (.function f) => exact absurd rfl (hfunction f)
  | some .minus => exact absurd rfl hminus
  | some .opening => exact absurd rfl hopening
  | some .plus | some .times | some .caret | some .closing => rfl

/-- After an operand, a token that does not prolong an expression can only be the parenthesis that
closes it. -/
theorem blocks_operator {d : ℕ} {next : Option Token} (h : Level.expression.StopsAt next)
    (hclosing : next = some .closing → d = 0) (hend : next = none → d ≠ 0) :
    (operator d).Blocks next := by
  obtain ⟨hplus, hminus, htimes, hcaret⟩ := h
  match next with
  | none =>
    rintro ⟨⟩
    exact hend rfl rfl
  | some .plus => exact absurd rfl hplus
  | some .minus => exact absurd rfl hminus
  | some .times => exact absurd rfl htimes
  | some .caret => exact absurd rfl hcaret
  | some .closing =>
    rw [hclosing rfl]
    rfl
  | some (.number _) | some (.name _) | some (.function _) | some .opening => rfl

end Place

open Place (walk_append)
open Reading (length_lt_of_phrase? phrase?_eq_none_of_refusal? refusal?_andThen_cases
  refusal?_andThen_cases_of refusal?_widen)

theorem walk_flatMap {α : Type} {others : List α} {sign : α → Token} {tokensOf : α → List Token}
    {d : ℕ} (hsign : ∀ t ∈ others, (Place.operator d).step (sign t) = some (.operand d))
    (hothers : ∀ t ∈ others, (Place.operand d).walk (tokensOf t) = some (.operator d)) :
    (Place.operator d).walk (others.flatMap fun t ↦ sign t :: tokensOf t) =
      some (.operator d) := by
  induction others with
  | nil => rfl
  | cons t others ih =>
    obtain ⟨hsign, hsigns⟩ := List.forall_mem_cons.1 hsign
    obtain ⟨ht, hothers⟩ := List.forall_mem_cons.1 hothers
    rw [List.flatMap_cons, walk_append, Place.walk_cons, hsign, Option.bind_some, ht,
      Option.bind_some]
    exact ih hsigns hothers

/-- A phrase leads from a place where an operand is due to the place after it. -/
theorem Phrase.walk {level : Level} {tokens : List Token} {e : Expr Float}
    (h : Phrase level tokens e) (d : ℕ) :
    (Place.operand d).walk tokens = some (.operator d) := by
  induction h generalizing d with
  | expression _ others _ ihfirst ih =>
    rw [walk_append, ihfirst, Option.bind_some]
    refine walk_flatMap (fun t _ ↦ ?_) fun t ht ↦ ih t ht d
    cases t.1 <;> rfl
  | term _ others _ ihfirst ih =>
    rw [walk_append, ihfirst, Option.bind_some]
    exact walk_flatMap (fun _ _ ↦ rfl) fun t ht ↦ ih t ht d
  | base _ ih | operand _ ih => exact ih d
  | power _ _ ihbase ihexponent =>
    rw [walk_append, ihbase, Option.bind_some]
    exact ihexponent d
  | number | name | negative => rfl
  | parentheses _ ih =>
    rw [Place.walk_cons, Place.step, Option.bind_some, walk_append, ih, Option.bind_some]
    rfl
  | closedFunction _ _ ih | negated _ _ ih | openFunction _ _ ih => exact ih d

/-! ## What is read goes as far as it can -/

variable {known : List String} {tokens rest : List Token} {e : Expr Float}
  {es : List (Expr Float)}

theorem stopsAt_of_readFactors {tokens : List Token} {es : List (Expr Float)}
    (hcaret : tokens.head? ≠ some .caret)
    (h : (readFactors known es tokens).phrase? = some (e, rest)) :
    Level.term.StopsAt rest.head? := by
  by_cases htimes : tokens.head? = some .times
  · obtain ⟨tokens, rfl⟩ := List.head?_eq_some_iff.1 htimes
    obtain ⟨factor, middle, hfactor, hothers⟩ := readFactors_times_iff.1 h
    have hlen := length_lt_of_phrase? hfactor
    obtain ⟨-, -, -, hcaret⟩ := phrase_of_readFactor hfactor
    exact stopsAt_of_readFactors hcaret hothers
  · rw [readFactors_stop htimes] at h
    cases h
    exact ⟨htimes, hcaret⟩
termination_by tokens.length

theorem stopsAt_of_readTerm (h : (readTerm known tokens).phrase? = some (e, rest)) :
    Level.term.StopsAt rest.head? := by
  obtain ⟨first, middle, hfirst, hothers⟩ := readTerm_iff.1 h
  obtain ⟨front, rfl, -, hcaret⟩ := phrase_of_readFactor hfirst
  exact stopsAt_of_readFactors hcaret hothers

theorem stopsAt_of_readTerms {tokens : List Token} {es : List (Expr Float)}
    (hstops : Level.term.StopsAt tokens.head?)
    (h : (readTerms known es tokens).phrase? = some (e, rest)) :
    Level.expression.StopsAt rest.head? := by
  by_cases hsign : ∃ sign : Sign, tokens.head? = some sign.token
  · obtain ⟨sign, hsign⟩ := hsign
    obtain ⟨tail, htail⟩ := List.head?_eq_some_iff.1 hsign
    rw [htail] at h
    obtain ⟨term, middle, hterm, hothers⟩ := (readTerms_sign_iff sign).1 h
    have hlen : middle.length < tokens.length := by
      rw [htail]
      exact Nat.lt_succ_of_lt (length_lt_of_phrase? hterm)
    exact stopsAt_of_readTerms (stopsAt_of_readTerm hterm) hothers
  · have hno := not_exists.1 hsign
    rw [readTerms_stop (hno .plus) (hno .minus)] at h
    cases h
    exact ⟨hno .plus, hno .minus, hstops⟩
termination_by tokens.length

theorem stopsAt_of_readExpression (h : (readExpression known tokens).phrase? = some (e, rest)) :
    Level.expression.StopsAt rest.head? := by
  obtain ⟨first, middle, hfirst, hothers⟩ := readExpression_iff.1 h
  exact stopsAt_of_readTerms (stopsAt_of_readTerm hfirst) hothers

/-! ## What each level refuses -/

variable {q : Refusal × List Token}

theorem readExpression_refusal (h : (readExpression known tokens).refusal? = some q) :
    (readTerm known tokens).refusal? = some q ∨
      ∃ e rest, (readTerm known tokens).phrase? = some (e, rest) ∧
        (readTerms known [e] rest).refusal? = some q := by
  rw [readExpression] at h
  refine refusal?_andThen_cases_of (fun tree rest shorter ↦ ?_) h
  exact refusal?_widen _ _

theorem readTerms_refusal (sign : Sign)
    (h : (readTerms known es (sign.token :: tokens)).refusal? = some q) :
    (readTerm known tokens).refusal? = some q ∨
      ∃ e rest, (readTerm known tokens).phrase? = some (e, rest) ∧
        (readTerms known (sign.join es e) rest).refusal? = some q := by
  cases sign with
  | plus | minus =>
    rw [Sign.token, readTerms] at h
    refine refusal?_andThen_cases_of (fun tree rest shorter ↦ ?_) h
    exact refusal?_widen _ _

theorem readTerm_refusal (h : (readTerm known tokens).refusal? = some q) :
    (readFactor known tokens).refusal? = some q ∨
      ∃ e rest, (readFactor known tokens).phrase? = some (e, rest) ∧
        (readFactors known [e] rest).refusal? = some q := by
  rw [readTerm] at h
  refine refusal?_andThen_cases_of (fun tree rest shorter ↦ ?_) h
  exact refusal?_widen _ _

theorem readFactors_refusal (h : (readFactors known es (.times :: tokens)).refusal? = some q) :
    (readFactor known tokens).refusal? = some q ∨
      ∃ e rest, (readFactor known tokens).phrase? = some (e, rest) ∧
        (readFactors known (es ++ [e]) rest).refusal? = some q := by
  rw [readFactors] at h
  refine refusal?_andThen_cases_of (fun tree rest shorter ↦ ?_) h
  exact refusal?_widen _ _

theorem readFactor_refusal (h : (readFactor known tokens).refusal? = some q) :
    (readOperand known tokens).refusal? = some q ∨
      ∃ base tokens', (readOperand known tokens).phrase? = some (base, .caret :: tokens') ∧
        (readFactor known tokens').refusal? = some q := by
  rw [readFactor] at h
  refine (refusal?_andThen_cases h).imp_right ?_
  rintro ⟨base, rest, _, hbase, hpower⟩
  split at hpower
  · next tokens' _ =>
    refine ⟨base, tokens', hbase, (refusal?_andThen_cases hpower).resolve_right ?_⟩
    rintro ⟨_, _, _, -, h⟩
    cases h
  · cases hpower

theorem readOperand_refusal (h : (readOperand known (.minus :: tokens)).refusal? = some q) :
    (readFactor known tokens).refusal? = some q := by
  by_cases hnumber : ∃ literal, tokens.head? = some (.number literal)
  · obtain ⟨literal, hnumber⟩ := hnumber
    obtain ⟨tokens, rfl⟩ := List.head?_eq_some_iff.1 hnumber
    have hnone := phrase?_eq_none_of_refusal? h
    rw [readOperand_negative] at hnone
    cases hnone
  · rw [readOperand] at h
    · refine (refusal?_andThen_cases h).resolve_right ?_
      rintro ⟨_, _, _, -, h⟩
      cases h
    · rintro literal rest rfl
      exact hnumber ⟨literal, rfl⟩

theorem readOperand_refusal_of_head?_ne (hminus : tokens.head? ≠ some .minus)
    (h : (readOperand known tokens).refusal? = some q) :
    (readAtom known tokens).refusal? = some q := by
  rw [readOperand.eq_def] at h
  split at h
  · exact absurd rfl hminus
  · exact absurd rfl hminus
  · exact h

/-- An atom is refused in the operand of a function, in parentheses, where they should be closed,
or because no atom starts here. -/
theorem readAtom_refusal (h : (readAtom known tokens).refusal? = some q) :
    (∃ f tokens', tokens = .function f :: tokens' ∧
        (readOperand known tokens').refusal? = some q) ∨
      (∃ tokens', tokens = .opening :: tokens' ∧
        (readExpression known tokens').refusal? = some q) ∨
      (∃ tokens' e, tokens = .opening :: tokens' ∧
        (readExpression known tokens').phrase? = some (e, q.2) ∧ q.2.head? ≠ some .closing) ∨
      (q.2 = tokens ∧ (∀ literal, tokens.head? ≠ some (.number literal)) ∧
        (∀ word, tokens.head? ≠ some (.name word)) ∧
        (∀ f, tokens.head? ≠ some (.function f)) ∧ tokens.head? ≠ some .opening) := by
  rw [readAtom.eq_def] at h
  split at h
  · cases h
  · cases h
  · next f tokens' =>
    refine .inl ⟨f, tokens', rfl, (refusal?_andThen_cases h).resolve_right ?_⟩
    rintro ⟨_, _, _, -, h⟩
    cases h
  · next tokens' =>
    rcases refusal?_andThen_cases h with hinner | ⟨e, rest, _, hinner, hclosing⟩
    · exact .inr (.inl ⟨tokens', rfl, hinner⟩)
    · rw [refusal?_widen, readClosing.eq_def] at hclosing
      split at hclosing
      · cases hclosing
      · next hne =>
        cases hclosing
        refine .inr (.inr (.inl ⟨tokens', e, rfl, hinner, fun hhead ↦ ?_⟩))
        obtain ⟨rest', rfl⟩ := List.head?_eq_some_iff.1 hhead
        exact hne rest' rfl
  · next hnumber hname hfunction hopening =>
    cases h
    refine .inr (.inr (.inr ⟨rfl, fun literal hhead ↦ ?_, fun word hhead ↦ ?_, fun f hhead ↦ ?_,
      fun hhead ↦ ?_⟩))
    · obtain ⟨rest, rfl⟩ := List.head?_eq_some_iff.1 hhead
      exact hnumber literal rest rfl
    · obtain ⟨rest, rfl⟩ := List.head?_eq_some_iff.1 hhead
      exact hname word rest rfl
    · obtain ⟨rest, rfl⟩ := List.head?_eq_some_iff.1 hhead
      exact hfunction f rest rfl
    · obtain ⟨rest, rfl⟩ := List.head?_eq_some_iff.1 hhead
      exact hopening rest rfl

/-! ## Where a reading is refused -/

/-- From a place on, the tokens can be followed up to the last ones, and not on. -/
def Stuck (p : Place) (tokens rest : List Token) : Prop :=
  ∃ front q, tokens = front ++ rest ∧ p.walk front = some q ∧ q.Blocks rest.head?

namespace Stuck

variable {p p' : Place}

theorem of_blocks (h : p.Blocks rest.head?) : Stuck p rest rest := ⟨[], p, rfl, rfl, h⟩

theorem prepend {front : List Token} (hfront : p.walk front = some p')
    (h : Stuck p' tokens rest) : Stuck p (front ++ tokens) rest := by
  obtain ⟨front', q, rfl, hwalk, hblocks⟩ := h
  refine ⟨front ++ front', q, (List.append_assoc ..).symm, ?_, hblocks⟩
  rw [walk_append, hfront, Option.bind_some, hwalk]

theorem cons {t : Token} (ht : p.step t = some p') (h : Stuck p' tokens rest) :
    Stuck p (t :: tokens) rest := by
  have hfront : p.walk [t] = some p' := by
    rw [Place.walk_cons, ht]
    rfl
  exact prepend hfront h

/-- The tokens cannot leave a place and be followed further. -/
theorem eq_nil_of_walk {front more : List Token} {q q' : Place}
    (hfront : p.walk front = some q) (hblocks : q.Blocks (more ++ rest).head?)
    (hmore : p.walk (front ++ more) = some q') : more = [] := by
  cases more with
  | nil => rfl
  | cons t more =>
    rw [walk_append, hfront, Option.bind_some, hblocks.walk_cons] at hmore
    cases hmore

theorem unique {rest' : List Token} (h : Stuck p tokens rest) (h' : Stuck p tokens rest') :
    rest = rest' := by
  obtain ⟨front, q, rfl, hwalk, hblocks⟩ := h
  obtain ⟨front', q', heq, hwalk', hblocks'⟩ := h'
  obtain ⟨more, rfl, rfl⟩ | ⟨more, rfl, rfl⟩ := List.append_eq_append_iff.1 heq
  · rw [eq_nil_of_walk hwalk hblocks hwalk', List.nil_append]
  · rw [eq_nil_of_walk hwalk' hblocks' hwalk, List.nil_append]

end Stuck

mutual

theorem stuck_of_readExpression {tokens rest : List Token} {refusal : Refusal}
    (h : (readExpression known tokens).refusal? = some (refusal, rest)) (d : ℕ) :
    Stuck (.operand d) tokens rest := by
  rcases readExpression_refusal h with hfirst | ⟨first, middle, hfirst, hothers⟩
  · exact stuck_of_readTerm hfirst d
  · have hlen := length_lt_of_phrase? hfirst
    obtain ⟨front, rfl, hphrase⟩ := phrase_of_readTerm hfirst
    exact (stuck_of_readTerms hothers d).prepend (hphrase.walk d)
termination_by (tokens.length, 4)

theorem stuck_of_readTerms {tokens rest : List Token} {es : List (Expr Float)}
    {refusal : Refusal} (h : (readTerms known es tokens).refusal? = some (refusal, rest)) (d : ℕ) :
    Stuck (.operator d) tokens rest := by
  by_cases hsign : ∃ sign : Sign, tokens.head? = some sign.token
  · obtain ⟨sign, hsign⟩ := hsign
    obtain ⟨tokens, rfl⟩ := List.head?_eq_some_iff.1 hsign
    have hstep : (Place.operator d).step sign.token = some (.operand d) := by cases sign <;> rfl
    rcases readTerms_refusal sign h with hterm | ⟨term, middle, hterm, hothers⟩
    · exact (stuck_of_readTerm hterm d).cons hstep
    · have hlen := length_lt_of_phrase? hterm
      obtain ⟨front, rfl, hphrase⟩ := phrase_of_readTerm hterm
      exact ((stuck_of_readTerms hothers d).prepend (hphrase.walk d)).cons hstep
  · have hno := not_exists.1 hsign
    have hnone := phrase?_eq_none_of_refusal? h
    rw [readTerms_stop (hno .plus) (hno .minus)] at hnone
    cases hnone
termination_by (tokens.length, 0)

theorem stuck_of_readTerm {tokens rest : List Token} {refusal : Refusal}
    (h : (readTerm known tokens).refusal? = some (refusal, rest)) (d : ℕ) :
    Stuck (.operand d) tokens rest := by
  rcases readTerm_refusal h with hfirst | ⟨first, middle, hfirst, hothers⟩
  · exact stuck_of_readFactor hfirst d
  · have hlen := length_lt_of_phrase? hfirst
    obtain ⟨front, rfl, hphrase, -⟩ := phrase_of_readFactor hfirst
    exact (stuck_of_readFactors hothers d).prepend (hphrase.walk d)
termination_by (tokens.length, 3)

theorem stuck_of_readFactors {tokens rest : List Token} {es : List (Expr Float)}
    {refusal : Refusal} (h : (readFactors known es tokens).refusal? = some (refusal, rest))
    (d : ℕ) : Stuck (.operator d) tokens rest := by
  by_cases htimes : tokens.head? = some .times
  · obtain ⟨tokens, rfl⟩ := List.head?_eq_some_iff.1 htimes
    have hstep : (Place.operator d).step .times = some (.operand d) := rfl
    rcases readFactors_refusal h with hfactor | ⟨factor, middle, hfactor, hothers⟩
    · exact (stuck_of_readFactor hfactor d).cons hstep
    · have hlen := length_lt_of_phrase? hfactor
      obtain ⟨front, rfl, hphrase, -⟩ := phrase_of_readFactor hfactor
      exact ((stuck_of_readFactors hothers d).prepend (hphrase.walk d)).cons hstep
  · have hnone := phrase?_eq_none_of_refusal? h
    rw [readFactors_stop htimes] at hnone
    cases hnone
termination_by (tokens.length, 0)

theorem stuck_of_readFactor {tokens rest : List Token} {refusal : Refusal}
    (h : (readFactor known tokens).refusal? = some (refusal, rest)) (d : ℕ) :
    Stuck (.operand d) tokens rest := by
  rcases readFactor_refusal h with hbase | ⟨base, tokens', hbase, hexponent⟩
  · exact stuck_of_readOperand hbase d
  · have hlen : tokens'.length < tokens.length := Nat.lt_of_succ_lt (length_lt_of_phrase? hbase)
    have hstuck := (stuck_of_readFactor hexponent d).cons (p := .operator d) (t := .caret) rfl
    obtain ⟨front, rfl, hphrase | ⟨hphrase, -⟩⟩ := phrase_of_readOperand hbase
    · exact hstuck.prepend (hphrase.walk d)
    · exact hstuck.prepend (hphrase.walk d)
termination_by (tokens.length, 2)

theorem stuck_of_readOperand {tokens rest : List Token} {refusal : Refusal}
    (h : (readOperand known tokens).refusal? = some (refusal, rest)) (d : ℕ) :
    Stuck (.operand d) tokens rest := by
  by_cases hminus : tokens.head? = some .minus
  · obtain ⟨tokens, rfl⟩ := List.head?_eq_some_iff.1 hminus
    exact (stuck_of_readFactor (readOperand_refusal h) d).cons rfl
  · exact stuck_of_readAtom hminus (readOperand_refusal_of_head?_ne hminus h) d
termination_by (tokens.length, 1)

theorem stuck_of_readAtom {tokens rest : List Token} {refusal : Refusal}
    (hminus : tokens.head? ≠ some .minus)
    (h : (readAtom known tokens).refusal? = some (refusal, rest)) (d : ℕ) :
    Stuck (.operand d) tokens rest := by
  rcases readAtom_refusal h with ⟨f, tokens, rfl, hargument⟩ | ⟨tokens, rfl, hinner⟩ |
    ⟨tokens, e, rfl, hinner, hclosing⟩ | ⟨rfl, hnumber, hname, hfunction, hopening⟩
  · exact (stuck_of_readOperand hargument d).cons rfl
  · exact (stuck_of_readExpression hinner (d + 1)).cons rfl
  · -- the expression in parentheses has ended, and they are not closed
    have hstops := stopsAt_of_readExpression hinner
    obtain ⟨front, rfl, hphrase⟩ := phrase_of_readExpression hinner
    have hblocks : (Place.operator (d + 1)).Blocks rest.head? :=
      Place.blocks_operator hstops (fun h ↦ absurd h hclosing) fun _ ↦ Nat.succ_ne_zero d
    exact ((Stuck.of_blocks hblocks).prepend (hphrase.walk (d + 1))).cons rfl
  · exact .of_blocks (Place.blocks_operand hminus hnumber hname hfunction hopening)
termination_by (tokens.length, 0)

end

/-! ## Which tokens are a formula -/

/-- A reading that is refused has walked from the start to a place that the refused token, or the
end, does not leave. -/
theorem stuck_of_readAll {names : List String} {refusal : Refusal}
    (h : readAll known tokens = .refused names refusal rest) : Stuck (.operand 0) tokens rest := by
  have hrefusal := Reading.refusal?_eq_some_iff.2 ⟨names, h⟩
  rcases refusal?_andThen_cases hrefusal with hexpression | ⟨e, middle, _, hexpression, hend⟩
  · exact stuck_of_readExpression hexpression 0
  · split at hend
    · cases hend
    · next hne =>
      cases hend
      have hend : rest.head? ≠ none := fun hhead ↦ by
        obtain rfl := List.head?_eq_none_iff.1 hhead
        exact hne _ rfl HEq.rfl
      have hblocks : (Place.operator 0).Blocks rest.head? :=
        Place.blocks_operator (stopsAt_of_readExpression hexpression) (fun _ ↦ rfl)
          fun hhead ↦ absurd hhead hend
      obtain ⟨front, rfl, hphrase⟩ := phrase_of_readExpression hexpression
      exact (Stuck.of_blocks hblocks).prepend (hphrase.walk 0)

/-- A formula is what leads from the start to a place where nothing is due and nothing open. -/
theorem exists_phrase_iff_walk :
    (∃ e, Phrase .expression tokens e) ↔
      (Place.operand 0).walk tokens = some (.operator 0) := by
  constructor
  · rintro ⟨e, hphrase⟩
    exact hphrase.walk 0
  · intro hwalk
    by_contra hnone
    have hphrase : (readAll [] tokens).phrase? = none :=
      readAll_phrase?_eq_none_iff.2 (not_exists.1 hnone)
    obtain ⟨names, refusal, rest, hread⟩ := Reading.exists_eq_refused_iff.2 hphrase
    obtain ⟨front, q, rfl, hfront, hblocks⟩ := stuck_of_readAll hread
    rw [walk_append, hfront, Option.bind_some] at hwalk
    exact hblocks.walk_ne hwalk

/-- Tokens are refused exactly at the place that they cannot leave. -/
theorem exists_readAll_refused_iff :
    (∃ names refusal, readAll known tokens = .refused names refusal rest) ↔
      Stuck (.operand 0) tokens rest := by
  constructor
  · rintro ⟨names, refusal, hread⟩
    exact stuck_of_readAll hread
  · intro hstuck
    have hnone : ∀ e, ¬Phrase .expression tokens e := by
      obtain ⟨front, q, rfl, hfront, hblocks⟩ := hstuck
      refine not_exists.1 (exists_phrase_iff_walk.not.2 ?_)
      rw [walk_append, hfront, Option.bind_some]
      exact hblocks.walk_ne
    have hphrase : (readAll known tokens).phrase? = none := readAll_phrase?_eq_none_iff.2 hnone
    obtain ⟨names, refusal, rest', hread⟩ := Reading.exists_eq_refused_iff.2 hphrase
    obtain rfl := hstuck.unique (stuck_of_readAll hread)
    exact ⟨names, refusal, hread⟩

/-- The tokens are read to their end. -/
def Accepted (known : List String) (tokens : List Token) : Prop :=
  ∃ names e shorter, readAll known tokens = .done names e [] shorter

theorem accepted_iff_walk :
    Accepted known tokens ↔ (Place.operand 0).walk tokens = some (.operator 0) := by
  rw [← exists_phrase_iff_walk, Accepted, exists_comm]
  exact exists_congr fun e ↦ Reading.exists_eq_done_iff.trans readAll_phrase?_iff

/-- **Formulas are refused as early as possible.** Let tokens be refused with the last ones left, so
that the first of these, or the end, is what the error names. The tokens before them can be
completed to a sequence that is read, but no sequence that is read starts with them and the refused
token; and if the end was refused, they are not read themselves. -/
theorem refused_earliest {names : List String} {refusal : Refusal}
    (h : readAll known tokens = .refused names refusal rest) :
    ∃ front, tokens = front ++ rest ∧
      (∃ more, Accepted known (front ++ more)) ∧
      (∀ t ∈ rest.head?, ∀ more, ¬Accepted known (front ++ t :: more)) ∧
      (rest = [] → ¬Accepted known front) ∧
      ∀ formula, Token.scan formula = .ok tokens →
        (parse known formula).value = .error (.refused refusal rest.head?) := by
  obtain ⟨front, q, rfl, hfront, hblocks⟩ := stuck_of_readAll h
  refine ⟨front, rfl, ?_, fun t ht more haccepted ↦ ?_, ?_, fun formula hscan ↦ ?_⟩
  · obtain ⟨more, hmore⟩ := q.exists_walk_eq_end
    refine ⟨more, accepted_iff_walk.2 ?_⟩
    rw [walk_append, hfront, Option.bind_some, hmore]
  · rw [accepted_iff_walk, walk_append, hfront, Option.bind_some] at haccepted
    have hhead : (t :: more).head? = rest.head? := ht.symm
    exact (hhead ▸ hblocks).walk_ne haccepted
  · rintro rfl haccepted
    rw [accepted_iff_walk, hfront] at haccepted
    exact hblocks (Option.some.inj haccepted)
  · rw [parse, hscan]
    dsimp only
    rw [h]

/-- An operand after an operand is refused, with a parenthesis open and without one. -/
theorem refused_earliest_of_operands :
    let front : List Token := [.number "2", .times, .opening, .name "x", .caret, .function .sin,
      .name "y"]
    let rest : List Token := [.name "z", .closing]
    ∃ names refusal, readAll ["x"] (front ++ rest) = .refused names refusal rest ∧
      (∃ more, Accepted ["x"] (front ++ more)) ∧
      (∀ more, ¬Accepted ["x"] (front ++ .name "z" :: more)) ∧
      (parse ["x"] "2*(x^sin y z)").value = .error (.refused refusal (some (.name "z"))) := by
  intro front rest
  have hstuck : Stuck (.operand 0) (front ++ rest) rest := ⟨front, .operator 1, rfl, rfl, rfl⟩
  obtain ⟨names, refusal, hread⟩ := exists_readAll_refused_iff.2 hstuck
  have hscan : Token.scan "2*(x^sin y z)" = .ok (front ++ rest) := by decide +kernel
  obtain ⟨front', heq, hmore, hnone, -, hparse⟩ := refused_earliest hread
  obtain rfl := List.append_cancel_right heq
  exact ⟨names, refusal, hread, hmore, hnone _ rfl, hparse _ hscan⟩

end Formula

end SymbolicDerivatives
