import SymbolicDerivatives.Formula.Reading
import SymbolicDerivatives.Proofs.Formula.Segmentation

/-!
# Scanning and reading come to an end

The scanner is a loop and the reader is a recursion through several levels. Here both are written
down without a reason why they end, and with a bound instead that cuts them off: `scanWithin` stops
after a number of rounds, and `Routine.within` stops where calls nest deeper than a number. A run
that is cut off has no outcome. `scanWithin_eq` and `Routine.within_eq` say from which bound on no
run is cut off, and that the outcome is then that of `Token.scanFrom` and of the levels of the
reader.

A round takes at least one character, so a text has at least as many characters as the loop has
rounds. A call of the reader may be made with the same tokens that the calling routine has, but only
of a routine of a lower rank. So `6 * tokens.length + r.rank` gets smaller with every call: one
token counts for more than any rank.
-/

namespace SymbolicDerivatives

/-! ## The loop of the scanner -/

namespace Token

variable {c : Char} {cs rest : List Char} {piece : Option Token}

/-- What one round takes from the front of a text: a token, or all the white space there. There is
no round before a character that can start neither. -/
def takePiece : List Char → Option (Option Token × List Char)
  | [] => none
  | c :: cs =>
    match scanNext? (c :: cs) with
    | some (t, rest) => some (some t, rest)
    | none => if Text.isBlank c then some (none, cs.dropWhile Text.isBlank) else none

/-- The loop with a bound on its rounds. -/
def scanWithin : ℕ → ℕ → List Char → Option (Except StrayCharacter (List Token))
  | _, _, [] => some (.ok [])
  | 0, _, _ :: _ => none
  | rounds + 1, position, c :: cs =>
    match takePiece (c :: cs) with
    | none => some (.error ⟨position, c⟩)
    | some (piece, rest) =>
      (scanWithin rounds (position + ((c :: cs).length - rest.length)) rest).map
        ((piece.toList ++ ·) <$> ·)

theorem exists_of_takePiece (h : takePiece cs = some (piece, rest)) :
    ∃ front, front ≠ [] ∧ cs = front ++ rest := by
  obtain _ | ⟨c, cs⟩ := cs
  · cases h
  rw [takePiece] at h
  split at h
  · next t rest' hnext =>
    cases h
    refine ⟨t.spelling.toList, fun hnil ↦ ?_, (scanNext?_append hnext).symm⟩
    have hlength := scanNext?_length_lt hnext
    rw [← scanNext?_append hnext, hnil, List.nil_append] at hlength
    exact lt_irrefl _ hlength
  · split at h
    · cases h
      refine ⟨c :: cs.takeWhile Text.isBlank, List.cons_ne_nil _ _, ?_⟩
      rw [List.cons_append, List.takeWhile_append_dropWhile]
    · cases h

theorem length_lt_of_takePiece (h : takePiece cs = some (piece, rest)) :
    rest.length < cs.length := by
  obtain ⟨front, hne, rfl⟩ := exists_of_takePiece h
  rw [List.length_append]
  exact Nat.lt_add_of_pos_left (List.length_pos_iff.2 hne)

theorem isBlank_of_scanNext? {t : Token} (h : scanNext? (c :: cs) = some (t, rest)) :
    Text.isBlank c = false := by
  obtain ⟨d, tail, hspelling, hblank⟩ := (lexeme_of_scanNext? h).exists_cons
  have happend := scanNext?_append h
  rw [hspelling, List.cons_append] at happend
  rwa [← (List.cons.inj happend).1]

/-- White space is skipped one character after the other, or all at once. -/
theorem scanFrom_dropWhile (position : ℕ) (cs : List Char) :
    scanFrom position cs =
      scanFrom (position + (cs.length - (cs.dropWhile Text.isBlank).length))
        (cs.dropWhile Text.isBlank) := by
  induction cs generalizing position with
  | nil => rfl
  | cons c cs ih =>
    by_cases hblank : Text.isBlank c = true
    · have hle := length_dropWhile_le Text.isBlank cs
      have hposition : position + 1 + (cs.length - (cs.dropWhile Text.isBlank).length) =
          position + ((c :: cs).length - (cs.dropWhile Text.isBlank).length) := by
        rw [List.length_cons]
        omega
      rw [List.dropWhile_cons_of_pos hblank, scanFrom, if_pos hblank, ih, hposition]
    · rw [List.dropWhile_cons_of_neg hblank, Nat.sub_self, Nat.add_zero]

/-- What the rest of the loop has to do after a round. -/
theorem scanFrom_eq_of_takePiece (h : takePiece (c :: cs) = some (piece, rest)) (position : ℕ) :
    scanFrom position (c :: cs) =
      (piece.toList ++ ·) <$> scanFrom (position + ((c :: cs).length - rest.length)) rest := by
  rw [takePiece] at h
  split at h
  · next t rest' hnext =>
    cases h
    rw [scanFrom, if_neg (ne_true_of_eq_false (isBlank_of_scanNext? hnext))]
    split
    · next hnone => exact absurd (hnext.symm.trans hnone) (Option.some_ne_none _)
    · next t' rest'' hnext' =>
      cases hnext.symm.trans hnext'
      rfl
  · split at h
    · next hblank =>
      cases h
      rw [scanFrom_dropWhile, List.dropWhile_cons_of_pos hblank]
      exact (id_map _).symm
    · cases h

theorem scanFrom_eq_of_takePiece_eq_none (h : takePiece (c :: cs) = none) (position : ℕ) :
    scanFrom position (c :: cs) = .error ⟨position, c⟩ := by
  rw [takePiece] at h
  split at h
  · cases h
  · next hnone =>
    split at h
    · cases h
    · next hblank =>
      rw [scanFrom, if_neg hblank]
      split
      · rfl
      · next hsome => exact absurd (hsome.symm.trans hnone) (Option.some_ne_none _)

/-- A loop that may take as many rounds as the text has characters is not cut off. -/
theorem scanWithin_eq {n : ℕ} (h : cs.length ≤ n) (position : ℕ) :
    scanWithin n position cs = some (scanFrom position cs) := by
  induction n generalizing position cs with
  | zero =>
    rw [List.eq_nil_of_length_eq_zero (Nat.le_zero.1 h), scanWithin, scanFrom]
  | succ n ih =>
    obtain _ | ⟨c, cs⟩ := cs
    · rw [scanWithin, scanFrom]
    rw [scanWithin]
    split
    · next hnone => rw [scanFrom_eq_of_takePiece_eq_none hnone]
    · next piece rest hsome =>
      have hlength := length_lt_of_takePiece hsome
      rw [ih (by omega), scanFrom_eq_of_takePiece hsome, Option.map_some]

end Token

namespace Formula

/-! ## The recursion of the reader -/

/-- The outcome of a routine that has ended. -/
structure Outcome where
  /-- The names met that are not known, in order. -/
  unknown : List String
  /-- The tree, or why there is none. -/
  result : Except Refusal (Expr Float)
  /-- The tokens that are left. -/
  rest : List Token

namespace Outcome

/-- The outcome that a reading is, without the bound on what is left. -/
def ofReading {bound : ℕ} : Reading bound → Outcome
  | .done unknown tree rest _ => ⟨unknown, .ok tree, rest⟩
  | .refused unknown refusal rest => ⟨unknown, .error refusal, rest⟩

/-- Reads on with a tree and the tokens that are left, unless a token was refused. -/
def andThen (next : Expr Float → List Token → Option Outcome) (o : Outcome) : Option Outcome :=
  match o.result with
  | .ok tree => (next tree o.rest).map fun o' ↦ { o' with unknown := o.unknown ++ o'.unknown }
  | .error _ => some o

end Outcome

/-- The routines of the reader. The rest of a sum and the rest of a product have what was read
before them in hand. -/
inductive Routine where
  | formula
  | expression
  | terms (terms : List (Expr Float))
  | term
  | factors (factors : List (Expr Float))
  | factor
  | operand
  | atom

namespace Routine

/-- What a routine does, where its calls go to `call`. -/
def body (known : List String) (call : Routine → List Token → Option Outcome)
    (tokens : List Token) : Routine → Option Outcome
  | formula =>
    call expression tokens >>= Outcome.andThen fun e rest ↦
      match rest with
      | [] => some ⟨[], .ok e, []⟩
      | rest => some ⟨[], .error .trailing, rest⟩
  | expression => call term tokens >>= Outcome.andThen fun e rest ↦ call (terms [e]) rest
  | terms es =>
    match tokens with
    | .plus :: tokens =>
      call term tokens >>= Outcome.andThen fun e rest ↦ call (terms (es ++ [e])) rest
    | .minus :: tokens =>
      call term tokens >>= Outcome.andThen fun e rest ↦ call (terms [.sub (run .add es) e]) rest
    | tokens => some ⟨[], .ok (run .add es), tokens⟩
  | term => call factor tokens >>= Outcome.andThen fun e rest ↦ call (factors [e]) rest
  | factors es =>
    match tokens with
    | .times :: tokens =>
      call factor tokens >>= Outcome.andThen fun e rest ↦ call (factors (es ++ [e])) rest
    | tokens => some ⟨[], .ok (run .mul es), tokens⟩
  | factor =>
    call operand tokens >>= Outcome.andThen fun base rest ↦
      match rest with
      | .caret :: rest =>
        call factor rest >>= Outcome.andThen fun exponent rest ↦
          some ⟨[], .ok (.pow base exponent), rest⟩
      | rest => some ⟨[], .ok base, rest⟩
  | operand =>
    match tokens with
    | .minus :: .number literal :: rest =>
      some ⟨[], .ok (.const (-Number.ofLiteral literal)), rest⟩
    | .minus :: tokens =>
      call factor tokens >>= Outcome.andThen fun e rest ↦
        some ⟨[], .ok (.mul [.const (-1), e]), rest⟩
    | tokens => call atom tokens
  | atom =>
    match tokens with
    | .number literal :: rest => some ⟨[], .ok (.const (Number.ofLiteral literal)), rest⟩
    | .name word :: rest =>
      some ⟨if known.contains word then [] else [word], .ok (.var word), rest⟩
    | .function f :: tokens =>
      call operand tokens >>= Outcome.andThen fun e rest ↦ some ⟨[], .ok (.apply f e), rest⟩
    | .opening :: tokens =>
      call expression tokens >>= Outcome.andThen fun e rest ↦
        match rest with
        | .closing :: rest => some ⟨[], .ok e, rest⟩
        | rest => some ⟨[], .error .unclosed, rest⟩
    | tokens => some ⟨[], .error .noOperand, tokens⟩

/-- A routine whose calls nest at most so deep. -/
def within (known : List String) : ℕ → Routine → List Token → Option Outcome
  | 0, _, _ => none
  | n + 1, r, tokens => r.body known (within known n) tokens

/-- The outcome that the reader has for a routine. -/
def outcome (known : List String) (tokens : List Token) : Routine → Outcome
  | formula => .ofReading (readAll known tokens)
  | expression => .ofReading (readExpression known tokens)
  | terms es => .ofReading (readTerms known es tokens)
  | term => .ofReading (readTerm known tokens)
  | factors es => .ofReading (readFactors known es tokens)
  | factor => .ofReading (readFactor known tokens)
  | operand => .ofReading (readOperand known tokens)
  | atom => .ofReading (readAtom known tokens)

/-- A routine calls routines of lower rank only, unless it has taken a token. -/
def rank : Routine → ℕ
  | formula => 5
  | expression => 4
  | term => 3
  | factor => 2
  | operand => 1
  | terms _ | factors _ | atom => 0

/-- Whether a routine goes on with what was read before it, and may have nothing to read. -/
def isLoop : Routine → Bool
  | terms _ | factors _ => true
  | _ => false

theorem rank_le (r : Routine) : r.rank ≤ 5 := by
  cases r <;> simp [rank]

end Routine

/-! ### The recursion ends -/

section Ends

open Outcome Routine

variable {a b : ℕ} {known : List String} {tokens : List Token}

theorem ofReading_after (earlier : List String) (r : Reading a) :
    ofReading (r.after earlier) =
      { ofReading r with unknown := earlier ++ (ofReading r).unknown } := by
  cases r <;> rfl

theorem eq_refused_of_ofReading_eq {r : Reading a} {names : List String} {refusal : Refusal}
    {rest : List Token} (h : ofReading r = ⟨names, .error refusal, rest⟩) :
    r = .refused names refusal rest := by
  cases r <;> cases h
  rfl

theorem exists_eq_done_of_ofReading_eq {r : Reading a} {names : List String} {e : Expr Float}
    {rest : List Token} (h : ofReading r = ⟨names, .ok e, rest⟩) :
    ∃ shorter, r = .done names e rest shorter := by
  cases r <;> cases h
  exact ⟨_, rfl⟩

theorem ofReading_widen (h : a ≤ b) (r : Reading a) : ofReading (r.widen h) = ofReading r := by
  cases r <;> rfl

/-- Reading on is the same with and without the bound, if the phrase before is and what follows. -/
theorem ofReading_andThen {x : Option Outcome} {r : Reading a}
    {next : (tree : Expr Float) → (rest : List Token) → rest.length < a → Reading b}
    {g : Expr Float → List Token → Option Outcome} (hx : x = some (ofReading r))
    (hg : ∀ tree rest h, g tree rest = some (ofReading (next tree rest h))) :
    x >>= andThen g = some (ofReading (r.andThen next)) := by
  subst hx
  obtain ⟨unknown, tree, rest, shorter⟩ | ⟨unknown, refusal, rest⟩ := r
  · rw [Reading.andThen_done, ofReading_after]
    change (g tree rest).map _ = _
    rw [hg tree rest shorter]
    rfl
  · rfl

theorem ofReading_andThen_widen {x : Option Outcome} {r : Reading a}
    {next : Expr Float → (rest : List Token) → Reading (rest.length + 1)}
    {g : Expr Float → List Token → Option Outcome}
    (hle : ∀ rest : List Token, rest.length < a → rest.length + 1 ≤ b)
    (hx : x = some (ofReading r))
    (hg : ∀ tree rest, rest.length < a → g tree rest = some (ofReading (next tree rest))) :
    x >>= andThen g =
      some (ofReading (r.andThen fun tree rest h ↦ (next tree rest).widen (hle rest h))) := by
  refine ofReading_andThen hx fun tree rest h ↦ ?_
  rw [ofReading_widen, hg tree rest h]

/-- A routine calls routines of lower rank with its own tokens, and others with fewer tokens. If
these calls give what the reader has for them, the routine does. -/
theorem body_eq {r : Routine} {call : Routine → List Token → Option Outcome}
    (hlower : ∀ r' : Routine, r'.rank < r.rank → call r' tokens = some (r'.outcome known tokens))
    (hshorter : ∀ (r' : Routine) (tokens' : List Token), tokens'.length < tokens.length →
      call r' tokens' = some (r'.outcome known tokens')) :
    r.body known call tokens = some (r.outcome known tokens) := by
  cases r with
  | formula =>
    rw [body, outcome, readAll]
    refine ofReading_andThen (hlower expression (by decide)) fun e rest _ ↦ ?_
    cases rest <;> rfl
  | expression =>
    rw [body, outcome, readExpression]
    exact ofReading_andThen_widen _ (hlower term (by decide)) fun e ↦ hshorter (terms [e])
  | terms es =>
    rw [body.eq_def]
    dsimp only
    split
    · next tokens =>
      rw [outcome, readTerms]
      exact ofReading_andThen_widen _ (hshorter term tokens (Nat.lt_succ_self _))
        fun e rest hlt ↦ hshorter (terms (es ++ [e])) rest (Nat.lt_succ_of_lt hlt)
    · next tokens =>
      rw [outcome, readTerms]
      exact ofReading_andThen_widen _ (hshorter term tokens (Nat.lt_succ_self _))
        fun e rest hlt ↦ hshorter (terms [.sub (run .add es) e]) rest (Nat.lt_succ_of_lt hlt)
    · next hplus hminus =>
      rw [outcome, readTerms]
      · rfl
      · exact hplus
      · exact hminus
  | term =>
    rw [body, outcome, readTerm]
    exact ofReading_andThen_widen _ (hlower factor (by decide)) fun e ↦ hshorter (factors [e])
  | factors es =>
    rw [body.eq_def]
    dsimp only
    split
    · next tokens =>
      rw [outcome, readFactors]
      exact ofReading_andThen_widen _ (hshorter factor tokens (Nat.lt_succ_self _))
        fun e rest hlt ↦ hshorter (factors (es ++ [e])) rest (Nat.lt_succ_of_lt hlt)
    · next htimes =>
      rw [outcome, readFactors]
      · rfl
      · exact htimes
  | factor =>
    rw [body, outcome, readFactor]
    refine ofReading_andThen (hlower operand (by decide)) fun base rest hlt ↦ ?_
    split
    · next rest' =>
      exact ofReading_andThen (hshorter factor rest' (Nat.lt_of_succ_lt hlt)) fun _ _ _ ↦ rfl
    · next hcaret =>
      split
      · exact (hcaret _ rfl).elim
      · rfl
  | operand =>
    rw [body.eq_def]
    dsimp only
    split
    · rw [outcome, readOperand]
      rfl
    · next tokens hnumber =>
      rw [outcome, readOperand]
      · exact ofReading_andThen (hshorter factor tokens (Nat.lt_succ_self _)) fun _ _ _ ↦ rfl
      · exact hnumber
    · next hnumber hminus =>
      rw [outcome, readOperand]
      · exact hlower atom (by decide)
      · exact hnumber
      · exact hminus
  | atom =>
    rw [body.eq_def]
    dsimp only
    split
    · rw [outcome, readAtom]
      rfl
    · rw [outcome, readAtom]
      rfl
    · next f tokens =>
      rw [outcome, readAtom]
      exact ofReading_andThen (hshorter operand tokens (Nat.lt_succ_self _)) fun _ _ _ ↦ rfl
    · next tokens =>
      rw [outcome, readAtom]
      refine ofReading_andThen (hshorter expression tokens (Nat.lt_succ_self _)) fun e rest hlt ↦ ?_
      rw [ofReading_widen]
      split
      · rfl
      · next hclosing =>
        rw [readClosing]
        · rfl
        · exact hclosing
    · next hnumber hname hfunction hopening =>
      rw [outcome, readAtom]
      · rfl
      · exact hnumber
      · exact hname
      · exact hfunction
      · exact hopening

/-- No run is cut off whose calls may nest as deep as six times the tokens and the rank. -/
theorem Routine.within_eq {n : ℕ} {r : Routine} (h : 6 * tokens.length + r.rank < n) :
    r.within known n tokens = some (r.outcome known tokens) := by
  induction n generalizing r tokens with
  | zero => exact absurd h (Nat.not_lt_zero _)
  | succ n ih =>
    refine body_eq (fun r' hrank ↦ ih ?_) fun r' tokens' hlt ↦ ih ?_
    · omega
    · have hrank := r'.rank_le
      omega

end Ends

end Formula

end SymbolicDerivatives
