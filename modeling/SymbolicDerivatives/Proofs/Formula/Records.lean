import SymbolicDerivatives.Proofs.Formula.Grammar
import SymbolicDerivatives.Proofs.Formula.Termination

/-!
# Tokens are read once, from left to right

A routine of the reader never goes back. The tokens at hand are those that it reads followed by
those that it leaves, and the unknown names that it notes are those of the tokens that it reads, in
their order and as often as they occur: `Outcome.Advances`. Unless it is the rest of a sum or of a
product, it reads a token at least or is refused: `Outcome.Consumes`. `reads_body` shows this of one
routine, if it holds of the calls that the routine makes; by induction on how deep calls nest it
holds of all runs, whether or not some are cut off, and so of the levels of the reader.

For a formula this gives its records: one for each unknown name, up to the refused token if there is
one, and then one more that says how reading ended.
-/

namespace SymbolicDerivatives.Formula

/-- The names among tokens that are not known. -/
def unknownNames (known : List String) (tokens : List Token) : List String :=
  tokens.filterMap fun
    | .name word => if known.contains word then none else some word
    | _ => none

variable {known : List String} {tokens rest : List Token}

theorem unknownNames_append (front : List Token) :
    unknownNames known (front ++ rest) = unknownNames known front ++ unknownNames known rest :=
  List.filterMap_append

theorem unknownNames_name (word : String) :
    unknownNames known [.name word] = if known.contains word then [] else [word] := by
  rw [unknownNames, List.filterMap_cons, List.filterMap_nil]
  by_cases hknown : known.contains word = true
  · simp only [hknown, if_true]
  · simp only [hknown, if_false, Bool.false_eq_true]

theorem withEnd_append (front rest : List Token) :
    Token.withEnd (front ++ rest) = front.map some ++ Token.withEnd rest := by
  rw [Token.withEnd, Token.withEnd, List.map_append, List.append_assoc]

/-! ## Reading goes from left to right -/

namespace Outcome

variable {o : Outcome} {x : Option Outcome} {next : Expr Float → List Token → Option Outcome}

/-- The tokens are those that were read and those that are left, and the unknown names are those of
the tokens that were read. -/
def Advances (known : List String) (tokens : List Token) (o : Outcome) : Prop :=
  ∃ front, tokens = front ++ o.rest ∧ o.unknown = unknownNames known front

/-- If no token was refused, at least one was read. -/
def Consumes (known : List String) (tokens : List Token) (o : Outcome) : Prop :=
  ∃ front, tokens = front ++ o.rest ∧ o.unknown = unknownNames known front ∧
    ∀ e, o.result = .ok e → front ≠ []

theorem Consumes.advances (h : o.Consumes known tokens) : o.Advances known tokens := by
  obtain ⟨front, htokens, hunknown, -⟩ := h
  exact ⟨front, htokens, hunknown⟩

theorem advances_of_eq {result : Except Refusal (Expr Float)}
    (h : some ⟨[], result, tokens⟩ = some o) : o.Advances known tokens :=
  Option.some.inj h ▸ ⟨[], rfl, rfl⟩

theorem consumes_refused (refusal : Refusal) (tokens : List Token) :
    Consumes known tokens ⟨[], .error refusal, tokens⟩ :=
  ⟨[], rfl, rfl, fun _ h ↦ nomatch h⟩

theorem consumes_name (word : String) (rest : List Token) :
    Consumes known (.name word :: rest)
      ⟨if known.contains word then [] else [word], .ok (.var word), rest⟩ :=
  ⟨[.name word], rfl, (unknownNames_name word).symm, fun _ _ ↦ List.cons_ne_nil _ _⟩

theorem Advances.cons {t : Token} (h : o.Advances known tokens)
    (ht : unknownNames known [t] = []) : o.Consumes known (t :: tokens) := by
  obtain ⟨front, rfl, hunknown⟩ := h
  refine ⟨t :: front, rfl, ?_, fun _ _ ↦ List.cons_ne_nil _ _⟩
  rw [hunknown, ← List.singleton_append, unknownNames_append, ht, List.nil_append]

/-- If the first phrase reads a token, so do it and the tokens read on after it. -/
theorem consumes_of_andThen (hx : ∀ o, x = some o → o.Consumes known tokens)
    (hnext : ∀ e rest o, next e rest = some o → o.Advances known rest)
    (h : x >>= andThen next = some o) : o.Consumes known tokens := by
  obtain ⟨first, hfirst, h⟩ := Option.bind_eq_some_iff.1 h
  have hconsumes := hx first hfirst
  rw [andThen] at h
  split at h
  · next e he =>
    obtain ⟨second, hsecond, rfl⟩ := Option.map_eq_some_iff.1 h
    obtain ⟨front, htokens, hunknown, hne⟩ := hconsumes
    obtain ⟨front', hrest, hunknown'⟩ := hnext e first.rest second hsecond
    refine ⟨front ++ front', ?_, ?_, fun _ _ ↦ List.append_ne_nil_of_left_ne_nil (hne e he) _⟩
    · rw [htokens, hrest, List.append_assoc]
    · rw [unknownNames_append, hunknown, hunknown']
  · exact Option.some.inj h ▸ hconsumes

end Outcome

namespace Routine

open Outcome

variable {r : Routine} {call : Routine → List Token → Option Outcome} {o : Outcome}

/-- What every outcome of a routine satisfies. -/
def Reads (known : List String) (tokens : List Token) (o : Outcome) : Routine → Prop
  | terms _ | factors _ => o.Advances known tokens
  | _ => o.Consumes known tokens

theorem Reads.advances (h : r.Reads known tokens o) : o.Advances known tokens := by
  cases r with
  | terms | factors => exact h
  | _ => exact Consumes.advances h

theorem Reads.exists_front (h : r.Reads known tokens o) :
    ∃ front, tokens = front ++ o.rest ∧ o.unknown = unknownNames known front ∧
      (r.isLoop = false → ∀ e, o.result = .ok e → front ≠ []) := by
  by_cases hr : r.isLoop = true
  · obtain ⟨front, htokens, hunknown⟩ := h.advances
    exact ⟨front, htokens, hunknown, fun hno ↦ absurd hr (ne_true_of_eq_false hno)⟩
  · have hconsumes : o.Consumes known tokens := by
      cases r with
      | terms | factors => exact absurd rfl hr
      | _ => exact h
    obtain ⟨front, htokens, hunknown, hne⟩ := hconsumes
    exact ⟨front, htokens, hunknown, fun _ ↦ hne⟩

/-- A routine reads from left to right, if the routines that it calls do. -/
theorem reads_body (hcall : ∀ r tokens o, call r tokens = some o → r.Reads known tokens o)
    (h : r.body known call tokens = some o) : r.Reads known tokens o := by
  rw [body.eq_def] at h
  cases r with
  | formula =>
    refine consumes_of_andThen (hcall expression tokens) (fun e rest o h ↦ ?_) h
    cases rest <;> exact advances_of_eq h
  | expression =>
    exact consumes_of_andThen (hcall term tokens) (fun e ↦ hcall (terms [e])) h
  | terms es =>
    dsimp only at h
    split at h
    · next tokens =>
      exact ((consumes_of_andThen (hcall term tokens) (fun e ↦ hcall (terms (es ++ [e])))
        h).advances.cons rfl).advances
    · next tokens =>
      exact ((consumes_of_andThen (hcall term tokens)
        (fun e ↦ hcall (terms [.sub (run .add es) e])) h).advances.cons rfl).advances
    · exact advances_of_eq h
  | term =>
    exact consumes_of_andThen (hcall factor tokens) (fun e ↦ hcall (factors [e])) h
  | factors es =>
    dsimp only at h
    split at h
    · next tokens =>
      exact ((consumes_of_andThen (hcall factor tokens) (fun e ↦ hcall (factors (es ++ [e])))
        h).advances.cons rfl).advances
    · exact advances_of_eq h
  | factor =>
    refine consumes_of_andThen (hcall operand tokens) (fun base rest o h ↦ ?_) h
    split at h
    · next rest =>
      exact ((consumes_of_andThen (hcall factor rest) (fun _ _ _ ↦ advances_of_eq)
        h).advances.cons rfl).advances
    · exact advances_of_eq h
  | operand =>
    dsimp only at h
    split at h
    · exact ((advances_of_eq h).cons rfl).advances.cons rfl
    · next tokens _ =>
      exact (consumes_of_andThen (hcall factor tokens) (fun _ _ _ ↦ advances_of_eq)
        h).advances.cons rfl
    · exact hcall atom _ _ h
  | atom =>
    dsimp only at h
    split at h
    · exact (advances_of_eq h).cons rfl
    · exact Option.some.inj h ▸ consumes_name _ _
    · next f tokens =>
      exact (consumes_of_andThen (hcall operand tokens) (fun _ _ _ ↦ advances_of_eq)
        h).advances.cons rfl
    · next tokens =>
      refine (consumes_of_andThen (hcall expression tokens) (fun e rest o h ↦ ?_)
        h).advances.cons rfl
      split at h
      · exact ((advances_of_eq h).cons rfl).advances
      · exact advances_of_eq h
    · exact Option.some.inj h ▸ consumes_refused _ _

theorem reads_within {n : ℕ} (h : r.within known n tokens = some o) : r.Reads known tokens o := by
  induction n generalizing r tokens o with
  | zero => cases h
  | succ n ih => exact reads_body (fun _ _ _ ↦ ih) h

theorem reads_outcome (known : List String) (tokens : List Token) (r : Routine) :
    r.Reads known tokens (r.outcome known tokens) :=
  reads_within (within_eq (Nat.lt_succ_self _))

end Routine

/-! ## The records of a formula -/

/-- A whole formula has all its tokens read. -/
theorem unknown_of_readAll_done {names : List String} {e : Expr Float}
    {h : rest.length < tokens.length + 1} (hread : readAll known tokens = .done names e rest h) :
    rest = [] ∧ names = unknownNames known tokens := by
  have hphrase : (readAll known tokens).phrase? = some (e, rest) := by rw [hread]; rfl
  obtain ⟨e', -, heq⟩ := readAll_iff.1 hphrase
  obtain ⟨-, rfl⟩ := Prod.mk.inj heq
  obtain ⟨front, htokens, hunknown⟩ := (Routine.reads_outcome known tokens .formula).advances
  rw [Routine.outcome, hread] at htokens hunknown
  rw [Outcome.ofReading, List.append_nil] at htokens
  exact ⟨rfl, htokens ▸ hunknown⟩

/-- A refused formula has the tokens before the refused one read. -/
theorem unknown_of_readAll_refused {names : List String} {refusal : Refusal}
    (hread : readAll known tokens = .refused names refusal rest) :
    ∃ front, tokens = front ++ rest ∧ names = unknownNames known front := by
  obtain ⟨front, htokens, hunknown⟩ := (Routine.reads_outcome known tokens .formula).advances
  rw [Routine.outcome, hread] at htokens hunknown
  exact ⟨front, htokens, hunknown⟩

section Log

open Logging

variable {formula : Option String}

theorem log_read_of_error {error : SyntaxError}
    (h : (parse known (formula.getD "")).value = .error error) :
    (read known formula).run.log =
      (parse known (formula.getD "")).log ++ [malformedRecord (shown formula) error] := by
  rw [read, log_run_bind_of_eq_ok (value_run_lift _), log_run_lift, h]
  dsimp only
  rw [log_run_bind_of_eq_ok (value_run_record _), log_run_record, log_run_pure, List.append_nil]

theorem log_read_of_ok {e n : Expr Float} (h : (parse known (formula.getD "")).value = .ok e)
    (hn : e.simplify = .ok n) :
    (read known formula).run.log =
      (parse known (formula.getD "")).log ++ [parsedRecord (shown formula) n] := by
  rw [read, log_run_bind_of_eq_ok (value_run_lift _), log_run_lift, h]
  dsimp only
  rw [log_run_bind_of_eq_ok ((value_run_ofExcept _).trans hn), log_run_ofExcept, List.nil_append,
    log_run_bind_of_eq_ok (value_run_record _), log_run_record, log_run_pure, List.append_nil]

theorem log_read_of_stray {stray : Token.StrayCharacter}
    (hscan : Token.scan (formula.getD "") = .error stray) :
    (read known formula).run.log = [malformedRecord (shown formula) (.stray stray)] := by
  have hparse : parse known (formula.getD "") = ⟨.error (.stray stray), []⟩ := by
    rw [parse, hscan]
  rw [log_read_of_error (congrArg Logged.value hparse), hparse, List.nil_append]

theorem log_read_of_refused {names : List String} {refusal : Refusal}
    (hscan : Token.scan (formula.getD "") = .ok tokens)
    (hread : readAll known tokens = .refused names refusal rest) :
    (read known formula).run.log =
      names.map unknownRecord ++
        [malformedRecord (shown formula) (.refused refusal rest.head?)] := by
  have hparse : parse known (formula.getD "") =
      ⟨.error (.refused refusal rest.head?), names.map unknownRecord⟩ := by
    rw [parse, hscan]
    dsimp only
    rw [hread]
  rw [log_read_of_error (congrArg Logged.value hparse), hparse]

theorem log_read_of_done {names : List String} {e : Expr Float}
    {h : rest.length < tokens.length + 1} (hscan : Token.scan (formula.getD "") = .ok tokens)
    (hread : readAll known tokens = .done names e rest h) :
    ∃ n, e.simplify = .ok n ∧
      (read known formula).run.log =
        names.map unknownRecord ++ [parsedRecord (shown formula) n] := by
  have hparse : parse known (formula.getD "") = ⟨.ok e, names.map unknownRecord⟩ := by
    rw [parse, hscan]
    dsimp only
    rw [hread]
  obtain ⟨tokens', -, hphrase⟩ := parse_value_eq_ok_iff.1 (congrArg Logged.value hparse)
  obtain ⟨n, hn⟩ := (hphrase.wellFormed.mono (Nat.zero_le 2)).exists_simplify_eq_ok
  refine ⟨n, hn, ?_⟩
  rw [log_read_of_ok (congrArg Logged.value hparse) hn, hparse]

end Log

/-- **Formulas are read once, from left to right, and reading ends.** Each round of the scanner's
loop takes a character at least, and the loop is over after as many rounds as the text has
characters, or earlier. The recursion of the reader ends at a depth of less than six times the
tokens and the rank of the routine. Every call of a routine, also in a run that is cut off, leaves
the end of the tokens it has, at least with the mark of the end, and notes the unknown names among
the others; a call that is not for the rest of a sum or product reads a token at least or is
refused. So the records of a text that can be cut into tokens are one for each unknown name, in
order, up to the refused token if there is one, and then the tree or a warning with the error; a
text that cannot be cut has the warning only. -/
theorem read_once (known : List String) :
    (∀ cs piece rest, Token.takePiece cs = some (piece, rest) →
      ∃ front, front ≠ [] ∧ cs = front ++ rest) ∧
    (∀ (formula : String) (n : ℕ), formula.length ≤ n →
      Token.scanWithin n 0 formula.toList = some (Token.scan formula)) ∧
    (∀ (tokens : List Token) (r : Routine) (n : ℕ), 6 * tokens.length + r.rank < n →
      r.within known n tokens = some (r.outcome known tokens)) ∧
    (∀ (tokens : List Token) (r : Routine) (n : ℕ) (o : Outcome),
      r.within known n tokens = some o →
      ∃ front, Token.withEnd tokens = front.map some ++ Token.withEnd o.rest ∧
        o.unknown = unknownNames known front ∧
        (r.isLoop = false → ∀ e, o.result = .ok e → front ≠ [])) ∧
    ∀ formula : Option String,
      (∀ stray, Token.scan (formula.getD "") = .error stray →
        (read known formula).run.log = [.mk .warning .formula ("Could not parse '" ++
          formula.getD "None" ++ "', using 0: " ++ (SyntaxError.stray stray).message)]) ∧
      ∀ tokens, Token.scan (formula.getD "") = .ok tokens →
        (∀ names e rest h, readAll known tokens = .done names e rest h →
          rest = [] ∧ ∃ n, e.simplify = .ok n ∧
            (read known formula).run.log =
              (unknownNames known tokens).map
                (fun name ↦ .mk .debug .formula ("'" ++ name ++ "' is not a bound variable")) ++
              [.mk .debug .formula ("Parsed '" ++ formula.getD "None" ++ "' as " ++
                n.prefixForm)]) ∧
        ∀ names refusal rest, readAll known tokens = .refused names refusal rest →
          ∃ front, tokens = front ++ rest ∧
            (read known formula).run.log =
              (unknownNames known front).map
                (fun name ↦ .mk .debug .formula ("'" ++ name ++ "' is not a bound variable")) ++
              [.mk .warning .formula ("Could not parse '" ++ formula.getD "None" ++
                "', using 0: " ++ (SyntaxError.refused refusal rest.head?).message)] := by
  refine ⟨fun _ _ _ ↦ Token.exists_of_takePiece, fun formula n h ↦ ?_,
    fun _ _ _ ↦ Routine.within_eq, fun tokens r n o h ↦ ?_,
    fun formula ↦ ⟨fun _ ↦ log_read_of_stray, fun tokens hscan ↦
      ⟨fun names e rest h hread ↦ ?_, fun names refusal rest hread ↦ ?_⟩⟩⟩
  · rw [← String.length_toList] at h
    exact Token.scanWithin_eq h 0
  · obtain ⟨front, rfl, hunknown, hne⟩ := (Routine.reads_within h).exists_front
    exact ⟨front, withEnd_append front o.rest, hunknown, hne⟩
  · obtain ⟨hrest, rfl⟩ := unknown_of_readAll_done hread
    exact ⟨hrest, log_read_of_done hscan hread⟩
  · obtain ⟨front, htokens, rfl⟩ := unknown_of_readAll_refused hread
    exact ⟨front, htokens, log_read_of_refused hscan hread⟩

/-- An unknown name has a record each time it is read. The refused one has none, and neither have
the names before a character that starts no token. -/
theorem read_once_of_operands :
    let text := "y*(x+sin y) z"
    let front : List Token := [.name "y", .times, .opening, .name "x", .plus, .function .sin,
      .name "y", .closing]
    let tokens := front ++ [.name "z"]
    (Token.takePiece " z".toList = some (none, ['z']) ∧
      ∃ front, front ≠ [] ∧ " z".toList = front ++ ['z']) ∧
    Token.scanWithin 13 0 text.toList = some (.ok tokens) ∧
    Routine.formula.within ["x"] 60 tokens =
      some ⟨["y", "y"], .error .trailing, [.name "z"]⟩ ∧
    (∃ front, Token.withEnd tokens = front.map some ++ [some (.name "z"), none] ∧
      ["y", "y"] = unknownNames ["x"] front) ∧
    (read ["x"] (some text)).run.log =
      [⟨.debug, .formula, "'y' is not a bound variable"⟩,
        ⟨.debug, .formula, "'y' is not a bound variable"⟩,
        ⟨.warning, .formula,
          "Could not parse 'y*(x+sin y) z', using 0: Unexpected token 'z' at end of expression"⟩] ∧
    (read ["x"] (some "x+y")).run.log =
      [⟨.debug, .formula, "'y' is not a bound variable"⟩,
        ⟨.debug, .formula, "Parsed 'x+y' as +(x, y)"⟩] ∧
    (read ["x"] (some "x+y?")).run.log =
      [⟨.warning, .formula,
        "Could not parse 'x+y?', using 0: Unexpected character at position 3: '?'"⟩] := by
  intro text front tokens
  obtain ⟨hpiece, hscan, hwithin, hreads, hlog⟩ := read_once ["x"]
  have hround : Token.takePiece " z".toList = some (none, ['z']) := by decide +kernel
  have htokens : Token.scan text = .ok tokens := by decide +kernel
  have htokens' : Token.scan "x+y" = .ok [.name "x", .plus, .name "y"] := by decide +kernel
  have hstray : Token.scan "x+y?" = .error ⟨3, '?'⟩ := by decide +kernel
  have hrefused : Routine.formula.within ["x"] 60 tokens =
      some ⟨["y", "y"], .error .trailing, [.name "z"]⟩ := rfl
  have hdone : Routine.formula.within ["x"] 60 [.name "x", .plus, .name "y"] =
      some ⟨["y"], .ok (.op .add [.var "x", .var "y"]), []⟩ := rfl
  have hsimplify : (Expr.op .add [.var "x", .var "y"] : Expr Float).simplify =
      .ok (.op .add [.var "x", .var "y"]) := rfl
  have hread := eq_refused_of_ofReading_eq (Option.some.inj
    ((hwithin tokens .formula 60 (by decide)).symm.trans hrefused))
  obtain ⟨_, hread'⟩ := exists_eq_done_of_ofReading_eq (Option.some.inj
    ((hwithin [.name "x", .plus, .name "y"] .formula 60 (by decide)).symm.trans hdone))
  obtain ⟨before, hbefore, hunknown, -⟩ := hreads _ _ _ _ hrefused
  obtain ⟨front', heq, hrecords⟩ := ((hlog (some text)).2 _ htokens).2 _ _ _ hread
  obtain rfl := List.append_cancel_right heq
  obtain ⟨-, n, hn, hrecords'⟩ := ((hlog (some "x+y")).2 _ htokens').1 _ _ _ _ hread'
  obtain rfl := Except.ok.inj (hsimplify.symm.trans hn)
  exact ⟨⟨hround, hpiece _ _ _ hround⟩, htokens ▸ hscan text 13 (by decide), hrefused,
    ⟨before, hbefore, hunknown⟩, hrecords.trans (by decide +kernel),
    hrecords'.trans (by decide +kernel),
    ((hlog (some "x+y?")).1 _ hstray).trans (by decide +kernel)⟩

end SymbolicDerivatives.Formula
