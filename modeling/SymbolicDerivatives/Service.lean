import SymbolicDerivatives.Algebra.Random
import SymbolicDerivatives.Calculation
import SymbolicDerivatives.Formula.Signs
import SymbolicDerivatives.Json

/-!
# The service

What the calculator answers to requests. A request has members that may be missing or of a wrong
kind; `Member.text?` and its companions say which members fit where. The formula of a request, and
the whole input of a run, may use typographic signs.

A derivation can be answered at once or as a stream of events, one for each step and one for the
result. A random term comes as a formula and in LaTeX, and with its derivative, for reference, if
the request names variables.
-/

namespace SymbolicDerivatives

inductive Member where
  | missing
  | null
  | flag (value : Bool)
  | whole (value : Int)
  | text (value : String)
  | texts (values : List String)
  /-- A value that no request has a use for. -/
  | unsuitable

namespace Member

/-- A text; a missing one has the default, if there is one. -/
def text? (default : Option String) : Member → Option String
  | missing => default
  | text s => some s
  | _ => none

/-- A text that may be null. -/
def optionalText? : Member → Option (Option String)
  | missing | null => some none
  | text s => some (some s)
  | _ => none

/-- An integer in decimal digits, perhaps with a sign. -/
def integerOfText? (s : String) : Option Int :=
  let (negative, digits) := Number.splitSign s.toList
  if digits.isEmpty || !digits.all Char.isDigit then none
  else
    let n := Text.natOfDigits digits
    some (if negative then -n else n)

/-- An integer that may be null. A flag counts as zero or one, and digits as their number. -/
def whole? (default : Int) : Member → Option (Option Int)
  | missing => some (some default)
  | null => some none
  | flag b => some (some (if b then 1 else 0))
  | whole n => some (some n)
  | text s => (integerOfText? s).map some
  | _ => none

/-- A list of texts that may be null. -/
def texts? (default : List String) : Member → Option (Option (List String))
  | missing => some (some default)
  | null => some none
  | texts ss => some (some ss)
  | _ => none

end Member

/-- Why a request has no answer. -/
inductive ServiceError where
  /-- A member is missing or of a wrong kind. -/
  | invalid
  /-- The derivative cannot be computed. -/
  | calculation (cause : Failure)
  /-- The draws do not make a term. -/
  | draw (cause : DrawFailure)
  /-- The term cannot be written as a formula. -/
  | unwritable (cause : Term.Unwritable)
  /-- A member that random terms need is null. -/
  | absent

def ServiceError.message : ServiceError → String
  | invalid => "Invalid request"
  | calculation cause => "Derivative failed: " ++ cause.message
  | draw cause => "Generation failed: " ++ cause.message
  | unwritable cause => "Generation failed: " ++ cause.message
  | absent => "Generation failed: a member is null"

/-- An answer, or why there is none, with the records made. -/
abbrev Reply (α : Type) := ExceptT ServiceError Logged α

namespace Reply

/-- The answer to a request whose members fit. -/
def ofMembers {α : Type} : Option α → Reply α
  | some a => pure a
  | none => throw .invalid

/-- The answer of a calculation. -/
def ofLogging {α : Type} (x : Logging α) : Reply α :=
  ExceptT.mk ((·.mapError ServiceError.calculation) <$> x.run)

end Reply

namespace Service

/-! ## Signs of life -/

def ping : Json := .object [("status", .string "ok"), ("message", .string "Backend is alive")]

def uptime : Json := .object [("status", .string "alive")]

/-! ## Calculations -/

/-- The result of an input of three lines. -/
def run (input : Member) : Reply String := do
  let input ← Reply.ofMembers (input.text? none)
  Reply.ofLogging (Calculation.resultOf (some (Formula.normalize input)))

/-- The texts of a calculation. The default plan is `x`, and by default no values are given. -/
structure Request where
  formula : String
  plan : String
  values : String

def Request.ofMembers? (formula plan values : Member) : Option Request := do
  return ⟨← formula.text? none, ← plan.text? "x", ← values.text? ""⟩

def differentiate (formula plan values : Member) : Reply Calculation := do
  let r ← Reply.ofMembers (Request.ofMembers? formula plan values)
  Reply.ofLogging (Calculation.ofTexts (some (Formula.normalize r.formula)) r.plan r.values)

/-! ## Streams -/

inductive Event where
  /-- A derivative. -/
  | step (name text latex : String)
  /-- The last derivative and its value. -/
  | complete (text latex result : String)
  /-- The end of a derivation that cannot go on. -/
  | error (cause : Failure)

namespace Event

def toJson : Event → Json
  | step name text latex => .object [("type", .string "step"), ("variable", .string name),
      ("expression", .string text), ("latex", .string latex)]
  | complete text latex result => .object [("type", .string "complete"),
      ("derivative", .string text), ("derivative_latex", .string latex),
      ("result", .string result)]
  | error cause => .object [("type", .string "error"),
      ("detail", .string ("Unexpected server error: " ++ cause.message))]

/-- The text that a stream sends for an event. -/
def chunk (e : Event) : String := "data: " ++ e.toJson.render ++ "\n\n"

def ofStep (s : Step) : Except Failure Event := do
  return .step s.name s.text (← s.tree.latex)

/-- The last event for a tree. -/
def ofResult (e : Expr Float) (p : Point) : Except Failure Event := do
  return .complete (← e.text) (← e.latex) (resultText (← e.evaluate p.get))

/-- Events up to the first failure, which is an event too. -/
def upToFailure : List (Except Failure Event) → List Event
  | [] => []
  | .ok e :: rest => e :: upToFailure rest
  | .error f :: _ => [.error f]

end Event

def mediaType : String := "text/event-stream"

/-- The events of a derivation: a step each, and the result or the failure that ended it. -/
def eventsOf (e : Expr Float) (p : Point) (d : Derivation) : List Event :=
  let last := match d.failure? with
    | none => Event.ofResult (Derivation.lastTree e d.steps) p
    | some failure => .error failure
  Event.upToFailure (d.steps.map Event.ofStep ++ [last])

/-- The events of a calculation, and the records of its derivation. -/
def stream (formula plan values : String) : Logged (List Event) := do
  let point ← Point.ofLine (some values)
  match ← (Formula.read point.names (some formula)).run with
  | .error failure => return [.error failure]
  | .ok e =>
    let d := Derivation.ofPlan (planOfLine plan) e
    Logged.records d.log
    return eventsOf e point d

def solveStream (formula plan values : Member) : Reply (List Event) := do
  let r ← Reply.ofMembers (Request.ofMembers? formula plan values)
  ExceptT.lift (stream (Formula.normalize r.formula) r.plan r.values)

/-! ## Random terms -/

/-- A random term for practice. -/
structure Exercise where
  /-- The term as a formula. -/
  text : String
  /-- The term in LaTeX. -/
  latex : String
  /-- The derivative of the term as a formula, if one was asked for. -/
  derivative? : Option String

def writeTerm (t : Term) : Except ServiceError String := t.formula.mapError .unwritable

/-- A random term from a list of draws, and the draws left. -/
def drawTerm (i : Ingredients) (count depth : Int) (draws : List Nat) :
    Except ServiceError (Term × List Nat) :=
  ((i.term count depth).run draws).mapError .draw

/-- The exercise of a term; a plan that is there and not empty asks for the derivative. -/
def Exercise.ofTerm (t : Term) (plan? : Option String) : Except ServiceError Exercise := do
  let text ← writeTerm t
  let derivative? ← match plan? with
    | none | some "" => pure none
    | some plan =>
      some <$> writeTerm ((planOfLine plan).foldl (fun t x ↦ t.derivative x) t)
  return ⟨text, t.latex, derivative?⟩

def exerciseFunctions : List TermFunc := [.sin, .cos]

/-- The request for a random term. The depth is looked at only if there is a tree to draw. -/
def generate (symbols count depth plan : Member) (draws : List Nat) :
    Except ServiceError Exercise := do
  let some symbols := symbols.texts? ["x"] | throw .invalid
  let some count := count.whole? 3 | throw .invalid
  let some depth := depth.whole? 2 | throw .invalid
  let some plan? := plan.optionalText? | throw .invalid
  let some symbols := symbols | throw .absent
  let some count := count | throw .absent
  let some depth := if count ≤ 0 then some 0 else depth | throw .absent
  let (t, _) ← drawTerm ⟨symbols, exerciseFunctions⟩ count depth draws
  Exercise.ofTerm t plan?

end Service

end SymbolicDerivatives
