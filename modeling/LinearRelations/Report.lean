import LinearRelations.Relation.Isolate
import LinearRelations.Relation.Verify

/-!
# Reports

A report tells, step by step, how a variable of a relation was isolated and how the answer was
verified.

* `InputError`: what is refused before anything is read;
* `Report`: what was given, by which method it was solved, the steps, the answer and a summary;
* `Report.ofText`: the report on a text and a variable, or what is in its way.
-/

namespace LinearRelations

/-- Why a text or a variable is not even read. -/
inductive InputError where
  | tooLong (length : Nat)
  | invalidCharacters (characters : List Char)
  | invalidName (name : String)
  deriving DecidableEq, Repr

/-- The number of characters that a relation may have. -/
def lengthLimit : Nat := 1000

namespace InputError

def message : InputError → String
  | tooLong length =>
    "Input is too long (" ++ toString length ++ " characters, limit " ++ toString lengthLimit ++ ")."
  | invalidCharacters characters =>
    "Invalid character(s): " ++ " ".intercalate (characters.map String.singleton) ++
      "\nOnly letters, numbers, '_', '.', and the symbols + - * / ( ) = < > are allowed."
  | invalidName name => "'" ++ name ++ "' is not a valid variable name."

end InputError

namespace SolveError

def message : SolveError → String
  | unknownVariable name relation =>
    "The given variable (" ++ name ++ ") wasn't present in the relation (" ++ relation.render ++
      ")."
  | nonlinear cause => cause.message
  | indeterminateSign name coefficient =>
    "Cannot divide an inequality by " ++ coefficient.render ++
      ": its sign depends on free variables, so the direction of the result for " ++ name ++
      " is unknown."
  | inexact _ => ""

end SolveError

/-- Why there is no report. -/
inductive ReportError where
  | input (cause : InputError)
  | parse (cause : ParseError)
  | solve (cause : SolveError)
  | exact (cause : ExactError)
  | evaluation (cause : EvaluationError)
  deriving DecidableEq, Repr

structure ReportStep where
  description : String
  expression : String
  explanation : String
  deriving DecidableEq, Repr

/-- The problem and its parts. -/
structure ReportGiven where
  problem : String
  relation : String
  leftSide : String
  rightSide : String
  operator : String
  name : String
  deriving DecidableEq, Repr

/-- How the problem is solved. -/
structure ReportMethod where
  title : String
  description : String
  relationType : String
  name : String
  approach : String
  deriving DecidableEq, Repr

structure ReportSummary where
  totalSteps : Nat
  verificationSteps : Nat
  validationStatus : String
  deriving DecidableEq, Repr

structure Report where
  text : String
  given : ReportGiven
  method : ReportMethod
  steps : List ReportStep
  finalAnswer : String
  verification : List ReportStep
  summary : ReportSummary
  deriving DecidableEq, Repr

namespace Report

/-! ### Validation -/

def isAllowed (c : Char) : Bool :=
  c.isAlphanum || " \t_.+-*/()=<>".toList.contains c

/-- The characters that are not allowed, each once and in rising order. -/
def refusedCharacters (text : String) : List Char :=
  ((text.toList.filter fun c => !isAllowed c).mergeSort fun a b => a ≤ b).eraseDups

def validate (text name : String) : Except InputError Unit :=
  if lengthLimit < text.length then .error (.tooLong text.length)
  else
    match refusedCharacters text with
    | [] => if Text.isName name then .ok () else .error (.invalidName name)
    | refused => .error (.invalidCharacters refused)

/-! ### The steps of the solution -/

def firstStep (relation : Relation) (name : String) : ReportStep where
  description := "Starting with the original relation"
  expression := relation.render
  explanation :=
    "We are given " ++ relation.render ++ ". Our goal is to isolate " ++ name ++
      " on the left side."

def stageDescription (name : String) : StageName → String
  | .expand => "Expand both sides"
  | .collect => "Move every term to the left side"
  | .factor => "Factor out " ++ name
  | .isolate => "Divide both sides by the coefficient of " ++ name

def stageExplanation (name : String) : StageName → String
  | .expand =>
    "We distribute multiplication (and division of a sum) over addition and subtraction so that " ++
      "each side becomes a sum of simple terms."
  | .collect =>
    "We subtract the right side from both sides, so the relation now compares a single " ++
      "expression against 0."
  | .factor =>
    "Every term that contains " ++ name ++ " is written as " ++ name ++
      " times its coefficient, and those coefficients are added together."
  | .isolate =>
    "We move the remaining terms to the right side and divide by the coefficient of " ++ name ++ "."

/-- What is added to the last stage when an inequality has turned around. -/
def flipNote (relation solved : Relation) : String :=
  if solved.comparison = relation.comparison then ""
  else
    " The coefficient is negative, so the direction of the relation flips from " ++
      relation.comparison.symbol ++ " to " ++ solved.comparison.symbol ++ "."

def stageStep (relation : Relation) (name : String) (stage : Stage) : ReportStep where
  description := stageDescription name stage.name
  expression := stage.relation.render
  explanation :=
    stageExplanation name stage.name ++
      if stage.name = .isolate then flipNote relation stage.relation else ""

/-- The steps of a solution; an expansion that changes nothing is left out. -/
def solutionSteps (relation : Relation) (name : String) (stages : List Stage) :
    List ReportStep :=
  let told := stages.filter fun stage => stage.name != .expand || stage.relation != relation
  firstStep relation name :: told.map (stageStep relation name)

/-! ### The steps of the verification -/

def startStep (relation solved : Relation) (name : String) : ReportStep where
  description := "Start with the original relation"
  expression := relation.render
  explanation :=
    if solved.isEquation then
      "We substitute " ++ name ++ " = " ++ solved.rhs.render ++
        " back into the original relation to check the answer."
    else
      "At the boundary " ++ name ++ " = " ++ solved.rhs.render ++
        " both sides of the original relation must be equal; away from it the original and the " ++
        "solved relation must agree."

def residualStep (solved : Relation) (name : String) (residual : Residual) : ReportStep where
  description := "Substitute " ++ name ++ " = " ++ solved.rhs.render ++ " into LHS - RHS"
  expression := "LHS - RHS = " ++ residual.shown ++ if residual = .zero then "  ✓" else ""
  explanation :=
    if residual = .zero then
      "The difference of both sides simplifies to 0, so the boundary is exact."
    else "The difference of both sides simplifies to " ++ residual.shown ++ ", not 0."

def spotCheckStep (check : SpotCheck) : ReportStep where
  description := "Numeric spot check"
  expression :=
    toString check.agreeing ++ "/" ++ toString check.finite ++ " sample points agree"
  explanation :=
    let range := toString Relation.sampleRange
    "Every variable was sampled at " ++ toString Relation.sampleCount ++ " random points in [-" ++
      range ++ ", " ++ range ++ "]; " ++ toString check.finite ++ " of them were finite and " ++
      toString check.agreeing ++ " matched."

/-- The steps of the verification, and whether it passed. -/
def verify (relation solved : Relation) (name : String) :
    Except ReportError (List ReportStep × Bool) := do
  let residual ← (relation.residual name solved.rhs).mapError .exact
  let check ← (relation.spotCheck solved name).mapError .evaluation
  return ([startStep relation solved name, residualStep solved name residual,
      spotCheckStep check], residual = .zero && check.agreeing == check.finite)

/-! ### The report -/

def givenOf (relation : Relation) (name : String) : ReportGiven where
  problem := "Solve for " ++ name ++ ": " ++ relation.render
  relation := relation.render
  leftSide := relation.lhs.render
  rightSide := relation.rhs.render
  operator := relation.comparison.symbol
  name

def methodOf (relation : Relation) (name : String) : ReportMethod where
  title := "Symbolic Isolation (Linear)"
  description := "Isolate the variable by expanding, collecting and factoring."
  relationType := if relation.isEquation then "Equation" else "Inequality"
  name
  approach := "Expand → Collect → Factor → Divide"

def summaryOf (steps verification : List ReportStep) (passed : Bool) : ReportSummary where
  totalSteps := steps.length
  verificationSteps := verification.length
  validationStatus := if passed then "pass" else "fail"

/-- Isolates a variable in the relation that a text writes, and verifies the answer. -/
def ofText (text name : String) : Except ReportError Report := do
  (validate text name).mapError .input
  let relation ← (Relation.parse text).mapError .parse
  let isolation := relation.isolation name
  let answer ← isolation.answer.mapError .solve
  let (verification, passed) ← verify relation answer name
  let steps := solutionSteps relation name isolation.stages
  return {
    text, steps, verification
    given := givenOf relation name
    method := methodOf relation name
    finalAnswer := answer.render
    summary := summaryOf steps verification passed }

end Report

end LinearRelations
