import LinearRelations.Expr.Expand
import LinearRelations.Term.Basic

/-!
# Collecting a variable

The terms of an expanded sum fall into those that contain a variable, each of them linear in it,
and those that do not. Putting the coefficients of the former together factors the variable out.

* `Expr.splitVariable`: how often a variable is a factor of a term, and what else is;
* `Expr.collect`: the coefficients of a variable and the terms without it;
* `Term.factored`: the product of a variable and its coefficients, and the other terms;
* `Expr.factorFor`: the expanded expression with a variable factored out.
-/

namespace LinearRelations

/-- A term in which a variable is squared, divides something or stands inside of a sum. -/
structure NonlinearTerm where
  name : String
  term : Expr
  deriving DecidableEq, Repr

namespace NonlinearTerm

def message (cause : NonlinearTerm) : String :=
  let x := cause.name
  "The term " ++ cause.term.render ++ " is not linear in " ++ x ++
    ". Only first-degree occurrences of the variable (no " ++ x ++ "*" ++ x ++ ", no " ++ x ++
    " in a divisor) can be solved for."

end NonlinearTerm

namespace Expr

/-- The product of two coefficients, where none stands for one. -/
def timesCoefficient : Option Expr → Option Expr → Option Expr
  | none, c => c
  | c, none => c
  | some a, some b => some (node a .mul b)

/-- The degree of a variable in a term and the rest of the term, none where nothing is left. -/
def splitVariable (name : String) :
    Expr → Except NonlinearTerm (Nat × Option Expr)
  | leaf operand =>
    if operand.text = name then .ok (1, none) else .ok (0, some (leaf operand))
  | node lhs .mul rhs => do
    let (lhsDegree, lhsRest) ← lhs.splitVariable name
    let (rhsDegree, rhsRest) ← rhs.splitVariable name
    return (lhsDegree + rhsDegree, timesCoefficient lhsRest rhsRest)
  | node lhs .div rhs =>
    if name ∈ (node lhs .div rhs).variables then
      if name ∈ rhs.variables then .error ⟨name, node lhs .div rhs⟩
      else do
        let (degree, rest) ← lhs.splitVariable name
        return (degree, some (node (rest.getD one) .div rhs))
    else .ok (0, some (node lhs .div rhs))
  | node lhs op rhs =>
    if name ∈ (node lhs op rhs).variables then .error ⟨name, node lhs op rhs⟩
    else .ok (0, some (node lhs op rhs))

end Expr

/-- The signed coefficients of a variable in a sum, and the terms without the variable. -/
structure Collected where
  coefficients : List Term
  remainder : List Term
  deriving DecidableEq, Repr

namespace Collected

def negate (parts : Collected) : Collected :=
  ⟨Term.negateAll parts.coefficients, Term.negateAll parts.remainder⟩

/-- Whether every coefficient is subtracted. -/
def allSubtracted (parts : Collected) : Bool :=
  parts.coefficients.all fun term => term.sign == .minus

end Collected

namespace Term

/-- Sorts terms by whether they contain a variable; a term of a higher degree is refused. -/
def collect (name : String) : List Term → Except NonlinearTerm Collected
  | [] => .ok ⟨[], []⟩
  | term :: rest => do
    let (degree, coefficient) ← term.body.splitVariable name
    if 1 < degree then .error ⟨name, term.body⟩
    else do
      let parts ← collect name rest
      if degree = 1 then
        return { parts with coefficients := ⟨term.sign, coefficient.getD .one⟩ :: parts.coefficients }
      else return { parts with remainder := term :: parts.remainder }

/-- The product of a variable and the sum of its coefficients. -/
def timesVariable (x : Operand) (coefficients : List Term) : Expr :=
  let coefficient := join coefficients
  if coefficient = .one then .leaf x else .node (.leaf x) .mul coefficient

/-- The sum with a variable factored out; a common minus of all coefficients goes in front. -/
def factored (x : Operand) (parts : Collected) : Expr :=
  if parts.allSubtracted then
    join (⟨.minus, timesVariable x (negateAll parts.coefficients)⟩ :: parts.remainder)
  else join (⟨.plus, timesVariable x parts.coefficients⟩ :: parts.remainder)

end Term

namespace Expr

/-- Collects a variable in a sum. -/
def collect (expr : Expr) (name : String) : Except NonlinearTerm Collected :=
  Term.collect name (expr.terms .plus)

/-- The expanded expression with a variable factored out, if it occurs. A text that is no
operand occurs nowhere. -/
def factorFor (expr : Expr) (name : String) : Except NonlinearTerm Expr := do
  let parts ← expr.expand.collect name
  if parts.coefficients.isEmpty then return expr.expand
  else
    match Operand.ofText? name with
    | some operand => return Term.factored operand parts
    | none => return expr.expand

end Expr

end LinearRelations
