import LinearRelations.Relation.Basic
import LinearRelations.Term.Collect
import LinearRelations.Term.Divide

/-!
# Isolating a variable

A relation that is linear in a variable is brought, stage by stage, to the form in which the
variable stands alone on the left:

1. expand: both sides are expanded;
2. collect: everything is brought to the left side;
3. factor: the variable is factored out;
4. isolate: the other terms go to the right side, divided by the coefficient.

* `Relation.isolation`: the stages that are reached, and the answer or what is in its way;
* `Relation.solve`: the answer alone.
-/

namespace LinearRelations

/-- Why a variable cannot be isolated. -/
inductive SolveError where
  | unknownVariable (name : String) (relation : Relation)
  | nonlinear (cause : NonlinearTerm)
  | indeterminateSign (name : String) (coefficient : Expr)
  | inexact (cause : ExactError)
  deriving DecidableEq, Repr

inductive StageName where
  | expand
  | collect
  | factor
  | isolate
  deriving DecidableEq, Repr

namespace StageName

def label : StageName → String
  | expand => "expand"
  | collect => "collect"
  | factor => "factor"
  | isolate => "isolate"

end StageName

structure Stage where
  name : StageName
  relation : Relation
  deriving DecidableEq, Repr

/-- The stages reached on the way to isolating a variable, and how the way ends. -/
structure Isolation where
  stages : List Stage
  answer : Except SolveError Relation

namespace Isolation

/-- The relation of a stage, or what was in the way of reaching it. -/
def stage (isolation : Isolation) (name : StageName) : Except SolveError Relation :=
  match isolation.stages.find? fun stage => stage.name == name with
  | some stage => .ok stage.relation
  | none => isolation.answer

end Isolation

namespace Relation

def expand (relation : Relation) : Relation :=
  { relation with lhs := relation.lhs.expand, rhs := relation.rhs.expand }

/-- The expanded difference of the sides of a relation. -/
def difference (relation : Relation) : Expr :=
  (Expr.node relation.lhs.expand .sub relation.rhs.expand).expand

/-- A comparison of an expression with zero. -/
def toZero (expr : Expr) (comparison : Comparison) : Relation := ⟨expr, comparison, .zero⟩

/-- The comparison of a variable with the remainder, moved over and divided by the coefficient. -/
def dividedBy (x : Operand) (comparison : Comparison) (parts : Collected) :
    Except ExactError Relation := do
  let rhs ← Term.divide (Term.negateAll parts.remainder) (Term.join parts.coefficients)
  return ⟨.leaf x, comparison, rhs⟩

/-- Isolates a variable with the given coefficients and remainder. Dividing by a negative number
mirrors an inequality; by a number of unknown sign it cannot be divided. -/
def divideOut (x : Operand) (comparison : Comparison) (parts : Collected) :
    Except SolveError Relation :=
  let (comparison', parts') :=
    if parts.allSubtracted then (comparison.mirrored, parts.negate) else (comparison, parts)
  match (Term.join parts'.coefficients).constantSign with
  | .error cause => .error (.inexact cause)
  | .ok (some sign) =>
    if sign < 0 then
      (dividedBy x comparison'.mirrored parts'.negate).mapError .inexact
    else (dividedBy x comparison' parts').mapError .inexact
  | .ok none =>
    if comparison = .eq then (dividedBy x comparison' parts').mapError .inexact
    else .error (.indeterminateSign x.text (Term.join parts'.coefficients))

/-- Whether no coefficient is left, or those that are add up to zero. -/
def cancels (parts : Collected) : Except ExactError Bool :=
  if parts.coefficients.isEmpty then .ok true else (Term.join parts.coefficients).isZero

/-- The stages behind the collected difference. -/
def isolationOf (relation : Relation) (x : Operand) (reached : List Stage) (parts : Collected) :
    Isolation :=
  match cancels parts with
  | .error cause => ⟨reached, .error (.inexact cause)⟩
  | .ok true => ⟨reached, .error (.unknownVariable x.text relation)⟩
  | .ok false =>
    let factored := toZero (Term.factored x parts) relation.comparison
    match divideOut x relation.comparison parts with
    | .error cause => ⟨reached ++ [⟨.factor, factored⟩], .error cause⟩
    | .ok isolated =>
      ⟨reached ++ [⟨.factor, factored⟩, ⟨.isolate, isolated⟩], .ok isolated⟩

/-- The way to the relation with a variable alone on the left. -/
def isolation (relation : Relation) (name : String) : Isolation :=
  match Operand.ofText? name with
  | none => ⟨[], .error (.unknownVariable name relation)⟩
  | some x =>
    if name ∈ relation.variables then
      let reached := [⟨.expand, relation.expand⟩,
        ⟨.collect, toZero relation.difference relation.comparison⟩]
      match relation.difference.collect name with
      | .error cause => ⟨reached, .error (.nonlinear cause)⟩
      | .ok parts => isolationOf relation x reached parts
    else ⟨[], .error (.unknownVariable name relation)⟩

/-- The relation with a variable alone on the left. -/
def solve (relation : Relation) (name : String) : Except SolveError Relation :=
  (relation.isolation name).answer

end Relation

end LinearRelations
