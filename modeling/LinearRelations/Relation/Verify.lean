import LinearRelations.Exact.Decision
import LinearRelations.Numeric.Compare
import LinearRelations.Numeric.Generator
import LinearRelations.Relation.Basic

/-!
# Verifying an answer

An isolated relation is checked against the relation it came from in two ways: put in the place
of the variable, its right side must make both sides equal, and at random points the two relations
must agree.

* `Relation.residual`: the difference of the sides behind the substitution;
* `Relation.spotCheck`: how many of the sample points agree.
-/

namespace LinearRelations

/-- What the difference of two sides comes to. -/
inductive Residual where
  | zero
  | undefined
  | unbounded
  /-- The difference is not identically zero, or not seen to be. -/
  | other (difference : Expr)
  deriving DecidableEq, Repr

namespace Residual

def shown : Residual → String
  | zero => "0"
  | undefined => "nan"
  | unbounded => "zoo"
  | other difference => difference.render

end Residual

/-- How many sample points agree, of those at which all values are finite. -/
structure SpotCheck where
  agreeing : Nat
  finite : Nat
  deriving DecidableEq, Repr

namespace Relation

/-- The difference of the sides with an expression in the place of a variable. -/
def substituted (relation : Relation) (name : String) (value : Expr) : Expr :=
  .replace name value (.node relation.lhs .sub relation.rhs)

/-- The residual by gathering like terms and factors before and after the substitution. -/
def gatheredResidual (difference : Expr) (name : String) (shown value : Expr) :
    Except ExactError Residual := do
  let outer ← difference.combination
  let inner ← value.combination
  let result : Option Combination := do
    let c ← outer
    if c.hasVariable (· == name) then
      let d ← inner
      Combination.substitute? name d c
    else some c
  match result with
  | none => return .undefined
  | some (.mk .unbounded []) => return .unbounded
  | some c => return if c.isZero (sortedNames shown.variables) then .zero else .other shown

/-- The difference of the sides of a relation with an expression in the place of a variable. -/
def residual (relation : Relation) (name : String) (value : Expr) :
    Except ExactError Residual := do
  let difference := relation.substituted name value
  let _ ← relation.lhs.combination
  let _ ← relation.rhs.combination
  let _ ← value.combination
  match difference.fraction? (sortedNames difference.variables) with
  | some f => return if f.vanishes then .zero else .other difference
  | none => gatheredResidual (.node relation.lhs .sub relation.rhs) name difference value

/-! ### Sample points -/

/-- The number of sample points. -/
def sampleCount : Nat := 32

/-- The largest size of a sample. -/
def sampleRange : Nat := 10

/-- Random values for names, one series for each of them. -/
def samples : List String → Generator → Values
  | [], _ => []
  | name :: rest, g =>
    let lo := -(Float.ofNat sampleRange)
    let (xs, g) := g.uniforms lo (Float.ofNat (2 * sampleRange)) sampleCount
    (name, .series xs) :: samples rest g

/-- A quantity as one double for each sample point. -/
def spread (quantity : Quantity) : Except EvaluationError (List Float) := do
  match ← quantity.doubles.mapError .arithmetic with
  | .one _ x => return List.replicate sampleCount x
  | .many [x] => return List.replicate sampleCount x
  | .many xs => return xs

/-- Truth values, one for each sample point. -/
def spreadTruth : Truth → List Bool
  | .single b => List.replicate sampleCount b
  | .series [b] => List.replicate sampleCount b
  | .series bs => bs

def countBoth (finite agree : List Bool) : SpotCheck :=
  ⟨(List.zipWith and agree finite).count true, finite.count true⟩

/-- Compares the sides of a relation at the values that an equation gives to a variable. -/
def spotCheckEquation (relation solved : Relation) (name : String) (values : Values) :
    Except EvaluationError SpotCheck := do
  let boundary ← spread (← solved.rhs.evaluate values)
  let values := (name, .series boundary) :: values
  let lhs ← spread (← relation.lhs.evaluate values)
  let rhs ← spread (← relation.rhs.evaluate values)
  let finite := List.zipWith (fun x y => x.isFinite && y.isFinite) lhs rhs
  return countBoth finite (List.zipWith isClose lhs rhs)

/-- Compares the truth of two relations. -/
def spotCheckInequality (relation solved : Relation) (values : Values) :
    Except EvaluationError SpotCheck := do
  let lhs ← spread (← relation.lhs.evaluate values)
  let rhs ← spread (← relation.rhs.evaluate values)
  let boundary ← spread (← solved.rhs.evaluate values)
  let finite := List.zipWith and (List.zipWith and (lhs.map Float.isFinite)
    (rhs.map Float.isFinite)) (boundary.map Float.isFinite)
  let before ← relation.holds values
  let after ← solved.holds values
  return countBoth finite (List.zipWith (· == ·) (spreadTruth before) (spreadTruth after))

/-- Compares a relation and its answer at random points. -/
def spotCheck (relation solved : Relation) (name : String) :
    Except EvaluationError SpotCheck :=
  let names := sortedNames (relation.variables ++ solved.variables)
  let values := samples names Generator.seeded
  if solved.isEquation then spotCheckEquation relation solved name values
  else spotCheckInequality relation solved values

end Relation

end LinearRelations
