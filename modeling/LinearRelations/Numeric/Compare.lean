import LinearRelations.Numeric.Evaluate
import LinearRelations.Relation.Basic

/-!
# Numeric comparison

Equality of floating-point numbers is tested within a tolerance that grows with the right side;
the other comparisons are exact.

* `within`: the tolerance, in any arithmetic;
* `Relation.holds`: whether a relation holds at given values.
-/

namespace LinearRelations

/-- Whether two numbers differ by at most an absolute and a relative tolerance. -/
def within {α : Type} [Add α] [Sub α] [Mul α] [LE α] [DecidableLE α] (size : α → α)
    (absolute relative x y : α) : Bool :=
  size (x - y) ≤ absolute + relative * size y

/-- Whether two doubles are close: equal, or within the tolerance of a finite right one. -/
def isClose (x y : Float) : Bool :=
  (within Float.abs 1e-6 1e-5 x y && y.isFinite) || x == y

/-- One truth value, or one for every entry of a series. -/
inductive Truth where
  | single (b : Bool)
  | series (bs : List Bool)
  deriving DecidableEq, Repr

namespace Comparison

/-- The comparison of doubles. -/
def holdsFloat : Comparison → Float → Float → Bool
  | eq, x, y => isClose x y
  | lt, x, y => x < y
  | le, x, y => x ≤ y
  | gt, x, y => y < x
  | ge, x, y => y ≤ x

/-- The comparison of exact numbers. -/
def holdsRat : Comparison → Rat → Rat → Bool
  | eq, p, q => p == q
  | lt, p, q => p < q
  | le, p, q => p ≤ q
  | gt, p, q => q < p
  | ge, p, q => q ≤ p

/-- The exact value of a single finite quantity. -/
def exactValue? : Quantity → Option Rat
  | .whole n => some n
  | .plain x => Double.toRat? x
  | .lenient x => Double.toRat? x
  | .series _ => none

/-- The comparison of quantities: exact for single ones, unless it is for equality. -/
def holds (comparison : Comparison) (a b : Quantity) : Except QuantityError Truth := do
  match comparison == .eq, exactValue? a, exactValue? b with
  | false, some p, some q => return .single (comparison.holdsRat p q)
  | _, _, _ =>
    match ← a.doubles, ← b.doubles with
    | .one _ x, .one _ y => return .single (comparison.holdsFloat x y)
    | .one _ x, .many ys => .series <$> Quantity.zip comparison.holdsFloat [x] ys
    | .many xs, .one _ y => .series <$> Quantity.zip comparison.holdsFloat xs [y]
    | .many xs, .many ys => .series <$> Quantity.zip comparison.holdsFloat xs ys

end Comparison

/-- Whether a relation holds at the values of its variables. -/
def Relation.holds (values : Values) (relation : Relation) : Except EvaluationError Truth := do
  let lhs ← relation.lhs.evaluate values
  let rhs ← relation.rhs.evaluate values
  (relation.comparison.holds lhs rhs).mapError .arithmetic

end LinearRelations
