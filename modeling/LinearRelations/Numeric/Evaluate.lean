import LinearRelations.Exact.Reading
import LinearRelations.Numeric.Arrange
import LinearRelations.Numeric.Quantity

/-!
# Numeric evaluation

An expression is evaluated in floating-point arithmetic after its like terms and factors have been
gathered, so that what cancels is never computed. Its numbers are written out for that, so none of
them may have too many digits. The variables may have the names of constants and functions, and
hide these then.

* `Combination.hasLongNumber`: whether a number in a combination has too many digits;
* `Combination.evaluate`: the value of an arranged combination;
* `Expr.evaluate`: the value of an expression, every variable having one.
-/

namespace LinearRelations

/-- Why an expression has no numeric value. -/
inductive EvaluationError where
  | inexact (cause : ExactError)
  | unboundedValue
  | missingValue (name : String)
  | arithmetic (cause : QuantityError)
  deriving DecidableEq, Repr

/-- The values of the variables of an expression. -/
abbrev Values := List (String × Quantity)

namespace Values

/-- A number under its written name; a variable of that name hides it. -/
def number (values : Values) (name : String) (x : Float) : Quantity :=
  (values.lookup name).getD (.plain x)

def pi (values : Values) : Quantity := values.number "pi" 3.141592653589793

def e (values : Values) : Quantity := values.number "e" 2.718281828459045

def undefined (values : Values) : Quantity := values.number "nan" (0 / 0)

/-- An elementary function under its written name; a variable of that name cannot be applied. -/
def function (values : Values) (name : String) (f : Float → Float) :
    Except QuantityError (Float → Float) :=
  match values.lookup name with
  | some value => .error (.notFunction value.isSeries)
  | none => .ok f

def sqrt (values : Values) : Except QuantityError (Float → Float) := values.function "sqrt" Float.sqrt

def exp (values : Values) : Except QuantityError (Float → Float) := values.function "exp" Float.exp

def log (values : Values) : Except QuantityError (Float → Float) := values.function "log" Float.log

end Values

namespace Quantity

/-- An elementary function of a quantity. -/
def elementary (f : Float → Float) : Quantity → Except QuantityError Quantity
  | whole n => apply f <$> float n
  | plain x => .ok (apply f x)
  | lenient x => .ok (apply f x)
  | series xs => .ok (series (xs.map f))

/-- A power of the circle number, from twice the exponent. -/
def piPower (values : Values) (twice : Int) : Except QuantityError Quantity :=
  if twice = 2 then .ok values.pi
  else if twice = 1 then do values.pi.elementary (← values.sqrt)
  else if twice = -1 then do (whole 1).div (← values.pi.elementary (← values.sqrt))
  else values.pi.pow (Float.ofInt twice / 2)

/-- A whole power; the first one is the quantity itself. -/
def wholePower (a : Quantity) (exponent : Int) : Except QuantityError Quantity :=
  if exponent = 1 then .ok a else a.pow (Float.ofInt exponent)

end Quantity

open Quantity (piPower wholePower)

/-- The value of a power of an atom. -/
def Atom.evaluate (values : Values) (exponent : Int) : Atom → Except QuantityError Quantity
  | rootTwo => do wholePower (.apply (← values.sqrt) 2) exponent
  | rootPi => piPower values exponent
  | e =>
    if exponent = 1 then .ok values.e
    else do return .apply (← values.exp) (Float.ofInt exponent)
  | lnTwo => do wholePower (.apply (← values.log) 2) exponent
  | lnTen => do wholePower (.apply (← values.log) 10) exponent
  | unknown name => wholePower (values.number name (0 / 0)) exponent

/-! ### Long numbers -/

/-- Whether a numerator or a denominator has too many digits. -/
def Scale.isLong : Scale → Bool
  | .finite q => Text.isLong q.num.natAbs || Text.isLong q.den
  | .unbounded => false

mutual

/-- Whether a number in a combination has too many digits. -/
def Combination.hasLongNumber : Combination → Bool
  | .mk c ts => c.isLong || Combination.termsHaveLongNumber ts

def Combination.termsHaveLongNumber : List Product → Bool
  | [] => false
  | t :: ts => t.hasLongNumber || Combination.termsHaveLongNumber ts

def Product.hasLongNumber : Product → Bool
  | .mk c ps => c.isLong || Product.powersHaveLongNumber ps

def Product.powersHaveLongNumber : List Power → Bool
  | [] => false
  | p :: ps => p.hasLongNumber || Product.powersHaveLongNumber ps

def Power.hasLongNumber : Power → Bool
  | .mk b _ => b.hasLongNumber

def Base.hasLongNumber : Base → Bool
  | .atom _ => false
  | .sum c => c.hasLongNumber

end

/-! ### Values -/

/-- Whether a power divides the other factors of a product; exponentials never do. -/
def Power.isDivisor : Power → Bool
  | .mk (.atom .e) _ => false
  | .mk _ k => k < 0

/-- The quotient of the factors above and below the line, or the negative of it. -/
def quotientOf (isNegative : Bool) (above below : Option Quantity) :
    Except QuantityError Quantity := do
  let num := above.getD (.whole 1)
  let value ←
    match below with
    | none => pure num
    | some den => num.div den
  return if isNegative then value.neg else value

/-- A quantity times another, if there is one. -/
def timesFactor (product : Option Quantity) (factor : Quantity) :
    Except QuantityError (Option Quantity) :=
  match product with
  | none => .ok (some factor)
  | some a => some <$> a.mul factor

/-- The rational factor of a product, written only if it is not one. -/
def leadingFactor (q : Rat) : Except QuantityError (Option Quantity) :=
  if q = 1 then .ok none else some <$> Quantity.ofRat q

def sizeOfRat (q : Rat) : Rat := if q < 0 then -q else q

mutual

/-- The sum of the terms of an arranged combination, from left to right. -/
def Combination.evaluate (values : Values) : Combination → Except QuantityError Quantity
  | .mk _ [] => .ok (.whole 0)
  | .mk _ (t :: ts) => do
    let first ← t.evaluate values
    Combination.evaluateTerms values first ts

def Combination.evaluateTerms (values : Values) (sum : Quantity) :
    List Product → Except QuantityError Quantity
  | [] => .ok sum
  | t :: ts => do
    let value ← t.evaluate values
    let sum' ← sum.add value
    Combination.evaluateTerms values sum' ts

/-- The product of the factors with positive exponents over that of the others. -/
def Product.evaluate (values : Values) : Product → Except QuantityError Quantity
  | .mk c [] => Quantity.ofRat c.toRat
  | .mk c ps =>
    if c == .finite 1 && ps.length == 1 then Product.evaluateSingle values ps
    else do
      let factor ← leadingFactor (sizeOfRat c.toRat)
      let above ← Product.evaluateAbove values factor ps
      let below ← Product.evaluateBelow values none ps
      quotientOf (c.toRat < 0) above below

def Product.evaluateSingle (values : Values) : List Power → Except QuantityError Quantity
  | [] => .ok (.whole 1)
  | p :: _ => p.evaluate values 1

def Product.evaluateAbove (values : Values) (product : Option Quantity) :
    List Power → Except QuantityError (Option Quantity)
  | [] => .ok product
  | p :: ps =>
    if p.isDivisor then Product.evaluateAbove values product ps
    else do
      let factor ← p.evaluate values 1
      let product' ← timesFactor product factor
      Product.evaluateAbove values product' ps

def Product.evaluateBelow (values : Values) (product : Option Quantity) :
    List Power → Except QuantityError (Option Quantity)
  | [] => .ok product
  | p :: ps =>
    if p.isDivisor then do
      let factor ← p.evaluate values (-1)
      let product' ← timesFactor product factor
      Product.evaluateBelow values product' ps
    else Product.evaluateBelow values product ps

/-- A power, its exponent turned around below the line. -/
def Power.evaluate (values : Values) (direction : Int) : Power → Except QuantityError Quantity
  | .mk b k => b.evaluate values (direction * k)

def Base.evaluate (values : Values) (exponent : Int) : Base → Except QuantityError Quantity
  | .atom a => a.evaluate values exponent
  | .sum c => do
    let value ← c.evaluate values
    wholePower value exponent

end

namespace Expr

/-- The values of the variables of an expression, in the order of their names. -/
def valuesOf (values : Values) (expr : Expr) : Except EvaluationError Values :=
  (sortedNames expr.variables).mapM fun name =>
    match values.lookup name with
    | some value => .ok (name, value)
    | none => .error (.missingValue name)

/-- The numeric value of an expression. -/
def evaluate (values : Values) (expr : Expr) : Except EvaluationError Quantity := do
  let value ← expr.combination.mapError .inexact
  if (value.map Combination.isUnbounded).getD false then .error .unboundedValue
  else if (value.map Combination.hasLongNumber).getD false then .error (.inexact .tooManyDigits)
  else
    let known ← expr.valuesOf values
    match value with
    | none => return known.undefined
    | some c => (c.arranged.evaluate known).mapError .arithmetic

end Expr

end LinearRelations
