import LinearRelations.Numeric.Double

/-!
# Quantities

Evaluation works on whole numbers, which are exact, on floating-point numbers and on series of
them. A plain number refuses to be divided by zero or to overflow in a power; a number that an
elementary function has returned, and every entry of a series, becomes infinite or undefined
instead. The result of an operation is of the more permissive kind of its operands.

* `Quantity.add`, `Quantity.mul`, `Quantity.div`, `Quantity.pow`: arithmetic;
* `Quantity.apply`: an elementary function.
-/

namespace LinearRelations

inductive Quantity where
  | whole (n : Int)
  | plain (x : Float)
  | lenient (x : Float)
  | series (xs : List Float)
  deriving Repr

/-- Why an arithmetic operation has no result. -/
inductive QuantityError where
  | divisionByZero
  | overflow
  | lengths (m n : Nat)
  /-- A number, or a series of them, has the name of the function to be applied. -/
  | notFunction (isSeries : Bool)
  deriving DecidableEq, Repr

namespace Quantity

def isSeries : Quantity → Bool
  | series _ => true
  | _ => false

/-- The nearest double of a rational number, which must not lie beyond the largest. -/
def float (q : Rat) : Except QuantityError Float :=
  match Double.nearest? q with
  | some x => .ok x
  | none => .error .overflow

/-- A rational number: a whole one stays exact. -/
def ofRat (q : Rat) : Except QuantityError Quantity :=
  if q.den = 1 then .ok (whole q.num) else plain <$> float q

/-- A quantity as the doubles it holds, alone or in a series. -/
inductive Doubles where
  | one (isPlain : Bool) (x : Float)
  | many (xs : List Float)

def doubles : Quantity → Except QuantityError Doubles
  | whole n => Doubles.one true <$> float n
  | plain x => .ok (.one true x)
  | lenient x => .ok (.one false x)
  | series xs => .ok (.many xs)

/-- Pairs the entries of two series; a series of one entry goes with any other. -/
def zip {α : Type} (f : Float → Float → α) (xs ys : List Float) : Except QuantityError (List α) :=
  match xs, ys with
  | [x], ys => .ok (ys.map (f x))
  | xs, [y] => .ok (xs.map (f · y))
  | xs, ys =>
    if xs.length = ys.length then .ok (List.zipWith f xs ys)
    else .error (.lengths xs.length ys.length)

/-- An operation on doubles, with a test for the plain operands that it refuses. -/
def lift (f : Float → Float → Float) (check : Float → Float → Except QuantityError Unit)
    (a b : Quantity) : Except QuantityError Quantity := do
  match ← a.doubles, ← b.doubles with
  | .one true x, .one true y => do
    check x y
    return plain (f x y)
  | .one _ x, .one _ y => return lenient (f x y)
  | .one _ x, .many ys => series <$> zip f [x] ys
  | .many xs, .one _ y => series <$> zip f xs [y]
  | .many xs, .many ys => series <$> zip f xs ys

/-- No operands are refused. -/
def unchecked (_ _ : Float) : Except QuantityError Unit := .ok ()

def add : Quantity → Quantity → Except QuantityError Quantity
  | whole m, whole n => .ok (whole (m + n))
  | a, b => lift (· + ·) unchecked a b

def mul : Quantity → Quantity → Except QuantityError Quantity
  | whole m, whole n => .ok (whole (m * n))
  | a, b => lift (· * ·) unchecked a b

/-- A plain number is not divided by zero. -/
def checkDivisor (_ y : Float) : Except QuantityError Unit :=
  if y == 0 then .error .divisionByZero else .ok ()

def div : Quantity → Quantity → Except QuantityError Quantity :=
  lift (· / ·) checkDivisor

/-- A plain power of zero must not be negative, and one of a finite number not be infinite. -/
def checkPower (x y : Float) : Except QuantityError Unit :=
  if x == 0 && y < 0 then .error .divisionByZero
  else if x.isFinite && (x.pow y).isInf then .error .overflow
  else .ok ()

/-- A power with a floating-point exponent. -/
def pow (a : Quantity) (exponent : Float) : Except QuantityError Quantity :=
  lift Float.pow checkPower a (plain exponent)

def neg : Quantity → Quantity
  | whole n => whole (-n)
  | plain x => plain (-x)
  | lenient x => lenient (-x)
  | series xs => series (xs.map (- ·))

/-- The value of an elementary function at a number. -/
def apply (f : Float → Float) (x : Float) : Quantity := lenient (f x)

end Quantity

end LinearRelations
