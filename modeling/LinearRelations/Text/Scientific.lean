import LinearRelations.Numeric.Double

/-!
# Scientific notation

A floating-point number is written with one digit before the point, a fixed number of digits
behind it, rounded exactly with halves to even, and a signed power of ten of at least two digits.

* `scientific`: the text of an exact number;
* `scientificDouble`: the text of a double, a zero without its sign.
-/

namespace LinearRelations.Text

-- Powers are those of the natural numbers themselves, whatever other instances are in scope.
attribute [local instance (2000)] instPowNat

/-- Ten to a whole power. -/
def powerOfTen (k : Int) : Rat :=
  if 0 ≤ k then ((10 ^ k.toNat : Nat) : Rat) else mkRat 1 (10 ^ (-k).toNat)

/-- The exponent of the first digit of a positive number. -/
def leadingExponent (q : Rat) : Int :=
  let guess : Int := (Nat.toDigits 10 q.num.natAbs).length - ((Nat.toDigits 10 q.den).length : Int)
  if q < powerOfTen guess then guess - 1 else guess

/-- The digits of a positive number and the exponent of the first of them. -/
def scientificDigits (places : Nat) (q : Rat) : List Char × Int :=
  let exponent := leadingExponent q
  let scaled := q / powerOfTen (exponent - places)
  let digits := Nat.toDigits 10 (Double.roundedQuotient scaled.num.natAbs scaled.den)
  if digits.length = places + 1 then (digits, exponent)
  else (digits.dropLast, exponent + 1)

/-- A power of ten with its sign and at least two digits. -/
def exponentText (k : Int) : List Char :=
  let digits := Nat.toDigits 10 k.natAbs
  (if k < 0 then '-' else '+') :: (if digits.length < 2 then '0' :: digits else digits)

def scientific (places : Nat) (q : Rat) : String :=
  let (digits, exponent) :=
    if q = 0 then (List.replicate (places + 1) '0', 0)
    else scientificDigits places (if q < 0 then -q else q)
  let sign := if q < 0 then ['-'] else []
  String.ofList
    (sign ++ digits.take 1 ++ '.' :: digits.drop 1 ++ 'e' :: exponentText exponent)

def scientificDouble (places : Nat) (x : Float) : String :=
  match Double.toRat? x with
  | some q => scientific places q
  | none => if x.isNaN then "nan" else if x < 0 then "-inf" else "inf"

end LinearRelations.Text
