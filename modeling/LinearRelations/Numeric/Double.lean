/-!
# Doubles

Between exact numbers and floating-point numbers of double precision.

* `Double.nearest?`: the double nearest to a rational number, of two the one with an even last
  bit; `none` beyond the largest double;
* `Double.toRat?`: the exact value of a finite double.
-/

namespace LinearRelations.Double

-- Powers are those of the natural numbers themselves, whatever other instances are in scope.
attribute [local instance (2000)] instPowNat

/-- The bits of the fraction in a double, the lowest ones. -/
def fractionBits : Nat := 52

/-- The bits of the exponent, between the fraction and the sign. -/
def exponentBits : Nat := 11

/-- The quotient rounded to the nearest whole number, a half to the even one. -/
def roundedQuotient (n d : Nat) : Nat :=
  let q := n / d
  let r := n % d
  if 2 * r < d then q
  else if d < 2 * r then q + 1
  else if q % 2 = 0 then q else q + 1

/-- The quotient in units of `2 ^ exponent`. -/
def quotientInUnits (n d : Nat) (exponent : Int) : Nat :=
  if 0 ≤ exponent then roundedQuotient n (d * 2 ^ exponent.toNat)
  else roundedQuotient (n * 2 ^ (-exponent).toNat) d

/-- The exponent of the last of 53 places in a positive quotient, at least -1074. -/
def lastPlace (n d : Nat) : Int :=
  let guess : Int := Nat.log2 n - Nat.log2 d
  let below :=
    if 0 ≤ guess then decide (n < d * 2 ^ guess.toNat)
    else decide (n * 2 ^ (-guess).toNat < d)
  max (-1074) ((if below then guess - 1 else guess) - fractionBits)

/-- The bits of the double nearest to a positive quotient. -/
def positiveBits (n d : Nat) : Nat :=
  let exponent := lastPlace n d
  (exponent + 1074).toNat * 2 ^ fractionBits + quotientInUnits n d exponent

/-- The bits of positive infinity, above those of every positive finite double. -/
def infinityBits : Nat := 0x7FF0000000000000

def nearest? (q : Rat) : Option Float :=
  if q.num = 0 then some 0
  else
    let bits := positiveBits q.num.natAbs q.den
    if infinityBits ≤ bits then none
    else
      let size := Float.ofBits (UInt64.ofNat bits)
      some (if q.num < 0 then -size else size)

def toRat? (x : Float) : Option Rat :=
  let bits := x.toBits.toNat
  let biased := bits / 2 ^ fractionBits % 2 ^ exponentBits
  let fraction := bits % 2 ^ fractionBits
  if biased = 0x7FF then none
  else
    let significand := if biased = 0 then fraction else fraction + 2 ^ fractionBits
    let exponent : Int := (max biased 1 : Nat) - (1075 : Int)
    let size : Rat :=
      if 0 ≤ exponent then ((significand * 2 ^ exponent.toNat : Nat) : Rat)
      else mkRat significand (2 ^ (-exponent).toNat)
    some (if 2 ^ (fractionBits + exponentBits) ≤ bits then -size else size)

end LinearRelations.Double
