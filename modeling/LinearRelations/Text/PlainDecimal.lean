import LinearRelations.Text.Numeral

/-!
# Plain decimals

A rational number whose denominator has no prime factor but two and five can be written with
digits and at most one point. The plain decimal of a number is that of its size: no sign is
written, no power of ten, and no more digits behind the point than needed. A number of too many
digits is refused.

* `decimalPlaces?`: the number of digits behind the point;
* `plainDecimal`: the text, or why there is none.
-/

namespace LinearRelations.Text

/-- How often a factor of at least two divides a positive number, and the quotient. -/
def factorCount (p n : Nat) : Nat × Nat :=
  if _h : 1 < p ∧ 0 < n ∧ n % p = 0 then
    let (count, rest) := factorCount p (n / p)
    (count + 1, rest)
  else (0, n)
termination_by n
decreasing_by exact Nat.div_lt_self _h.2.1 _h.1

/-- The digits behind the point that a denominator calls for; none if no number of them is
enough. -/
def decimalPlaces? (denominator : Nat) : Option Nat :=
  let (twos, rest) := factorCount 2 denominator
  let (fives, rest) := factorCount 5 rest
  if rest = 1 then some (max twos fives) else none

/-- Digits with zeros in front to make them as many as asked for. -/
def padded (width : Nat) (digits : List Char) : List Char :=
  List.replicate (width - digits.length) '0' ++ digits

/-- The digits of a number with a point before the last few of them. -/
def pointed (places n : Nat) : List Char :=
  if places = 0 then Nat.toDigits 10 n
  else
    let digits := padded (places + 1) (Nat.toDigits 10 n)
    let whole := digits.length - places
    digits.take whole ++ '.' :: digits.drop whole

-- Powers are those of the natural numbers themselves, whatever other instances are in scope.
attribute [local instance (2000)] instPowNat

/-- The most digits behind the point. -/
def placeLimit : Nat := 1999999999999999997

/-- The size of a number in units of a decimal place. -/
def unitsAt (places : Nat) (q : Rat) : Nat := q.num.natAbs * 10 ^ places / q.den

/-- The size of a rational number, if it has a finite decimal expansion. -/
def plainDecimal (q : Rat) : Except ExactError (Option String) :=
  match decimalPlaces? q.den with
  | none => .ok none
  | some places =>
    if placeLimit < places then .error .textTooLong
    else if isLong (unitsAt places q) then .error .tooManyDigits
    else .ok (some (String.ofList (pointed places (unitsAt places q))))

end LinearRelations.Text
