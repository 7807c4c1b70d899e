import LinearRelations.Exact.Combination

/-!
# Enclosures

A number without variables is enclosed between two rationals that come closer to each other with
the number of binary places; as soon as they have the same sign, the number has it too.

* `Enclosure.ofAtom?`: an atom between two rationals;
* `Combination.enclosure?`: a combination between two rationals;
* `Combination.enclosedSign?`: the sign that enclosures show.
-/

namespace LinearRelations

structure Enclosure where
  lo : Rat
  hi : Rat
  deriving DecidableEq, Repr

namespace Enclosure

-- Powers and bounds are those of the numbers themselves, whatever other instances are in scope.
attribute [local instance (2000)] instPowNat Rat.instMin Rat.instMax

def ofRat (q : Rat) : Enclosure := ⟨q, q⟩

/-- The numbers from `a` to `b` in units of `2 ^ -places`. -/
def ofUnits (places : Nat) (a b : Int) : Enclosure :=
  ⟨mkRat a (2 ^ places), mkRat b (2 ^ places)⟩

def add (x y : Enclosure) : Enclosure := ⟨x.lo + y.lo, x.hi + y.hi⟩

def scale (q : Rat) (x : Enclosure) : Enclosure :=
  if q < 0 then ⟨q * x.hi, q * x.lo⟩ else ⟨q * x.lo, q * x.hi⟩

def mul (x y : Enclosure) : Enclosure :=
  let a := x.lo * y.lo
  let b := x.lo * y.hi
  let c := x.hi * y.lo
  let d := x.hi * y.hi
  ⟨min (min a b) (min c d), max (max a b) (max c d)⟩

/-- The inverse, unless zero may be enclosed. -/
def inverse? (x : Enclosure) : Option Enclosure :=
  if 0 < x.lo ∨ x.hi < 0 then some ⟨x.hi⁻¹, x.lo⁻¹⟩ else none

def power (x : Enclosure) : Nat → Enclosure
  | 0 => ofRat 1
  | k + 1 => (x.power k).mul x

def raise? (x : Enclosure) : Int → Option Enclosure
  | .ofNat k => some (x.power k)
  | .negSucc k => x.inverse?.map fun y => y.power (k + 1)

/-- The sign of all enclosed numbers, if it is one and the same. -/
def sign? (x : Enclosure) : Option Int :=
  if 0 < x.lo then some 1 else if x.hi < 0 then some (-1) else none

/-- The square root of a natural number, rounded down. -/
def sqrtFloor (m : Nat) : Nat :=
  if m = 0 then 0
  else
    let r := 2 * sqrtFloor (m / 4)
    if (r + 1) * (r + 1) ≤ m then r + 1 else r
termination_by m
decreasing_by omega

/-- The square root of the enclosed numbers, none of which is negative. -/
def sqrt (places : Nat) (x : Enclosure) : Enclosure :=
  let units (q : Rat) : Nat := sqrtFloor (q * (4 ^ places : Nat)).floor.toNat
  ofUnits places (units x.lo) (units x.hi + 1)

/-- The sum of `unit / (k ^ (2 * i + 1) * (2 * i + 1))` for `count` values of `i`, every term
rounded down and the signs alternating or all plus. -/
def oddPowerSum (alternating : Bool) (k : Nat) : (count i power : Nat) → Int
  | 0, _, _ => 0
  | count + 1, i, power =>
    let term : Int := (power / (2 * i + 1) : Nat)
    let rest := oddPowerSum alternating k count (i + 1) (power / (k * k))
    if alternating && i % 2 == 1 then rest - term else rest + term

/-- The inverse tangent of `1 / k`, or the hyperbolic one. -/
def inverseTangent (alternating : Bool) (k places : Nat) : Enclosure :=
  let sum := oddPowerSum alternating k places 0 (2 ^ places / k)
  ofUnits places (sum - places - 1) (sum + places + 1)

/-- The sum of `unit / i!` for `count` values of `i`, every term rounded down. -/
def factorialSum : (count i term : Nat) → Nat
  | 0, _, _ => 0
  | count + 1, i, term => term + factorialSum count (i + 1) (term / (i + 1))

def e (places : Nat) : Enclosure :=
  let sum := factorialSum (places + 2) 0 (2 ^ places)
  ofUnits places sum (sum + places + 4)

/-- The circle number, as sixteen inverse tangents of 1/5 less four of 1/239. -/
def pi (places : Nat) : Enclosure :=
  ((inverseTangent true 5 places).scale 16).add ((inverseTangent true 239 places).scale (-4))

/-- Twice the inverse hyperbolic tangent of 1/3. -/
def lnTwo (places : Nat) : Enclosure := (inverseTangent false 3 places).scale 2

/-- Three times the logarithm of two and twice the inverse hyperbolic tangent of 1/9. -/
def lnTen (places : Nat) : Enclosure :=
  ((lnTwo places).scale 3).add ((inverseTangent false 9 places).scale 2)

/-- An atom that is a number. -/
def ofAtom? (places : Nat) : Atom → Option Enclosure
  | .rootTwo => some (sqrt places (ofRat 2))
  | .rootPi => some (sqrt places (pi places))
  | .e => some (e places)
  | .lnTwo => some (lnTwo places)
  | .lnTen => some (lnTen places)
  | .unknown _ => none

end Enclosure

def Scale.enclosure? : Scale → Option Enclosure
  | finite q => some (.ofRat q)
  | unbounded => none

mutual

/-- A combination without variables between two rationals. -/
def Combination.enclosure? (places : Nat) : Combination → Option Enclosure
  | .mk c ts => do
    let x ← c.enclosure?
    Combination.termsEnclosure? places x ts

def Combination.termsEnclosure? (places : Nat) (sum : Enclosure) :
    List Product → Option Enclosure
  | [] => some sum
  | t :: ts => do
    let x ← t.enclosure? places
    Combination.termsEnclosure? places (sum.add x) ts

def Product.enclosure? (places : Nat) : Product → Option Enclosure
  | .mk c ps => do
    let x ← c.enclosure?
    Product.powersEnclosure? places x ps

def Product.powersEnclosure? (places : Nat) (product : Enclosure) :
    List Power → Option Enclosure
  | [] => some product
  | p :: ps => do
    let x ← p.enclosure? places
    Product.powersEnclosure? places (product.mul x) ps

def Power.enclosure? (places : Nat) : Power → Option Enclosure
  | .mk b k => do
    let x ← b.enclosure? places
    x.raise? k

def Base.enclosure? (places : Nat) : Base → Option Enclosure
  | .atom a => Enclosure.ofAtom? places a
  | .sum c => c.enclosure? places

end

/-- The sign of a number without variables, at the first number of places at which its enclosure
shows it; the places are made four times as many until then. -/
def Combination.signFrom? (c : Combination) (places : Nat) : Option Int :=
  match (c.enclosure? places).bind Enclosure.sign? with
  | some sign => some sign
  | none => c |>.signFrom? (4 * places)
partial_fixpoint

/-- The sign of a number without variables other than zero. -/
def Combination.enclosedSign? (c : Combination) : Option Int := c.signFrom? 64

end LinearRelations
