import LinearRelations.Exact.Polynomial
import LinearRelations.Exact.Reading

/-!
# Fractions of polynomials

An expression whose divisors are not identically zero is a fraction of polynomials in its
variables and in the atoms of the constants. It is identically zero when the numerator is.

* `Fraction`: a numerator and a denominator;
* `Expr.fraction?`: the fraction of an expression, `none` where a divisor is identically zero;
* `Combination.fraction?`: the same for a combination.
-/

namespace LinearRelations

/-- A fraction of polynomials whose first unknown is the square root of two. -/
structure Fraction (n : Nat) where
  num : Polynomial (n + 1)
  den : Polynomial (n + 1)

namespace Fraction

variable {n : Nat}

def ofRat (q : Rat) : Fraction n := ⟨Polynomial.ofRat q _, Polynomial.ofRat 1 _⟩

def unknown (i : Nat) : Fraction n := ⟨Polynomial.unknown _ i, Polynomial.ofRat 1 _⟩

/-- Whether the fraction is identically zero. -/
def vanishes (f : Fraction n) : Bool := f.num.vanishes

def neg (f : Fraction n) : Fraction n := ⟨f.num.neg, f.den⟩

/-- The sum; a common denominator is kept. -/
def add (f g : Fraction n) : Fraction n :=
  if f.den.beq g.den then ⟨f.num.add g.num, f.den⟩
  else ⟨(f.num.mul g.den).add (g.num.mul f.den), f.den.mul g.den⟩

def mul (f g : Fraction n) : Fraction n := ⟨f.num.mul g.num, f.den.mul g.den⟩

/-- The inverse of a fraction that is not identically zero. -/
def inverse? (f : Fraction n) : Option (Fraction n) :=
  if f.vanishes then none else some ⟨f.den, f.num⟩

def power (f : Fraction n) : Nat → Fraction n
  | 0 => ofRat 1
  | k + 1 => (f.power k).mul f

/-- A whole power, negative only of a fraction that is not identically zero. -/
def raise? (f : Fraction n) : Int → Option (Fraction n)
  | .ofNat k => some (f.power k)
  | .negSucc k => f.inverse?.map fun g => g.power (k + 1)

end Fraction

/-- The index of an atom among the unknowns: the constants first, then the listed names. -/
def Atom.index (names : List String) : Atom → Nat
  | unknown name => 5 + names.idxOf name
  | atom => atom.rank

/-- The number of unknowns behind the square root of two. -/
abbrev unknownCount (names : List String) : Nat := names.length + 4

namespace LeafValue

def fraction? (names : List String) : LeafValue → Option (Fraction (unknownCount names))
  | number q => some (.ofRat q)
  | constant c =>
    let (q, atom, exponent) := c.parts
    ((Fraction.unknown (atom.index names)).raise? exponent).map (Fraction.mul (.ofRat q))
  | unknown name => some (.unknown ((Atom.unknown name).index names))

end LeafValue

namespace Operator

def fraction? {n : Nat} (op : Operator) (f g : Fraction n) : Option (Fraction n) :=
  match op with
  | mul => some (f.mul g)
  | div => g.inverse?.map f.mul
  | add => some (f.add g)
  | sub => some (f.add g.neg)

end Operator

/-- The fraction that an expression is in the given variables, once its leaves have been read. -/
def Expr.fraction? (names : List String) : Expr → Option (Fraction (unknownCount names))
  | leaf operand => operand.meaning?.bind (LeafValue.fraction? names)
  | node lhs op rhs => do
    let f ← lhs.fraction? names
    let g ← rhs.fraction? names
    op.fraction? f g

def Scale.fraction? {n : Nat} : Scale → Option (Fraction n)
  | finite q => some (.ofRat q)
  | unbounded => none

mutual

/-- The fraction that a combination is in the given variables. -/
def Combination.fraction? (names : List String) :
    Combination → Option (Fraction (unknownCount names))
  | .mk c ts => do
    let f ← c.fraction?
    Combination.termsFraction? names f ts

def Combination.termsFraction? (names : List String) (sum : Fraction (unknownCount names)) :
    List Product → Option (Fraction (unknownCount names))
  | [] => some sum
  | t :: ts => do
    let f ← t.fraction? names
    Combination.termsFraction? names (sum.add f) ts

def Product.fraction? (names : List String) : Product → Option (Fraction (unknownCount names))
  | .mk c ps => do
    let f ← c.fraction?
    Product.powersFraction? names f ps

def Product.powersFraction? (names : List String) (product : Fraction (unknownCount names)) :
    List Power → Option (Fraction (unknownCount names))
  | [] => some product
  | p :: ps => do
    let f ← p.fraction? names
    Product.powersFraction? names (product.mul f) ps

def Power.fraction? (names : List String) : Power → Option (Fraction (unknownCount names))
  | .mk b k => do
    let f ← b.fraction? names
    f.raise? k

def Base.fraction? (names : List String) : Base → Option (Fraction (unknownCount names))
  | .atom a => some (.unknown (a.index names))
  | .sum c => c.fraction? names

end

end LinearRelations
