import LinearRelations.Exact.Combination
import LinearRelations.Numeric.Double

/-!
# The order of evaluation

Floating-point sums and products depend on the order of their parts. The terms of a sum are taken
by falling powers of its variables, the first variable deciding first, and by rising size where
the powers are the same; the factors of a product are taken by kind: numbers, variables by name,
sums, exponentials and logarithms.

* `SortKey`: what a part of a form is sorted by;
* `Combination.arranged`: a combination with its terms and factors in the order of evaluation,
  the constant being one of the terms.
-/

namespace LinearRelations

/-- The kind of a part, its name, the keys of its own parts, its exponent and coefficient. -/
inductive SortKey where
  | mk (rank : Nat) (name : String) (parts : List SortKey) (exponent coefficient : Rat)

namespace SortKey

/-- The order of rational numbers. -/
def compareRat (p q : Rat) : Ordering := if p < q then .lt else if q < p then .gt else .eq

mutual

/-- Kinds first, then the number of parts, names, parts, exponents and coefficients. -/
def compare : SortKey → SortKey → Ordering
  | mk r s ps k c, mk r' s' ps' k' c' =>
    (Ord.compare r r').then <| (Ord.compare ps.length ps'.length).then <|
      (Ord.compare s s').then <| (compareParts ps ps').then <|
        (compareRat k k').then (compareRat c c')

def compareParts : List SortKey → List SortKey → Ordering
  | [], [] => .eq
  | [], _ :: _ => .lt
  | _ :: _, [] => .gt
  | p :: ps, q :: qs => (compare p q).then (compareParts ps qs)

end

def number (q : Rat) : SortKey := mk 0 "" [] 1 q

/-- The key with another exponent. -/
def withExponent (exponent : Rat) : SortKey → SortKey
  | mk r s ps _ c => mk r s ps exponent c

/-- The key with another coefficient. -/
def withCoefficient (coefficient : Rat) : SortKey → SortKey
  | mk r s ps k _ => mk r s ps k coefficient

def isLE (a b : SortKey) : Bool := (compare a b).isLE

end SortKey

/-- The key of a power of an atom. -/
def Atom.key (exponent : Int) : Atom → SortKey
  | rootTwo => .mk 1 "" [] exponent 1
  | e => if exponent = 1 then .mk 2 "" [] 1 1 else .mk 7 "" [.number exponent] 1 1
  | rootPi => .mk 3 "" [] (mkRat exponent 2) 1
  | unknown name => .mk 4 name [] exponent 1
  | lnTwo => .mk 8 "" [.number 2] exponent 1
  | lnTen => .mk 8 "" [.number 10] exponent 1

def Scale.toRat : Scale → Rat
  | finite q => q
  | unbounded => 0

mutual

/-- The key of a combination whose parts are in order. -/
def Combination.key : Combination → SortKey
  | .mk _ ts => .mk 6 "" (Combination.termKeys ts) 1 1

def Combination.termKeys : List Product → List SortKey
  | [] => []
  | t :: ts => t.key :: Combination.termKeys ts

def Product.key : Product → SortKey
  | .mk c [] => .number c.toRat
  | .mk c [p] => p.key.withCoefficient c.toRat
  | .mk c ps => .mk 5 "" (Product.powerKeys ps) 1 c.toRat

def Product.powerKeys : List Power → List SortKey
  | [] => []
  | p :: ps => p.key :: Product.powerKeys ps

def Power.key : Power → SortKey
  | .mk b k => b.key k

def Base.key (exponent : Int) : Base → SortKey
  | .atom a => a.key exponent
  | .sum c => c.key.withExponent exponent

end

/-! ### Sizes of terms -/

/-- The nearest double, infinite beyond the largest. -/
def doubleOrInfinity (q : Rat) : Float :=
  match Double.nearest? q with
  | some x => x
  | none => if q < 0 then -(1 / 0) else 1 / 0

/-- The size of an atom that is a number. -/
def Atom.size : Atom → Float
  | rootTwo => Float.sqrt 2
  | rootPi => Float.sqrt 3.141592653589793
  | e => 2.718281828459045
  | lnTwo => Float.log 2
  | lnTen => Float.log 10
  | unknown _ => 1

mutual

/-- The size of a combination, variables counting as one. -/
def Combination.size : Combination → Float
  | .mk c ts => Combination.termsSize (doubleOrInfinity c.toRat) ts

def Combination.termsSize (sum : Float) : List Product → Float
  | [] => sum
  | t :: ts => Combination.termsSize (sum + t.size) ts

/-- The size of the numeric factors of a product. -/
def Product.size : Product → Float
  | .mk c ps => Product.powersSize (doubleOrInfinity c.toRat) ps

def Product.powersSize (product : Float) : List Power → Float
  | [] => product
  | p :: ps => Product.powersSize (if p.isClosed then product * p.size else product) ps

def Power.size : Power → Float
  | .mk b k => b.size.pow (Float.ofInt k)

def Base.size : Base → Float
  | .atom a => a.size
  | .sum c => c.size

end

/-! ### Ordered terms -/

namespace Product

/-- The bases with variables and their exponents. -/
def openPowers (product : Product) : List (SortKey × Int) :=
  (product.powers.filter fun p => !p.isClosed).map fun p => (p.base.key 1, p.exponent)

/-- The exponents at a list of bases, zero for those that are missing. -/
def exponentsAt (bases : List SortKey) (product : Product) : List Int :=
  let powers := product.openPowers
  bases.map fun base =>
    ((powers.find? fun p => p.1.compare base == .eq).map Prod.snd).getD 0

end Product

namespace Combination

/-- The bases with variables of all terms, in order. -/
def openBases (terms : List Product) : List SortKey :=
  (terms.flatMap fun t => t.openPowers.map Prod.fst).mergeSort SortKey.isLE

/-- Whether exponents, or else sizes, put one term before another. -/
def precedes (a b : List Int × Float) : Bool :=
  match Ord.compare a.1 b.1 with
  | .gt => true
  | .lt => false
  | .eq => a.2 ≤ b.2

/-- The terms by falling exponents and rising sizes. -/
def orderedTerms (terms : List Product) : List Product :=
  let bases := openBases terms
  let keyed := terms.map fun t => ((t.exponentsAt bases, t.size), t)
  (keyed.mergeSort fun a b => precedes a.1 b.1).map Prod.snd

/-- The constant as a term in front of the others, unless it is a superfluous zero. -/
def withConstant (constant : Scale) (terms : List Product) : List Product :=
  if constant == .finite 0 && !terms.isEmpty then terms else .mk constant [] :: terms

end Combination

mutual

/-- The combination in the order of evaluation, the constant among the terms. -/
def Combination.arranged : Combination → Combination
  | .mk c ts =>
    .mk (.finite 0) <|
      Combination.orderedTerms (Combination.withConstant c (Combination.arrangedTerms ts))

def Combination.arrangedTerms : List Product → List Product
  | [] => []
  | t :: ts => t.arranged :: Combination.arrangedTerms ts

def Product.arranged : Product → Product
  | .mk c ps => .mk c ((Product.arrangedPowers ps).mergeSort fun p q => p.key.isLE q.key)

def Product.arrangedPowers : List Power → List Power
  | [] => []
  | p :: ps => p.arranged :: Product.arrangedPowers ps

def Power.arranged : Power → Power
  | .mk b k => .mk b.arranged k

def Base.arranged : Base → Base
  | .atom a => .atom a
  | .sum c => .sum c.arranged

end

end LinearRelations
