import LinearRelations.Exact.Atom

/-!
# Combinations

A combination is a constant plus multiples of different products of powers: like terms are
gathered, and so are like factors, but a product of sums is not multiplied out. Dividing a number
other than zero by zero gives an unbounded value, and zero by zero an undefined one.

* `Combination`, `Product`, `Power`, `Base`: the form;
* `Combination.add?`, `Combination.mul?`, `Combination.inverse`: arithmetic on it, `none` being
  the undefined value;
* `Combination.substitute?`: a combination in the place of a variable.
-/

namespace LinearRelations

/-- A rational number, or a value beyond every bound. -/
inductive Scale where
  | finite (q : Rat)
  | unbounded
  deriving DecidableEq, Repr

namespace Scale

def isUnbounded : Scale → Bool
  | unbounded => true
  | finite _ => false

/-- The sum; two unbounded values have none. -/
def add? : Scale → Scale → Option Scale
  | finite p, finite q => some (finite (p + q))
  | unbounded, unbounded => none
  | _, _ => some unbounded

/-- The product; zero and an unbounded value have none. -/
def mul? : Scale → Scale → Option Scale
  | finite p, finite q => some (finite (p * q))
  | finite p, unbounded => if p = 0 then none else some unbounded
  | unbounded, finite q => if q = 0 then none else some unbounded
  | unbounded, unbounded => some unbounded

def negate : Scale → Scale
  | finite p => finite (-p)
  | unbounded => unbounded

def inverse : Scale → Scale
  | finite p => if p = 0 then unbounded else finite p⁻¹
  | unbounded => finite 0

def compare : Scale → Scale → Ordering
  | finite p, finite q => if p < q then .lt else if q < p then .gt else .eq
  | finite _, unbounded => .lt
  | unbounded, finite _ => .gt
  | unbounded, unbounded => .eq

end Scale

mutual

/-- A constant plus products of which no two have the same powers. -/
inductive Combination where
  | mk (constant : Scale) (terms : List Product)

/-- A multiple of powers of which no two have the same base. -/
inductive Product where
  | mk (coefficient : Scale) (powers : List Power)

inductive Power where
  | mk (base : Base) (exponent : Int)

/-- What is raised to a power: an atom, or a combination that is no single product. -/
inductive Base where
  | atom (a : Atom)
  | sum (c : Combination)

end

deriving instance Repr for Combination, Product, Power, Base

/-! ### Order -/

mutual

def Combination.compare : Combination → Combination → Ordering
  | .mk c ts, .mk c' ts' => (c.compare c').then (Combination.compareTerms ts ts')

def Combination.compareTerms : List Product → List Product → Ordering
  | [], [] => .eq
  | [], _ :: _ => .lt
  | _ :: _, [] => .gt
  | t :: ts, t' :: ts' => (t.compare t').then (Combination.compareTerms ts ts')

def Product.compare : Product → Product → Ordering
  | .mk c ps, .mk c' ps' => (Product.comparePowers ps ps').then (c.compare c')

def Product.comparePowers : List Power → List Power → Ordering
  | [], [] => .eq
  | [], _ :: _ => .lt
  | _ :: _, [] => .gt
  | p :: ps, p' :: ps' => (p.compare p').then (Product.comparePowers ps ps')

def Power.compare : Power → Power → Ordering
  | .mk b k, .mk b' k' => (b.compare b').then (Ord.compare k k')

def Base.compare : Base → Base → Ordering
  | .atom a, .atom b => a.compare b
  | .atom _, .sum _ => .lt
  | .sum _, .atom _ => .gt
  | .sum c, .sum d => c.compare d

end

/-! ### What a form contains -/

mutual

/-- Whether some variable satisfies a test. -/
def Combination.hasVariable (test : String → Bool) : Combination → Bool
  | .mk _ ts => Combination.termsHaveVariable test ts

def Combination.termsHaveVariable (test : String → Bool) : List Product → Bool
  | [] => false
  | t :: ts => t.hasVariable test || Combination.termsHaveVariable test ts

def Product.hasVariable (test : String → Bool) : Product → Bool
  | .mk _ ps => Product.powersHaveVariable test ps

def Product.powersHaveVariable (test : String → Bool) : List Power → Bool
  | [] => false
  | p :: ps => p.hasVariable test || Product.powersHaveVariable test ps

def Power.hasVariable (test : String → Bool) : Power → Bool
  | .mk b _ => b.hasVariable test

def Base.hasVariable (test : String → Bool) : Base → Bool
  | .atom (.unknown name) => test name
  | .atom _ => false
  | .sum c => c.hasVariable test

end

mutual

/-- Whether an unbounded value is left anywhere. -/
def Combination.isUnbounded : Combination → Bool
  | .mk c ts => c.isUnbounded || Combination.termsUnbounded ts

def Combination.termsUnbounded : List Product → Bool
  | [] => false
  | t :: ts => t.isUnbounded || Combination.termsUnbounded ts

def Product.isUnbounded : Product → Bool
  | .mk c ps => c.isUnbounded || Product.powersUnbounded ps

def Product.powersUnbounded : List Power → Bool
  | [] => false
  | p :: ps => p.isUnbounded || Product.powersUnbounded ps

def Power.isUnbounded : Power → Bool
  | .mk b _ => b.isUnbounded

def Base.isUnbounded : Base → Bool
  | .atom _ => false
  | .sum c => c.isUnbounded

end

namespace Power

def base : Power → Base
  | mk b _ => b

def exponent : Power → Int
  | mk _ k => k

def isClosed (power : Power) : Bool := !power.hasVariable fun _ => true

/-- Whether the base is a sum with an unbounded constant. -/
def hasUnboundedConstant : Power → Bool
  | mk (.sum (.mk .unbounded _)) _ => true
  | _ => false

def inverse : Power → Power
  | mk b k => mk b (-k)

def raise (n : Int) : Power → Power
  | mk b k => mk b (k * n)

/-- The product of two lists of powers, each rising by base. Of a quotient of equal bases nothing
is left, unless their value is unbounded. -/
def merge? : List Power → List Power → Option (List Power)
  | [], qs => some qs
  | ps, [] => some ps
  | p :: ps, q :: qs =>
    match p.base.compare q.base with
    | .lt => (merge? ps (q :: qs)).map (p :: ·)
    | .gt => (merge? (p :: ps) qs).map (q :: ·)
    | .eq =>
      if p.exponent + q.exponent = 0 then
        if p.hasUnboundedConstant then none else merge? ps qs
      else (merge? ps qs).map (mk p.base (p.exponent + q.exponent) :: ·)
termination_by ps qs => ps.length + qs.length

/-- Takes the whole powers of two out of the powers of its square root. -/
def extractTwos : List Power → Rat × List Power
  | mk (.atom .rootTwo) k :: rest =>
    let half := (2 : Rat) ^ (k / 2)
    if k % 2 = 0 then (half, rest) else (half, mk (.atom .rootTwo) 1 :: rest)
  | ps => (1, ps)

end Power

namespace Product

def coefficient : Product → Scale
  | mk c _ => c

def powers : Product → List Power
  | mk _ ps => ps

def isClosed (product : Product) : Bool := !product.hasVariable fun _ => true

/-- The order of like terms: by powers, the bounded ones first. -/
def compareKind (s t : Product) : Ordering :=
  (comparePowers s.powers t.powers).then
    (Ord.compare s.coefficient.isUnbounded.toNat t.coefficient.isUnbounded.toNat)

/-- The sum of two like terms; none where they cancel. -/
def addLike : Product → Product → Option Product
  | mk (.finite p) ps, mk (.finite q) _ => if p + q = 0 then none else some (mk (.finite (p + q)) ps)
  | mk _ ps, _ => some (mk .unbounded ps)

/-- The sum of two rising lists of terms. -/
def mergeTerms : List Product → List Product → List Product
  | [], ts => ts
  | ss, [] => ss
  | s :: ss, t :: ts =>
    match s.compareKind t with
    | .lt => s :: mergeTerms ss (t :: ts)
    | .gt => t :: mergeTerms (s :: ss) ts
    | .eq =>
      match s.addLike t with
      | some r => r :: mergeTerms ss ts
      | none => mergeTerms ss ts
termination_by ss ts => ss.length + ts.length

def scale (p : Rat) : Product → Product
  | mk (.finite q) ps => mk (.finite (p * q)) ps
  | mk .unbounded ps => mk .unbounded ps

end Product

namespace Combination

def constant : Combination → Scale
  | mk c _ => c

def terms : Combination → List Product
  | mk _ ts => ts

def ofRat (q : Rat) : Combination := mk (.finite q) []

def unbounded : Combination := mk .unbounded []

/-- The number that the combination is, if it is one. -/
def toRat? : Combination → Option Rat
  | mk (.finite q) [] => some q
  | _ => none

def isClosed (c : Combination) : Bool := !c.hasVariable fun _ => true

/-! ### Sums -/

/-- A constant and terms; an unbounded constant outweighs every term without variables. -/
def ofTerms (constant : Scale) (terms : List Product) : Combination :=
  match constant with
  | .finite q => mk (.finite q) terms
  | .unbounded => mk .unbounded (terms.filter fun t => !t.isClosed)

def add? (c d : Combination) : Option Combination :=
  (c.constant.add? d.constant).map fun s => ofTerms s (Product.mergeTerms c.terms d.terms)

/-- A multiple by a number that is not zero. -/
def scale (p : Rat) (c : Combination) : Combination :=
  match c with
  | mk (.finite q) ts => mk (.finite (p * q)) (ts.map (Product.scale p))
  | mk .unbounded ts => mk .unbounded (ts.map (Product.scale p))

def negate (c : Combination) : Combination := c.scale (-1)

def sub? (c d : Combination) : Option Combination := c.add? d.negate

/-! ### Products -/

/-- The combination as a multiple of powers; a sum is one power of itself. -/
def asProduct : Combination → Product
  | mk c [] => .mk c []
  | mk (.finite q) [t] => if q = 0 then t else .mk (.finite 1) [.mk (.sum (mk (.finite q) [t])) 1]
  | c => .mk (.finite 1) [.mk (.sum c) 1]

/-- The combination that a multiple of gathered powers is. A number times a sum is multiplied
out, and an unbounded value swallows every factor without variables. -/
def ofProduct : Product → Combination
  | .mk c powers =>
    let (two, ps) := Power.extractTwos powers
    match c with
    | .unbounded =>
      match ps.filter fun p => !p.isClosed with
      | [] => unbounded
      | open' => mk (.finite 0) [.mk .unbounded open']
    | .finite q =>
      let q := q * two
      if q = 0 then ofRat 0
      else
        match ps with
        | [] => ofRat q
        | [.mk (.sum s) 1] => s.scale q
        | ps => mk (.finite 0) [.mk (.finite q) ps]

/-- The product of two multiples of powers. -/
def times? : Product → Product → Option Product
  | .mk c ps, .mk d qs => do
    let s ← c.mul? d
    let rs ← Power.merge? ps qs
    return .mk s rs

def mul? (c d : Combination) : Option Combination :=
  (times? c.asProduct d.asProduct).map ofProduct

def inverse (c : Combination) : Combination :=
  match c.asProduct with
  | .mk s ps => ofProduct (.mk s.inverse (ps.map Power.inverse))

def div? (c d : Combination) : Option Combination := c.mul? d.inverse

/-- A scale raised to a whole power other than zero. -/
def raiseScale (n : Int) : Scale → Scale
  | .finite q => if q = 0 ∧ n < 0 then .unbounded else .finite (q ^ n)
  | .unbounded => if n < 0 then .finite 0 else .unbounded

/-- A whole power other than zero. -/
def raise (n : Int) (c : Combination) : Combination :=
  match c.asProduct with
  | .mk s ps => ofProduct (.mk (raiseScale n s) (ps.map (Power.raise n)))

def ofAtom (a : Atom) (exponent : Int) : Combination :=
  ofProduct (.mk (.finite 1) [.mk (.atom a) exponent])

end Combination

/-! ### Substitution -/

mutual

/-- Puts a value in the place of a variable and gathers like terms and factors again. -/
def Combination.substitute? (name : String) (value : Combination) :
    Combination → Option Combination
  | .mk c ts => Combination.substituteTerms? name value (.mk c []) ts

def Combination.substituteTerms? (name : String) (value : Combination) (sum : Combination) :
    List Product → Option Combination
  | [] => some sum
  | t :: ts => do
    let product ← t.substitute? name value
    let sum' ← sum.add? (Combination.ofProduct product)
    Combination.substituteTerms? name value sum' ts

def Product.substitute? (name : String) (value : Combination) : Product → Option Product
  | .mk c ps => Product.substitutePowers? name value (.mk c []) ps

def Product.substitutePowers? (name : String) (value : Combination) (product : Product) :
    List Power → Option Product
  | [] => some product
  | p :: ps => do
    let factor ← p.substitute? name value
    let product' ← Combination.times? product factor.asProduct
    Product.substitutePowers? name value product' ps

def Power.substitute? (name : String) (value : Combination) : Power → Option Combination
  | .mk b k => (b.substitute? name value).map (Combination.raise k)

def Base.substitute? (name : String) (value : Combination) : Base → Option Combination
  | .atom (.unknown x) =>
    some (if x = name then value else Combination.ofAtom (.unknown x) 1)
  | .atom a => some (Combination.ofAtom a 1)
  | .sum c => Combination.substitute? name value c

end

end LinearRelations
