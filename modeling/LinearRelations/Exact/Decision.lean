import LinearRelations.Exact.Enclosure
import LinearRelations.Exact.Fraction

/-!
# Exact tests

The three questions that isolating a variable asks of an expression.

* `Expr.constantValue`: the rational value of an expression without variables;
* `Expr.constantSign`: the sign of an expression without variables;
* `Expr.isZero`: whether an expression is identically zero;
* `Expr.valueAt`: the value where rational numbers take the place of variables.
-/

namespace LinearRelations

/-- What is left of an expression when numbers have taken the place of its variables. -/
inductive ExactValue where
  | rational (q : Rat)
  | unbounded
  | undefined
  /-- An irrational number, or an expression in which variables are left. -/
  | other
  deriving DecidableEq, Repr

namespace ExactValue

def ofCombination : Option Combination → ExactValue
  | none => undefined
  | some (.mk (.finite q) []) => rational q
  | some (.mk .unbounded []) => unbounded
  | some _ => other

def toRat? : ExactValue → Option Rat
  | rational q => some q
  | _ => none

end ExactValue

/-- The sign of a rational number. -/
def signOf (q : Rat) : Int := if 0 < q then 1 else if q < 0 then -1 else 0

/-- Whether an atom is algebraic. -/
def Atom.isAlgebraic : Atom → Bool
  | rootTwo => true
  | _ => false

mutual

/-- Whether every atom is algebraic. -/
def Combination.isAlgebraic : Combination → Bool
  | .mk _ ts => Combination.termsAlgebraic ts

def Combination.termsAlgebraic : List Product → Bool
  | [] => true
  | t :: ts => t.isAlgebraic && Combination.termsAlgebraic ts

def Product.isAlgebraic : Product → Bool
  | .mk _ ps => Product.powersAlgebraic ps

def Product.powersAlgebraic : List Power → Bool
  | [] => true
  | p :: ps => p.isAlgebraic && Product.powersAlgebraic ps

def Power.isAlgebraic : Power → Bool
  | .mk b _ => b.isAlgebraic

def Base.isAlgebraic : Base → Bool
  | .atom a => a.isAlgebraic
  | .sum c => c.isAlgebraic

end

namespace Combination

/-- Whether a combination in the given variables is identically zero; one with an unbounded
value in it is not. -/
def isZero (names : List String) (c : Combination) : Bool :=
  match c.fraction? names with
  | some f => f.vanishes
  | none => false

/-- The sign of a combination without variables. That a number is zero although its terms do not
cancel is seen for algebraic numbers only. -/
def sign? (c : Combination) : Option Int :=
  match c.toRat? with
  | some q => some (signOf q)
  | none =>
    match c.fraction? [] with
    | none => none
    | some f =>
      if f.vanishes then if c.isAlgebraic then some 0 else none
      else c.enclosedSign?

end Combination

namespace Expr

def isConstant (expr : Expr) : Bool := expr.variables.isEmpty

/-- The rational value of an expression without variables. -/
def constantValue (expr : Expr) : Except ExactError (Option Rat) :=
  if expr.isConstant then do
    let value ← expr.combination
    return (ExactValue.ofCombination value).toRat?
  else .ok none

/-- The sign of an expression without variables: -1, 0 or 1. -/
def constantSign (expr : Expr) : Except ExactError (Option Int) :=
  if expr.isConstant then do
    let value ← expr.combination
    return value.bind Combination.sign?
  else .ok none

/-- Whether an expression is zero for all values of its variables. Where a divisor is identically
zero, the gathering of like terms and factors decides whether it matters. -/
def isZero (expr : Expr) : Except ExactError Bool := do
  let value ← expr.combination
  let names := sortedNames expr.variables
  match expr.fraction? names with
  | some f => return f.vanishes
  | none => return (value.map (Combination.isZero names)).getD false

/-- Puts numbers in the place of variables, one variable after the other. -/
def assign (values : List (String × Rat)) (value : Option Combination) : Option Combination :=
  values.foldl (fun c (name, q) => c.bind (Combination.substitute? name (.ofRat q))) value

/-- The exact value at the given numbers, taken in the order of the names. -/
def valueAt (values : List (String × Rat)) (expr : Expr) : Except ExactError ExactValue := do
  let value ← expr.combination
  let rising := values.mergeSort fun a b => (compare a.1 b.1).isLE
  return ExactValue.ofCombination (assign rising value)

end Expr

end LinearRelations
