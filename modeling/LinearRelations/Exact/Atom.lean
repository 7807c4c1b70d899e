import LinearRelations.Constant

/-!
# Atoms

An atom is a quantity that arithmetic cannot take apart: a variable, or one of five numbers from
which every built-in constant is made by powers and rational factors.

* `Atom.compare`: the order in which atoms are listed in a product;
* `Constant.parts`: a constant as a rational multiple of powers of atoms.
-/

namespace LinearRelations

inductive Atom where
  /-- The square root of two. -/
  | rootTwo
  /-- The square root of the circle number. -/
  | rootPi
  /-- The base of the natural logarithm. -/
  | e
  /-- The natural logarithm of two. -/
  | lnTwo
  /-- The natural logarithm of ten. -/
  | lnTen
  | unknown (name : String)
  deriving DecidableEq, Repr

namespace Atom

def rank : Atom → Nat
  | rootTwo => 0
  | rootPi => 1
  | e => 2
  | lnTwo => 3
  | lnTen => 4
  | unknown _ => 5

def name : Atom → String
  | unknown name => name
  | _ => ""

/-- Constants first, then variables by name. -/
def compare (a b : Atom) : Ordering :=
  (Ord.compare a.rank b.rank).then (Ord.compare a.name b.name)

def isUnknown : Atom → Bool
  | unknown _ => true
  | _ => false

end Atom

/-- The rational factor of a constant, and the atom and exponent of its other factor. -/
def Constant.parts : Constant → Rat × Atom × Int
  | pi => (1, .rootPi, 2)
  | piHalf => (1 / 2, .rootPi, 2)
  | piQuarter => (1 / 4, .rootPi, 2)
  | onePerPi => (1, .rootPi, -2)
  | twoPerPi => (2, .rootPi, -2)
  | twoPerRootPi => (2, .rootPi, -1)
  | e => (1, .e, 1)
  | logTwoE => (1, .lnTwo, -1)
  | logTenE => (1, .lnTen, -1)
  | lnTwo => (1, .lnTwo, 1)
  | lnTen => (1, .lnTen, 1)
  | rootTwo => (1, .rootTwo, 1)
  | rootHalf => (1 / 2, .rootTwo, 1)

end LinearRelations
