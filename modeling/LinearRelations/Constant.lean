/-!
# Built-in constants

Thirteen mathematical constants have names of their own. They stand for their real values, are
never variables and are written out by name.
-/

namespace LinearRelations

inductive Constant where
  | pi
  | piHalf
  | piQuarter
  | onePerPi
  | twoPerPi
  | twoPerRootPi
  | e
  | logTwoE
  | logTenE
  | lnTwo
  | lnTen
  | rootTwo
  | rootHalf
  deriving DecidableEq, Repr

namespace Constant

/-- Every constant with its name. -/
def named : List (String × Constant) :=
  [("M_PI", pi), ("M_PI_2", piHalf), ("M_PI_4", piQuarter), ("M_1_PI", onePerPi),
    ("M_2_PI", twoPerPi), ("M_2_SQRTPI", twoPerRootPi), ("M_E", e), ("M_LOG2E", logTwoE),
    ("M_LOG10E", logTenE), ("M_LN2", lnTwo), ("M_LN10", lnTen), ("M_SQRT2", rootTwo),
    ("M_SQRT1_2", rootHalf)]

/-- The constant of a name. -/
def ofName? (name : String) : Option Constant := named.lookup name

end Constant

/-- Whether a text is the name of a built-in constant. -/
def isConstantName (text : String) : Bool := (Constant.ofName? text).isSome

end LinearRelations
