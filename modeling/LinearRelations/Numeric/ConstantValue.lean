import LinearRelations.Constant

/-!
# Constants as doubles

The double nearest to each built-in constant.
-/

namespace LinearRelations.Constant

def toFloat : Constant → Float
  | pi => 3.141592653589793
  | piHalf => 1.5707963267948966
  | piQuarter => 0.7853981633974483
  | onePerPi => 0.3183098861837907
  | twoPerPi => 0.6366197723675814
  | twoPerRootPi => 1.1283791670955126
  | e => 2.718281828459045
  | logTwoE => 1.4426950408889634
  | logTenE => 0.4342944819032518
  | lnTwo => 0.6931471805599453
  | lnTen => 2.302585092994046
  | rootTwo => 1.4142135623730951
  | rootHalf => 0.7071067811865476

end LinearRelations.Constant
