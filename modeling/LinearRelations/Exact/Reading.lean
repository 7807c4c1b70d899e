import LinearRelations.Exact.Combination
import LinearRelations.Expr.Basic

/-!
# Exact values of expressions

Every finite number, constant and variable has an exact value, and so has every expression that
is built from them; a signed infinity and an undefined number have none. A number can be read only
if its digits are within range.

* `Operand.meaning?`: what a leaf stands for;
* `Operand.read`: what it is read as;
* `Expr.combination`: the value of an expression with like terms and factors gathered, `none` if
  it is undefined.
-/

namespace LinearRelations

/-- What a leaf stands for. -/
inductive LeafValue where
  | number (q : Rat)
  | constant (c : Constant)
  | unknown (name : String)
  deriving DecidableEq, Repr

/-- What a name stands for. -/
def LeafValue.ofName (name : String) : LeafValue :=
  match Constant.ofName? name with
  | some c => constant c
  | none => unknown name

namespace Operand

/-- What an operand stands for, however large a number it is. -/
def meaning? (operand : Operand) : Option LeafValue :=
  if Text.isName operand.text then some (.ofName operand.text)
  else
    match Text.Numeral.read? operand.text with
    | some numeral => numeral.value?.map .number
    | none => some (.unknown operand.text)

/-- What an operand is read as. -/
def read (operand : Operand) : Except ExactError LeafValue :=
  if Text.isName operand.text then .ok (.ofName operand.text)
  else
    match Text.Numeral.read? operand.text with
    | some numeral => numeral.exact.map .number
    | none => .ok (.unknown operand.text)

end Operand

namespace LeafValue

def combination : LeafValue → Combination
  | number q => Combination.ofRat q
  | constant c =>
    let (q, atom, exponent) := c.parts
    Combination.ofProduct (.mk (.finite q) [.mk (.atom atom) exponent])
  | unknown name => Combination.ofAtom (.unknown name) 1

end LeafValue

namespace Operator

/-- The operator on combinations; undefined operands make an undefined result. -/
def combine? (op : Operator) (lhs rhs : Option Combination) : Option Combination := do
  let c ← lhs
  let d ← rhs
  match op with
  | mul => c.mul? d
  | div => c.div? d
  | add => c.add? d
  | sub => c.sub? d

end Operator

/-- The value of an expression with like terms and like factors gathered. -/
def Expr.combination : Expr → Except ExactError (Option Combination)
  | leaf operand => do
    let value ← operand.read
    return some value.combination
  | node lhs op rhs => do
    let c ← lhs.combination
    let d ← rhs.combination
    return op.combine? c d

end LinearRelations
