import LinearRelations.Constant
import LinearRelations.Text.Numeral

/-!
# Expressions

An expression is an operand, a number or a name, or two expressions joined by one of the four
arithmetic operators.

* `Expr.render`: the canonical text, every node in parentheses;
* `Expr.variables`: the names that are no constants, occurrence by occurrence;
* `Expr.snippet`: the text with every variable looked up in a table.
-/

namespace LinearRelations

inductive Operator where
  | mul
  | div
  | add
  | sub
  deriving DecidableEq, Repr

namespace Operator

def symbol : Operator → String
  | mul => "*"
  | div => "/"
  | add => "+"
  | sub => "-"

def ofSymbol? (text : String) : Option Operator :=
  if text = "*" then some mul
  else if text = "/" then some div
  else if text = "+" then some add
  else if text = "-" then some sub
  else none

/-- Whether the operator makes a sum: plus or minus. -/
def isAdditive : Operator → Bool
  | add => true
  | sub => true
  | _ => false

theorem ofSymbol?_symbol (op : Operator) : ofSymbol? op.symbol = some op := by
  cases op <;> rfl

end Operator

/-- Whether a text can stand as an operand: a number or a name. -/
def isOperand (text : String) : Bool := Text.isNumeral text || Text.isName text

structure Operand where
  text : String
  valid : isOperand text = true
  deriving DecidableEq, Repr

namespace Operand

def ofText? (text : String) : Option Operand :=
  if h : isOperand text = true then some ⟨text, h⟩ else none

theorem ofText?_text (operand : Operand) : ofText? operand.text = some operand := by
  simp [ofText?, operand.valid]

def isNumeral (operand : Operand) : Bool := Text.isNumeral operand.text

/-- Whether the operand is a name and not the name of a constant. -/
def isVariable (operand : Operand) : Bool :=
  !operand.isNumeral && !isConstantName operand.text

end Operand

inductive Expr where
  | leaf (operand : Operand)
  | node (lhs : Expr) (op : Operator) (rhs : Expr)
  deriving DecidableEq, Repr

namespace Expr

def one : Expr := leaf ⟨"1", by decide⟩

def zero : Expr := leaf ⟨"0", by decide⟩

/-- Whether the outermost operator is a plus or a minus. -/
def isAdditive : Expr → Bool
  | leaf _ => false
  | node _ op _ => op.isAdditive

/-- The canonical text: a leaf as it is, a node in parentheses. -/
def render : Expr → String
  | leaf operand => operand.text
  | node lhs op rhs => "(" ++ lhs.render ++ " " ++ op.symbol ++ " " ++ rhs.render ++ ")"

/-- Whether the text of some leaf is the given one. -/
def hasLeaf (text : String) : Expr → Bool
  | leaf operand => operand.text == text
  | node lhs _ rhs => lhs.hasLeaf text || rhs.hasLeaf text

/-- The canonical text with each variable as an entry of a table of values. -/
def snippet (table : String) : Expr → String
  | leaf operand =>
    if operand.isVariable then table ++ "['" ++ operand.text ++ "']" else operand.text
  | node lhs op rhs =>
    "(" ++ lhs.snippet table ++ " " ++ op.symbol ++ " " ++ rhs.snippet table ++ ")"

/-- Puts an expression in the place of a variable. -/
def replace (name : String) (replacement : Expr) : Expr → Expr
  | leaf operand =>
    if operand.isVariable && operand.text == name then replacement else leaf operand
  | node lhs op rhs => node (replace name replacement lhs) op (replace name replacement rhs)

end Expr

/-- The variables from left to right, as often as they occur. -/
def Expr.variables : Expr → List String
  | leaf operand => if operand.isVariable then [operand.text] else []
  | node lhs _ rhs => lhs.variables ++ rhs.variables

/-- Names in rising order, each once. -/
def sortedNames (names : List String) : List String :=
  (names.mergeSort fun a b => (compare a b).isLE).eraseDups

end LinearRelations
