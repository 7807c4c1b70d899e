import LinearRelations.Expr.Parse

/-!
# Relations

A relation compares two expressions.

* `Comparison.mirrored`: the comparison after both sides change their sign;
* `Relation.parse`: the relation that a text writes;
* `Relation.ofSides`: the relation of a comparison and two sides;
* `Relation.render`: the canonical text;
* `Relation.swapped`: the sides exchanged.
-/

namespace LinearRelations

inductive Comparison where
  | eq
  | lt
  | le
  | gt
  | ge
  deriving DecidableEq, Repr

namespace Comparison

def symbol : Comparison → String
  | eq => "="
  | lt => "<"
  | le => "<="
  | gt => ">"
  | ge => ">="

def ofSymbol? (text : String) : Option Comparison :=
  if text = "=" then some eq
  else if text = "<" then some lt
  else if text = "<=" then some le
  else if text = ">" then some gt
  else if text = ">=" then some ge
  else none

def ofSymbol (text : String) : Except ParseError Comparison :=
  match ofSymbol? text with
  | some comparison => .ok comparison
  | none => .error (.unknownComparison text)

/-- The comparison that a relation token names. -/
def ofToken : Token → Except ParseError Comparison
  | .relation text => ofSymbol text
  | token => .error (.unknownComparison token.text)

def mirrored : Comparison → Comparison
  | eq => eq
  | lt => gt
  | le => ge
  | gt => lt
  | ge => le

@[simp] theorem mirrored_mirrored (c : Comparison) : c.mirrored.mirrored = c := by
  cases c <;> rfl

theorem ofSymbol?_symbol (c : Comparison) : ofSymbol? c.symbol = some c := by
  cases c <;> rfl

end Comparison

structure Relation where
  lhs : Expr
  comparison : Comparison
  rhs : Expr
  deriving DecidableEq, Repr

namespace Relation

def render (relation : Relation) : String :=
  relation.lhs.render ++ " " ++ relation.comparison.symbol ++ " " ++ relation.rhs.render

def isEquation (relation : Relation) : Bool := relation.comparison == .eq

def swapped (relation : Relation) : Relation :=
  ⟨relation.rhs, relation.comparison.mirrored, relation.lhs⟩

/-- How many relation tokens a list has. -/
def comparisonCount (tokens : List Token) : Nat :=
  tokens.countP fun token => token.kind == .relation

/-- The relation that a text writes: exactly one comparison between two expressions. -/
def parse (text : String) : Except ParseError Relation := do
  let tokens := Token.scan Token.relationSymbols text
  let before := tokens.takeWhile fun token => token.kind != .relation
  match tokens.drop before.length with
  | [] => .error (.missingComparison text)
  | sign :: after =>
    if 1 < comparisonCount tokens then
      .error (.severalComparisons text (comparisonCount tokens))
    else
      let lhs ← Expr.parse (Token.joined before)
      let rhs ← Expr.parse (Token.joined after)
      let comparison ← Comparison.ofToken sign
      return ⟨lhs, comparison, rhs⟩

/-- A side of a relation that is given as a text, or as something else. -/
def sideOf (side : String) : Option String → Except ParseError Expr
  | some text => Expr.parse text
  | none => .error (.sideNotExpression side)

/-- The relation of a comparison and two sides. -/
def ofSides (lhs : Option String) (comparison : Comparison) (rhs : Option String) :
    Except ParseError Relation := do
  let lhs ← sideOf "lhs" lhs
  let rhs ← sideOf "rhs" rhs
  return ⟨lhs, comparison, rhs⟩

end Relation

/-- The variables of both sides, as often as they occur. -/
def Relation.variables (relation : Relation) : List String :=
  relation.lhs.variables ++ relation.rhs.variables

end LinearRelations
