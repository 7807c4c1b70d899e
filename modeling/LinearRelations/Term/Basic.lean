import LinearRelations.Expr.Basic

/-!
# Signed terms

A sum is a list of signed terms, read from left to right; what is no sum is one term.

* `Expr.terms`: the terms of a sum, the signs behind a minus turned around;
* `Term.join`: the left-nested sum of a list, added terms before subtracted ones;
* `Term.negateAll`: every sign turned around.
-/

namespace LinearRelations

inductive Sign where
  | plus
  | minus
  deriving DecidableEq, Repr

namespace Sign

def negate : Sign → Sign
  | plus => minus
  | minus => plus

/-- The operator that adds or subtracts. -/
def operator : Sign → Operator
  | plus => .add
  | minus => .sub

/-- The product of two signs. -/
def times : Sign → Sign → Sign
  | plus, s => s
  | minus, s => s.negate

@[simp] theorem negate_negate (s : Sign) : s.negate.negate = s := by cases s <;> rfl

end Sign

structure Term where
  sign : Sign
  body : Expr
  deriving DecidableEq, Repr

namespace Term

def negate (term : Term) : Term := { term with sign := term.sign.negate }

def negateAll (terms : List Term) : List Term := terms.map negate

def added (terms : List Term) : List Term := terms.filter fun term => term.sign == .plus

def subtracted (terms : List Term) : List Term := terms.filter fun term => term.sign == .minus

/-- A sum with one more signed term behind it. -/
def append (sum : Expr) (term : Term) : Expr := .node sum term.sign.operator term.body

/-- The sum of terms in the order given, begun from zero where the first one is subtracted. -/
def joinInOrder : List Term → Expr
  | [] => .zero
  | ⟨.plus, body⟩ :: rest => rest.foldl append body
  | ⟨.minus, body⟩ :: rest => rest.foldl append (.node .zero .sub body)

/-- The sum of terms, the added ones first. -/
def join (terms : List Term) : Expr := joinInOrder (added terms ++ subtracted terms)

end Term

/-- The signed terms of an expression that itself stands under a sign. -/
def Expr.terms (sign : Sign) : Expr → List Term
  | .leaf operand => [⟨sign, .leaf operand⟩]
  | .node lhs .add rhs => lhs.terms sign ++ rhs.terms sign
  | .node lhs .sub rhs => lhs.terms sign ++ rhs.terms sign.negate
  | .node lhs .mul rhs => [⟨sign, .node lhs .mul rhs⟩]
  | .node lhs .div rhs => [⟨sign, .node lhs .div rhs⟩]

end LinearRelations
