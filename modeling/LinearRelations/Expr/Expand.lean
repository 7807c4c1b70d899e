import LinearRelations.Expr.Basic

/-!
# Expanding products and quotients over sums

An expression is expanded by distributing each product over the sums in its factors, left factor
first, and each quotient over the sum in its numerator. A divisor is expanded by itself and
never split.

* `Expr.distribute`, `Expr.distributeRight`: the product of two expanded expressions;
* `Expr.shareDivisor`: the quotient of two expanded expressions;
* `Expr.expand`: the expanded form.
-/

namespace LinearRelations.Expr

/-- The product of a factor that is no sum with an expanded expression. -/
def distributeRight (lhs : Expr) : Expr → Expr
  | node a .add b => node (lhs.distributeRight a) .add (lhs.distributeRight b)
  | node a .sub b => node (lhs.distributeRight a) .sub (lhs.distributeRight b)
  | rhs => node lhs .mul rhs

/-- The product of two expanded expressions, term by term. -/
def distribute (rhs : Expr) : Expr → Expr
  | node a .add b => node (rhs.distribute a) .add (rhs.distribute b)
  | node a .sub b => node (rhs.distribute a) .sub (rhs.distribute b)
  | lhs => lhs.distributeRight rhs

/-- The quotient of an expanded expression, term by term. -/
def shareDivisor (divisor : Expr) : Expr → Expr
  | node a .add b => node (divisor.shareDivisor a) .add (divisor.shareDivisor b)
  | node a .sub b => node (divisor.shareDivisor a) .sub (divisor.shareDivisor b)
  | numerator => node numerator .div divisor

/-- Distributes products and quotients over sums, everywhere. -/
def expand : Expr → Expr
  | leaf operand => leaf operand
  | node lhs .mul rhs => rhs.expand.distribute lhs.expand
  | node lhs .div rhs => rhs.expand.shareDivisor lhs.expand
  | node lhs .add rhs => node lhs.expand .add rhs.expand
  | node lhs .sub rhs => node lhs.expand .sub rhs.expand

end LinearRelations.Expr
