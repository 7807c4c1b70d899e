import LinearRelations.Exact.Decision
import LinearRelations.Term.Basic
import LinearRelations.Text.PlainDecimal

/-!
# Folding constants and dividing sums

The numeric terms of a sum are folded into one number, which takes the place of the first of
them; a sum is divided by a coefficient term by term, or as a whole if the coefficient is a sum.

* `Term.foldConstants`: one number for all numeric terms, if it has a finite decimal expansion;
* `Expr.over`: a quotient, with a fraction in the divisor turned around;
* `Term.divide`: the quotient of a sum of terms.
-/

namespace LinearRelations

/-- The leaf that writes the size of a number, if it has a finite decimal expansion. -/
def Expr.ofSize (q : Rat) : Except ExactError (Option Expr) := do
  let text ← Text.plainDecimal q
  return (text.bind Operand.ofText?).map Expr.leaf

/-- The leaf that writes the size of an expression, if that is a number with a finite decimal
expansion. -/
def Expr.sizeLiteral (expr : Expr) : Except ExactError (Option Expr) := do
  match ← expr.constantValue with
  | some q => ofSize q
  | none => return none

/-- The quotient of a term, where `t / (a / b)` is `(t / a) * b`. -/
def Expr.over (term : Expr) : Expr → Expr
  | leaf operand =>
    if leaf operand = one then term else node term .div (leaf operand)
  | node a .div b => node (term.over a) .mul b
  | divisor => node term .div divisor

namespace Term

/-- The number that a sign makes of another. -/
def signed (sign : Sign) (q : Rat) : Rat :=
  match sign with
  | .plus => q
  | .minus => -q

/-- The sign and the leaf of a number other than zero. -/
def ofNumber (q : Rat) (size : Expr) : Term := ⟨if 0 < q then .plus else .minus, size⟩

/-- The terms with their values, if they are numeric. -/
def valued (terms : List Term) : Except ExactError (List (Term × Option Rat)) :=
  terms.mapM fun term => do
    let value ← term.body.constantValue
    return (term, value)

/-- The terms that are not numeric. -/
def unvalued (terms : List (Term × Option Rat)) : List Term :=
  (terms.filter fun entry => entry.2.isNone).map Prod.fst

/-- The sum of the numeric terms. -/
def total (terms : List (Term × Option Rat)) : Rat :=
  terms.foldl (fun sum entry => sum + (entry.2.map (signed entry.1.sign)).getD 0) 0

/-- Replaces the numeric terms by their sum, written by the given leaf, in the place of the first
of them. A sum of zero is left out, unless it is all there is. -/
def replaceNumeric (terms : List (Term × Option Rat)) (size : Expr) : List Term :=
  let before := terms.takeWhile fun entry => entry.2.isNone
  let after := terms.drop before.length
  if total terms = 0 then
    match unvalued terms with
    | [] => [⟨.plus, .zero⟩]
    | kept => kept
  else unvalued before ++ ofNumber (total terms) size :: unvalued after

/-- Folds the numeric terms of a sum into one. -/
def foldConstants (terms : List Term) : Except ExactError (List Term) := do
  let entries ← valued terms
  if entries.all fun entry => entry.2.isNone then return terms
  else
    match ← Expr.ofSize (total entries) with
    | some size => return replaceNumeric entries size
    | none => return terms

/-- The terms of a quotient with constants folded, joined. -/
def divideEach (terms : List Term) (coefficient : Expr) : Except ExactError Expr := do
  let folded ← foldConstants (terms.map fun term => { term with body := term.body.over coefficient })
  return join folded

/-- A sum of terms divided by a coefficient that is not zero. -/
def divide (terms : List Term) (coefficient : Expr) : Except ExactError Expr := do
  if terms.isEmpty then return .zero
  else if coefficient.isAdditive then
    match ← coefficient.sizeLiteral with
    | some size => divideEach terms size
    | none =>
      let folded ← foldConstants terms
      return .node (join folded) .div coefficient
  else divideEach terms coefficient

end Term

end LinearRelations
