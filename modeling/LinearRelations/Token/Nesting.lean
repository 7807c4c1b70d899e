import LinearRelations.Token.Basic

/-!
# Nesting of parentheses

A token list is nested when no closing parenthesis comes before its opening one and none of them
stays open; other tokens do not matter.

* `depthAfter?`: the number of parentheses left open, or `none` where one closes too early;
* `isNested`: the test.
-/

namespace LinearRelations.Token

/-- How many parentheses are open behind the tokens, if as many as `depth` were before them. -/
def depthAfter? : Nat → List Token → Option Nat
  | depth, [] => some depth
  | depth, opening _ :: rest => depthAfter? (depth + 1) rest
  | 0, closing _ :: _ => none
  | depth + 1, closing _ :: rest => depthAfter? depth rest
  | depth, operand _ :: rest => depthAfter? depth rest
  | depth, operator _ _ :: rest => depthAfter? depth rest
  | depth, relation _ :: rest => depthAfter? depth rest

def isNested (tokens : List Token) : Bool := depthAfter? 0 tokens == some 0

end LinearRelations.Token
