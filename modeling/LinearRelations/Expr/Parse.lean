import LinearRelations.Expr.Basic
import LinearRelations.Token.Nesting
import LinearRelations.Token.Scan

/-!
# Reading expressions

A token list is read by its loosest operator outside of parentheses, the rightmost one where
several are equally loose, so that operators of one precedence group to the left.

* `ParseError`: the causes of refusal;
* `Token.unwrapped`: a token list without the parentheses that enclose all of it;
* `Token.loosest?`: the operator that splits a list, with the tokens before and behind it;
* `Expr.ofTokens`, `Expr.parse`: the expression that a token list, or a text, writes.
-/

namespace LinearRelations

/-- Why a text, a token list or the parts of a relation are no expression or relation. -/
inductive ParseError where
  | unbalanced (shown : String)
  | invalidOperand (text : String)
  | unknownOperator (symbol : String)
  | missingComparison (text : String)
  | severalComparisons (text : String) (count : Nat)
  | unknownComparison (symbol : String)
  | sideNotExpression (side : String)
  deriving DecidableEq, Repr

namespace ParseError

def message : ParseError → String
  | unbalanced shown => "There are unbalanced parentheses in the expression \"" ++ shown ++ "\"."
  | invalidOperand text =>
    "The operand \"" ++ text ++ "\" is neither a number nor a valid variable name."
  | unknownOperator symbol => "Unknown operator: " ++ symbol
  | missingComparison text =>
    "No relation operator (=, <, <=, >, >=) was found in \"" ++ text ++ "\"."
  | severalComparisons text count =>
    "A relation needs exactly one relation operator, found " ++ toString count ++ " in \"" ++
      text ++ "\"."
  | unknownComparison symbol => "The given operator (" ++ symbol ++ ") is not a valid relation."
  | sideNotExpression side => "The " ++ side ++ " of a relation must be an expression."

end ParseError

namespace Token

/-- Removes every pair of parentheses that encloses all of a nested list. -/
def unwrapped : List Token → List Token
  | opening text :: rest =>
    match rest.getLast? with
    | some (closing _) =>
      if isNested rest.dropLast then unwrapped rest.dropLast else opening text :: rest
    | _ => opening text :: rest
  | tokens => tokens
termination_by tokens => tokens.length
decreasing_by
  simp only [List.length_dropLast, List.length_cons]
  omega

theorem length_unwrapped_le (tokens : List Token) :
    (unwrapped tokens).length ≤ tokens.length := by
  fun_induction unwrapped tokens with
  | case1 text rest _ _ _ ih =>
    simp only [List.length_dropLast] at ih
    simp only [List.length_cons]
    omega
  | case2 => exact Nat.le_refl _
  | case3 => exact Nat.le_refl _
  | case4 => exact Nat.le_refl _

/-- A token list cut at one of its operators. -/
structure Split where
  before : List Token
  symbol : String
  precedence : Int
  after : List Token
  deriving DecidableEq, Repr

namespace Split

def tokens (split : Split) : List Token :=
  split.before ++ operator split.symbol split.precedence :: split.after

/-- The same cut with one more token in front. -/
def consBefore (token : Token) (split : Split) : Split :=
  { split with before := token :: split.before }

theorem tokens_consBefore (token : Token) (split : Split) :
    (split.consBefore token).tokens = token :: split.tokens := rfl

end Split

/-- The cut at the rightmost of the loosest operators outside of parentheses, `depth` of which
are open in front of the list. -/
def loosestFrom? : Nat → List Token → Option Split
  | _, [] => none
  | 0, operator symbol precedence :: rest =>
    match loosestFrom? 0 rest with
    | some split =>
      if split.precedence < precedence then some ⟨[], symbol, precedence, rest⟩
      else some (split.consBefore (operator symbol precedence))
    | none => some ⟨[], symbol, precedence, rest⟩
  | depth, opening text :: rest =>
    (loosestFrom? (depth + 1) rest).map (Split.consBefore (opening text))
  | depth, closing text :: rest =>
    (loosestFrom? (depth - 1) rest).map (Split.consBefore (closing text))
  | depth, token :: rest => (loosestFrom? depth rest).map (Split.consBefore token)

def loosest? (tokens : List Token) : Option Split := loosestFrom? 0 tokens

theorem tokens_of_loosestFrom? {depth : Nat} {tokens : List Token} {split : Split}
    (h : loosestFrom? depth tokens = some split) : split.tokens = tokens := by
  fun_induction loosestFrom? depth tokens generalizing split with
  | case1 => simp at h
  | case2 symbol precedence rest split' _ _ =>
    obtain rfl := Option.some.inj h
    rfl
  | case3 symbol precedence rest split' heq _ ih =>
    obtain rfl := Option.some.inj h
    rw [Split.tokens_consBefore, ih heq]
  | case4 symbol precedence rest _ =>
    obtain rfl := Option.some.inj h
    rfl
  | case5 depth text rest ih =>
    obtain ⟨split', h', rfl⟩ := Option.map_eq_some_iff.1 h
    rw [Split.tokens_consBefore, ih h']
  | case6 depth text rest ih =>
    obtain ⟨split', h', rfl⟩ := Option.map_eq_some_iff.1 h
    rw [Split.tokens_consBefore, ih h']
  | case7 depth token rest _ _ _ ih =>
    obtain ⟨split', h', rfl⟩ := Option.map_eq_some_iff.1 h
    rw [Split.tokens_consBefore, ih h']

theorem length_of_loosest? {tokens : List Token} {split : Split}
    (h : loosest? tokens = some split) :
    split.before.length < tokens.length ∧ split.after.length < tokens.length := by
  rw [← tokens_of_loosestFrom? h]
  simp only [Split.tokens, List.length_append, List.length_cons]
  omega

end Token

namespace Expr

open Token (Split isNested unwrapped loosest? spaced)

/-- The leaf of a text, if the text is an operand. -/
def ofText (text : String) : Except ParseError Expr :=
  match Operand.ofText? text with
  | some operand => .ok (leaf operand)
  | none => .error (.invalidOperand text)

/-- The node of two expressions and the symbol of an operator. -/
def ofParts (lhs : Expr) (symbol : String) (rhs : Expr) : Except ParseError Expr :=
  match Operator.ofSymbol? symbol with
  | some op => .ok (node lhs op rhs)
  | none => .error (.unknownOperator symbol)

/-- What a list without an operator outside of parentheses writes: one operand or nothing. -/
def ofUnsplit : List Token → Except ParseError Expr
  | [] => ofText ""
  | [.operand text] => ofText text
  | tokens => .error (.invalidOperand (spaced tokens))

/-- The expression that a token list writes. -/
def ofTokens (tokens : List Token) : Except ParseError Expr :=
  if isNested tokens then
    match _h : loosest? (unwrapped tokens) with
    | none => ofUnsplit (unwrapped tokens)
    | some split => do
      let lhs ← ofTokens split.before
      let rhs ← ofTokens split.after
      ofParts lhs split.symbol rhs
  else .error (.unbalanced (spaced tokens))
termination_by tokens.length
decreasing_by
  all_goals
    have := Token.length_unwrapped_le tokens
    have := Token.length_of_loosest? _h
    omega

/-- The expression that a text writes. -/
def parse (text : String) : Except ParseError Expr :=
  ofTokens (Token.scan Token.expressionSymbols text)

end Expr

end LinearRelations
