/-!
# Tokens

A token is a classified piece of text. Only an operator carries a precedence; of two operators
the one with the lower precedence binds tighter.

* `Token`: the five kinds of token;
* `Token.ofParts`: a token from its written parts, with the causes of refusal;
* `Token.sorted`: tokens by text, then kind, then precedence;
* `Token.spaced`: the readable form of a token list.
-/

namespace LinearRelations

inductive TokenKind where
  | operand
  | operator
  | opening
  | closing
  | relation
  deriving DecidableEq, Repr

namespace TokenKind

/-- The written names of the kinds, in the order of their rank. -/
def labels : List (String × TokenKind) :=
  [("OPERAND", operand), ("OPERATOR", operator), ("OPEN_PAREN", opening),
    ("CLOSE_PAREN", closing), ("RELATION", relation)]

def label : TokenKind → String
  | operand => "OPERAND"
  | operator => "OPERATOR"
  | opening => "OPEN_PAREN"
  | closing => "CLOSE_PAREN"
  | relation => "RELATION"

def ofLabel? (text : String) : Option TokenKind := labels.lookup text

def rank : TokenKind → Nat
  | operand => 0
  | operator => 1
  | opening => 2
  | closing => 3
  | relation => 4

theorem ofLabel?_label (kind : TokenKind) : ofLabel? kind.label = some kind := by
  cases kind <;> rfl

end TokenKind

inductive Token where
  | operand (text : String)
  | operator (text : String) (precedence : Int)
  | opening (text : String)
  | closing (text : String)
  | relation (text : String)
  deriving DecidableEq, Repr

/-- A precedence as it was written: a whole number or something else, as it reads. -/
inductive WrittenPrecedence where
  | whole (n : Int)
  | other (shown : String)
  deriving DecidableEq, Repr

/-- Why the written parts of a token do not make one. -/
inductive TokenError where
  | unknownKind (shown : String)
  | precedenceNotWhole (precedence : Option WrittenPrecedence)
  | strayPrecedence (kind : TokenKind)
  deriving DecidableEq, Repr

namespace WrittenPrecedence

def shown : Option WrittenPrecedence → String
  | none => "None"
  | some (whole n) => toString n
  | some (other text) => text

end WrittenPrecedence

namespace TokenError

def message : TokenError → String
  | unknownKind shown => "The type (" ++ shown ++ ") is not valid."
  | precedenceNotWhole precedence =>
    "The precedence (" ++ WrittenPrecedence.shown precedence ++ ") must be an integer."
  | strayPrecedence kind => "Only operators carry a precedence, not " ++ kind.label ++ "."

end TokenError

namespace Token

def text : Token → String
  | operand text => text
  | operator text _ => text
  | opening text => text
  | closing text => text
  | relation text => text

def kind : Token → TokenKind
  | operand _ => .operand
  | operator _ _ => .operator
  | opening _ => .opening
  | closing _ => .closing
  | relation _ => .relation

def precedence? : Token → Option Int
  | operator _ precedence => some precedence
  | _ => none

/-- The token of a kind that carries no precedence; an operator gets the given one. -/
def ofKind (kind : TokenKind) (text : String) (precedence : Int) : Token :=
  match kind with
  | .operand => operand text
  | .operator => operator text precedence
  | .opening => opening text
  | .closing => closing text
  | .relation => relation text

/-- A token from its text, the name of its kind and its precedence, if one is written. -/
def ofParts (text kindLabel : String) (precedence : Option WrittenPrecedence) :
    Except TokenError Token :=
  match TokenKind.ofLabel? kindLabel with
  | none => .error (.unknownKind kindLabel)
  | some .operator =>
    match precedence with
    | some (.whole n) => .ok (operator text n)
    | _ => .error (.precedenceNotWhole precedence)
  | some kind =>
    match precedence with
    | none => .ok (ofKind kind text 0)
    | some _ => .error (.strayPrecedence kind)

/-- Texts by code point, then kinds by rank, then the lower precedence first. -/
def compare (a b : Token) : Ordering :=
  (Ord.compare a.text b.text).then <|
    (Ord.compare a.kind.rank b.kind.rank).then <|
      Ord.compare (a.precedence?.getD 0) (b.precedence?.getD 0)

def sorted (tokens : List Token) : List Token :=
  tokens.mergeSort fun a b => (compare a b).isLE

/-- The texts with one space between neighbours. -/
def spaced (tokens : List Token) : String := " ".intercalate (tokens.map text)

/-- The texts with nothing between them. -/
def joined (tokens : List Token) : String := String.join (tokens.map text)

/-- The symbols of expressions: parentheses and the four operators. -/
def expressionSymbols : List Token :=
  [opening "(", closing ")", operator "*" 1, operator "/" 1, operator "+" 2, operator "-" 2]

/-- The symbols that relate two expressions. -/
def relationSymbols : List Token :=
  [relation "=", relation "<", relation "<=", relation ">", relation ">="]

theorem kind_eq_operator_iff {token : Token} :
    token.kind = .operator ↔ token.precedence?.isSome := by
  cases token <;> simp [kind, precedence?]

end Token

end LinearRelations
