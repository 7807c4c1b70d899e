import LinearRelations.Text.Blank
import LinearRelations.Text.Digit
import LinearRelations.Text.Name

/-!
# Numerals

A numeral is a decimal number with an optional sign, point and power of ten, or one of the words
for infinity and for an undefined number. Padding may stand around it, digits may come from any
script, and a single underscore may stand between two digits.

* `Numeral.read?`: the grammar;
* `Numeral.value?`: the exact rational that a numeral denotes;
* `Numeral.exact`: the same, unless its digits reach beyond the range of decimal places;
* `isNumeral`: a text that reads as a numeral and is not a name (`inf` and `nan` are names).
-/

namespace LinearRelations

/-- Why a number cannot be read or written exactly. -/
inductive ExactError where
  | infiniteNumeral
  | undefinedNumeral
  /-- The digits of a numeral reach beyond the range of decimal places. -/
  | exponentOutOfRange
  /-- A whole number has more digits than can be written. -/
  | tooManyDigits
  /-- The number has too many decimal places for any text to hold. -/
  | textTooLong
  deriving DecidableEq, Repr

end LinearRelations

namespace LinearRelations.Text

inductive Numeral where
  /-- The number `± significand * 10 ^ exponent`. -/
  | finite (negative : Bool) (significand : Nat) (exponent : Int)
  | infinity
  | undefined
  deriving DecidableEq, Repr

namespace Numeral

/-- Digits, with single underscores between them, after a digit; and the rest. -/
def moreDigits : List Char → List Nat × List Char
  | [] => ([], [])
  | [c] =>
    match digitValue? c with
    | some d => ([d], [])
    | none => ([], [c])
  | c :: c' :: rest =>
    match digitValue? c with
    | some d =>
      let (ds, rest') := moreDigits (c' :: rest)
      (d :: ds, rest')
    | none =>
      match c == '_', digitValue? c' with
      | true, some d =>
        let (ds, rest') := moreDigits rest
        (d :: ds, rest')
      | _, _ => ([], c :: c' :: rest)

/-- The digits at the start of a text, and the rest. -/
def digits : List Char → List Nat × List Char
  | [] => ([], [])
  | c :: rest =>
    match digitValue? c with
    | some d =>
      let (ds, rest') := moreDigits rest
      (d :: ds, rest')
    | none => ([], c :: rest)

/-- The number that digits, the first one the highest, stand for. -/
def ofDigits (ds : List Nat) : Nat := ds.foldl (fun n d => 10 * n + d) 0

/-- The sign at the start of a text, true for a minus, and the rest. -/
def sign : List Char → Bool × List Char
  | '+' :: rest => (false, rest)
  | '-' :: rest => (true, rest)
  | rest => (false, rest)

/-- The digits after a point at the start of a text, and the rest. -/
def fraction : List Char → List Nat × List Char
  | '.' :: rest => digits rest
  | rest => ([], rest)

/-- The power of ten that makes up all of the text; an empty text is the power zero. -/
def exponent? : List Char → Option Int
  | [] => some 0
  | c :: rest =>
    if c = 'e' ∨ c = 'E' then
      let (negative, rest) := sign rest
      match digits rest with
      | ([], _) => none
      | (ds, []) => some (if negative then -(ofDigits ds : Int) else ofDigits ds)
      | _ => none
    else none

/-- The words for numbers that are not finite, in any case. -/
def word? (text : List Char) : Option Numeral :=
  match String.ofList (text.map Char.toLower) with
  | "inf" => some infinity
  | "infinity" => some infinity
  | "nan" => some undefined
  | _ => none

/-- A number without padding and sign. -/
def unsigned? (negative : Bool) (text : List Char) : Option Numeral :=
  match word? text with
  | some numeral => some numeral
  | none =>
    let (whole, rest) := digits text
    let (parts, rest) := fraction rest
    if whole.isEmpty && parts.isEmpty then none
    else (exponent? rest).map fun power =>
      finite negative (ofDigits (whole ++ parts)) (power - parts.length)

/-- Reads all of a text as a numeral. -/
def readChars? (text : List Char) : Option Numeral :=
  let (negative, rest) := sign (unpadded text)
  unsigned? negative rest

def read? (text : String) : Option Numeral := readChars? text.toList

-- Powers are those of the natural numbers themselves, whatever other instances are in scope.
attribute [local instance (2000)] instPowNat

/-- The number `± significand * 10 ^ exponent`; zero needs no power of ten. -/
def scaled (negative : Bool) (significand : Nat) (exponent : Int) : Rat :=
  let size : Rat :=
    if significand = 0 then 0
    else if 0 ≤ exponent then ((significand * 10 ^ exponent.toNat : Nat) : Rat)
    else mkRat significand (10 ^ (-exponent).toNat)
  if negative then -size else size

/-- The exact number, for a finite numeral. -/
def value? : Numeral → Option Rat
  | finite negative significand exponent => some (scaled negative significand exponent)
  | _ => none

/-- The highest power of ten at which the first digit of a numeral may stand. -/
def largestExponent : Int := 999999999999999999

/-- The lowest power of ten at which the last digit may stand. -/
def smallestExponent : Int := -1999999999999999997

/-- Whether the digits of `significand * 10 ^ exponent` are within that range; zero has one digit. -/
def isInRange (significand : Nat) (exponent : Int) : Bool :=
  let first := exponent + (Nat.toDigits 10 significand).length - 1
  smallestExponent ≤ exponent && first ≤ largestExponent

/-- The exact number, if the digits of the numeral are within range. -/
def exact : Numeral → Except ExactError Rat
  | finite negative significand exponent =>
    if isInRange significand exponent then .ok (scaled negative significand exponent)
    else .error .exponentOutOfRange
  | infinity => .error .infiniteNumeral
  | undefined => .error .undefinedNumeral

/-- A number is read as the one that the numeral denotes. -/
theorem value?_of_exact {numeral : Numeral} {q : Rat} (h : numeral.exact = .ok q) :
    numeral.value? = some q := by
  cases numeral with
  | finite negative n k =>
    simp only [exact] at h
    split at h
    · exact congrArg some (Except.ok.inj h)
    · cases h
  | infinity => cases h
  | undefined => cases h

end Numeral

/-- Whether a text is a number and not a name. -/
def isNumeral (text : String) : Bool := !isName text && (Numeral.read? text).isSome

end LinearRelations.Text
