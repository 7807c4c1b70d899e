import LinearRelations.Text.Blank
import LinearRelations.Token.Basic

/-!
# Scanning text into tokens

A text is cut, blanks left out, at the longest symbol that stands at each position; what stands
between two symbols becomes one operand. A blank text scans to a single empty operand.

* `longestFirst`: symbols by falling length, equal lengths in the given order;
* `scan`: the tokens of a text.
-/

namespace LinearRelations.Token

def longestFirst (symbols : List Token) : List Token :=
  symbols.mergeSort fun a b => b.text.length ≤ a.text.length

/-- The first symbol of a list, empty ones apart, that the text starts with. -/
def leading? (symbols : List Token) (rest : List Char) : Option Token :=
  symbols.find? fun symbol => !symbol.text.toList.isEmpty && symbol.text.toList.isPrefixOf rest

theorem text_ne_nil_of_leading? {symbols : List Token} {rest : List Char} {symbol : Token}
    (h : leading? symbols rest = some symbol) : symbol.text.toList ≠ [] := by
  have := List.find?_some h
  simp only [Bool.and_eq_true, Bool.not_eq_true', List.isEmpty_eq_false_iff] at this
  exact this.1

/-- The operand that the pending characters make; none for no characters. -/
def pendingOperand (pending : List Char) : List Token :=
  if pending.isEmpty then [] else [operand (String.ofList pending)]

/-- Scans the rest of a text behind pending characters that belong to no symbol. -/
def scanFrom (symbols : List Token) (pending rest : List Char) : List Token :=
  match rest with
  | [] => pendingOperand pending
  | c :: tail =>
    match _h : leading? symbols (c :: tail) with
    | some symbol =>
      pendingOperand pending ++
        symbol :: scanFrom symbols [] ((c :: tail).drop symbol.text.toList.length)
    | none => scanFrom symbols (pending ++ [c]) tail
termination_by rest.length
decreasing_by
  · have := List.length_pos_iff.2 (text_ne_nil_of_leading? _h)
    simp only [List.length_drop, List.length_cons]
    omega
  · simp

def scanChars (symbols : List Token) (chars : List Char) : List Token :=
  match scanFrom (longestFirst symbols) [] (Text.unspaced chars) with
  | [] => [operand ""]
  | tokens => tokens

/-- The tokens of a text over the given symbols. -/
def scan (symbols : List Token) (text : String) : List Token := scanChars symbols text.toList

end LinearRelations.Token
