/-!
# Blank characters

A blank is a character that the Unicode standard counts as white space or as an information
separator; reading an expression ignores blanks wherever they stand.

* `isBlank`: the class;
* `unspaced`: a text without its blanks;
* `isPadding`: the blanks that may stand around a number, the separators left out.
-/

namespace LinearRelations.Text

/-- The code points of the blanks, as closed ranges in rising order. -/
def blankRanges : List (Nat × Nat) :=
  [(0x9, 0xD), (0x1C, 0x20), (0x85, 0x85), (0xA0, 0xA0), (0x1680, 0x1680), (0x2000, 0x200A),
    (0x2028, 0x2029), (0x202F, 0x202F), (0x205F, 0x205F), (0x3000, 0x3000)]

def isBlank (c : Char) : Bool :=
  blankRanges.any fun range => range.1 ≤ c.toNat && c.toNat ≤ range.2

/-- The information separators U+001C to U+001F, which are blanks but no padding. -/
def isSeparator (c : Char) : Bool := 0x1C ≤ c.toNat && c.toNat ≤ 0x1F

def isPadding (c : Char) : Bool := isBlank c && !isSeparator c

/-- The characters without the blanks, in order. -/
def unspaced (text : List Char) : List Char := text.filter fun c => !isBlank c

/-- A text without the padding on either side. -/
def unpadded (text : List Char) : List Char :=
  ((text.dropWhile isPadding).reverse.dropWhile isPadding).reverse

theorem isBlank_of_isPadding {c : Char} (h : isPadding c = true) : isBlank c = true := by
  simp only [isPadding, Bool.and_eq_true] at h
  exact h.1

theorem mem_unspaced {c : Char} {text : List Char} :
    c ∈ unspaced text ↔ c ∈ text ∧ isBlank c = false := by
  simp [unspaced]

theorem unspaced_append (s t : List Char) : unspaced (s ++ t) = unspaced s ++ unspaced t := by
  simp [unspaced]

theorem unspaced_of_forall {text : List Char} (h : ∀ c ∈ text, isBlank c = false) :
    unspaced text = text := by
  simpa [unspaced] using h

end LinearRelations.Text
