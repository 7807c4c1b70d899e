/-!
# Polynomials

A polynomial in several unknowns is the list of its coefficients by rising power of the first
unknown; the coefficients are polynomials in the others, and without unknowns a number is left.
No form is distinguished: a polynomial is zero when all of its coefficients are.

* `Polynomial.add`, `Polynomial.neg`, `Polynomial.mul`: arithmetic;
* `Polynomial.isZero`: the test for zero;
* `Polynomial.vanishes`: the test where the first unknown is the square root of two.
-/

namespace LinearRelations

/-- A polynomial with rational coefficients in a number of unknowns. -/
def Polynomial : Nat → Type
  | 0 => Rat
  | n + 1 => List (Polynomial n)

namespace Polynomial

def zero : (n : Nat) → Polynomial n
  | 0 => (0 : Rat)
  | _ + 1 => []

def ofRat (q : Rat) : (n : Nat) → Polynomial n
  | 0 => q
  | n + 1 => [ofRat q n]

/-- The unknown with a given index; zero where there are not as many. -/
def unknown : (n : Nat) → Nat → Polynomial n
  | 0, _ => (0 : Rat)
  | n + 1, 0 => [zero n, ofRat 1 n]
  | n + 1, i + 1 => [unknown n i]

/-- Pairs the entries of two lists by position; what is left of the longer one stays. -/
def pairwise {α : Type} (f : α → α → α) : List α → List α → List α
  | [], bs => bs
  | as, [] => as
  | a :: as, b :: bs => f a b :: pairwise f as bs

def add : {n : Nat} → Polynomial n → Polynomial n → Polynomial n
  | 0, p, q => Rat.add p q
  | _ + 1, p, q => pairwise add p q

def neg : {n : Nat} → Polynomial n → Polynomial n
  | 0, p => Rat.neg p
  | _ + 1, p => List.map neg p

/-- Whether two coefficients are equal. -/
def sameNumber (p q : Rat) : Bool := p == q

def isZero : {n : Nat} → Polynomial n → Bool
  | 0, p => sameNumber p 0
  | _ + 1, p => List.all p isZero

/-- A polynomial times the first unknown. -/
def shift {n : Nat} (p : List (Polynomial n)) : List (Polynomial n) :=
  if p.isEmpty then [] else zero n :: p

/-- The product of coefficient lists, over a given product of coefficients. -/
def convolve {n : Nat} (times : Polynomial n → Polynomial n → Polynomial n) :
    List (Polynomial n) → List (Polynomial n) → List (Polynomial n)
  | [], _ => []
  | a :: as, bs =>
    if a.isZero then shift (convolve times as bs)
    else pairwise add (bs.map (times a)) (shift (convolve times as bs))

def mul : {n : Nat} → Polynomial n → Polynomial n → Polynomial n
  | 0, p, q => Rat.mul p q
  | _ + 1, p, q => convolve mul p q

def beq : {n : Nat} → Polynomial n → Polynomial n → Bool
  | 0, p, q => sameNumber p q
  | _ + 1, p, q => p.length == q.length && (List.zipWith beq p q).all id

/-- A polynomial in the square root of two and other unknowns as `a + b * √2` over the others. -/
def splitRootTwo {n : Nat} : List (Polynomial n) → Polynomial n × Polynomial n
  | [] => (zero n, zero n)
  | c :: rest =>
    let (a, b) := splitRootTwo rest
    (add c (add b b), a)

/-- Whether a polynomial is zero when its first unknown is the square root of two. -/
def vanishes {n : Nat} (p : Polynomial (n + 1)) : Bool :=
  let (a, b) := splitRootTwo p
  a.isZero && b.isZero

end Polynomial

end LinearRelations
