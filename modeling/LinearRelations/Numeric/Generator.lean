/-!
# Random doubles

A permuted congruential generator: a state of 128 bits goes through a linear congruence, and each
output folds the two halves of the state into 64 bits and rotates them.

* `Generator.next`: one output;
* `Generator.uniform`: a double between two bounds;
* `Generator.seeded`: the start that belongs to the seed zero.
-/

namespace LinearRelations

/-- The state of the generator, below `2 ^ 128`: two words of 64 bits. -/
structure Generator where
  state : Nat
  deriving DecidableEq, Repr

namespace Generator

-- Powers are those of the natural numbers themselves, whatever other instances are in scope.
attribute [local instance (2000)] instPowNat

def wordBits : Nat := 64

def stateBits : Nat := 2 * wordBits

def multiplier : Nat := 0x2360ed051fc65da44385df649fccf645

/-- The four words into which the seed zero is hashed. -/
def seedWords : Nat × Nat × Nat × Nat :=
  (0xdb2cd7e7b0f478be, 0xabf4641a2c71ba49, 0x20c6ed6d9d7b8d41, 0x2c4099de223c39d4)

/-- The odd increment that the last two words of the seed make. -/
def increment : Nat :=
  let (_, _, c, d) := seedWords
  (2 * (c * 2 ^ wordBits + d) + 1) % 2 ^ stateBits

def step (g : Generator) : Generator := ⟨(g.state * multiplier + increment) % 2 ^ stateBits⟩

/-- The generator that starts from the first two words of the seed. -/
def seeded : Generator :=
  let (a, b, _, _) := seedWords
  step ⟨((step ⟨0⟩).state + (a * 2 ^ wordBits + b)) % 2 ^ stateBits⟩

/-- A word rotated to the right. -/
def rotateRight (word places : Nat) : Nat :=
  word / 2 ^ places + word % 2 ^ places * 2 ^ (wordBits - places)

/-- The word that a state shows. -/
def output (g : Generator) : Nat :=
  let high := g.state / 2 ^ wordBits
  let low := g.state % 2 ^ wordBits
  rotateRight (high ^^^ low) (high / 2 ^ (wordBits - 6))

/-- The next word and the generator behind it. -/
def next (g : Generator) : Nat × Generator := (g.step.output, g.step)

/-- A double from the highest 53 bits of the next word, at least `lo` and below `lo + span`. -/
def uniform (lo span : Float) (g : Generator) : Float × Generator :=
  let (word, g') := g.next
  (lo + span * (Float.ofNat (word / 2 ^ (wordBits - 53)) / 9007199254740992), g')

/-- As many doubles as asked for. -/
def uniforms (lo span : Float) : Nat → Generator → List Float × Generator
  | 0, g => ([], g)
  | count + 1, g =>
    let (x, g) := g.uniform lo span
    let (xs, g) := uniforms lo span count g
    (x :: xs, g)

end Generator

end LinearRelations
