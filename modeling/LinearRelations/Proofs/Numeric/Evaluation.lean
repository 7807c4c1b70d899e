import LinearRelations.Proofs.Readable
import LinearRelations.Relation.Verify

/-!
# Failures of numeric evaluation

A readable expression whose variables have values is evaluated without failing, unless an unbounded
value or a number with too many digits is left in it, a plain number is divided by zero, a number is too
large for a double, or a variable hides a function. The series that occur stay as long as those of the
variables.

* `Quantity.Fits`: a series has the given length;
* `Combination.evaluate_yields`: the evaluation of a combination, from its parts;
* `Expr.Obstacle`: what can be in the way of evaluating an expression;
* `Expr.evaluate_yields`: the evaluation of an expression;
* `Relation.spotCheck_yields`: the comparison of two relations at the sample points.
-/

namespace LinearRelations

/-! ### Quantities -/

/-- What arithmetic can refuse, apart from series of different lengths. A function cannot be applied only if it
is hidden by a variable. -/
def QuantityError.IsFault (hidden : Prop) : QuantityError → Prop
  | divisionByZero => True
  | overflow => True
  | notFunction _ => hidden
  | lengths _ _ => False

theorem QuantityError.IsFault.imp {hidden hidden' : Prop} {cause : QuantityError} (h : cause.IsFault hidden)
    (himp : hidden → hidden') : cause.IsFault hidden' := by
  cases cause with
  | notFunction _ => exact himp h
  | lengths _ _ => exact h
  | divisionByZero => trivial
  | overflow => trivial

namespace Quantity

/-- A series has the given number of entries. -/
def Fits (n : Nat) : Quantity → Prop
  | series xs => xs.length = n
  | _ => True

def Doubles.Fits (n : Nat) : Doubles → Prop
  | many xs => xs.length = n
  | _ => True

open QuantityError (IsFault)

variable {n : Nat} {hidden : Prop} {a b : Quantity}

theorem float_yields (q : Rat) : Yields (fun _ => True) (IsFault hidden) (float q) := by
  unfold float
  split
  · trivial
  · trivial

theorem ofRat_yields (q : Rat) : Yields (Fits n) (IsFault hidden) (ofRat q) := by
  unfold ofRat
  split
  · trivial
  · exact (float_yields q).map fun _ _ => trivial

theorem doubles_yields (ha : a.Fits n) : Yields (Doubles.Fits n) (IsFault hidden) a.doubles := by
  cases a with
  | whole m => exact (float_yields m).map fun _ _ => trivial
  | plain x => trivial
  | lenient x => trivial
  | series xs => exact ha

/-- Series of the length, and single entries beside them, make a series of the length. -/
theorem zip_yields {α : Type} (f : Float → Float → α) {xs ys : List Float}
    (hx : xs.length = n ∨ xs.length = 1) (hy : ys.length = n ∨ ys.length = 1)
    (hn : xs.length = n ∨ ys.length = n) :
    Yields (fun zs : List α => zs.length = n) (IsFault hidden) (zip f xs ys) := by
  unfold zip
  split
  · simp only [List.length_singleton] at hx hn
    simp only [Yields, List.length_map]
    omega
  · simp only [List.length_singleton] at hy hn
    simp only [Yields, List.length_map]
    omega
  · next hxs hys =>
    have hx1 : xs.length ≠ 1 := by
      intro h
      obtain ⟨x, rfl⟩ := List.length_eq_one_iff.1 h
      exact hxs x rfl
    have hy1 : ys.length ≠ 1 := by
      intro h
      obtain ⟨y, rfl⟩ := List.length_eq_one_iff.1 h
      exact hys y rfl
    rw [if_pos (by omega)]
    simp only [Yields, List.length_zipWith]
    omega

/-- **An operation on doubles keeps the length of series**, and fails only as it refuses operands. -/
theorem lift_yields {f : Float → Float → Float} {check : Float → Float → Except QuantityError Unit}
    (hcheck : ∀ x y, Yields (fun _ => True) (IsFault hidden) (check x y)) (ha : a.Fits n) (hb : b.Fits n) :
    Yields (Fits n) (IsFault hidden) (lift f check a b) := by
  refine (doubles_yields ha).bind fun x hx => (doubles_yields hb).bind fun y hy => ?_
  rcases x with ⟨p, x⟩ | xs <;> rcases y with ⟨q, y⟩ | ys
  · cases p <;> cases q
    · trivial
    · trivial
    · trivial
    · exact (hcheck x y).bind fun _ _ => trivial
  · have hzip : Yields (Fits n) (IsFault hidden) (series <$> zip f [x] ys) :=
      (zip_yields f (.inr rfl) (.inl hy) (.inr hy)).map fun _ h => h
    cases p
    · exact hzip
    · exact hzip
  · exact (zip_yields f (.inl hx) (.inr rfl) (.inl hx)).map fun _ h => h
  · exact (zip_yields f (.inl hx) (.inl hy) (.inl hx)).map fun _ h => h

theorem unchecked_yields (x y : Float) : Yields (fun _ => True) (IsFault hidden) (unchecked x y) := trivial

theorem checkDivisor_yields (x y : Float) : Yields (fun _ => True) (IsFault hidden) (checkDivisor x y) := by
  unfold checkDivisor
  split
  · trivial
  · trivial

theorem checkPower_yields (x y : Float) : Yields (fun _ => True) (IsFault hidden) (checkPower x y) := by
  unfold checkPower
  split
  · trivial
  · split
    · trivial
    · trivial

theorem add_yields (ha : a.Fits n) (hb : b.Fits n) : Yields (Fits n) (IsFault hidden) (a.add b) := by
  unfold add
  split
  · trivial
  · exact lift_yields unchecked_yields ha hb

theorem mul_yields (ha : a.Fits n) (hb : b.Fits n) : Yields (Fits n) (IsFault hidden) (a.mul b) := by
  unfold mul
  split
  · trivial
  · exact lift_yields unchecked_yields ha hb

theorem div_yields (ha : a.Fits n) (hb : b.Fits n) : Yields (Fits n) (IsFault hidden) (a.div b) :=
  lift_yields checkDivisor_yields ha hb

theorem pow_yields (ha : a.Fits n) (exponent : Float) : Yields (Fits n) (IsFault hidden) (a.pow exponent) :=
  lift_yields checkPower_yields ha trivial

theorem fits_apply (f : Float → Float) (x : Float) : (apply f x).Fits n := trivial

theorem Fits.neg (ha : a.Fits n) : a.neg.Fits n := by
  cases a with
  | series xs =>
    simp only [Fits] at ha
    simpa [Quantity.neg, Fits] using ha
  | _ => trivial

theorem elementary_yields (f : Float → Float) (ha : a.Fits n) :
    Yields (Fits n) (IsFault hidden) (a.elementary f) := by
  cases a with
  | whole m => exact (float_yields m).map fun _ _ => trivial
  | plain x => trivial
  | lenient x => trivial
  | series xs =>
    simp only [Fits] at ha
    simpa [elementary, Yields, Fits] using ha

theorem wholePower_yields (ha : a.Fits n) (k : Int) : Yields (Fits n) (IsFault hidden) (a.wholePower k) := by
  unfold wholePower
  split
  · exact ha
  · exact pow_yields ha _

end Quantity

open QuantityError (IsFault)

/-! ### Values of variables -/

/-- The functions that evaluation applies, by their names. -/
def functionNames : List String := ["sqrt", "exp", "log"]

namespace Values

/-- All series have the given number of entries. -/
def Fit (n : Nat) (values : Values) : Prop := ∀ entry ∈ values, entry.2.Fits n

variable {n : Nat} {values : Values}

theorem Fit.lookup (h : values.Fit n) {name : String} {value : Quantity}
    (hvalue : values.lookup name = some value) : value.Fits n := by
  obtain ⟨l₁, l₂, rfl, -⟩ := List.lookup_eq_some_iff.1 hvalue
  exact h (name, value) (by simp)

theorem Fit.number (h : values.Fit n) (name : String) (x : Float) : (values.number name x).Fits n := by
  unfold Values.number
  rcases hvalue : values.lookup name with _ | value
  · trivial
  · exact h.lookup hvalue

/-- Whether a variable has the name of a function. -/
def HidesFunction (values : Values) : Prop := ∃ name ∈ functionNames, (values.lookup name).isSome = true

/-- A function can be applied unless a variable has its name. -/
theorem function_yields {name : String} (hname : name ∈ functionNames) (f : Float → Float) :
    Yields (fun _ => True) (IsFault values.HidesFunction) (values.function name f) := by
  unfold function
  split
  · next value hvalue => exact ⟨name, hname, by rw [hvalue]; rfl⟩
  · trivial

theorem sqrt_yields : Yields (fun _ => True) (IsFault values.HidesFunction) values.sqrt :=
  function_yields (by decide) _

theorem exp_yields : Yields (fun _ => True) (IsFault values.HidesFunction) values.exp :=
  function_yields (by decide) _

theorem log_yields : Yields (fun _ => True) (IsFault values.HidesFunction) values.log :=
  function_yields (by decide) _

end Values

theorem Quantity.piPower_yields {n : Nat} {values : Values} (hv : values.Fit n) (twice : Int) :
    Yields (Fits n) (IsFault values.HidesFunction) (piPower values twice) := by
  have hpi : values.pi.Fits n := hv.number _ _
  unfold piPower
  split
  · exact hpi
  · split
    · exact Values.sqrt_yields.bind fun f _ => elementary_yields f hpi
    · split
      · refine Values.sqrt_yields.bind fun f _ => ?_
        exact (elementary_yields f hpi).bind fun root hroot => div_yields trivial hroot
      · exact pow_yields hpi _

/-! ### Combinations -/

section Factors

variable {n : Nat} {hidden : Prop}

theorem leadingFactor_yields (q : Rat) :
    Yields (fun a : Option Quantity => ∀ b ∈ a, b.Fits n) (IsFault hidden) (leadingFactor q) := by
  unfold leadingFactor
  split
  · exact fun b hb => absurd hb (by simp)
  · exact (Quantity.ofRat_yields q).map fun a ha b hb => Option.some.inj hb ▸ ha

theorem timesFactor_yields {product : Option Quantity} {factor : Quantity}
    (hproduct : ∀ a ∈ product, a.Fits n) (hfactor : factor.Fits n) :
    Yields (fun a : Option Quantity => ∀ b ∈ a, b.Fits n) (IsFault hidden) (timesFactor product factor) := by
  unfold timesFactor
  split
  · exact fun b hb => Option.some.inj hb ▸ hfactor
  · next a => exact (Quantity.mul_yields (hproduct a rfl) hfactor).map fun c hc b hb => Option.some.inj hb ▸ hc

theorem quotientOf_yields (isNegative : Bool) {above below : Option Quantity}
    (habove : ∀ a ∈ above, a.Fits n) (hbelow : ∀ a ∈ below, a.Fits n) :
    Yields (Quantity.Fits n) (IsFault hidden) (quotientOf isNegative above below) := by
  have hnum : (above.getD (.whole 1)).Fits n := by
    rcases above with _ | a
    · trivial
    · exact habove a rfl
  have hsign : ∀ value : Quantity, value.Fits n → (if isNegative then value.neg else value).Fits n := by
    intro value hvalue
    split
    · exact hvalue.neg
    · exact hvalue
  unfold quotientOf
  rcases below with _ | den
  · exact hsign _ hnum
  · exact (Quantity.div_yields hnum (hbelow den rfl)).bind hsign

end Factors

section Evaluate

variable {n : Nat} {values : Values}

theorem Atom.evaluate_yields (hv : values.Fit n) (a : Atom) (exponent : Int) :
    Yields (Quantity.Fits n) (IsFault values.HidesFunction) (a.evaluate values exponent) := by
  cases a with
  | rootTwo => exact Values.sqrt_yields.bind fun f _ => Quantity.wholePower_yields (Quantity.fits_apply f 2) _
  | rootPi => exact Quantity.piPower_yields hv _
  | e =>
    simp only [Atom.evaluate]
    split
    · exact hv.number _ _
    · exact Values.exp_yields.bind fun _ _ => trivial
  | lnTwo => exact Values.log_yields.bind fun f _ => Quantity.wholePower_yields (Quantity.fits_apply f 2) _
  | lnTen => exact Values.log_yields.bind fun f _ => Quantity.wholePower_yields (Quantity.fits_apply f 10) _
  | unknown name => exact Quantity.wholePower_yields (hv.number _ _) _

-- One case for each way of building a form; sums and products of terms and factors go from left to
-- right and carry along that what has been added up or multiplied so far fits.
mutual

/-- **Evaluating a combination keeps the length of series**, and fails only as arithmetic does. -/
theorem Combination.evaluate_yields (hv : values.Fit n) :
    ∀ c : Combination, Yields (Quantity.Fits n) (IsFault values.HidesFunction) (c.evaluate values)
  | .mk _ [] => by
    simp only [Combination.evaluate]
    trivial
  | .mk _ (t :: ts) => by
    simp only [Combination.evaluate]
    exact (Product.evaluate_yields hv t).bind fun first hfirst => Combination.evaluateTerms_yields hv hfirst ts

theorem Combination.evaluateTerms_yields (hv : values.Fit n) {sum : Quantity} (hsum : sum.Fits n) :
    ∀ ts : List Product,
      Yields (Quantity.Fits n) (IsFault values.HidesFunction) (Combination.evaluateTerms values sum ts)
  | [] => by
    simp only [Combination.evaluateTerms]
    exact hsum
  | t :: ts => by
    simp only [Combination.evaluateTerms]
    refine (Product.evaluate_yields hv t).bind fun value hvalue => ?_
    exact (Quantity.add_yields hsum hvalue).bind fun _ h => Combination.evaluateTerms_yields hv h ts

theorem Product.evaluate_yields (hv : values.Fit n) :
    ∀ t : Product, Yields (Quantity.Fits n) (IsFault values.HidesFunction) (t.evaluate values)
  | .mk c [] => by
    simp only [Product.evaluate]
    exact Quantity.ofRat_yields _
  | .mk c (p :: ps) => by
    simp only [Product.evaluate]
    split
    · exact Product.evaluateSingle_yields hv (p :: ps)
    · refine (leadingFactor_yields (n := n) _).bind fun factor hfactor => ?_
      refine (Product.evaluateAbove_yields hv hfactor (p :: ps)).bind fun above habove => ?_
      refine (Product.evaluateBelow_yields hv (by simp) (p :: ps)).bind fun below hbelow => ?_
      exact quotientOf_yields _ habove hbelow

theorem Product.evaluateSingle_yields (hv : values.Fit n) :
    ∀ ps : List Power, Yields (Quantity.Fits n) (IsFault values.HidesFunction) (Product.evaluateSingle values ps)
  | [] => by
    simp only [Product.evaluateSingle]
    trivial
  | p :: _ => by
    simp only [Product.evaluateSingle]
    exact Power.evaluate_yields hv 1 p

theorem Product.evaluateAbove_yields (hv : values.Fit n) {product : Option Quantity}
    (hproduct : ∀ a ∈ product, a.Fits n) :
    ∀ ps : List Power, Yields (fun a : Option Quantity => ∀ b ∈ a, b.Fits n) (IsFault values.HidesFunction)
      (Product.evaluateAbove values product ps)
  | [] => by
    simp only [Product.evaluateAbove]
    exact hproduct
  | p :: ps => by
    simp only [Product.evaluateAbove]
    split
    · exact Product.evaluateAbove_yields hv hproduct ps
    · refine (Power.evaluate_yields hv 1 p).bind fun factor hfactor => ?_
      exact (timesFactor_yields hproduct hfactor).bind fun _ h => Product.evaluateAbove_yields hv h ps

theorem Product.evaluateBelow_yields (hv : values.Fit n) {product : Option Quantity}
    (hproduct : ∀ a ∈ product, a.Fits n) :
    ∀ ps : List Power, Yields (fun a : Option Quantity => ∀ b ∈ a, b.Fits n) (IsFault values.HidesFunction)
      (Product.evaluateBelow values product ps)
  | [] => by
    simp only [Product.evaluateBelow]
    exact hproduct
  | p :: ps => by
    simp only [Product.evaluateBelow]
    split
    · refine (Power.evaluate_yields hv (-1) p).bind fun factor hfactor => ?_
      exact (timesFactor_yields hproduct hfactor).bind fun _ h => Product.evaluateBelow_yields hv h ps
    · exact Product.evaluateBelow_yields hv hproduct ps

theorem Power.evaluate_yields (hv : values.Fit n) (direction : Int) :
    ∀ p : Power, Yields (Quantity.Fits n) (IsFault values.HidesFunction) (p.evaluate values direction)
  | .mk b k => by
    simp only [Power.evaluate]
    exact Base.evaluate_yields hv (direction * k) b

theorem Base.evaluate_yields (hv : values.Fit n) (exponent : Int) :
    ∀ b : Base, Yields (Quantity.Fits n) (IsFault values.HidesFunction) (b.evaluate values exponent)
  | .atom a => by
    simp only [Base.evaluate]
    exact a.evaluate_yields hv exponent
  | .sum c => by
    simp only [Base.evaluate]
    exact (Combination.evaluate_yields hv c).bind fun _ h => Quantity.wholePower_yields h _

end

end Evaluate

/-! ### Unbounded values -/

section Regular

variable {K : Type*} [Field K] {t : AtomValues K}

mutual

/-- Nothing in a regular combination is unbounded. -/
theorem Combination.isUnbounded_eq_false : ∀ {c : Combination}, c.IsRegular t → c.isUnbounded = false
  | .mk _ _, h => by
    rw [Combination.isUnbounded, h.1, Combination.termsUnbounded_eq_false h.2]
    rfl

theorem Combination.termsUnbounded_eq_false :
    ∀ {ts : List Product}, Combination.TermsRegular t ts → Combination.termsUnbounded ts = false
  | [], _ => by rw [Combination.termsUnbounded]
  | s :: ts, h => by
    rw [Combination.termsUnbounded, Product.isUnbounded_eq_false h.1, Combination.termsUnbounded_eq_false h.2]
    rfl

theorem Product.isUnbounded_eq_false : ∀ {s : Product}, s.IsRegular t → s.isUnbounded = false
  | .mk _ _, h => by
    rw [Product.isUnbounded, h.1, Product.powersUnbounded_eq_false h.2]
    rfl

theorem Product.powersUnbounded_eq_false :
    ∀ {ps : List Power}, Product.PowersRegular t ps → Product.powersUnbounded ps = false
  | [], _ => by rw [Product.powersUnbounded]
  | p :: ps, h => by
    rw [Product.powersUnbounded, Power.isUnbounded_eq_false h.1, Product.powersUnbounded_eq_false h.2]
    rfl

theorem Power.isUnbounded_eq_false : ∀ {p : Power}, p.IsRegular t → p.isUnbounded = false
  | .mk _ _, h => by rw [Power.isUnbounded, Base.isUnbounded_eq_false h.1]

theorem Base.isUnbounded_eq_false : ∀ {b : Base}, b.IsRegular t → b.isUnbounded = false
  | .atom _, _ => by rw [Base.isUnbounded]
  | .sum c, h => by
    rw [Base.isUnbounded]
    exact Combination.isUnbounded_eq_false h

end

end Regular

/-! ### Expressions -/

namespace Expr

/-- Whether an unbounded value is left when like terms and factors have been gathered. -/
def IsUnbounded (e : Expr) : Prop := ∃ c, e.combination = .ok (some c) ∧ c.isUnbounded = true

/-- Whether a number with too many digits is left. -/
def HasLongNumber (e : Expr) : Prop := ∃ c, e.combination = .ok (some c) ∧ c.hasLongNumber = true

/-- Whether a variable has the name of a function. -/
def HidesFunction (e : Expr) : Prop := ∃ name ∈ functionNames, name ∈ e.variables

/-- What can be in the way of evaluating an expression, if its operands can be read and its variables have
values. -/
inductive Obstacle (e : Expr) : EvaluationError → Prop where
  | unboundedValue (h : e.IsUnbounded) : Obstacle e .unboundedValue
  | tooManyDigits (h : e.HasLongNumber) : Obstacle e (.inexact .tooManyDigits)
  | arithmetic {cause : QuantityError} (h : cause.IsFault e.HidesFunction) : Obstacle e (.arithmetic cause)

/-- No unbounded value is left in an expression with a strict value. -/
theorem not_isUnbounded_of_value? {K : Type*} [Field K] [CharZero K] [DecidableEq K] {t : AtomValues K}
    {e : Expr} {x : K} (h : e.value? t.valuation = some x) : ¬ e.IsUnbounded := by
  rintro ⟨c, hc, hunbounded⟩
  obtain ⟨d, hd, hregular, -⟩ := combination_represents t hc h
  obtain rfl := Option.some.inj hd
  rw [Combination.isUnbounded_eq_false hregular] at hunbounded
  cases hunbounded

/-- Whether every variable has a value. -/
def IsCovered (values : Values) (e : Expr) : Prop := ∀ name ∈ e.variables, (values.lookup name).isSome = true

variable {n : Nat} {values : Values} {e : Expr}

theorem IsCovered.cons (h : e.IsCovered values) (name : String) (value : Quantity) :
    e.IsCovered ((name, value) :: values) := by
  intro x hx
  rw [List.lookup_cons]
  split
  · rfl
  · exact h x hx

/-- The values of the variables are found, and none of other names. -/
theorem valuesOf_yields (hv : values.Fit n) (hcovered : e.IsCovered values) :
    Yields (fun known : Values => ∀ entry ∈ known, entry.2.Fits n ∧ entry.1 ∈ e.variables) (fun _ => False)
      (e.valuesOf values) := by
  refine Yields.mapM fun name hname => ?_
  have hmem : name ∈ e.variables := List.mem_mergeSort.1 (List.mem_eraseDups.1 hname)
  obtain ⟨value, hvalue⟩ := Option.isSome_iff_exists.1 (hcovered name hmem)
  simp only [hvalue]
  exact ⟨hv.lookup hvalue, hmem⟩

theorem hidesFunction_of_values {known : Values} (hknown : ∀ entry ∈ known, entry.1 ∈ e.variables)
    (h : known.HidesFunction) : e.HidesFunction := by
  obtain ⟨name, hname, hlookup⟩ := h
  obtain ⟨value, hvalue⟩ := Option.isSome_iff_exists.1 hlookup
  obtain ⟨l₁, l₂, rfl, -⟩ := List.lookup_eq_some_iff.1 hvalue
  exact ⟨name, hname, hknown (name, value) (by simp)⟩

/-- **Evaluating an expression** gives a quantity with series of the length of the values, or tells what is
in the way. -/
theorem evaluate_yields (hread : e.IsReadable) (hv : values.Fit n) (hcovered : e.IsCovered values) :
    Yields (Quantity.Fits n) e.Obstacle (e.evaluate values) := by
  obtain ⟨value, hvalue⟩ := exists_combination_iff.2 hread
  have hform : ∀ {test : Combination → Bool}, (value.map test).getD false = true →
      ∃ c, e.combination = .ok (some c) ∧ test c = true := by
    intro test htest
    rcases value with _ | c
    · cases htest
    · exact ⟨c, hvalue, htest⟩
  rw [evaluate, hvalue]
  change Yields _ _ (if (value.map Combination.isUnbounded).getD false = true then _ else _)
  split
  · next hunbounded => exact .unboundedValue (hform hunbounded)
  split
  · next hlong => exact .tooManyDigits (hform hlong)
  refine ((valuesOf_yields hv hcovered).mono fun _ h => h.elim).bind fun known hknown => ?_
  have hfit : known.Fit n := fun entry h => (hknown entry h).1
  rcases value with _ | c
  · exact hfit.number _ _
  · refine (Combination.evaluate_yields hfit c.arranged).mapError fun _ h => .arithmetic (h.imp ?_)
    exact hidesFunction_of_values fun entry h => (hknown entry h).2

end Expr

/-! ### Sample points -/

namespace Comparison

theorem holds_yields (comparison : Comparison) {n : Nat} {hidden : Prop} {a b : Quantity} (ha : a.Fits n)
    (hb : b.Fits n) : Yields (fun _ => True) (IsFault hidden) (comparison.holds a b) := by
  unfold holds
  split
  · trivial
  · refine (Quantity.doubles_yields ha).bind fun x hx => (Quantity.doubles_yields hb).bind fun y hy => ?_
    rcases x with ⟨p, x⟩ | xs <;> rcases y with ⟨q, y⟩ | ys
    · trivial
    · exact (Quantity.zip_yields _ (.inr rfl) (.inl hy) (.inr hy)).map fun _ _ => trivial
    · exact (Quantity.zip_yields _ (.inl hx) (.inr rfl) (.inl hx)).map fun _ _ => trivial
    · exact (Quantity.zip_yields _ (.inl hx) (.inl hy) (.inl hx)).map fun _ _ => trivial

end Comparison

theorem Generator.length_uniforms (lo span : Float) (count : Nat) (g : Generator) :
    (g.uniforms lo span count).1.length = count := by
  induction count generalizing g with
  | zero => rfl
  | succ count ih => simp [uniforms, ih]

namespace Relation

variable {r s : Relation} {name : String} {values : Values}

theorem fit_samples (names : List String) (g : Generator) : (samples names g).Fit sampleCount := by
  induction names generalizing g with
  | nil => exact fun entry h => absurd h List.not_mem_nil
  | cons name names ih =>
    rw [samples]
    simp only [Values.Fit, List.forall_mem_cons]
    exact ⟨Generator.length_uniforms _ _ _ _, ih _⟩

/-- Every name has samples. -/
theorem isSome_lookup_samples {names : List String} {g : Generator} (h : name ∈ names) :
    ((samples names g).lookup name).isSome = true := by
  induction names generalizing g with
  | nil => cases h
  | cons x names ih =>
    simp only [samples, List.lookup_cons]
    split
    · rfl
    · next hne =>
      refine ih ((List.mem_cons.1 h).resolve_left ?_)
      rintro rfl
      simp at hne

/-- A quantity has one double for each sample point, unless it is too large for one. -/
theorem spread_yields {a : Quantity} (ha : a.Fits sampleCount) (e : Expr) :
    Yields (fun xs : List Float => xs.length = sampleCount) e.Obstacle (spread a) := by
  have hdoubles : Yields (Quantity.Doubles.Fits sampleCount) e.Obstacle (a.doubles.mapError .arithmetic) :=
    (Quantity.doubles_yields ha).mapError fun _ h => .arithmetic h
  refine hdoubles.bind fun doubles h => ?_
  rcases doubles with ⟨p, x⟩ | xs
  · exact List.length_replicate
  · rcases xs with _ | ⟨x, _ | ⟨y, xs⟩⟩
    · exact h
    · exact List.length_replicate
    · exact h

/-- What can be in the way of evaluating one of the sides. -/
def Obstacle (r : Relation) (fault : EvaluationError) : Prop := r.lhs.Obstacle fault ∨ r.rhs.Obstacle fault

/-- Whether all variables have values. -/
def IsCovered (values : Values) (r : Relation) : Prop := r.lhs.IsCovered values ∧ r.rhs.IsCovered values

theorem IsCovered.cons (h : r.IsCovered values) (name : String) (value : Quantity) :
    r.IsCovered ((name, value) :: values) :=
  ⟨h.1.cons name value, h.2.cons name value⟩

theorem holds_yields (hread : r.IsReadable) {n : Nat} (hv : values.Fit n) (hcovered : r.IsCovered values) :
    Yields (fun _ => True) r.Obstacle (r.holds values) := by
  have hl := Expr.evaluate_yields hread.1 hv hcovered.1
  have hr := Expr.evaluate_yields hread.2 hv hcovered.2
  refine (hl.mono fun _ h => .inl h).bind fun a ha => (hr.mono fun _ h => .inr h).bind fun b hb => ?_
  exact (r.comparison.holds_yields ha hb).mapError fun _ h => .inl (.arithmetic h)

theorem isCovered_samples {names : List String} (h : r.variables ⊆ names) (g : Generator) :
    r.IsCovered (samples names g) :=
  ⟨fun _ hx => isSome_lookup_samples (h (List.mem_append_left _ hx)),
    fun _ hx => isSome_lookup_samples (h (List.mem_append_right _ hx))⟩

/-- A side is evaluated and spread over the sample points. -/
theorem spread_side_yields {β : Type} {Q : β → Prop} {E : EvaluationError → Prop}
    {f : List Float → Except EvaluationError β} {e : Expr} (hread : e.IsReadable)
    (hv : values.Fit sampleCount) (hcovered : e.IsCovered values) (he : ∀ fault, e.Obstacle fault → E fault)
    (hf : ∀ xs, xs.length = sampleCount → Yields Q E (f xs)) :
    Yields Q E (e.evaluate values >>= fun a => spread a >>= f) := by
  refine ((Expr.evaluate_yields hread hv hcovered).mono he).bind fun a ha => ?_
  exact ((spread_yields ha e).mono he).bind hf

section SpotCheck

variable (hr : r.IsReadable) (hs : s.IsReadable)

include hr hs

theorem spotCheckEquation_yields (name : String) (hv : values.Fit sampleCount) (hrv : r.IsCovered values)
    (hsv : s.IsCovered values) :
    Yields (fun _ => True) (fun fault => r.Obstacle fault ∨ s.Obstacle fault)
      (r.spotCheckEquation s name values) := by
  refine spread_side_yields hs.2 hv hsv.2 (fun _ h => .inr (.inr h)) fun boundary hboundary => ?_
  -- from here on the variable has the values of the answer
  have hv' : Values.Fit sampleCount ((name, .series boundary) :: values) :=
    List.forall_mem_cons.2 ⟨hboundary, hv⟩
  have hrv' := hrv.cons name (.series boundary)
  refine spread_side_yields hr.1 hv' hrv'.1 (fun _ h => .inl (.inl h)) fun lhs _ => ?_
  exact spread_side_yields hr.2 hv' hrv'.2 (fun _ h => .inl (.inr h)) fun rhs _ => trivial

theorem spotCheckInequality_yields (hv : values.Fit sampleCount) (hrv : r.IsCovered values)
    (hsv : s.IsCovered values) :
    Yields (fun _ => True) (fun fault => r.Obstacle fault ∨ s.Obstacle fault)
      (r.spotCheckInequality s values) := by
  refine spread_side_yields hr.1 hv hrv.1 (fun _ h => .inl (.inl h)) fun lhs _ => ?_
  refine spread_side_yields hr.2 hv hrv.2 (fun _ h => .inl (.inr h)) fun rhs _ => ?_
  refine spread_side_yields hs.2 hv hsv.2 (fun _ h => .inr (.inr h)) fun boundary _ => ?_
  refine ((holds_yields hr hv hrv).mono fun _ h => .inl h).bind fun _ _ => ?_
  exact ((holds_yields hs hv hsv).mono fun _ h => .inr h).bind fun _ _ => trivial

/-- **Comparing two readable relations at the sample points** gives a count, or tells what is in the way of
evaluating one of their sides. -/
theorem spotCheck_yields (name : String) :
    Yields (fun _ => True) (fun fault => r.Obstacle fault ∨ s.Obstacle fault) (r.spotCheck s name) := by
  have hmem : r.variables ++ s.variables ⊆ sortedNames (r.variables ++ s.variables) :=
    fun _ h => List.mem_eraseDups.2 (List.mem_mergeSort.2 h)
  have hv := fit_samples (sortedNames (r.variables ++ s.variables)) Generator.seeded
  have hrv := isCovered_samples (fun _ h => hmem (List.mem_append_left _ h)) Generator.seeded
  have hsv := isCovered_samples (fun _ h => hmem (List.mem_append_right _ h)) Generator.seeded
  unfold spotCheck
  split
  · exact spotCheckEquation_yields hr hs name hv hrv hsv
  · exact spotCheckInequality_yields hr hs hv hrv hsv

end SpotCheck

end Relation

end LinearRelations
