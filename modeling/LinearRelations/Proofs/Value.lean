import Mathlib
import LinearRelations.Relation.Isolate

/-!
# Strict values

Reading an expression strictly means that it has no value where one of its divisors is zero.

* `Yields`: what a computation that can fail comes to;
* `Valuation`: values for the built-in constants and for all other names;
* `Expr.value?`: the strict value of an expression;
* `Term.sum?`: the strict value of a sum of signed terms;
* `Relation.DefinedAt`, `Relation.HoldsAt`: both sides of a relation have a value, and these
  compare as the relation says;
* `Valuation.standard`: the constants have their real values.
-/

namespace LinearRelations

/-! ### Computations that can fail -/

/-- Two steps succeed when the first does and the second does behind it. -/
theorem exists_of_bind_eq_ok {ε α β : Type} {x : Except ε α} {f : α → Except ε β} {b : β}
    (h : x >>= f = .ok b) : ∃ a, x = .ok a ∧ f a = .ok b := by
  rcases x with cause | a
  · cases h
  · exact ⟨a, rfl, h⟩

/-- Naming the causes of failure differently leaves results as they are. -/
theorem eq_ok_of_mapError {ε ε' α : Type} {f : ε → ε'} {x : Except ε α} {a : α} (h : x.mapError f = .ok a) :
    x = .ok a := by
  rcases x with cause | a'
  · cases h
  · exact congrArg Except.ok (Except.ok.inj h)

/-- A result with one property, or a cause of failure with another. -/
def Yields {ε α : Type} (P : α → Prop) (E : ε → Prop) : Except ε α → Prop
  | .ok a => P a
  | .error cause => E cause

namespace Yields

variable {ε ε' α β : Type} {P : α → Prop} {Q : β → Prop} {E : ε → Prop} {E' : ε' → Prop}
  {x : Except ε α}

theorem bind {f : α → Except ε β} (hx : Yields P E x) (hf : ∀ a, P a → Yields Q E (f a)) :
    Yields Q E (x >>= f) := by
  rcases x with cause | a
  · exact hx
  · exact hf a hx

theorem of_eq_error {cause : ε} (hx : Yields P E x) (h : x = .error cause) : E cause := by
  rwa [h] at hx

theorem exists_ok (hx : Yields P E x) (h : ∀ cause, E cause → x ≠ .error cause) : ∃ a, x = .ok a ∧ P a := by
  rcases x with cause | a
  · exact absurd rfl (h cause hx)
  · exact ⟨a, rfl, hx⟩

theorem map {f : α → β} (hx : Yields P E x) (hf : ∀ a, P a → Q (f a)) : Yields Q E (f <$> x) := by
  rcases x with cause | a
  · exact hx
  · exact hf a hx

theorem mono {F : ε → Prop} (hx : Yields P E x) (hF : ∀ cause, E cause → F cause) : Yields P F x := by
  rcases x with cause | a
  · exact hF cause hx
  · exact hx

theorem mapError {f : ε → ε'} (hx : Yields P E x) (hf : ∀ cause, E cause → E' (f cause)) :
    Yields P E' (x.mapError f) := by
  rcases x with cause | a
  · exact hf cause hx
  · exact hx

theorem mapM {xs : List α} {f : α → Except ε β} (h : ∀ a ∈ xs, Yields Q E (f a)) :
    Yields (fun bs : List β => ∀ b ∈ bs, Q b) E (xs.mapM f) := by
  induction xs with
  | nil => exact fun b hb => absurd hb List.not_mem_nil
  | cons a xs ih =>
    obtain ⟨ha, hxs⟩ := List.forall_mem_cons.1 h
    rw [List.mapM_cons]
    refine bind ha fun b hb => bind (ih hxs) fun bs hbs => ?_
    exact List.forall_mem_cons.2 ⟨hb, hbs⟩

end Yields

/-! ### Valuations -/

/-- Field elements for the built-in constants and for all other names. -/
structure Valuation (K : Type*) where
  constant : Constant → K
  unknown : String → K

variable {K : Type*} [Field K]

/-! ### Values of leaves and signs -/

/-- The value of what a leaf stands for. -/
def LeafValue.value (ρ : Valuation K) : LeafValue → K
  | number q => (q : K)
  | constant c => ρ.constant c
  | unknown name => ρ.unknown name

namespace Sign

/-- What a sign makes of a value. -/
def onValue : Sign → K → K
  | plus, x => x
  | minus, x => -x

@[simp] theorem onValue_plus (x : K) : plus.onValue x = x := rfl

@[simp] theorem onValue_minus (x : K) : minus.onValue x = -x := rfl

theorem onValue_negate (s : Sign) (x : K) : s.negate.onValue x = -s.onValue x := by
  cases s <;> simp [negate]

end Sign

/-! ### Values of expressions -/

section Strict

variable [DecidableEq K]

namespace Operator

/-- The operator on values; nothing is divided by zero. -/
def onValues? (op : Operator) (x? y? : Option K) : Option K := do
  let x ← x?
  let y ← y?
  match op with
  | mul => some (x * y)
  | div => if y = 0 then none else some (x / y)
  | add => some (x + y)
  | sub => some (x - y)

@[simp] theorem onValues?_none_left (op : Operator) (y? : Option K) :
    op.onValues? none y? = none := rfl

@[simp] theorem onValues?_none_right (op : Operator) (x? : Option K) :
    op.onValues? x? none = none := by
  cases x? <;> rfl

@[simp] theorem mul_onValues? (x y : K) : mul.onValues? (some x) (some y) = some (x * y) := rfl

@[simp] theorem add_onValues? (x y : K) : add.onValues? (some x) (some y) = some (x + y) := rfl

@[simp] theorem sub_onValues? (x y : K) : sub.onValues? (some x) (some y) = some (x - y) := rfl

theorem div_onValues? (x y : K) :
    div.onValues? (some x) (some y) = if y = 0 then none else some (x / y) := rfl

theorem exists_of_onValues? {op : Operator} {x? y? : Option K} {z : K}
    (h : op.onValues? x? y? = some z) : ∃ x y, x? = some x ∧ y? = some y := by
  rcases x? with _ | x
  · simp at h
  · rcases y? with _ | y
    · simp at h
    · exact ⟨x, y, rfl, rfl⟩

/-- A product distributes over a sum or difference, also in what is undefined. -/
theorem mul_onValues?_left {op : Operator} (hop : op.isAdditive = true) (x? y? z? : Option K) :
    mul.onValues? (op.onValues? x? y?) z? = op.onValues? (mul.onValues? x? z?) (mul.onValues? y? z?) := by
  rcases x? with _ | x <;> rcases y? with _ | y <;> rcases z? with _ | z <;> try simp
  cases op with
  | add => simp [add_mul]
  | sub => simp [sub_mul]
  | mul => simp [isAdditive] at hop
  | div => simp [isAdditive] at hop

theorem mul_onValues?_right {op : Operator} (hop : op.isAdditive = true) (x? y? z? : Option K) :
    mul.onValues? x? (op.onValues? y? z?) = op.onValues? (mul.onValues? x? y?) (mul.onValues? x? z?) := by
  rcases x? with _ | x <;> rcases y? with _ | y <;> rcases z? with _ | z <;> try simp
  cases op with
  | add => simp [mul_add]
  | sub => simp [mul_sub]
  | mul => simp [isAdditive] at hop
  | div => simp [isAdditive] at hop

/-- A divisor may be shared by the terms of a sum or difference. -/
theorem div_onValues?_left {op : Operator} (hop : op.isAdditive = true) (x? y? z? : Option K) :
    div.onValues? (op.onValues? x? y?) z? = op.onValues? (div.onValues? x? z?) (div.onValues? y? z?) := by
  rcases x? with _ | x <;> rcases y? with _ | y <;> rcases z? with _ | z <;> try simp
  by_cases hz : z = 0
  · cases op <;> simp [hz, div_onValues?, isAdditive] at hop ⊢
  · cases op with
    | add => simp [div_onValues?, hz, add_div]
    | sub => simp [div_onValues?, hz, sub_div]
    | mul => simp [isAdditive] at hop
    | div => simp [isAdditive] at hop

end Operator

/-- The strict value of an expression, none where a divisor is zero or a leaf is no finite
number. -/
def Expr.value? (ρ : Valuation K) : Expr → Option K
  | leaf operand => operand.meaning?.map (LeafValue.value ρ)
  | node lhs op rhs => op.onValues? (lhs.value? ρ) (rhs.value? ρ)

theorem Expr.value?_node (ρ : Valuation K) (lhs rhs : Expr) (op : Operator) :
    (node lhs op rhs).value? ρ = op.onValues? (lhs.value? ρ) (rhs.value? ρ) := rfl

theorem Expr.value?_zero (ρ : Valuation K) : zero.value? ρ = some 0 := by
  have h : (⟨"0", by decide⟩ : Operand).meaning? = some (.number 0) := by decide +kernel
  simp [zero, value?, h, LeafValue.value]

theorem Expr.value?_one (ρ : Valuation K) : one.value? ρ = some 1 := by
  have h : (⟨"1", by decide⟩ : Operand).meaning? = some (.number 1) := by decide +kernel
  simp [one, value?, h, LeafValue.value]

/-! ### Values of signed sums -/

namespace Term

def value? (ρ : Valuation K) (term : Term) : Option K :=
  (term.body.value? ρ).map term.sign.onValue

/-- The strict value of a sum of signed terms. -/
def sum? (ρ : Valuation K) : List Term → Option K
  | [] => some 0
  | term :: rest => Operator.add.onValues? (term.value? ρ) (sum? ρ rest)

end Term

/-! ### Relations at a valuation -/

/-- What a comparison says of two values. -/
def Comparison.Holds {K : Type*} [LinearOrder K] : Comparison → K → K → Prop
  | eq, x, y => x = y
  | lt, x, y => x < y
  | le, x, y => x ≤ y
  | gt, x, y => y < x
  | ge, x, y => y ≤ x

namespace Relation

/-- Both sides have a value. -/
def DefinedAt (relation : Relation) (ρ : Valuation K) : Prop :=
  (relation.lhs.value? ρ).isSome ∧ (relation.rhs.value? ρ).isSome

/-- Both sides have values that compare as the relation says. -/
def HoldsAt {K : Type*} [Field K] [LinearOrder K] (relation : Relation) (ρ : Valuation K) : Prop :=
  ∃ x y, relation.lhs.value? ρ = some x ∧ relation.rhs.value? ρ = some y ∧
    relation.comparison.Holds x y

theorem definedAt_of_value? {relation : Relation} {ρ : Valuation K} {x y : K}
    (hx : relation.lhs.value? ρ = some x) (hy : relation.rhs.value? ρ = some y) : relation.DefinedAt ρ := by
  rw [DefinedAt, hx, hy]
  exact ⟨rfl, rfl⟩

theorem holdsAt_iff {K : Type*} [Field K] [LinearOrder K] {relation : Relation} {ρ : Valuation K} {x y : K}
    (hx : relation.lhs.value? ρ = some x) (hy : relation.rhs.value? ρ = some y) :
    relation.HoldsAt ρ ↔ relation.comparison.Holds x y := by
  constructor
  · rintro ⟨x', y', hx', hy', h⟩
    obtain rfl := Option.some.inj (hx.symm.trans hx')
    obtain rfl := Option.some.inj (hy.symm.trans hy')
    exact h
  · intro h
    exact ⟨x, y, hx, hy, h⟩

end Relation

end Strict

/-! ### The real values of the constants -/

/-- The real number that a constant names. -/
noncomputable def Constant.real : Constant → ℝ
  | pi => Real.pi
  | piHalf => Real.pi / 2
  | piQuarter => Real.pi / 4
  | onePerPi => 1 / Real.pi
  | twoPerPi => 2 / Real.pi
  | twoPerRootPi => 2 / √Real.pi
  | e => Real.exp 1
  | logTwoE => 1 / Real.log 2
  | logTenE => 1 / Real.log 10
  | lnTwo => Real.log 2
  | lnTen => Real.log 10
  | rootTwo => √2
  | rootHalf => 1 / √2

/-- The valuation over a field that contains the reals in which every constant has its real
value. -/
noncomputable def Valuation.standard {K : Type*} [Field K] [Algebra ℝ K] (values : String → K) :
    Valuation K :=
  ⟨fun c => algebraMap ℝ K c.real, values⟩

end LinearRelations
