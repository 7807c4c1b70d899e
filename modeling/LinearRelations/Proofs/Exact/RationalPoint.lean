import LinearRelations.Proofs.Exact.Generic

/-!
# Rational points

A rational function of the variables is a quotient of polynomials, and it has its value wherever the
divisor is not zero. Since a polynomial that is zero at all rational points is the zero polynomial,
there is a rational point among them.

* `Expr.IsQuotient`: an expression is a quotient of polynomials, also at every point of the reals at
  which the divisor is not zero;
* `Expr.exists_isQuotient`: every rational function of the variables is one;
* `Expr.exists_rational_value?`: what is a rational function has a value at some rational point.
-/

namespace LinearRelations

open Classical MvPolynomial

/-- The constants have their real values, and the variables rational ones. -/
noncomputable def Valuation.rational (values : String → ℚ) : Valuation ℝ :=
  .standard fun name => (values name : ℝ)

namespace Expr

/-- Whether an expression is the quotient of two polynomials in the variables: as a rational function,
and at every point at which the second one is not zero. -/
structure IsQuotient (e : Expr) (x : GenericField) (num den : MvPolynomial String ℝ) : Prop where
  den_ne_zero : den ≠ 0
  mul_eq : x * algebraMap _ GenericField den = algebraMap _ GenericField num
  value? : ∀ u, eval u den ≠ 0 → e.value? (.standard u) = some (eval u num / eval u den)

namespace IsQuotient

variable {lhs rhs : Expr} {x y : GenericField} {p q r s : MvPolynomial String ℝ}

/-! ### Leaves -/

/-- What is a polynomial everywhere is a quotient by one. -/
theorem of_polynomial {e : Expr} (h : ∀ u, e.value? (.standard u) = some (eval u p)) :
    e.IsQuotient (algebraMap _ GenericField p) p 1 where
  den_ne_zero := one_ne_zero
  mul_eq := by rw [map_one, mul_one]
  value? u _ := by rw [h u, map_one, div_one]

/-- The polynomial of what a leaf stands for. -/
noncomputable def leafPolynomial : LeafValue → MvPolynomial String ℝ
  | .number q => C (q : ℝ)
  | .constant c => C c.real
  | .unknown name => X name

theorem value_generic (v : LeafValue) :
    v.value .generic = algebraMap _ GenericField (leafPolynomial v) := by
  have hC : ∀ a : ℝ, algebraMap ℝ GenericField a = algebraMap _ GenericField (C a) := fun a => by
    rw [IsScalarTower.algebraMap_apply ℝ (MvPolynomial String ℝ) GenericField, algebraMap_eq]
  cases v with
  | number q => exact (map_ratCast (algebraMap ℝ GenericField) q).symm.trans (hC q)
  | constant c => exact hC c.real
  | unknown name => rfl

theorem value_standard (v : LeafValue) (u : String → ℝ) :
    v.value (.standard u) = eval u (leafPolynomial v) := by
  cases v with
  | number q => exact (eval_C (q : ℝ)).symm
  | constant c => exact (eval_C c.real).symm
  | unknown name => exact (eval_X name).symm

theorem leaf {operand : Operand} {v : LeafValue} (h : operand.meaning? = some v) :
    (Expr.leaf operand).IsQuotient (v.value .generic) (leafPolynomial v) 1 := by
  rw [value_generic]
  refine of_polynomial fun u => ?_
  rw [Expr.value?, h, ← value_standard]
  rfl

/-! ### Operators -/

theorem add (hl : lhs.IsQuotient x p q) (hr : rhs.IsQuotient y r s) :
    (node lhs .add rhs).IsQuotient (x + y) (p * s + q * r) (q * s) where
  den_ne_zero := mul_ne_zero hl.den_ne_zero hr.den_ne_zero
  mul_eq := by
    rw [map_add, map_mul, map_mul, map_mul, ← hl.mul_eq, ← hr.mul_eq]
    ring
  value? u hu := by
    obtain ⟨hq, hs⟩ := mul_ne_zero_iff.1 (map_mul (eval u) q s ▸ hu)
    rw [value?_node, hl.value? u hq, hr.value? u hs, Operator.add_onValues?, div_add_div _ _ hq hs]
    simp

theorem sub (hl : lhs.IsQuotient x p q) (hr : rhs.IsQuotient y r s) :
    (node lhs .sub rhs).IsQuotient (x - y) (p * s - q * r) (q * s) where
  den_ne_zero := mul_ne_zero hl.den_ne_zero hr.den_ne_zero
  mul_eq := by
    rw [map_sub, map_mul, map_mul, map_mul, ← hl.mul_eq, ← hr.mul_eq]
    ring
  value? u hu := by
    obtain ⟨hq, hs⟩ := mul_ne_zero_iff.1 (map_mul (eval u) q s ▸ hu)
    rw [value?_node, hl.value? u hq, hr.value? u hs, Operator.sub_onValues?, div_sub_div _ _ hq hs]
    simp

theorem mul (hl : lhs.IsQuotient x p q) (hr : rhs.IsQuotient y r s) :
    (node lhs .mul rhs).IsQuotient (x * y) (p * r) (q * s) where
  den_ne_zero := mul_ne_zero hl.den_ne_zero hr.den_ne_zero
  mul_eq := by
    rw [map_mul, map_mul, ← hl.mul_eq, ← hr.mul_eq]
    ring
  value? u hu := by
    obtain ⟨hq, hs⟩ := mul_ne_zero_iff.1 (map_mul (eval u) q s ▸ hu)
    rw [value?_node, hl.value? u hq, hr.value? u hs, Operator.mul_onValues?, div_mul_div_comm]
    simp

/-- A divisor that is not zero has a numerator that is not zero. -/
theorem num_ne_zero {e : Expr} (h : e.IsQuotient y r s) (hy : y ≠ 0) : r ≠ 0 := by
  rintro rfl
  have hinj := IsFractionRing.injective (MvPolynomial String ℝ) GenericField
  have hs : algebraMap _ GenericField s ≠ 0 := (map_ne_zero_iff _ hinj).2 h.den_ne_zero
  have := h.mul_eq
  rw [map_zero] at this
  exact mul_ne_zero hy hs this

/-- Behind the division sign the numerator must not be zero either. -/
theorem div (hl : lhs.IsQuotient x p q) (hr : rhs.IsQuotient y r s) (hy : y ≠ 0) :
    (node lhs .div rhs).IsQuotient (x / y) (p * s * s) (q * r * s) where
  den_ne_zero := mul_ne_zero (mul_ne_zero hl.den_ne_zero (hr.num_ne_zero hy)) hr.den_ne_zero
  mul_eq := by
    rw [map_mul, map_mul, map_mul, map_mul, ← hl.mul_eq, ← hr.mul_eq]
    field_simp
  value? u hu := by
    rw [map_mul, map_mul] at hu
    obtain ⟨hqr, hs⟩ := mul_ne_zero_iff.1 hu
    obtain ⟨hq, hr'⟩ := mul_ne_zero_iff.1 hqr
    rw [value?_node, hl.value? u hq, hr.value? u hs, Operator.div_onValues?, if_neg (div_ne_zero hr' hs)]
    simp only [map_mul, Option.some_inj]
    field_simp

end IsQuotient

/-- **A rational function of the variables is a quotient of polynomials.** -/
theorem exists_isQuotient {e : Expr} {x : GenericField} (h : e.value? .generic = some x) :
    ∃ p q, e.IsQuotient x p q := by
  induction e generalizing x with
  | leaf operand =>
    obtain ⟨v, hv, rfl⟩ := Option.map_eq_some_iff.1 h
    exact ⟨_, _, .leaf hv⟩
  | node lhs op rhs ihl ihr =>
    rw [value?_node] at h
    obtain ⟨y, z, hy, hz⟩ := Operator.exists_of_onValues? h
    obtain ⟨p, q, hl⟩ := ihl hy
    obtain ⟨r, s, hr⟩ := ihr hz
    rw [hy, hz] at h
    cases op with
    | mul => exact ⟨_, _, Option.some.inj h ▸ hl.mul hr⟩
    | add => exact ⟨_, _, Option.some.inj h ▸ hl.add hr⟩
    | sub => exact ⟨_, _, Option.some.inj h ▸ hl.sub hr⟩
    | div =>
      rw [Operator.div_onValues?] at h
      split at h
      · cases h
      · next hne => exact ⟨_, _, Option.some.inj h ▸ hl.div hr hne⟩

/-- A polynomial that is not zero is not zero at some rational point. -/
theorem exists_rational_eval_ne_zero {p : MvPolynomial String ℝ} (hp : p ≠ 0) :
    ∃ values : String → ℚ, eval (fun name => (values name : ℝ)) p ≠ 0 := by
  by_contra hnone
  push Not at hnone
  refine hp (funext_set (fun _ => Set.range ((↑) : ℚ → ℝ))
    (fun _ => Set.infinite_range_of_injective Rat.cast_injective) fun u hu => ?_)
  choose values hvalues using fun name => hu name trivial
  rw [map_zero, ← hnone values]
  exact congrArg (fun u => eval u p) (funext hvalues).symm

/-- **A rational function of the variables has a value at some rational point.** -/
theorem exists_rational_value? {e : Expr} {x : GenericField} (h : e.value? .generic = some x) :
    ∃ (values : String → ℚ) (y : ℝ), e.value? (.rational values) = some y := by
  obtain ⟨p, q, hquotient⟩ := exists_isQuotient h
  obtain ⟨values, hvalues⟩ := exists_rational_eval_ne_zero hquotient.den_ne_zero
  exact ⟨values, _, hquotient.value? _ hvalues⟩

end Expr

end LinearRelations
