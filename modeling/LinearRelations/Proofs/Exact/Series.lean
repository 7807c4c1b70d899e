import LinearRelations.Proofs.Exact.Enclosure
import LinearRelations.Proofs.Exact.Formal

/-!
# Enclosures of the constants

A series is summed in units, each term rounded down: every term adds at most one unit to the error,
and what is left of the series is less than two units.

* `Enclosure.converge_e`: the factorial series;
* `Enclosure.shrink_inverseTangent`: the series of the inverse tangent and of the hyperbolic one;
* `Enclosure.converge_ofAtom?`: every atom that is a number.
-/

namespace LinearRelations.Enclosure

open Finset Nat

/-- Dividing natural numbers is dividing, rounded down. -/
theorem natDiv_bounds (m : ℕ) {n : ℕ} (hn : 0 < n) :
    (m : ℝ) / n - 1 ≤ (m / n : ℕ) ∧ ((m / n : ℕ) : ℝ) ≤ m / n := by
  refine ⟨?_, Nat.cast_div_le⟩
  have hpos : (0 : ℝ) < n := by exact_mod_cast hn
  rw [sub_le_iff_le_add, div_le_iff₀ hpos]
  have : m ≤ (m / n + 1) * n := by
    have := Nat.div_add_mod m n
    have := Nat.mod_lt m hn
    rw [Nat.add_mul, one_mul, Nat.mul_comm]
    omega
  exact_mod_cast this

/-! ### The base of the natural logarithm -/

theorem factorialSum_bounds (unit count i : ℕ) :
    ∑ j ∈ range count, (unit : ℝ) / (i + j)! - count ≤ factorialSum count i (unit / i !) ∧
      (factorialSum count i (unit / i !) : ℝ) ≤ ∑ j ∈ range count, (unit : ℝ) / (i + j)! := by
  induction count generalizing i with
  | zero => simp [factorialSum]
  | succ count ih =>
    have hterm := natDiv_bounds unit (Nat.factorial_pos i)
    have hnext : unit / i ! / (i + 1) = unit / (i + 1)! := by
      rw [Nat.div_div_eq_div_mul, Nat.factorial_succ, Nat.mul_comm]
    have ih := ih (i + 1)
    simp only [Nat.add_assoc, Nat.add_comm 1] at ih
    rw [factorialSum, hnext, sum_range_succ', Nat.add_zero]
    push_cast
    constructor <;> linarith

theorem two_pow_le_factorial (p : ℕ) : 2 ^ p ≤ (p + 2)! := by
  induction p with
  | zero => decide
  | succ p ih =>
    rw [pow_succ, Nat.add_right_comm, Nat.factorial_succ, Nat.mul_comm]
    exact Nat.mul_le_mul (by omega) ih

theorem encloses_e (places : ℕ) : (e places).Encloses (Real.exp 1) := by
  obtain ⟨hlo, hhi⟩ := factorialSum_bounds (2 ^ places) (places + 2) 0
  rw [Nat.factorial_zero, Nat.div_one] at hlo hhi
  have hsum : ∑ j ∈ range (places + 2), ((2 ^ places : ℕ) : ℝ) / (0 + j)! =
      2 ^ places * ∑ j ∈ range (places + 2), (1 : ℝ) ^ j / j ! := by
    rw [mul_sum]
    refine sum_congr rfl fun j _ => ?_
    rw [Nat.zero_add, one_pow, mul_one_div]
    push_cast
    rfl
  have hpos : (0 : ℝ) ≤ 2 ^ places := by positivity
  have hle : (2 : ℝ) ^ places * ∑ j ∈ range (places + 2), (1 : ℝ) ^ j / j ! ≤ 2 ^ places * Real.exp 1 :=
    mul_le_mul_of_nonneg_left (Real.sum_le_exp_of_nonneg zero_le_one _) hpos
  have htail : (2 : ℝ) ^ places * Real.exp 1 ≤
      2 ^ places * ∑ j ∈ range (places + 2), (1 : ℝ) ^ j / j ! + 2 := by
    have hbound := (abs_le.1 (Real.exp_bound (x := 1) (by simp) (n := places + 2) (by omega))).2
    rw [abs_one, one_pow, one_mul] at hbound
    have hfac : (2 : ℝ) ^ places ≤ (places + 2)! := by exact_mod_cast two_pow_le_factorial places
    have hfpos : (0 : ℝ) < (places + 2)! := by positivity
    have hrest : (2 : ℝ) ^ places * ((places + 2).succ / ((places + 2)! * (places + 2 : ℕ))) ≤ 2 := by
      push_cast
      rw [mul_div_assoc', div_le_iff₀ (by positivity)]
      calc (2 : ℝ) ^ places * (places + 2 + 1) ≤ (places + 2)! * (2 * (places + 2)) :=
            mul_le_mul hfac (by linarith [(Nat.cast_nonneg places : (0 : ℝ) ≤ places)]) (by positivity)
              hfpos.le
        _ = 2 * ((places + 2)! * (places + 2)) := by ring
    have := mul_le_mul_of_nonneg_left hbound hpos
    rw [mul_sub] at this
    linarith
  rw [e, encloses_ofUnits_iff]
  push_cast at hlo ⊢
  rw [hsum] at hhi
  constructor
  · linarith
  · have : ((2 ^ places : ℕ) : ℝ) = 2 ^ places := by push_cast; rfl
    rw [this] at hsum
    rw [hsum] at hlo
    linarith

theorem converge_e : Converge (fun places => some (e places)) (Real.exp 1) := by
  refine .of_shrink encloses_e (shrink_ofUnits encloses_e 4 fun p => ?_)
  push_cast
  linarith [(Nat.cast_nonneg p : (0 : ℝ) ≤ p)]

/-! ### Inverse tangents -/

/-- The sign of a term: alternating, or plus. -/
def termSign (alternating : Bool) (i : ℕ) : ℝ := if alternating then (-1) ^ i else 1

theorem abs_termSign (alternating : Bool) (i : ℕ) : |termSign alternating i| = 1 := by
  cases alternating <;> simp [termSign]

/-- A term of the series of the inverse tangent of `1 / k`, or of the hyperbolic one. -/
noncomputable def oddTerm (alternating : Bool) (k i : ℕ) : ℝ :=
  termSign alternating i * (1 / (k ^ (2 * i + 1) * (2 * i + 1) : ℕ))

theorem oddPowerSum_cons (alternating : Bool) (k count i power : ℕ) :
    (oddPowerSum alternating k (count + 1) i power : ℝ) =
      termSign alternating i * (power / (2 * i + 1) : ℕ) +
        oddPowerSum alternating k count (i + 1) (power / (k * k)) := by
  rw [oddPowerSum]
  generalize power / (2 * i + 1) = term
  rcases alternating with _ | _
  · simp [termSign, add_comm]
  · rcases Nat.mod_two_eq_zero_or_one i with hi | hi
    · simp [termSign, hi, (Nat.even_iff.2 hi).neg_one_pow, add_comm]
    · simp [termSign, hi, (Nat.odd_iff.2 hi).neg_one_pow]
      ring

theorem oddPowerSum_bounds (alternating : Bool) {k : ℕ} (hk : 0 < k) (unit count i : ℕ) :
    |unit * ∑ j ∈ range count, oddTerm alternating k (i + j) -
      oddPowerSum alternating k count i (unit / k ^ (2 * i + 1))| ≤ count := by
  induction count generalizing i with
  | zero => simp [oddPowerSum]
  | succ count ih =>
    have hnext : unit / k ^ (2 * i + 1) / (k * k) = unit / k ^ (2 * (i + 1) + 1) := by
      rw [Nat.div_div_eq_div_mul]
      ring_nf
    have hfirst : unit / k ^ (2 * i + 1) / (2 * i + 1) = unit / (k ^ (2 * i + 1) * (2 * i + 1)) :=
      Nat.div_div_eq_div_mul ..
    have hdiv := natDiv_bounds unit (n := k ^ (2 * i + 1) * (2 * i + 1)) (by positivity)
    have hterm : |unit * oddTerm alternating k i -
        termSign alternating i * (unit / (k ^ (2 * i + 1) * (2 * i + 1)) : ℕ)| ≤ 1 := by
      rw [oddTerm, mul_left_comm, ← mul_sub, abs_mul, abs_termSign, one_mul, mul_one_div, abs_le]
      constructor <;> linarith
    have ih := ih (i + 1)
    simp only [Nat.add_assoc, Nat.add_comm 1] at ih
    rw [oddPowerSum_cons, hnext, hfirst, sum_range_succ', Nat.add_zero]
    push_cast
    calc _ = |(unit * ∑ j ∈ range count, oddTerm alternating k (i + (j + 1)) -
            oddPowerSum alternating k count (i + 1) (unit / k ^ (2 * (i + 1) + 1))) +
          (unit * oddTerm alternating k i -
            termSign alternating i * (unit / (k ^ (2 * i + 1) * (2 * i + 1)) : ℕ))| := by
          congr 1
          ring
      _ ≤ count + 1 := (abs_add_le _ _).trans (add_le_add ih hterm)

/-- What is left of the series falls faster than the units. -/
theorem oddTerm_tail {alternating : Bool} {k : ℕ} (hk : 3 ≤ k) {x : ℝ}
    (h : HasSum (oddTerm alternating k) x) (places : ℕ) :
    2 ^ places * |∑ j ∈ range places, oddTerm alternating k j - x| ≤ 1 := by
  have hk' : (3 : ℝ) ≤ k := by exact_mod_cast hk
  have hterm : ∀ i, ‖oddTerm alternating k i‖ ≤ 1 / 3 * (1 / 9) ^ i := by
    intro i
    have hpow : (1 / 3 : ℝ) * (1 / 9) ^ i = 1 / (3 ^ (2 * i + 1) * 1) := by
      rw [one_div_pow, pow_succ, pow_mul]
      norm_num
    rw [oddTerm, Real.norm_eq_abs, abs_mul, abs_termSign, one_mul, abs_of_pos (by positivity), hpow]
    push_cast
    refine one_div_le_one_div_of_le (by positivity) ?_
    exact mul_le_mul (pow_le_pow_left₀ (by norm_num) hk' _) (by linarith [(Nat.cast_nonneg i : (0 : ℝ) ≤ i)])
      zero_le_one (by positivity)
  have hbound := norm_sub_le_of_geometric_bound_of_hasSum (by norm_num) hterm h places
  calc (2 : ℝ) ^ places * |∑ j ∈ range places, oddTerm alternating k j - x|
      ≤ 2 ^ places * (1 / 3 * (1 / 9) ^ places / (1 - 1 / 9)) :=
        mul_le_mul_of_nonneg_left hbound (by positivity)
    _ = 3 / 8 * (2 / 9) ^ places := by
        rw [show (2 / 9 : ℝ) = 2 * (1 / 9) by norm_num, mul_pow]
        ring
    _ ≤ 3 / 8 * 1 := mul_le_mul_of_nonneg_left (pow_le_one₀ (by norm_num) (by norm_num)) (by norm_num)
    _ ≤ 1 := by norm_num

theorem encloses_inverseTangent {alternating : Bool} {k : ℕ} (hk : 3 ≤ k) {x : ℝ}
    (h : HasSum (oddTerm alternating k) x) (places : ℕ) :
    (inverseTangent alternating k places).Encloses x := by
  have hsum := oddPowerSum_bounds alternating (by omega : 0 < k) (2 ^ places) places 0
  have htail := oddTerm_tail hk h places
  simp only [Nat.zero_add, Nat.mul_zero, pow_one] at hsum
  have hpos : |(2 : ℝ) ^ places| = 2 ^ places := abs_of_pos (by positivity)
  rw [← hpos, ← abs_mul, mul_sub, abs_le] at htail
  rw [abs_le] at hsum
  rw [inverseTangent, encloses_ofUnits_iff]
  push_cast at hsum ⊢
  constructor <;> linarith

theorem shrink_inverseTangent {alternating : Bool} {k : ℕ} (hk : 3 ≤ k) {x : ℝ}
    (h : HasSum (oddTerm alternating k) x) :
    Shrink (inverseTangent alternating k) x := by
  refine shrink_ofUnits (encloses_inverseTangent hk h) 2 fun p => ?_
  push_cast
  linarith

theorem inv_natCast_lt_one {k : ℕ} (hk : 3 ≤ k) : |(k : ℝ)⁻¹| < 1 := by
  rw [abs_inv, Nat.abs_cast]
  exact inv_lt_one_of_one_lt₀ (by exact_mod_cast (by omega : 1 < k))

theorem hasSum_arctan {k : ℕ} (hk : 3 ≤ k) : HasSum (oddTerm true k) (Real.arctan (k : ℝ)⁻¹) := by
  have hterm : oddTerm true k = fun n : ℕ => (-1) ^ n * (k : ℝ)⁻¹ ^ (2 * n + 1) / (2 * n + 1 : ℕ) := by
    funext n
    rw [oddTerm, termSign, if_pos rfl, inv_pow]
    push_cast
    rw [mul_div_assoc, ← one_div, div_div]
  rw [hterm]
  exact Real.hasSum_arctan (inv_natCast_lt_one hk)

theorem hasSum_artanh {k : ℕ} (hk : 3 ≤ k) : HasSum (oddTerm false k) (Real.artanh (k : ℝ)⁻¹) := by
  have hterm : oddTerm false k = fun n : ℕ => 2 * (1 / (2 * n + 1)) * (k : ℝ)⁻¹ ^ (2 * n + 1) / 2 := by
    funext n
    rw [oddTerm, termSign, if_neg Bool.false_ne_true, one_mul, inv_pow, one_div]
    push_cast
    rw [mul_inv]
    ring
  have hlt := abs_lt.1 (inv_natCast_lt_one hk)
  rw [hterm, Real.artanh_eq_half_log ⟨hlt.1.le, hlt.2.le⟩, Real.log_div (by linarith) (by linarith),
    one_div_mul_eq_div]
  exact (Real.hasSum_log_sub_log_of_abs_lt_one (inv_natCast_lt_one hk)).div_const 2

/-! ### Circle number and logarithms -/

theorem pi_eq : Real.pi =
    (16 : ℚ) * Real.arctan ((5 : ℕ) : ℝ)⁻¹ + (-4 : ℚ) * Real.arctan ((239 : ℕ) : ℝ)⁻¹ := by
  have := Real.four_mul_arctan_inv_5_sub_arctan_inv_239
  push_cast
  linarith

theorem two_mul_artanh {k : ℕ} (hk : 3 ≤ k) :
    2 * Real.artanh (k : ℝ)⁻¹ = Real.log ((1 + (k : ℝ)⁻¹) / (1 - (k : ℝ)⁻¹)) := by
  have hlt := abs_lt.1 (inv_natCast_lt_one hk)
  rw [Real.artanh_eq_half_log ⟨hlt.1.le, hlt.2.le⟩]
  ring

theorem log_two_eq : Real.log 2 = (2 : ℚ) * Real.artanh ((3 : ℕ) : ℝ)⁻¹ := by
  rw [Rat.cast_ofNat, two_mul_artanh le_rfl]
  norm_num

theorem log_ten_eq :
    Real.log 10 = (3 : ℚ) * Real.log 2 + (2 : ℚ) * Real.artanh ((9 : ℕ) : ℝ)⁻¹ := by
  have h8 : 3 * Real.log 2 = Real.log 8 := by
    rw [show (8 : ℝ) = 2 ^ 3 by norm_num, Real.log_pow]
    norm_num
  rw [Rat.cast_ofNat, Rat.cast_ofNat, two_mul_artanh (by norm_num), h8,
    ← Real.log_mul (by norm_num) (by norm_num)]
  norm_num

theorem converge_pi : (∀ places, (pi places).Encloses Real.pi) ∧ Shrink pi Real.pi := by
  rw [pi_eq]
  exact ⟨fun p => ((encloses_inverseTangent (by norm_num) (hasSum_arctan (by norm_num)) p).scale 16).add
      ((encloses_inverseTangent (by norm_num) (hasSum_arctan (by norm_num)) p).scale (-4)),
    ((shrink_inverseTangent (by norm_num) (hasSum_arctan (by norm_num))).scale 16).add
      ((shrink_inverseTangent (by norm_num) (hasSum_arctan (by norm_num))).scale (-4))⟩

theorem converge_lnTwo :
    (∀ places, (lnTwo places).Encloses (Real.log 2)) ∧ Shrink lnTwo (Real.log 2) := by
  rw [log_two_eq]
  exact ⟨fun p => (encloses_inverseTangent le_rfl (hasSum_artanh le_rfl) p).scale 2,
    (shrink_inverseTangent le_rfl (hasSum_artanh le_rfl)).scale 2⟩

theorem converge_lnTen :
    (∀ places, (lnTen places).Encloses (Real.log 10)) ∧ Shrink lnTen (Real.log 10) := by
  rw [log_ten_eq]
  exact ⟨fun p => ((converge_lnTwo.1 p).scale 3).add
      ((encloses_inverseTangent (by norm_num) (hasSum_artanh (by norm_num)) p).scale 2),
    (converge_lnTwo.2.scale 3).add
      ((shrink_inverseTangent (by norm_num) (hasSum_artanh (by norm_num))).scale 2)⟩

/-- **Every atom that is a number has converging enclosures.** -/
theorem converge_ofAtom? {a : Atom} (h : a.isUnknown = false) :
    Converge (fun places => ofAtom? places a) a.real := by
  cases a with
  | unknown name => cases h
  | rootTwo =>
    have htwo : ((2 : ℚ) : ℝ) = 2 := Rat.cast_ofNat 2
    rw [Atom.real, Constant.real, ← htwo]
    exact .of_shrink (fun p => (encloses_ofRat 2).sqrt p) (shrink_ofRat 2).sqrt
  | rootPi => exact .of_shrink (fun p => (converge_pi.1 p).sqrt p) converge_pi.2.sqrt
  | e => exact converge_e
  | lnTwo => exact .of_shrink converge_lnTwo.1 converge_lnTwo.2
  | lnTen => exact .of_shrink converge_lnTen.1 converge_lnTen.2

end LinearRelations.Enclosure
