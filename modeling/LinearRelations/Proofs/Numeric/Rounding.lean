import LinearRelations.Proofs.Numeric.Doubles

/-!
# Rounding

The sum, difference and product of two doubles is the exact one up to its last place, unless it is
too large for a double.

* `Double.IsNear`: the double that an exact number is rounded to, up to the last place;
* `Double.exists_roundWithAccuracy`: rounding a whole number in units of a power of two;
* `Double.isNear_sub`, `Double.isNear_add`, `Double.isNear_mul`: the operations.
-/

namespace LinearRelations.Double

open Float.Model (Format UnpackedFloat)
open Float.Model.UnpackedFloat

/-! ### Rounding a significand -/

theorem mantissa_shiftRight (em : ExtendedMantissa) (k : ℕ) : (em >>> k).mantissa = em.mantissa / 2 ^ k := by
  induction k with
  | zero => simp [HShiftRight.hShiftRight, Nat.repeat]
  | succ k ih =>
    have hstep : (em >>> (k + 1)).mantissa = (em >>> k).mantissa / 2 := rfl
    rw [hstep, ih, Nat.div_div_eq_div_mul, pow_succ]

/-- Rounding adds one at most. -/
theorem roundedMantissa_bounds (em : ExtendedMantissa) :
    em.mantissa ≤ em.roundedMantissa ∧ em.roundedMantissa ≤ em.mantissa + 1 := by
  rcases em with ⟨m, roundBit, stickyBit⟩
  cases roundBit <;> cases stickyBit <;>
    simp only [ExtendedMantissa.roundedMantissa, ExtendedMantissa.accuracy,
      Accuracy.roundToNearestEven] <;> omega

/-- The exponent of the last of 53 places, or the smallest exponent. -/
def lastExponent (m : ℕ) (e : ℤ) : ℤ := max (m.log2 + e - 52) (-1074)

theorem lastExponent_eq_or (m : ℕ) (e : ℤ) :
    lastExponent m e = -1074 ∨ (2 : ℚ) ^ lastExponent m e * 2 ^ 52 = 2 ^ m.log2 * 2 ^ e := by
  rcases max_choice (m.log2 + e - 52) (-1074) with h | h
  · right
    rw [lastExponent, h, ← zpow_natCast, ← zpow_natCast, ← zpow_add₀ two_ne_zero, ← zpow_add₀ two_ne_zero]
    congr 1
    omega
  · exact .inl h

/-- The last place is small beside the number, or it is the smallest there is. -/
theorem zpow_lastExponent_le {m : ℕ} (e : ℤ) (hm : 0 < m) :
    (2 : ℚ) ^ lastExponent m e ≤ m * 2 ^ e / 2 ^ 52 + 2 ^ (-1074 : ℤ) := by
  rcases lastExponent_eq_or m e with h | h
  · rw [h]
    exact le_add_of_nonneg_left (by positivity)
  · have hlog : (2 : ℚ) ^ m.log2 ≤ m := by exact_mod_cast Nat.log2_self_le hm.ne'
    have hle : (2 : ℚ) ^ lastExponent m e ≤ m * 2 ^ e / 2 ^ 52 := by
      rw [le_div_iff₀ (by positivity), h]
      exact mul_le_mul_of_nonneg_right hlog (by positivity)
    exact hle.trans (le_add_of_nonneg_right (by positivity))

theorem targetExponent_eq (m : ℕ) (e : ℤ) :
    Format.binary64.targetExponent (Float.Model.totalExponent m e) = lastExponent m e := by
  simp only [Format.targetExponent, Float.Model.totalExponent, Format.mantissaBits, Format.minExponent,
    lastExponent]
  omega

theorem shiftToTargetExponent_eq (m : ℕ) (e : ℤ) :
    shiftToTargetExponent Format.binary64 m e .exact =
      (ExtendedMantissa.mk m false false >>> (lastExponent m e - e).toNat,
        e + (lastExponent m e - e).toNat) := by
  rw [← targetExponent_eq]
  rfl

/-- A canonical number is not shifted. -/
theorem shiftToTargetExponent_of_lt {m : ℕ} {e : ℤ} (hm : m < 2 ^ 53) (he : -1074 ≤ e) :
    shiftToTargetExponent Format.binary64 m e .exact = (ExtendedMantissa.mk m false false, e) := by
  have hlog : m.log2 ≤ 52 := by
    by_cases h : m = 0
    · simp [h]
    · have := (Nat.log2_lt h).2 hm
      omega
  have hshift : (lastExponent m e - e).toNat = 0 := by
    rw [lastExponent]
    omega
  rw [shiftToTargetExponent_eq, hshift]
  exact Prod.ext rfl (add_zero e)

/-- The double of a shifted significand and its exponent. -/
def ofShifted (s : UnpackedFloat.Sign) (p : ExtendedMantissa × ℤ) : UnpackedFloat :=
  if h : p.1.mantissa = 0 then .zero s else .finite s p.1.mantissa p.2 (Nat.pos_of_ne_zero h)

/-- A significand is shifted, rounded, and shifted again. -/
theorem roundWithAccuracy_eq_ofShifted (s : UnpackedFloat.Sign) (m : ℕ) (e : ℤ) :
    roundWithAccuracy Format.binary64 s m e .exact =
      ofShifted s (shiftToTargetExponent Format.binary64
        (shiftToTargetExponent Format.binary64 m e .exact).1.roundedMantissa
        (shiftToTargetExponent Format.binary64 m e .exact).2 .exact) := rfl

/-- The significand rounded at the last place. -/
def rounded (m : ℕ) (e : ℤ) : ℕ :=
  (ExtendedMantissa.mk m false false >>> (lastExponent m e - e).toNat).roundedMantissa

theorem rounded_bounds (m : ℕ) (e : ℤ) :
    m / 2 ^ (lastExponent m e - e).toNat ≤ rounded m e ∧
      rounded m e ≤ m / 2 ^ (lastExponent m e - e).toNat + 1 := by
  have h := roundedMantissa_bounds (ExtendedMantissa.mk m false false >>> (lastExponent m e - e).toNat)
  rw [mantissa_shiftRight] at h
  exact h

section Rounded

variable {m : ℕ} {e : ℤ} (hm : 0 < m) (hplaces : 52 ≤ m.log2 ∨ e ≤ -1074)

include hplaces

/-- With enough places nothing is shifted to the left. -/
theorem add_shift_eq_lastExponent : e + (lastExponent m e - e).toNat = lastExponent m e := by
  rw [lastExponent]
  omega

omit hplaces in
theorem div_lt_of_places (m : ℕ) (e : ℤ) : m / 2 ^ (lastExponent m e - e).toNat < 2 ^ 53 := by
  have hlog : m.log2 + 1 ≤ (lastExponent m e - e).toNat + 53 := by
    rw [lastExponent]
    omega
  rw [Nat.div_lt_iff_lt_mul (by positivity), ← pow_add, add_comm 53]
  exact Nat.lt_log2_self.trans_le (Nat.pow_le_pow_right (by decide) hlog)

include hm in
/-- Above the smallest exponent a significand keeps 53 places. -/
theorem le_div_of_places (hlast : lastExponent m e ≠ -1074) :
    2 ^ 52 ≤ m / 2 ^ (lastExponent m e - e).toNat := by
  have hlog : 52 + (lastExponent m e - e).toNat = m.log2 := by
    rw [lastExponent] at hlast ⊢
    omega
  rw [Nat.le_div_iff_mul_le (by positivity), ← pow_add, hlog]
  exact Nat.log2_self_le hm.ne'

/-- Rounding changes a number by one unit in its last place at most. -/
theorem abs_rounded_sub_le :
    |(rounded m e : ℚ) * 2 ^ lastExponent m e - m * 2 ^ e| ≤ 2 ^ lastExponent m e := by
  obtain ⟨hlo, hhi⟩ := rounded_bounds m e
  have hlast := add_shift_eq_lastExponent hplaces
  generalize (lastExponent m e - e).toNat = k at *
  have hdiv := Nat.div_add_mod m (2 ^ k)
  have hmod := Nat.mod_lt m (Nat.two_pow_pos k)
  have hlo' := Nat.mul_le_mul_left (2 ^ k) hlo
  have hhi' := Nat.mul_le_mul_left (2 ^ k) hhi
  rw [mul_add, mul_one] at hhi'
  have hm : (m : ℚ) ≤ 2 ^ k * rounded m e + 2 ^ k := by
    have : m ≤ 2 ^ k * rounded m e + 2 ^ k := by omega
    exact_mod_cast this
  have hr : 2 ^ k * (rounded m e : ℚ) ≤ m + 2 ^ k := by
    have : 2 ^ k * rounded m e ≤ m + 2 ^ k := by omega
    exact_mod_cast this
  have hpos : (0 : ℚ) < 2 ^ e := by positivity
  rw [← hlast, zpow_add₀ two_ne_zero, zpow_natCast, abs_le]
  constructor
  · nlinarith
  · nlinarith

omit hplaces in
/-- Rounding up can carry into one more place. -/
theorem rounded_eq_of_not_lt (h : ¬ rounded m e < 2 ^ 53) : rounded m e = 2 ^ 53 := by
  have hbounds := rounded_bounds m e
  have hplaces := div_lt_of_places m e
  omega

/-- A significand that has got too large is halved. -/
theorem roundWithAccuracy_eq (s : UnpackedFloat.Sign) :
    roundWithAccuracy Format.binary64 s m e .exact =
      if rounded m e < 2 ^ 53 then
        if h : rounded m e = 0 then .zero s
        else .finite s (rounded m e) (lastExponent m e) (Nat.pos_of_ne_zero h)
      else .finite s (2 ^ 52) (lastExponent m e + 1) (by decide) := by
  have hlast : -1074 ≤ lastExponent m e := le_max_right _ _
  rw [roundWithAccuracy_eq_ofShifted, shiftToTargetExponent_eq m e, add_shift_eq_lastExponent hplaces,
    ← rounded]
  by_cases hlt : rounded m e < 2 ^ 53
  · rw [if_pos hlt, shiftToTargetExponent_of_lt hlt hlast]
    rfl
  · have hnext : lastExponent (2 ^ 53) (lastExponent m e) = lastExponent m e + 1 := by
      rw [lastExponent, Nat.log2_two_pow]
      omega
    have hshift : (lastExponent m e + 1 - lastExponent m e).toNat = 1 := by omega
    rw [if_neg hlt, rounded_eq_of_not_lt hlt, shiftToTargetExponent_eq, hnext, hshift]
    rfl

include hm in
/-- **Rounding** a whole number in units of a power of two, with enough places. -/
theorem exists_roundWithAccuracy (s : UnpackedFloat.Sign) :
    ∃ (n : ℕ) (e' : ℤ), IsCanonical n e' ∧
      |(n : ℚ) * 2 ^ e' - m * 2 ^ e| ≤ m * 2 ^ e / 2 ^ 52 + 2 ^ (-1074 : ℤ) ∧
      (971 < e' → (2 : ℚ) ^ 1023 ≤ m * 2 ^ e) ∧
      roundWithAccuracy Format.binary64 s m e .exact =
        if h : n = 0 then .zero s else .finite s n e' (Nat.pos_of_ne_zero h) := by
  have hlast : -1074 ≤ lastExponent m e := le_max_right _ _
  have herror := (abs_rounded_sub_le hplaces).trans (zpow_lastExponent_le e hm)
  have hlarge : 971 ≤ lastExponent m e → (2 : ℚ) ^ 1023 ≤ m * 2 ^ e := by
    intro hle
    have hlog : (2 : ℚ) ^ m.log2 ≤ m := by exact_mod_cast Nat.log2_self_le hm.ne'
    calc (2 : ℚ) ^ 1023 = 2 ^ (971 : ℤ) * 2 ^ 52 := by rw [zpow_ofNat, ← pow_add]
      _ ≤ 2 ^ lastExponent m e * 2 ^ 52 :=
        mul_le_mul_of_nonneg_right (zpow_le_zpow_right₀ one_le_two hle) (by positivity)
      _ = 2 ^ m.log2 * 2 ^ e := (lastExponent_eq_or m e).resolve_left (by omega)
      _ ≤ m * 2 ^ e := mul_le_mul_of_nonneg_right hlog (by positivity)
  by_cases hlt : rounded m e < 2 ^ 53
  · refine ⟨rounded m e, lastExponent m e, ⟨hlt, hlast, ?_⟩, herror, fun h => hlarge h.le, ?_⟩
    · refine or_iff_not_imp_right.2 fun hne => ?_
      exact (le_div_of_places hm hplaces hne).trans (rounded_bounds m e).1
    · rw [roundWithAccuracy_eq hplaces, if_pos hlt]
  · have hcarry := rounded_eq_of_not_lt hlt
    have hsame : ((2 ^ 52 : ℕ) : ℚ) * 2 ^ (lastExponent m e + 1) =
        (rounded m e : ℚ) * 2 ^ lastExponent m e := by
      rw [hcarry, zpow_add_one₀ two_ne_zero]
      push_cast
      ring
    refine ⟨2 ^ 52, lastExponent m e + 1, ⟨by decide, by omega, .inl le_rfl⟩, ?_,
      fun h => hlarge (by omega), ?_⟩
    · rw [hsame]
      exact herror
    · rw [roundWithAccuracy_eq hplaces, if_neg hlt]
      rfl

end Rounded

/-! ### Rounded doubles -/

/-- A double is the number up to its last place, or the number is too large for a double. -/
def IsNear (x : Float) (v : ℚ) : Prop :=
  (∃ w, toRat? x = some w ∧ |w - v| ≤ |v| / 2 ^ 52 + 2 ^ (-1074 : ℤ)) ∨
    ∃ s, x.toModel.unpack = .infinity s ∧ 2 ^ 1023 ≤ |v|

theorem isNear_of_toRat? {x : Float} {v : ℚ} (h : toRat? x = some v) : IsNear x v := by
  refine .inl ⟨v, h, ?_⟩
  rw [sub_self, abs_zero]
  positivity

theorem isNear_roundWithAccuracy (s : UnpackedFloat.Sign) {m : ℕ} {e : ℤ} (hm : 0 < m)
    (hplaces : 52 ≤ m.log2 ∨ e ≤ -1074) :
    IsNear (.ofModel (.pack (roundWithAccuracy Format.binary64 s m e .exact)))
      (signUnit s * (m * 2 ^ e)) := by
  obtain ⟨n, e', hc, herror, hlarge, hround⟩ := exists_roundWithAccuracy hm hplaces s
  have hsize : |signUnit s * (m * 2 ^ e)| = m * 2 ^ e := by
    rw [abs_mul, abs_signUnit, one_mul, abs_of_nonneg (by positivity)]
  rw [hround]
  split
  · next hzero =>
    refine .inl ⟨0, (Denotes.zero s).toRat?_pack, ?_⟩
    rw [hzero, Nat.cast_zero, zero_mul] at herror
    rw [hsize, ← mul_zero (signUnit s), ← mul_sub, abs_mul, abs_signUnit, one_mul]
    exact herror
  next hne =>
  by_cases he : 971 < e'
  · exact .inr ⟨s, unpack_pack_of_lt s _ he, hsize.symm ▸ hlarge he⟩
  · refine .inl ⟨_, (Denotes.finite s (Nat.pos_of_ne_zero hne) hc (not_lt.1 he)).toRat?_pack, ?_⟩
    rw [hsize, ← mul_sub, abs_mul, abs_signUnit, one_mul]
    exact herror

/-- Places added on the right of a significand. -/
theorem cast_decreaseExponent (m : ℕ) {e t : ℤ} (ht : t ≤ e) :
    ((decreaseExponent m e t).1 : ℚ) * 2 ^ t = m * 2 ^ e := by
  have hshift : (e - t).toNat + t = e := by omega
  have hvalue : (decreaseExponent m e t).1 = m * 2 ^ (e - t).toNat := Nat.shiftLeft_eq ..
  rw [hvalue, Nat.cast_mul, Nat.cast_pow, mul_assoc, Nat.cast_ofNat, ← zpow_natCast,
    ← zpow_add₀ two_ne_zero, hshift]

theorem isNear_round (s : UnpackedFloat.Sign) {m : ℕ} (e : ℤ) (hm : 0 < m) :
    IsNear (.ofModel (.pack (round Format.binary64 s m e))) (signUnit s * (m * 2 ^ e)) := by
  have hround : round Format.binary64 s m e =
      roundWithAccuracy Format.binary64 s (decreaseExponent m e (lastExponent m e)).1
        (decreaseExponent m e (lastExponent m e)).2 .exact := by
    rw [← targetExponent_eq]
    rfl
  rw [hround]
  by_cases hle : lastExponent m e ≤ e
  · have hexponent : (decreaseExponent m e (lastExponent m e)).2 = lastExponent m e := by
      change e - ((e - lastExponent m e).toNat : ℤ) = _
      omega
    have hvalue : (decreaseExponent m e (lastExponent m e)).1 = m * 2 ^ (e - lastExponent m e).toNat :=
      Nat.shiftLeft_eq ..
    rw [hexponent, ← cast_decreaseExponent m hle]
    refine isNear_roundWithAccuracy s (by rw [hvalue]; positivity) ?_
    by_cases hplaces : 52 ≤ m.log2 + (e - lastExponent m e).toNat
    · refine .inl ((Nat.le_log2 (by rw [hvalue]; positivity)).2 ?_)
      rw [hvalue]
      calc 2 ^ 52 ≤ 2 ^ (m.log2 + (e - lastExponent m e).toNat) := Nat.pow_le_pow_right (by decide) hplaces
        _ = 2 ^ m.log2 * 2 ^ (e - lastExponent m e).toNat := pow_add ..
        _ ≤ m * 2 ^ (e - lastExponent m e).toNat := Nat.mul_le_mul_right _ (Nat.log2_self_le hm.ne')
    · rw [lastExponent] at hplaces ⊢
      omega
  · have hsame : decreaseExponent m e (lastExponent m e) = (m, e) := by
      have hshift : (e - lastExponent m e).toNat = 0 := by omega
      rw [decreaseExponent, hshift]
      exact Prod.ext rfl (sub_zero e)
    have hplaces : 52 ≤ m.log2 ∨ e ≤ -1074 := by
      rw [lastExponent] at hle
      omega
    rw [hsame]
    exact isNear_roundWithAccuracy s hm hplaces

theorem isNear_normalize (m : ℤ) (e : ℤ) (s : UnpackedFloat.Sign) :
    IsNear (.ofModel (.pack (UnpackedFloat.normalize Format.binary64 m e s))) (m * 2 ^ e) := by
  unfold UnpackedFloat.normalize
  rcases lt_trichotomy m 0 with hm | rfl | hm
  · have hcast : ((-m).toNat : ℚ) = -m := by exact_mod_cast Int.toNat_of_nonneg (by omega : 0 ≤ -m)
    have h := isNear_round .negative e (m := (-m).toNat) (by omega)
    rw [hcast, signUnit, neg_one_mul, neg_mul, neg_neg] at h
    rwa [compare_lt_iff_lt.2 hm]
  · rw [Int.cast_zero, zero_mul]
    exact isNear_of_toRat? (Denotes.zero s).toRat?_pack
  · have hcast : (m.toNat : ℚ) = m := by exact_mod_cast Int.toNat_of_nonneg hm.le
    have h := isNear_round .positive e (m := m.toNat) (by omega)
    rw [hcast, signUnit, one_mul] at h
    rwa [compare_gt_iff_gt.2 hm]

/-! ### Operations -/

namespace Denotes

variable {u v : UnpackedFloat} {p q : ℚ} (hp : Denotes u p) (hq : Denotes v q)

include hp

theorem neg : Denotes u.neg (-p) := by
  rcases hp with s | ⟨s, hm, hc, he⟩
  · rw [neg_zero]
    exact .zero (-s)
  · rw [← neg_mul, ← signUnit_neg]
    exact .finite (-s) hm hc he

theorem abs : Denotes u.abs |p| := by
  rcases hp with s | ⟨s, hm, hc, he⟩
  · rw [abs_zero]
    exact .zero .positive
  · rw [abs_mul, abs_signUnit, abs_of_nonneg (by positivity)]
    exact .finite .positive hm hc he

include hq

theorem isNear_add : IsNear (.ofModel (.pack (UnpackedFloat.add Format.binary64 u v))) (p + q) := by
  rcases hp with s | @⟨s, m, e, hm, hc, he⟩ <;> rcases hq with s' | @⟨s', m', e', hm', hc', he'⟩
  · rw [add_zero]
    cases s <;> cases s' <;> exact isNear_of_toRat? (Denotes.zero _).toRat?_pack
  · rw [zero_add]
    exact isNear_of_toRat? (Denotes.finite s' hm' hc' he').toRat?_pack
  · rw [add_zero]
    exact isNear_of_toRat? (Denotes.finite s hm hc he).toRat?_pack
  · have hvalue : signUnit s * ((m : ℚ) * 2 ^ e) + signUnit s' * (m' * 2 ^ e') =
        ((s.apply (decreaseExponent m e (min e e')).1 +
          s'.apply (decreaseExponent m' e' (min e e')).1 : ℤ) : ℚ) * 2 ^ min e e' := by
      rw [Int.cast_add, cast_apply, cast_apply, add_mul, mul_assoc, mul_assoc, Int.cast_natCast,
        Int.cast_natCast, cast_decreaseExponent m (min_le_left e e'), cast_decreaseExponent m' (min_le_right e e')]
    rw [hvalue]
    exact isNear_normalize _ _ _

/-- A difference is the sum with what is negated. -/
theorem sub_eq_add_neg :
    UnpackedFloat.sub Format.binary64 u v = UnpackedFloat.add Format.binary64 u v.neg := by
  rcases hp with s | @⟨s, m, e, hm, hc, he⟩ <;> rcases hq with s' | @⟨s', m', e', hm', hc', he'⟩
  · rfl
  · rfl
  · rfl
  · have happly : ∀ n : ℤ, (-s').apply n = -s'.apply n := fun n => by
      cases s'
      · exact (neg_neg n).symm
      · rfl
    simp only [UnpackedFloat.sub, UnpackedFloat.add, UnpackedFloat.neg, happly, Int.sub_eq_add_neg]

theorem isNear_mul : IsNear (.ofModel (.pack (UnpackedFloat.mul Format.binary64 u v))) (p * q) := by
  rcases hp with s | @⟨s, m, e, hm, hc, he⟩ <;> rcases hq with s' | @⟨s', m', e', hm', hc', he'⟩
  · rw [zero_mul]
    exact isNear_of_toRat? (Denotes.zero (s * s')).toRat?_pack
  · rw [zero_mul]
    exact isNear_of_toRat? (Denotes.zero (s * s')).toRat?_pack
  · rw [mul_zero]
    exact isNear_of_toRat? (Denotes.zero (s * s')).toRat?_pack
  · have hvalue : signUnit s * ((m : ℚ) * 2 ^ e) * (signUnit s' * (m' * 2 ^ e')) =
        signUnit (s * s') * (((m * m' : ℕ) : ℚ) * 2 ^ (e + e')) := by
      rw [signUnit_mul, zpow_add₀ two_ne_zero]
      push_cast
      ring
    have hplaces : 52 ≤ (m * m').log2 ∨ e + e' ≤ -1074 := by
      have hlog : 2 ^ 52 ≤ m * m' → 52 ≤ (m * m').log2 := (Nat.le_log2 (Nat.mul_pos hm hm').ne').2
      rcases hc.2.2 with hleading | hlowest
      · exact .inl (hlog (hleading.trans (Nat.le_mul_of_pos_right m hm')))
      · rcases hc'.2.2 with hleading' | hlowest'
        · exact .inl (hlog (hleading'.trans (Nat.le_mul_of_pos_left m' hm)))
        · exact .inr (by omega)
    rw [hvalue]
    exact isNear_roundWithAccuracy (s * s') (Nat.mul_pos hm hm') hplaces

end Denotes

section Operations

variable {x y : Float} {p q : ℚ} (hp : toRat? x = some p) (hq : toRat? y = some q)

include hp in
theorem toRat?_abs : toRat? x.abs = some |p| :=
  (toRat?_eq_some_iff.1 hp).abs.toRat?_pack

include hp hq

theorem isNear_add : IsNear (x + y) (p + q) :=
  (toRat?_eq_some_iff.1 hp).isNear_add (toRat?_eq_some_iff.1 hq)

theorem isNear_sub : IsNear (x - y) (p - q) := by
  have hp' := toRat?_eq_some_iff.1 hp
  have hq' := toRat?_eq_some_iff.1 hq
  have hsub := hp'.isNear_add hq'.neg
  rw [← hp'.sub_eq_add_neg hq', ← sub_eq_add_neg] at hsub
  exact hsub

theorem isNear_mul : IsNear (x * y) (p * q) :=
  (toRat?_eq_some_iff.1 hp).isNear_mul (toRat?_eq_some_iff.1 hq)

end Operations

end LinearRelations.Double
