import LinearRelations.Proofs.PlainDecimal

/-!
# Plain decimals are exact and short

A rational number has a plain decimal exactly if its denominator has no prime factor but two and five,
the factors of ten. A denominator `2 ^ a * 5 ^ b` divides a power of ten only if neither `a` nor `b` is
above the exponent, so no fraction over a smaller power of ten is the same number and the digits
behind the point are as few as can be. It is not written if these are too many digits all the same.

* `Text.exists_factors`: a denominator by its twos, its fives and the rest;
* `Text.IsDecimalFraction`: a number whose size is a fraction over a power of ten;
* `Text.IsShortest`: the size of a number over the smallest power of ten;
* `Text.IsTooLong`, `Text.plainDecimal_eq_error_iff`: the numbers that are too long to be written;
* `Text.IsPlainDecimal`: how a plain decimal looks;
* `Text.exists_isPlainDecimal`: the plain decimal of a number looks so, and has the fewest places;
* `Text.plainDecimal_exact`: which numbers have a plain decimal, what it says and when it is written;
* `Text.plainDecimal_halfPower`: a power of a half that is too long.
-/

namespace LinearRelations.Text

/-! ### Twos and fives -/

/-- The rest is no longer divided by the factor counted. -/
theorem not_dvd_of_factorCount {p n k rest : Nat} (hp : 1 < p) (hn : 0 < n)
    (h : factorCount p n = (k, rest)) : ¬ p ∣ rest := by
  fun_induction factorCount p n generalizing k rest with
  | case1 n hdiv count rest' hcount ih =>
    obtain ⟨rfl, rfl⟩ := Prod.mk.inj h
    have hle : p ≤ n := Nat.le_of_dvd hn (Nat.dvd_of_mod_eq_zero hdiv.2.2)
    exact ih (Nat.div_pos hle (by omega)) hcount
  | case2 n hdiv =>
    obtain ⟨rfl, rfl⟩ := Prod.mk.inj h
    intro hdvd
    exact hdiv ⟨hp, hn, Nat.mod_eq_zero_of_dvd hdvd⟩

/-- **A denominator by its twos and fives**: places are counted where nothing else is left. -/
theorem exists_factors {d : Nat} (hd : 0 < d) : ∃ a b rest, d = 2 ^ a * 5 ^ b * rest ∧ ¬ 2 ∣ rest ∧
    ¬ 5 ∣ rest ∧ decimalPlaces? d = if rest = 1 then some (max a b) else none := by
  rcases htwo : factorCount 2 d with ⟨a, rest⟩
  rcases hfive : factorCount 5 rest with ⟨b, rest'⟩
  have hd' : d = 2 ^ a * rest := eq_of_factorCount htwo
  have hrest : rest = 5 ^ b * rest' := eq_of_factorCount hfive
  have hpos : 0 < rest := by
    apply Nat.pos_of_ne_zero
    rintro rfl
    omega
  refine ⟨a, b, rest', ?_, ?_, not_dvd_of_factorCount (by decide) hpos hfive, ?_⟩
  · rw [hd', hrest, mul_assoc]
  · intro hdvd
    apply not_dvd_of_factorCount (by decide) hd htwo
    rw [hrest]
    exact hdvd.mul_left _
  · simp only [decimalPlaces?, htwo, hfive]

theorem eq_two_or_five {p a b : ℕ} (hp : p.Prime) (h : p ∣ 2 ^ a * 5 ^ b) : p = 2 ∨ p = 5 := by
  rcases hp.dvd_mul.1 h with h | h
  · exact .inl ((Nat.prime_dvd_prime_iff_eq hp Nat.prime_two).1 (hp.dvd_of_dvd_pow h))
  · exact .inr ((Nat.prime_dvd_prime_iff_eq hp Nat.prime_five).1 (hp.dvd_of_dvd_pow h))

/-- No places are enough if a prime factor other than two and five is left. -/
theorem decimalPlaces?_eq_none_iff {d : Nat} (hd : 0 < d) :
    decimalPlaces? d = none ↔ ∃ p : ℕ, p.Prime ∧ p ∣ d ∧ p ≠ 2 ∧ p ≠ 5 := by
  obtain ⟨a, b, rest, rfl, htwo, hfive, hplaces⟩ := exists_factors hd
  rw [hplaces]
  constructor
  · intro h
    have hrest : rest ≠ 1 := by
      rintro rfl
      cases h
    obtain ⟨p, hp, hdvd⟩ := Nat.exists_prime_and_dvd hrest
    refine ⟨p, hp, hdvd.mul_left _, ?_, ?_⟩
    · rintro rfl
      exact htwo hdvd
    · rintro rfl
      exact hfive hdvd
  · rintro ⟨p, hp, hdvd, hne2, hne5⟩
    apply if_neg
    rintro rfl
    rw [mul_one] at hdvd
    exact (eq_two_or_five hp hdvd).elim hne2 hne5

theorem le_of_pow_dvd_mul_pow {p q a k : ℕ} (hp : 1 < p) (hpq : p.Coprime q) (h : p ^ a ∣ (p * q) ^ k) :
    a ≤ k := by
  rw [mul_pow] at h
  have hdvd : p ^ a ∣ p ^ k := (hpq.pow a k).dvd_of_dvd_mul_right h
  exact (Nat.pow_dvd_pow_iff_le_right hp).1 hdvd

/-- **No power of ten with a smaller exponent will do.** -/
theorem decimalPlaces?_le {d places k : ℕ} (h : decimalPlaces? d = some places) (hdvd : d ∣ 10 ^ k) :
    places ≤ k := by
  have hd : 0 < d := Nat.pos_of_dvd_of_pos hdvd (by positivity)
  obtain ⟨a, b, rest, rfl, -, -, hplaces⟩ := exists_factors hd
  rw [hplaces] at h
  split at h
  · obtain rfl := Option.some.inj h
    apply max_le
    · apply le_of_pow_dvd_mul_pow (p := 2) (q := 5) (by decide) (by decide)
      exact (Dvd.intro _ (mul_assoc _ _ _).symm).trans hdvd
    · apply le_of_pow_dvd_mul_pow (p := 5) (q := 2) (by decide) (by decide)
      exact ((Dvd.intro_left _ rfl).mul_right _).trans hdvd
  · cases h

/-! ### Fractions over a power of ten -/

/-- A number whose size is a fraction over a power of ten. -/
def IsDecimalFraction (q : ℚ) : Prop := ∃ n k : ℕ, |q| = n / 10 ^ k

theorem den_dvd_of_abs_eq {q : ℚ} {n k : ℕ} (h : |q| = n / 10 ^ k) : q.den ∣ 10 ^ k := by
  have habs : Rat.divInt n (10 ^ k : ℕ) = |q| := by
    rw [h, Rat.divInt_eq_div]
    push_cast
    rfl
  have hdvd := Rat.den_dvd n (10 ^ k : ℕ)
  rw [habs, Rat.den_abs_eq_den] at hdvd
  exact_mod_cast hdvd

theorem isDecimalFraction_iff {q : ℚ} : IsDecimalFraction q ↔ ∃ k, q.den ∣ 10 ^ k := by
  constructor
  · rintro ⟨n, k, h⟩
    exact ⟨k, den_dvd_of_abs_eq h⟩
  · rintro ⟨k, m, hm⟩
    refine ⟨q.num.natAbs * m, k, ?_⟩
    have hden : (q.den : ℚ) ≠ 0 := by exact_mod_cast q.den_ne_zero
    have hten : (10 : ℚ) ^ k = q.den * m := by exact_mod_cast hm
    have hm0 : (m : ℚ) ≠ 0 := by
      rintro hzero
      rw [hzero, mul_zero] at hten
      exact absurd hten (by positivity)
    rw [hten, Nat.cast_mul, mul_div_mul_right _ _ hm0, Nat.cast_natAbs, Int.cast_abs, ← Nat.abs_cast q.den,
      ← abs_div, Rat.num_div_den]

theorem isDecimalFraction_of_decimalPlaces? {q : ℚ} {places : ℕ} (h : decimalPlaces? q.den = some places) :
    IsDecimalFraction q :=
  isDecimalFraction_iff.2 ⟨places, dvd_of_decimalPlaces? h⟩

theorem decimalPlaces?_den_eq_none_iff {q : ℚ} : decimalPlaces? q.den = none ↔ ¬ IsDecimalFraction q := by
  constructor
  · intro h hdecimal
    obtain ⟨k, hdvd⟩ := isDecimalFraction_iff.1 hdecimal
    obtain ⟨p, hp, hpd, hne2, hne5⟩ := (decimalPlaces?_eq_none_iff q.den_pos).1 h
    have hten : p ∣ 2 ^ k * 5 ^ k := by
      rw [← mul_pow]
      exact hpd.trans hdvd
    exact (eq_two_or_five hp hten).elim hne2 hne5
  · intro h
    by_contra hsome
    obtain ⟨places, hplaces⟩ := Option.ne_none_iff_exists'.1 hsome
    exact h (isDecimalFraction_of_decimalPlaces? hplaces)

/-- **The numbers without a plain decimal** are no fractions over a power of ten. -/
theorem plainDecimal_eq_none_iff {q : ℚ} : plainDecimal q = .ok none ↔ ¬ IsDecimalFraction q := by
  rw [← decimalPlaces?_den_eq_none_iff]
  rcases plainDecimal_cases q with ⟨hnone, heq⟩ | ⟨places, hsome, ⟨-, heq⟩ | ⟨-, -, heq⟩ | ⟨-, -, heq⟩⟩
  · simp [hnone, heq]
  · simp [hsome, heq]
  · simp [hsome, heq]
  · simp [hsome, heq]

/-! ### Numbers that are too long -/

/-- The size of a number as a fraction over the smallest possible power of ten. -/
structure IsShortest (q : ℚ) (n places : ℕ) : Prop where
  abs_eq : |q| = n / 10 ^ places
  le : ∀ m k : ℕ, |q| = m / 10 ^ k → places ≤ k

theorem isShortest_unitsAt {q : ℚ} {places : ℕ} (h : decimalPlaces? q.den = some places) :
    IsShortest q (unitsAt places q) places where
  abs_eq := (unitsAt_div h).symm
  le _ _ hq := decimalPlaces?_le h (den_dvd_of_abs_eq hq)

namespace IsShortest

variable {q : ℚ} {n n' places places' : ℕ}

theorem unique (h : IsShortest q n places) (h' : IsShortest q n' places') : n = n' ∧ places = places' := by
  obtain rfl : places = places' := le_antisymm (h.le _ _ h'.abs_eq) (h'.le _ _ h.abs_eq)
  have hpos : (10 : ℚ) ^ places ≠ 0 := by positivity
  have heq : (n : ℚ) / 10 ^ places = n' / 10 ^ places := h.abs_eq.symm.trans h'.abs_eq
  exact ⟨by exact_mod_cast (div_left_inj' hpos).1 heq, rfl⟩

theorem isDecimalFraction (h : IsShortest q n places) : IsDecimalFraction q := ⟨n, places, h.abs_eq⟩

/-- It is the number in units of its last decimal place. -/
theorem decimalPlaces?_den (h : IsShortest q n places) :
    decimalPlaces? q.den = some places ∧ n = unitsAt places q := by
  rcases hplaces : decimalPlaces? q.den with _ | k
  · exact absurd h.isDecimalFraction (decimalPlaces?_den_eq_none_iff.1 hplaces)
  · obtain ⟨hn, rfl⟩ := h.unique (isShortest_unitsAt hplaces)
    exact ⟨rfl, hn⟩

end IsShortest

theorem isLong_eq_true_iff {n : ℕ} : isLong n = true ↔ 10 ^ digitLimit ≤ n := by
  rw [isLong, decide_eq_true_iff]

/-- The numbers that are too long to be written: those with too many places, and those that are too large
in units of their last place. -/
inductive IsTooLong (q : ℚ) : ExactError → Prop
  | places {n places : ℕ} : IsShortest q n places → placeLimit < places → IsTooLong q .textTooLong
  | digits {n places : ℕ} : IsShortest q n places → places ≤ placeLimit → 10 ^ digitLimit ≤ n →
      IsTooLong q .tooManyDigits

/-- **These are not written.** -/
theorem plainDecimal_eq_error_iff {q : ℚ} {cause : ExactError} :
    plainDecimal q = .error cause ↔ IsTooLong q cause := by
  constructor
  · intro h
    rcases plainDecimal_cases q with ⟨-, heq⟩ | ⟨places, hsome, ⟨hplaces, heq⟩ | ⟨hplaces, hlong, heq⟩ | ⟨-, -, heq⟩⟩
    · cases h.symm.trans heq
    · obtain rfl := Except.error.inj (h.symm.trans heq)
      exact .places (isShortest_unitsAt hsome) hplaces
    · obtain rfl := Except.error.inj (h.symm.trans heq)
      exact .digits (isShortest_unitsAt hsome) hplaces (isLong_eq_true_iff.1 hlong)
    · cases h.symm.trans heq
  · intro h
    cases h with
    | places hshortest hplaces =>
      obtain ⟨hsome, rfl⟩ := hshortest.decimalPlaces?_den
      rw [plainDecimal, hsome]
      exact if_pos hplaces
    | digits hshortest hplaces hlong =>
      obtain ⟨hsome, rfl⟩ := hshortest.decimalPlaces?_den
      rw [plainDecimal, hsome]
      simp only [if_neg (not_lt.2 hplaces), isLong_eq_true_iff.2 hlong, if_true]

theorem not_isTooLong_zero (cause : ExactError) : ¬ IsTooLong 0 cause := by
  rw [← plainDecimal_eq_error_iff, show plainDecimal 0 = .ok (some "0") by decide +kernel]
  intro h
  cases h

/-! ### How a plain decimal looks -/

/-- Digits, and a point behind them if more digits follow. -/
def withPoint (whole parts : List Char) : List Char := if parts = [] then whole else whole ++ '.' :: parts

/-- There is a digit in front of the point, and the first of several is not zero. -/
structure IsPlainDecimal (whole parts : List Char) : Prop where
  isDigit : ∀ c ∈ whole ++ parts, c.isDigit = true
  whole_ne_nil : whole ≠ []
  eq_zero_of_head? : whole.head? = some '0' → whole = ['0']

/-- The digits of a number other than zero do not begin with zero. -/
theorem head?_toDigits_ne_zero {n : ℕ} (hn : 0 < n) : (Nat.toDigits 10 n).head? ≠ some '0' := by
  induction n using Nat.strong_induction_on with
  | _ n ih =>
    by_cases hlt : n < 10
    · rw [Nat.toDigits_of_lt_base hlt]
      interval_cases n <;> decide
    · rw [Nat.toDigits_of_base_le (by decide) (by omega), List.head?_append_of_ne_nil _ Nat.toDigits_ne_nil]
      exact ih (n / 10) (by omega) (by omega)

theorem eq_zero_of_head?_toDigits {n : ℕ} (h : (Nat.toDigits 10 n).head? = some '0') : n = 0 := by
  by_contra hn
  exact head?_toDigits_ne_zero (Nat.pos_of_ne_zero hn) h

theorem isPlainDecimal_toDigits (n : ℕ) : IsPlainDecimal (Nat.toDigits 10 n) [] where
  isDigit c hc := by
    rw [List.append_nil] at hc
    exact Nat.isDigit_of_mem_toDigits (by decide) (by decide) hc
  whole_ne_nil := Nat.toDigits_ne_nil
  eq_zero_of_head? h := by rw [eq_zero_of_head?_toDigits h, Nat.toDigits_zero]

/-- Zeros are put in front only as far as there is no digit before the point. -/
theorem isPlainDecimal_padded {places : ℕ} (n : ℕ) (hplaces : places ≠ 0) {digits : List Char}
    (h : digits = padded (places + 1) (Nat.toDigits 10 n)) :
    IsPlainDecimal (digits.take (digits.length - places)) (digits.drop (digits.length - places)) := by
  have hlength : digits.length = max (places + 1) (Nat.toDigits 10 n).length := by
    rw [h, padded, List.length_append, List.length_replicate]
    omega
  refine ⟨?_, ?_, ?_⟩
  · intro c hc
    rw [List.take_append_drop, h] at hc
    exact isDigit_of_mem_padded hc
  · intro hnil
    have := congrArg List.length hnil
    rw [List.length_take, List.length_nil] at this
    omega
  · intro hhead
    by_cases hfew : (Nat.toDigits 10 n).length ≤ places
    · -- one digit stands in front of the point
      have hone : (digits.take (digits.length - places)).length = 1 := by
        rw [List.length_take]
        omega
      obtain ⟨c, hc⟩ := List.length_eq_one_iff.1 hone
      rw [hc] at hhead ⊢
      rw [Option.some.inj hhead]
    · -- the digits are those of the number, and it is not zero
      have hzero : places + 1 - (Nat.toDigits 10 n).length = 0 := by omega
      have hdigits : digits = Nat.toDigits 10 n := by
        rw [h, padded, hzero, List.replicate_zero, List.nil_append]
      rw [List.head?_take, if_neg (by omega), hdigits] at hhead
      have hn := eq_zero_of_head?_toDigits hhead
      rw [hn, Nat.toDigits_zero, List.length_singleton] at hfew
      omega

theorem exists_pointed_eq (places n : ℕ) : ∃ whole parts, pointed places n = withPoint whole parts ∧
    IsPlainDecimal whole parts ∧ parts.length = places := by
  unfold pointed
  split
  · next hzero => exact ⟨_, [], rfl, isPlainDecimal_toDigits n, hzero.symm⟩
  · next hplaces =>
    have hle := le_length_padded (places + 1) (Nat.toDigits 10 n)
    refine ⟨_, _, ?_, isPlainDecimal_padded n hplaces rfl, ?_⟩
    · rw [withPoint, if_neg]
      intro hnil
      have := congrArg List.length hnil
      rw [List.length_drop, List.length_nil] at this
      omega
    · rw [List.length_drop]
      omega

/-- **The plain decimal of a number** looks so, and no fraction over a smaller power of ten is that number. -/
theorem exists_isPlainDecimal {q : ℚ} {text : String} (h : plainDecimal q = .ok (some text)) :
    ∃ whole parts, text.toList = withPoint whole parts ∧ IsPlainDecimal whole parts ∧
      (parts = [] ↔ q.den = 1) ∧ ∀ n k : ℕ, |q| = n / 10 ^ k → parts.length ≤ k := by
  obtain ⟨places, hplaces, -, -, rfl⟩ := of_plainDecimal h
  obtain ⟨whole, parts, hpointed, hplain, rfl⟩ := exists_pointed_eq places (unitsAt places q)
  refine ⟨whole, parts, ?_, hplain, ?_, (isShortest_unitsAt hplaces).le⟩
  · rw [String.toList_ofList]
    exact hpointed
  · constructor
    · rintro rfl
      exact Nat.dvd_one.1 (dvd_of_decimalPlaces? hplaces)
    · intro hden
      have hle : parts.length ≤ 0 := decimalPlaces?_le hplaces (by rw [hden]; exact one_dvd _)
      exact List.length_eq_zero_iff.1 (Nat.le_zero.1 hle)

/-- A plain decimal can stand as an operand, and it is read as the size of its number. -/
theorem exists_operand_of_plainDecimal {q : ℚ} {text : String} (h : plainDecimal q = .ok (some text)) :
    ∃ x : Operand, x.text = text ∧ x.isNumeral = true ∧ x.read = .ok (.number |q|) := by
  obtain ⟨hname, numeral, hread, -⟩ := read?_of_plainDecimal h
  have hnumeral : isNumeral text = true := by
    rw [isNumeral, hname, hread]
    rfl
  have hvalid : isOperand text = true := by
    rw [isOperand, hnumeral]
    rfl
  exact ⟨⟨text, hvalid⟩, rfl, hnumeral, Operand.read_of_plainDecimal h⟩

/-- **A number has a plain decimal** unless its denominator has a prime factor other than two and five. It
is written unless it is too long, and then it is an operand for the size of the number, with a point
only where the number is not whole and then with the fewest possible digits behind it. -/
theorem plainDecimal_exact (q : ℚ) :
    (plainDecimal q = .ok none ↔ ∃ p : ℕ, p.Prime ∧ p ∣ q.den ∧ p ≠ 2 ∧ p ≠ 5) ∧
      (∀ cause, plainDecimal q = .error cause ↔ IsTooLong q cause) ∧
      ∀ text, plainDecimal q = .ok (some text) →
        (∃ x : Operand, x.text = text ∧ x.isNumeral = true ∧ x.read = .ok (.number |q|)) ∧
          ∃ whole parts, text.toList = withPoint whole parts ∧ IsPlainDecimal whole parts ∧
            (parts = [] ↔ q.den = 1) ∧ ∀ n k : ℕ, |q| = n / 10 ^ k → parts.length ≤ k := by
  refine ⟨?_, fun cause => plainDecimal_eq_error_iff, fun text h => ?_⟩
  · rw [plainDecimal_eq_none_iff, ← decimalPlaces?_den_eq_none_iff]
    exact decimalPlaces?_eq_none_iff q.den_pos
  · exact ⟨exists_operand_of_plainDecimal h, exists_isPlainDecimal h⟩

/-- Many places, with zeros in front: `3 / 6400`. -/
example : plainDecimal (3 / 6400) = .ok (some "0.00046875") := by decide +kernel

/-! ### Powers of a half -/

theorem den_one_div_two_pow (a : ℕ) : (1 / 2 ^ a : ℚ).den = 2 ^ a := by
  have h := Rat.inv_natCast_den_of_pos (Nat.two_pow_pos a)
  rwa [Nat.cast_pow, Nat.cast_ofNat, ← one_div] at h

/-- Every halving takes one more place. -/
theorem isShortest_halfPower (a : ℕ) : IsShortest (1 / 2 ^ a) (5 ^ a) a where
  abs_eq := by
    rw [abs_of_pos (by positivity), Nat.cast_pow, Nat.cast_ofNat, ← div_pow, ← one_div_pow]
    norm_num
  le m k h := by
    have hdvd := den_dvd_of_abs_eq h
    rw [den_one_div_two_pow] at hdvd
    exact le_of_pow_dvd_mul_pow (p := 2) (q := 5) (by decide) (by decide) hdvd

/-- **A power of a half that is too long to be written**, although it has a finite decimal expansion. -/
theorem plainDecimal_halfPower : plainDecimal (1 / 2 ^ 6200) = .error .tooManyDigits ∧
    ¬ ∀ q : ℚ, (∀ p : ℕ, p.Prime → p ∣ q.den → p = 2 ∨ p = 5) → ∃ text, plainDecimal q = .ok (some text) := by
  have hlong : plainDecimal (1 / 2 ^ 6200) = .error .tooManyDigits := by
    refine plainDecimal_eq_error_iff.2 (.digits (isShortest_halfPower 6200) (by decide) ?_)
    decide +kernel
  refine ⟨hlong, fun h => ?_⟩
  obtain ⟨text, htext⟩ := h (1 / 2 ^ 6200) fun p hp hdvd => by
    rw [den_one_div_two_pow] at hdvd
    exact eq_two_or_five (b := 0) hp (hdvd.mul_right _)
  rw [hlong] at htext
  cases htext

end LinearRelations.Text
