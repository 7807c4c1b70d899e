import LinearRelations.Proofs.Value

/-!
# Values of polynomials

* `Polynomial.eval`: the value of a polynomial at given values of its unknowns;
* `Polynomial.eval_add`, `Polynomial.eval_neg`, `Polynomial.eval_mul`: arithmetic is that of values;
* `Polynomial.eval_eq_zero_of_vanishes`: a polynomial that vanishes is zero wherever the first
  unknown is a square root of two;
* `Polynomial.exists_eval_ne_zero`: one with a coefficient other than zero is not zero everywhere;
* `Polynomial.vanishes_of_eval_eq_zero`: one that is zero at the square root of two and all rational
  values of the other unknowns vanishes.
-/

namespace LinearRelations.Polynomial

variable {R : Type*} [CommRing R]

/-! ### Coefficient lists -/

/-- The value of a list of coefficients by rising power. -/
def horner (x : R) : List R → R
  | [] => 0
  | a :: as => a + x * horner x as

/-- Adding coefficients pairwise adds values. -/
theorem horner_map_pairwise {α : Type} {f : α → α → α} {m : α → R} (x : R)
    (h : ∀ a b, m (f a b) = m a + m b) (as bs : List α) :
    horner x ((pairwise f as bs).map m) = horner x (as.map m) + horner x (bs.map m) := by
  fun_induction pairwise f as bs with
  | case1 bs => simp [horner]
  | case2 as _ => simp [horner]
  | case3 a as b bs ih => simp only [List.map_cons, horner, h, ih]; ring

theorem horner_map_mul (x a : R) (bs : List R) : horner x (bs.map (a * ·)) = a * horner x bs := by
  induction bs with
  | nil => simp [horner]
  | cons b bs ih => simp only [List.map_cons, horner, ih]; ring

theorem horner_eq_zero {x : R} {as : List R} (h : ∀ a ∈ as, a = 0) : horner x as = 0 := by
  induction as with
  | nil => rfl
  | cons a as ih =>
    obtain ⟨ha, has⟩ := List.forall_mem_cons.1 h
    rw [horner, ha, ih has, mul_zero, add_zero]

/-- Far out, a polynomial with a coefficient other than zero stays away from zero. -/
theorem exists_le_abs_horner {as : List ℚ} (h : ∃ a ∈ as, a ≠ 0) :
    ∃ bound size : ℚ, 0 < size ∧ ∀ x, bound ≤ x → size ≤ |horner x as| := by
  induction as with
  | nil => simp at h
  | cons a as ih =>
    by_cases has : ∃ b ∈ as, b ≠ 0
    · obtain ⟨bound, size, hsize, hle⟩ := ih has
      refine ⟨max bound ((|a| + size) / size), size, hsize, fun x hx => ?_⟩
      obtain ⟨hx1, hx2⟩ := max_le_iff.1 hx
      have hpos : 0 < x := lt_of_lt_of_le (by positivity) hx2
      have h1 : |a| + size ≤ x * size := (div_le_iff₀ hsize).1 hx2
      have h2 : x * size ≤ |x * horner x as| := by
        rw [abs_mul, abs_of_pos hpos]
        exact mul_le_mul_of_nonneg_left (hle x hx1) hpos.le
      have h3 : |x * horner x as| ≤ |horner x (a :: as)| + |a| := by
        have := abs_sub (horner x (a :: as)) a
        rwa [horner, add_sub_cancel_left] at this
      linarith
    · simp only [not_exists, not_and, not_not] at has
      have ha : a ≠ 0 := by
        obtain ⟨b, hb, hne⟩ := h
        rcases List.mem_cons.1 hb with rfl | hb
        · exact hne
        · exact absurd (has b hb) hne
      refine ⟨0, |a|, abs_pos.2 ha, fun x _ => ?_⟩
      rw [horner, horner_eq_zero has, mul_zero, add_zero]

/-! ### Values -/

variable [Algebra ℚ R]

/-- The value of a polynomial at values of its unknowns. -/
def eval : {n : ℕ} → (ℕ → R) → Polynomial n → R
  | 0, _, p => algebraMap ℚ R p
  | _ + 1, u, p => horner (u 0) (List.map (eval fun i => u (i + 1)) p)

theorem eval_succ {n : ℕ} (u : ℕ → R) (p : List (Polynomial n)) :
    @eval R _ _ (n + 1) u p = horner (u 0) (p.map (eval fun i => u (i + 1))) := rfl

theorem eval_cons {n : ℕ} (u : ℕ → R) (a : Polynomial n) (p : List (Polynomial n)) :
    @eval R _ _ (n + 1) u (a :: p) = eval (fun i => u (i + 1)) a + u 0 * @eval R _ _ (n + 1) u p :=
  rfl

theorem isZero_succ_iff {n : ℕ} {p : List (Polynomial n)} :
    @isZero (n + 1) p = true ↔ ∀ c ∈ p, c.isZero = true :=
  List.all_eq_true

theorem sameNumber_iff {p q : ℚ} : sameNumber p q = true ↔ p = q := by
  rw [sameNumber, beq_iff_eq]

theorem eval_zero : ∀ (n : ℕ) (u : ℕ → R), eval u (zero n) = 0
  | 0, _ => map_zero _
  | _ + 1, _ => rfl

theorem eval_ofRat (q : ℚ) : ∀ (n : ℕ) (u : ℕ → R), eval u (ofRat q n) = algebraMap ℚ R q
  | 0, _ => rfl
  | n + 1, u => by
    rw [ofRat, eval_cons, eval_ofRat q n, eval_succ, List.map_nil, horner, mul_zero, add_zero]

theorem eval_unknown : ∀ {n i : ℕ} (u : ℕ → R), i < n → eval u (unknown n i) = u i
  | n + 1, 0, u, _ => by
    rw [unknown, eval_cons, eval_cons, eval_zero, eval_ofRat, eval_succ, List.map_nil, horner,
      map_one]
    ring
  | n + 1, i + 1, u, h => by
    rw [unknown, eval_cons, eval_unknown _ (Nat.lt_of_succ_lt_succ h), eval_succ, List.map_nil,
      horner, mul_zero, add_zero]

theorem eval_add : ∀ {n : ℕ} (u : ℕ → R) (p q : Polynomial n), eval u (add p q) = eval u p + eval u q
  | 0, _, p, q => map_add (algebraMap ℚ R) (show ℚ from p) q
  | _ + 1, u, p, q => horner_map_pairwise (u 0) (eval_add fun i => u (i + 1)) p q

theorem eval_neg : ∀ {n : ℕ} (u : ℕ → R) (p : Polynomial n), eval u (neg p) = -eval u p
  | 0, _, p => map_neg (algebraMap ℚ R) (show ℚ from p)
  | n + 1, u, p => by
    have hneg : ∀ as : List (Polynomial n), @eval R _ _ (n + 1) u (as.map neg) =
        -@eval R _ _ (n + 1) u as := by
      intro as
      induction as with
      | nil => simp [eval_succ, horner]
      | cons a as ih => rw [List.map_cons, eval_cons, ih, eval_neg, eval_cons]; ring
    exact hneg p

theorem eval_eq_zero_of_isZero : ∀ {n : ℕ} {p : Polynomial n} (u : ℕ → R), p.isZero = true →
    eval u p = 0
  | 0, p, _, h => by
    obtain rfl : p = (0 : ℚ) := sameNumber_iff.1 h
    exact map_zero _
  | n + 1, p, u, h => by
    refine horner_eq_zero fun a ha => ?_
    obtain ⟨c, hc, rfl⟩ := List.mem_map.1 ha
    exact eval_eq_zero_of_isZero _ (isZero_succ_iff.1 h c hc)

theorem eval_eq_of_beq : ∀ {n : ℕ} {p q : Polynomial n} (u : ℕ → R), p.beq q = true →
    eval u p = eval u q
  | 0, p, q, _, h => by
    obtain rfl : p = q := sameNumber_iff.1 h
    rfl
  | n + 1, p, q, u, h => by
    have hlists : ∀ as bs : List (Polynomial n), (as.length == bs.length &&
        (List.zipWith beq as bs).all id) = true →
        @eval R _ _ (n + 1) u as = @eval R _ _ (n + 1) u bs := by
      intro as bs h
      induction as generalizing bs with
      | nil => cases bs <;> simp_all
      | cons a as ih =>
        cases bs with
        | nil => simp at h
        | cons b bs =>
          simp only [List.length_cons, List.zipWith_cons_cons, List.all_cons, id_eq, Bool.and_eq_true,
            beq_iff_eq, Nat.add_right_cancel_iff] at h
          obtain ⟨hlen, hab, hrest⟩ := h
          rw [eval_cons, eval_cons, eval_eq_of_beq _ hab, ih bs (by simp [hlen, hrest])]
    exact hlists p q h

theorem eval_shift {n : ℕ} (u : ℕ → R) (p : List (Polynomial n)) :
    @eval R _ _ (n + 1) u (shift p) = u 0 * @eval R _ _ (n + 1) u p := by
  rw [shift]
  split
  · next h =>
    rw [List.isEmpty_iff.1 h, eval_succ, List.map_nil, horner, mul_zero]
  · rw [eval_cons, eval_zero, zero_add]

/-- A product of coefficient lists has the product of the values, if coefficients have. -/
theorem eval_convolve {n : ℕ} (u : ℕ → R) {times : Polynomial n → Polynomial n → Polynomial n}
    (h : ∀ a b, eval (fun i => u (i + 1)) (times a b) =
      eval (fun i => u (i + 1)) a * eval (fun i => u (i + 1)) b) (as bs : List (Polynomial n)) :
    @eval R _ _ (n + 1) u (convolve times as bs) =
      @eval R _ _ (n + 1) u as * @eval R _ _ (n + 1) u bs := by
  have hmap : ∀ a : Polynomial n, @eval R _ _ (n + 1) u (bs.map (times a)) =
      eval (fun i => u (i + 1)) a * @eval R _ _ (n + 1) u bs := by
    intro a
    rw [eval_succ, eval_succ, ← horner_map_mul, List.map_map, List.map_map]
    exact congrArg _ (List.map_congr_left fun b _ => h a b)
  induction as with
  | nil => rw [convolve, eval_succ, eval_succ, List.map_nil, horner, zero_mul]
  | cons a as ih =>
    rw [convolve, eval_cons]
    split
    · next ha => rw [eval_shift, ih, eval_eq_zero_of_isZero _ ha]; ring
    · have hadd := eval_add u (show Polynomial (n + 1) from bs.map (times a))
        (shift (convolve times as bs))
      rw [show @eval R _ _ (n + 1) u (pairwise add (bs.map (times a)) (shift (convolve times as bs))) =
        _ from hadd, hmap, eval_shift, ih]
      ring

theorem eval_mul : ∀ {n : ℕ} (u : ℕ → R) (p q : Polynomial n), eval u (mul p q) = eval u p * eval u q
  | 0, _, p, q => map_mul (algebraMap ℚ R) (show ℚ from p) q
  | _ + 1, u, p, q => eval_convolve u (eval_mul fun i => u (i + 1)) p q

/-- Homomorphisms carry values over. -/
theorem map_eval {S : Type*} [CommRing S] [Algebra ℚ S] (f : R →+* S) :
    ∀ {n : ℕ} (u : ℕ → R) (p : Polynomial n), f (eval u p) = eval (fun i => f (u i)) p
  | 0, _, p => RingHom.map_rat_algebraMap f p
  | n + 1, u, p => by
    have hlist : ∀ as : List (Polynomial n), f (@eval R _ _ (n + 1) u as) =
        @eval S _ _ (n + 1) (fun i => f (u i)) as := by
      intro as
      induction as with
      | nil => exact map_zero f
      | cons a as ih => rw [eval_cons, eval_cons, map_add, map_mul, ih, map_eval f]
    exact hlist p

/-- Only the unknowns that there are matter. -/
theorem eval_congr : ∀ {n : ℕ} {u v : ℕ → R} (p : Polynomial n), (∀ i < n, u i = v i) →
    eval u p = eval v p
  | 0, _, _, _, _ => rfl
  | n + 1, u, v, p, h => by
    have hcoefficients : ∀ as : List (Polynomial n),
        as.map (eval fun i => u (i + 1)) = as.map (eval fun i => v (i + 1)) := fun as =>
      List.map_congr_left fun a _ => eval_congr a fun i hi => h (i + 1) (Nat.succ_lt_succ hi)
    exact congrArg₂ horner (h 0 (Nat.succ_pos n)) (hcoefficients p)

/-! ### The square root of two -/

theorem eval_splitRootTwo {n : ℕ} {u : ℕ → R} (hu : u 0 ^ 2 = 2) (p : List (Polynomial n)) :
    @eval R _ _ (n + 1) u p = eval (fun i => u (i + 1)) (splitRootTwo p).1 +
      u 0 * eval (fun i => u (i + 1)) (splitRootTwo p).2 := by
  induction p with
  | nil => simp [splitRootTwo, eval_zero, eval_succ, horner]
  | cons c p ih =>
    rw [eval_cons, ih, splitRootTwo]
    simp only [eval_add]
    linear_combination eval (fun i => u (i + 1)) (splitRootTwo p).2 * hu

theorem eval_eq_zero_of_vanishes {n : ℕ} {u : ℕ → R} (hu : u 0 ^ 2 = 2) {p : Polynomial (n + 1)}
    (h : p.vanishes = true) : eval u p = 0 := by
  rw [vanishes, Bool.and_eq_true] at h
  refine (eval_splitRootTwo hu p).trans ?_
  rw [eval_eq_zero_of_isZero _ h.1, eval_eq_zero_of_isZero _ h.2, mul_zero, add_zero]

/-! ### Polynomials that are zero everywhere -/

/-- A polynomial with a coefficient other than zero has a rational value other than zero. -/
theorem exists_eval_ne_zero : ∀ {n : ℕ} {p : Polynomial n}, p.isZero = false →
    ∃ u : ℕ → ℚ, eval u p ≠ 0
  | 0, p, h => ⟨0, fun hp => Bool.false_ne_true (h.symm.trans (sameNumber_iff.2 hp))⟩
  | n + 1, p, h => by
    obtain ⟨c, hc, hne⟩ : ∃ c ∈ (show List (Polynomial n) from p), ¬ c.isZero = true :=
      List.all_eq_false.1 h
    obtain ⟨u, hu⟩ := exists_eval_ne_zero (Bool.eq_false_iff.2 hne)
    obtain ⟨x, size, hsize, hle⟩ := exists_le_abs_horner ⟨_, List.mem_map_of_mem hc, hu⟩
    refine ⟨fun i => i.casesOn x u, fun hzero => ?_⟩
    have := hle x le_rfl
    rw [show horner x _ = 0 from hzero, abs_zero] at this
    exact absurd hsize (not_lt.2 this)

/-- A polynomial that is zero at the square root of two and at all rational values of its other
unknowns vanishes. -/
theorem vanishes_of_eval_eq_zero {n : ℕ} {p : Polynomial (n + 1)}
    (h : ∀ u : ℕ → ℚ, @eval ℝ _ _ (n + 1) (fun i => i.casesOn √2 fun i => (u i : ℝ)) p = 0) :
    p.vanishes = true := by
  have hroot : ∀ a b : ℚ, (a : ℝ) + √2 * b = 0 → a = 0 ∧ b = 0 := by
    intro a b hab
    have hb : b = 0 := by
      by_contra hb
      refine irrational_sqrt_two ⟨-a / b, ?_⟩
      push_cast
      rw [div_eq_iff (by exact_mod_cast hb)]
      linarith
    subst hb
    exact ⟨by simpa using hab, rfl⟩
  have hparts : ∀ u : ℕ → ℚ, eval u (splitRootTwo p).1 = 0 ∧ eval u (splitRootTwo p).2 = 0 := by
    intro u
    have := (eval_splitRootTwo (Real.sq_sqrt zero_le_two) p).symm.trans (h u)
    have hcast : ∀ q : Polynomial n, eval (fun i => (u i : ℝ)) q = ((eval u q : ℚ) : ℝ) := fun q =>
      (map_eval (Rat.castHom ℝ) u q).symm
    simp only [hcast] at this
    exact hroot _ _ this
  rw [vanishes, Bool.and_eq_true]
  constructor
  · by_contra hne
    obtain ⟨u, hu⟩ := exists_eval_ne_zero (Bool.not_eq_true _ ▸ hne)
    exact hu (hparts u).1
  · by_contra hne
    obtain ⟨u, hu⟩ := exists_eval_ne_zero (Bool.not_eq_true _ ▸ hne)
    exact hu (hparts u).2

end LinearRelations.Polynomial
