import LinearRelations.Exact.Enclosure
import Mathlib

/-!
# Converging enclosures

* `Enclosure.Encloses`: a real number lies between the bounds;
* `Enclosure.Converge`: enclosures by number of places, the bounds of which converge to the number
  that all of them enclose;
* `Converge.add`, `Converge.mul`, `Converge.raise?`, `Converge.sqrt`: arithmetic keeps this;
* `Converge.eventually_sign?`: enclosures of a number other than zero show its sign in the end.
-/

namespace LinearRelations.Enclosure

open Filter Topology

/-! ### Single enclosures -/

/-- The number lies between the bounds. -/
def Encloses (E : Enclosure) (x : ℝ) : Prop := (E.lo : ℝ) ≤ x ∧ x ≤ (E.hi : ℝ)

variable {E D : Enclosure} {x y : ℝ}

theorem encloses_ofRat (q : ℚ) : (ofRat q).Encloses (q : ℝ) := ⟨le_rfl, le_rfl⟩

theorem cast_lo_ofUnits (places : ℕ) (a b : ℤ) : ((ofUnits places a b).lo : ℝ) = a / 2 ^ places := by
  simp [ofUnits, Rat.mkRat_eq_div]

theorem cast_hi_ofUnits (places : ℕ) (a b : ℤ) : ((ofUnits places a b).hi : ℝ) = b / 2 ^ places := by
  simp [ofUnits, Rat.mkRat_eq_div]

theorem encloses_ofUnits_iff {places : ℕ} {a b : ℤ} :
    (ofUnits places a b).Encloses x ↔ (a : ℝ) ≤ 2 ^ places * x ∧ 2 ^ places * x ≤ b := by
  have hpos : (0 : ℝ) < 2 ^ places := by positivity
  rw [Encloses, cast_lo_ofUnits, cast_hi_ofUnits, div_le_iff₀ hpos, le_div_iff₀ hpos, mul_comm x]

theorem Encloses.add (hx : E.Encloses x) (hy : D.Encloses y) : (E.add D).Encloses (x + y) := by
  simp only [Encloses, Enclosure.add, Rat.cast_add]
  exact ⟨add_le_add hx.1 hy.1, add_le_add hx.2 hy.2⟩

theorem Encloses.scale (q : ℚ) (hx : E.Encloses x) : (E.scale q).Encloses (q * x) := by
  rw [Enclosure.scale]
  split
  · next hq =>
    have hq' : (q : ℝ) ≤ 0 := by exact_mod_cast hq.le
    simp only [Encloses, Rat.cast_mul]
    exact ⟨mul_le_mul_of_nonpos_left hx.2 hq', mul_le_mul_of_nonpos_left hx.1 hq'⟩
  · next hq =>
    have hq' : (0 : ℝ) ≤ q := by exact_mod_cast not_lt.1 hq
    simp only [Encloses, Rat.cast_mul]
    exact ⟨mul_le_mul_of_nonneg_left hx.1 hq', mul_le_mul_of_nonneg_left hx.2 hq'⟩

/-- A multiple of an enclosed number lies between the multiples of the bounds. -/
theorem Encloses.mul_bounds (hx : E.Encloses x) (y : ℝ) :
    min (E.lo * y) (E.hi * y) ≤ x * y ∧ x * y ≤ max (E.lo * y) (E.hi * y) := by
  rcases le_total 0 y with hy | hy
  · exact ⟨min_le_of_left_le (mul_le_mul_of_nonneg_right hx.1 hy),
      le_max_of_le_right (mul_le_mul_of_nonneg_right hx.2 hy)⟩
  · exact ⟨min_le_of_right_le (mul_le_mul_of_nonpos_right hx.2 hy),
      le_max_of_le_left (mul_le_mul_of_nonpos_right hx.1 hy)⟩

theorem Encloses.mul (hx : E.Encloses x) (hy : D.Encloses y) : (E.mul D).Encloses (x * y) := by
  have hlo := hy.mul_bounds E.lo
  have hhi := hy.mul_bounds E.hi
  have hxy := hx.mul_bounds y
  simp only [mul_comm _ (E.lo : ℝ), mul_comm _ (E.hi : ℝ)] at hlo hhi
  simp only [Encloses, Enclosure.mul, Rat.cast_min, Rat.cast_max, Rat.cast_mul]
  exact ⟨(min_le_min hlo.1 hhi.1).trans hxy.1, hxy.2.trans (max_le_max hlo.2 hhi.2)⟩

theorem Encloses.inverse? (hx : E.Encloses x) (h : E.inverse? = some D) : D.Encloses x⁻¹ := by
  rw [Enclosure.inverse?, Option.ite_none_right_eq_some, Option.some.injEq] at h
  obtain ⟨hsign, rfl⟩ := h
  simp only [Encloses, Rat.cast_inv]
  rcases hsign with hpos | hneg
  · have hlo : (0 : ℝ) < E.lo := by exact_mod_cast hpos
    exact ⟨inv_anti₀ (hlo.trans_le hx.1) hx.2, inv_anti₀ hlo hx.1⟩
  · have hhi : (E.hi : ℝ) < 0 := by exact_mod_cast hneg
    have hx0 : x < 0 := hx.2.trans_lt hhi
    exact ⟨(inv_le_inv_of_neg hhi hx0).2 hx.2, (inv_le_inv_of_neg hx0 (hx.1.trans_lt hx0)).2 hx.1⟩

theorem Encloses.power (hx : E.Encloses x) (k : ℕ) : (E.power k).Encloses (x ^ k) := by
  induction k with
  | zero => simpa [Enclosure.power] using encloses_ofRat 1
  | succ k ih => rw [pow_succ]; exact ih.mul hx

theorem Encloses.raise? (hx : E.Encloses x) {k : ℤ} (h : E.raise? k = some D) :
    D.Encloses (x ^ k) := by
  cases k with
  | ofNat k =>
    obtain rfl := Option.some.inj h
    simpa using hx.power k
  | negSucc k =>
    obtain ⟨E', hE', rfl⟩ := Option.map_eq_some_iff.1 h
    rw [zpow_negSucc, ← inv_pow]
    exact (hx.inverse? hE').power (k + 1)

/-- A sign that an enclosure shows is that of the number. -/
theorem Encloses.sign? (hx : E.Encloses x) {s : ℤ} (h : E.sign? = some s) :
    s = 1 ∧ 0 < x ∨ s = -1 ∧ x < 0 := by
  unfold Enclosure.sign? at h
  split at h
  · next hlo =>
    have : (0 : ℝ) < E.lo := by exact_mod_cast hlo
    exact .inl ⟨(Option.some.inj h).symm, this.trans_le hx.1⟩
  · split at h
    · next hhi =>
      have : (E.hi : ℝ) < 0 := by exact_mod_cast hhi
      exact .inr ⟨(Option.some.inj h).symm, hx.2.trans_lt this⟩
    · cases h

/-! ### Square roots -/

theorem sqrtFloor_spec (m : ℕ) : sqrtFloor m * sqrtFloor m ≤ m ∧
    m < (sqrtFloor m + 1) * (sqrtFloor m + 1) := by
  fun_induction sqrtFloor m with
  | case1 => simp
  | case2 m hm r hr ih =>
    simp only [r] at hr ⊢
    refine ⟨hr, ?_⟩
    have : m < 4 * ((sqrtFloor (m / 4) + 1) * (sqrtFloor (m / 4) + 1)) := by omega
    nlinarith
  | case3 m hm r hr ih =>
    simp only [r] at hr ⊢
    refine ⟨?_, not_le.1 hr⟩
    have : 4 * (sqrtFloor (m / 4) * sqrtFloor (m / 4)) ≤ m := by omega
    nlinarith

/-- The square root in units of `2 ^ -places`, rounded down. -/
theorem sqrtFloor_bounds (places : ℕ) (q : ℚ) :
    (sqrtFloor (q * (4 ^ places : ℕ)).floor.toNat : ℝ) ≤ 2 ^ places * √q ∧
      2 ^ places * √q ≤ sqrtFloor (q * (4 ^ places : ℕ)).floor.toNat + 1 := by
  obtain ⟨hle, hlt⟩ := sqrtFloor_spec (q * (4 ^ places : ℕ)).floor.toNat
  set m := sqrtFloor (q * (4 ^ places : ℕ)).floor.toNat
  have hroot : (2 : ℝ) ^ places * √q = √(q * 4 ^ places) := by
    rw [mul_comm (q : ℝ), Real.sqrt_mul (by positivity), show (4 : ℝ) = 2 ^ 2 by norm_num, ← pow_mul,
      mul_comm 2 places, pow_mul, Real.sqrt_sq (by positivity)]
  have hcast : ((q * (4 ^ places : ℕ) : ℚ) : ℝ) = q * 4 ^ places := by push_cast; ring
  rw [hroot]
  constructor
  · rcases lt_or_ge (q * (4 ^ places : ℕ)).floor 0 with hneg | hpos
    · have hzero : m * m ≤ 0 := by rwa [Int.toNat_of_nonpos hneg.le] at hle
      have : m = 0 := by simpa using hzero
      rw [this, Nat.cast_zero]
      exact Real.sqrt_nonneg _
    · refine Real.le_sqrt_of_sq_le ?_
      have h1 : ((m * m : ℕ) : ℤ) ≤ (q * (4 ^ places : ℕ)).floor := by
        have := Int.toNat_of_nonneg hpos
        omega
      have h2 : ((m * m : ℕ) : ℚ) ≤ q * (4 ^ places : ℕ) := by
        exact_mod_cast (Rat.le_floor_iff.1 h1)
      have h3 : (((m * m : ℕ) : ℚ) : ℝ) ≤ ((q * (4 ^ places : ℕ) : ℚ) : ℝ) := by exact_mod_cast h2
      rw [hcast] at h3
      rw [sq]
      exact_mod_cast h3
  · refine Real.sqrt_le_iff.2 ⟨by positivity, ?_⟩
    have h1 : (q * (4 ^ places : ℕ)).floor < (((m + 1) * (m + 1) : ℕ) : ℤ) := by omega
    have h2 : q * (4 ^ places : ℕ) < (((m + 1) * (m + 1) : ℕ) : ℤ) := Rat.floor_lt_iff.1 h1
    have h3 : ((q * (4 ^ places : ℕ) : ℚ) : ℝ) < ((((m + 1) * (m + 1) : ℕ) : ℤ) : ℝ) := by
      exact_mod_cast h2
    rw [hcast] at h3
    push_cast at h3
    nlinarith

theorem Encloses.sqrt (places : ℕ) (hx : E.Encloses x) : (E.sqrt places).Encloses √x := by
  have hpos : (0 : ℝ) ≤ 2 ^ places := by positivity
  rw [Enclosure.sqrt, encloses_ofUnits_iff]
  simp only [Int.cast_add, Int.cast_one, Int.cast_natCast]
  exact ⟨(sqrtFloor_bounds places E.lo).1.trans
      (mul_le_mul_of_nonneg_left (Real.sqrt_le_sqrt hx.1) hpos),
    (mul_le_mul_of_nonneg_left (Real.sqrt_le_sqrt hx.2) hpos).trans (sqrtFloor_bounds places E.hi).2⟩

/-! ### Enclosures by number of places -/

/-- Both bounds tend to the number. -/
def Shrink (G : ℕ → Enclosure) (x : ℝ) : Prop :=
  Tendsto (fun places => ((G places).lo : ℝ)) atTop (𝓝 x) ∧
    Tendsto (fun places => ((G places).hi : ℝ)) atTop (𝓝 x)

/-- Enclosures of a number that exist from some number of places on, with bounds that tend to
it. -/
structure Converge (F : ℕ → Option Enclosure) (x : ℝ) : Prop where
  encloses : ∀ {places E}, F places = some E → E.Encloses x
  shrink : ∃ G, (∀ᶠ places in atTop, F places = some (G places)) ∧ Shrink G x

variable {G H : ℕ → Enclosure} {F F' : ℕ → Option Enclosure}

theorem shrink_ofRat (q : ℚ) : Shrink (fun _ => ofRat q) q := ⟨tendsto_const_nhds, tendsto_const_nhds⟩

theorem Shrink.add (hx : Shrink G x) (hy : Shrink H y) :
    Shrink (fun places => (G places).add (H places)) (x + y) := by
  simp only [Shrink, Enclosure.add, Rat.cast_add]
  exact ⟨hx.1.add hy.1, hx.2.add hy.2⟩

theorem Shrink.scale (q : ℚ) (hx : Shrink G x) : Shrink (fun places => (G places).scale q) (q * x) := by
  by_cases hq : q < 0
  · simp only [Shrink, Enclosure.scale, if_pos hq, Rat.cast_mul]
    exact ⟨hx.2.const_mul _, hx.1.const_mul _⟩
  · simp only [Shrink, Enclosure.scale, if_neg hq, Rat.cast_mul]
    exact ⟨hx.1.const_mul _, hx.2.const_mul _⟩

theorem Shrink.mul (hx : Shrink G x) (hy : Shrink H y) :
    Shrink (fun places => (G places).mul (H places)) (x * y) := by
  simp only [Shrink, Enclosure.mul, Rat.cast_min, Rat.cast_max, Rat.cast_mul]
  have hmin := ((hx.1.mul hy.1).min (hx.1.mul hy.2)).min ((hx.2.mul hy.1).min (hx.2.mul hy.2))
  have hmax := ((hx.1.mul hy.1).max (hx.1.mul hy.2)).max ((hx.2.mul hy.1).max (hx.2.mul hy.2))
  simp only [min_self] at hmin
  simp only [max_self] at hmax
  exact ⟨hmin, hmax⟩

theorem Shrink.power (hx : Shrink G x) (k : ℕ) : Shrink (fun places => (G places).power k) (x ^ k) := by
  induction k with
  | zero => simpa [Enclosure.power] using shrink_ofRat 1
  | succ k ih => rw [pow_succ]; exact ih.mul hx

theorem Shrink.sqrt (hx : Shrink G x) : Shrink (fun places => (G places).sqrt places) √x := by
  have hunit : Tendsto (fun places : ℕ => 1 / (2 : ℝ) ^ places) atTop (𝓝 0) := by
    simpa using tendsto_pow_const_div_const_pow_of_one_lt 0 (one_lt_two (α := ℝ))
  have hpos : ∀ places : ℕ, (0 : ℝ) < 2 ^ places := fun _ => by positivity
  have hlo := (Real.continuous_sqrt.tendsto x).comp hx.1
  have hhi := (Real.continuous_sqrt.tendsto x).comp hx.2
  have hlo' := hlo.sub hunit
  have hhi' := hhi.add hunit
  rw [sub_zero] at hlo'
  rw [add_zero] at hhi'
  simp only [Shrink, Enclosure.sqrt, cast_lo_ofUnits, cast_hi_ofUnits, Int.cast_add, Int.cast_one,
    Int.cast_natCast]
  constructor
  · refine tendsto_of_tendsto_of_tendsto_of_le_of_le hlo' hlo (fun p => ?_) fun p => ?_
    · have := (sqrtFloor_bounds p (G p).lo).2
      rw [Function.comp_apply, le_div_iff₀ (hpos p), sub_mul, one_div_mul_cancel (hpos p).ne', mul_comm √_]
      linarith
    · rw [Function.comp_apply, div_le_iff₀ (hpos p), mul_comm √_]
      exact (sqrtFloor_bounds p (G p).lo).1
  · refine tendsto_of_tendsto_of_tendsto_of_le_of_le hhi hhi' (fun p => ?_) fun p => ?_
    · rw [Function.comp_apply, le_div_iff₀ (hpos p), mul_comm √_]
      exact (sqrtFloor_bounds p (G p).hi).2
    · have := (sqrtFloor_bounds p (G p).hi).1
      rw [Function.comp_apply, div_le_iff₀ (hpos p), add_mul, one_div_mul_cancel (hpos p).ne', mul_comm √_]
      linarith

/-- Enclosures shrink if their width in units grows no faster than the number of places. -/
theorem shrink_ofUnits {a b : ℕ → ℤ} (henc : ∀ p, (ofUnits p (a p) (b p)).Encloses x) (width : ℝ)
    (hwidth : ∀ p : ℕ, (b p - a p : ℝ) ≤ width * (p + 1)) :
    Shrink (fun places => ofUnits places (a places) (b places)) x := by
  have hzero : Tendsto (fun p : ℕ => width * (p + 1) / 2 ^ p) atTop (𝓝 0) := by
    have h1 := tendsto_pow_const_div_const_pow_of_one_lt 1 (one_lt_two (α := ℝ))
    have h0 := tendsto_pow_const_div_const_pow_of_one_lt 0 (one_lt_two (α := ℝ))
    have := (h1.add h0).const_mul width
    rw [add_zero, mul_zero] at this
    refine this.congr fun p => ?_
    rw [pow_one, pow_zero]
    ring
  have hlo := (tendsto_const_nhds (x := x)).sub hzero
  have hhi := (tendsto_const_nhds (x := x)).add hzero
  rw [sub_zero] at hlo
  rw [add_zero] at hhi
  have hle : ∀ p, ((ofUnits p (a p) (b p)).hi : ℝ) - (ofUnits p (a p) (b p)).lo ≤
      width * (p + 1) / 2 ^ p := by
    intro p
    rw [cast_lo_ofUnits, cast_hi_ofUnits, ← sub_div]
    exact div_le_div_of_nonneg_right (hwidth p) (by positivity)
  constructor
  · refine tendsto_of_tendsto_of_tendsto_of_le_of_le hlo tendsto_const_nhds (fun p => ?_) fun p =>
      (henc p).1
    linarith [hle p, (henc p).2]
  · refine tendsto_of_tendsto_of_tendsto_of_le_of_le tendsto_const_nhds hhi (fun p => (henc p).2)
      fun p => ?_
    linarith [hle p, (henc p).1]

theorem Shrink.eventually_pos (hx : Shrink G x) (h : 0 < x) : ∀ᶠ p in atTop, 0 < (G p).lo := by
  filter_upwards [hx.1.eventually (lt_mem_nhds h)] with p hp
  exact_mod_cast hp

theorem Shrink.eventually_neg (hx : Shrink G x) (h : x < 0) :
    ∀ᶠ p in atTop, (G p).hi < 0 ∧ ¬ 0 < (G p).lo := by
  filter_upwards [hx.1.eventually (gt_mem_nhds h), hx.2.eventually (gt_mem_nhds h)] with p hlo hhi
  exact ⟨by exact_mod_cast hhi, not_lt.2 (by exact_mod_cast hlo.le)⟩

/-! ### Arithmetic of converging enclosures -/

theorem Converge.of_shrink (henc : ∀ p, (G p).Encloses x) (hshrink : Shrink G x) :
    Converge (fun p => some (G p)) x where
  encloses {p _} h := Option.some.inj h ▸ henc p
  shrink := ⟨G, .of_forall fun _ => rfl, hshrink⟩

theorem converge_ofRat (q : ℚ) : Converge (fun _ => some (ofRat q)) q :=
  .of_shrink (fun _ => encloses_ofRat q) (shrink_ofRat q)

variable {op : Enclosure → Enclosure → Enclosure} {z : ℝ}

theorem Converge.map₂ (hx : Converge F x) (hy : Converge F' y)
    (henc : ∀ {E D}, Encloses E x → Encloses D y → (op E D).Encloses z)
    (hshrink : ∀ {G H}, Shrink G x → Shrink H y → Shrink (fun p => op (G p) (H p)) z) :
    Converge (fun p => (F p).bind fun E => (F' p).map (op E)) z where
  encloses h := by
    obtain ⟨E, hE, h⟩ := Option.bind_eq_some_iff.1 h
    obtain ⟨D, hD, rfl⟩ := Option.map_eq_some_iff.1 h
    exact henc (hx.encloses hE) (hy.encloses hD)
  shrink := by
    obtain ⟨G, hG, hGx⟩ := hx.shrink
    obtain ⟨H, hH, hHy⟩ := hy.shrink
    refine ⟨_, ?_, hshrink hGx hHy⟩
    filter_upwards [hG, hH] with p hG hH
    rw [hG, hH]
    rfl

theorem Converge.add (hx : Converge F x) (hy : Converge F' y) :
    Converge (fun p => (F p).bind fun E => (F' p).map E.add) (x + y) :=
  hx.map₂ hy .add .add

theorem Converge.mul (hx : Converge F x) (hy : Converge F' y) :
    Converge (fun p => (F p).bind fun E => (F' p).map E.mul) (x * y) :=
  hx.map₂ hy .mul .mul

theorem Converge.raise? (hx : Converge F x) {k : ℤ} (hk : k < 0 → x ≠ 0) :
    Converge (fun p => (F p).bind fun E => E.raise? k) (x ^ k) where
  encloses h := by
    obtain ⟨E, hE, h⟩ := Option.bind_eq_some_iff.1 h
    exact (hx.encloses hE).raise? h
  shrink := by
    obtain ⟨G, hG, hGx⟩ := hx.shrink
    cases k with
    | ofNat k =>
      refine ⟨fun p => (G p).power k, ?_, by simpa using hGx.power k⟩
      filter_upwards [hG] with p hG
      rw [hG]
      rfl
    | negSucc k =>
      have hx0 : x ≠ 0 := hk (Int.negSucc_lt_zero k)
      have hinv : Shrink (fun p => ⟨(G p).hi⁻¹, (G p).lo⁻¹⟩) x⁻¹ := by
        simp only [Shrink, Rat.cast_inv]
        exact ⟨hGx.2.inv₀ hx0, hGx.1.inv₀ hx0⟩
      have hsome : ∀ᶠ p in atTop, 0 < (G p).lo ∨ (G p).hi < 0 := by
        rcases lt_or_gt_of_ne hx0 with hneg | hpos
        · exact (hGx.eventually_neg hneg).mono fun p hp => .inr hp.1
        · exact (hGx.eventually_pos hpos).mono fun p hp => .inl hp
      refine ⟨_, ?_, by simpa [zpow_negSucc] using hinv.power (k + 1)⟩
      filter_upwards [hG, hsome] with p hG hsome
      rw [hG]
      simp [Enclosure.raise?, Enclosure.inverse?, hsome]

/-- **Enclosures of a number other than zero show its sign in the end.** -/
theorem Converge.eventually_sign? (hx : Converge F x) (hx0 : x ≠ 0) :
    ∀ᶠ p in atTop, ((F p).bind sign?).isSome := by
  obtain ⟨G, hG, hGx⟩ := hx.shrink
  rcases lt_or_gt_of_ne hx0 with hneg | hpos
  · filter_upwards [hG, hGx.eventually_neg hneg] with p hG hp
    simp [hG, Enclosure.sign?, hp]
  · filter_upwards [hG, hGx.eventually_pos hpos] with p hG hp
    simp [hG, Enclosure.sign?, hp]

end LinearRelations.Enclosure
