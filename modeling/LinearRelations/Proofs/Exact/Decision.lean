import LinearRelations.Proofs.Exact.Closed
import LinearRelations.Proofs.Exact.Series

/-!
# Signs and zeros of expressions

* `Combination.converge_enclosure?`: the enclosures of a combination without variables converge;
* `Valuation.IsReal`: the constants have their real values in an ordered field;
* `Expr.sign_of_constantSign`: a sign found for an expression is the sign of its value;
* `Expr.exists_constantSign`: one is found wherever the value is not zero;
* `Expr.formal_eq_zero_of_constantSign`: what is found to be zero is zero formally;
* `Valuation.RespectsNumbers`: a rational value found for an expression is its value.
-/

namespace LinearRelations

open Enclosure

/-! ### Enclosures of combinations -/

section Converge

variable {values : String → ℝ}

mutual

/-- **The enclosures of a combination without variables converge to its value.** -/
theorem Combination.converge_enclosure? : ∀ {c : Combination}, c.IsRegular (.standard values) →
    c.hasVariable (fun _ => true) = false → Converge (fun p => c.enclosure? p) (c.value (.standard values))
  | .mk c ts, hreg, hvar => by
    obtain ⟨q, rfl⟩ := Scale.eq_finite_of_not_isUnbounded hreg.1
    exact Combination.converge_termsEnclosure? hreg.2 hvar (converge_ofRat q)

theorem Combination.converge_termsEnclosure? : ∀ {ts : List Product} {F : ℕ → Option Enclosure} {x : ℝ},
    Combination.TermsRegular (.standard values) ts → Combination.termsHaveVariable (fun _ => true) ts = false →
    Converge F x → Converge (fun p => (F p).bind fun sum => Combination.termsEnclosure? p sum ts)
      (x + Combination.termsValue (.standard values) ts)
  | [], F, x, _, _, hF => by
    simp only [Combination.termsEnclosure?, Option.bind_fun_some, Combination.termsValue, add_zero]
    exact hF
  | s :: ts, F, x, hreg, hvar, hF => by
    rw [Combination.termsHaveVariable, Bool.or_eq_false_iff] at hvar
    have hs := Product.converge_enclosure? hreg.1 hvar.1
    have := Combination.converge_termsEnclosure? hreg.2 hvar.2 (hF.add hs)
    rw [Combination.termsValue, ← add_assoc]
    simpa only [Combination.termsEnclosure?, Option.bind_eq_bind, Option.bind_assoc, Option.bind_map, Function.comp_def] using this

theorem Product.converge_enclosure? : ∀ {s : Product}, s.IsRegular (.standard values) →
    s.hasVariable (fun _ => true) = false → Converge (fun p => s.enclosure? p) (s.value (.standard values))
  | .mk c ps, hreg, hvar => by
    obtain ⟨q, rfl⟩ := Scale.eq_finite_of_not_isUnbounded hreg.1
    exact Product.converge_powersEnclosure? hreg.2 hvar (converge_ofRat q)

theorem Product.converge_powersEnclosure? : ∀ {ps : List Power} {F : ℕ → Option Enclosure} {x : ℝ},
    Product.PowersRegular (.standard values) ps → Product.powersHaveVariable (fun _ => true) ps = false →
    Converge F x → Converge (fun p => (F p).bind fun product => Product.powersEnclosure? p product ps)
      (x * Product.powersValue (.standard values) ps)
  | [], F, x, _, _, hF => by
    simp only [Product.powersEnclosure?, Option.bind_fun_some, Product.powersValue, mul_one]
    exact hF
  | p :: ps, F, x, hreg, hvar, hF => by
    rw [Product.powersHaveVariable, Bool.or_eq_false_iff] at hvar
    have hp := Power.converge_enclosure? hreg.1 hvar.1
    have := Product.converge_powersEnclosure? hreg.2 hvar.2 (hF.mul hp)
    rw [Product.powersValue, ← mul_assoc]
    simpa only [Product.powersEnclosure?, Option.bind_eq_bind, Option.bind_assoc, Option.bind_map, Function.comp_def] using this

theorem Power.converge_enclosure? : ∀ {p : Power}, p.IsRegular (.standard values) →
    p.hasVariable (fun _ => true) = false → Converge (fun places => p.enclosure? places) (p.value (.standard values))
  | .mk _ _, hreg, hvar => (Base.converge_enclosure? hreg.1 hvar).raise? hreg.2

theorem Base.converge_enclosure? : ∀ {b : Base}, b.IsRegular (.standard values) →
    b.hasVariable (fun _ => true) = false → Converge (fun places => b.enclosure? places) (b.value (.standard values))
  | .atom a, _, hvar => by
    have ha : a.isUnknown = false := by
      cases a with
      | unknown name => simp [Base.hasVariable] at hvar
      | _ => rfl
    rw [Base.value, AtomValues.standard_value, Atom.standardValue_eq values ha, Algebra.algebraMap_self_apply]
    exact converge_ofAtom? ha
  | .sum c, hreg, hvar => by
    rw [Base.value]
    simp only [Base.enclosure?]
    exact Combination.converge_enclosure? hreg hvar

end

end Converge

/-! ### The search for a sign -/

namespace Combination

/-- A sign that is found was shown by some enclosure. -/
theorem exists_enclosure?_of_signFrom? {c : Combination} {places : ℕ} {s : ℤ}
    (h : c.signFrom? places = some s) : ∃ p, (c.enclosure? p).bind Enclosure.sign? = some s := by
  refine signFrom?.partial_correctness c
    (fun _ s => ∃ p, (c.enclosure? p).bind Enclosure.sign? = some s) ?_ places s h
  intro search ih p s h
  split at h
  · next sign hsign => exact ⟨p, hsign.trans h⟩
  · exact ih _ s h

/-- If the enclosure for some later number of places shows a sign, a sign is found. -/
theorem isSome_signFrom? {c : Combination} (n : ℕ) {places : ℕ}
    (h : ((c.enclosure? (4 ^ n * places)).bind Enclosure.sign?).isSome) :
    (c.signFrom? places).isSome := by
  induction n generalizing places with
  | zero =>
    rw [pow_zero, one_mul] at h
    obtain ⟨s, hs⟩ := Option.isSome_iff_exists.1 h
    rw [signFrom?, hs]
    rfl
  | succ n ih =>
    rw [signFrom?]
    split
    · rfl
    · exact ih (by rwa [← mul_assoc, ← pow_succ])

section

variable {values : String → ℝ} {c : Combination} {x : ℝ} (h : c.Represents (.standard values) x)
  (hclosed : c.hasVariable (fun _ => true) = false)

include h hclosed

theorem sign_of_enclosedSign? {s : ℤ} (hs : c.enclosedSign? = some s) :
    s = 1 ∧ 0 < x ∨ s = -1 ∧ x < 0 := by
  obtain ⟨p, hp⟩ := exists_enclosure?_of_signFrom? hs
  obtain ⟨E, hE, hsign⟩ := Option.bind_eq_some_iff.1 hp
  exact ((h.2 ▸ converge_enclosure? h.1 hclosed).encloses hE).sign? hsign

theorem isSome_enclosedSign? (hx : x ≠ 0) : c.enclosedSign?.isSome := by
  have hev := (h.2 ▸ converge_enclosure? h.1 hclosed).eventually_sign? hx
  obtain ⟨bound, hbound⟩ := Filter.eventually_atTop.1 hev
  refine isSome_signFrom? bound (hbound _ ?_)
  calc bound ≤ 4 ^ bound := (Nat.lt_pow_self (by norm_num)).le
    _ ≤ 4 ^ bound * 64 := Nat.le_mul_of_pos_right _ (by norm_num)

end

/-- Without variables a combination is a fraction that vanishes only where the value is zero. -/
theorem exists_fraction? {K : Type*} [Field K] [CharZero K] {t : AtomValues K} {c : Combination} {x : K}
    (h : c.Represents t x) (hclosed : c.hasVariable (fun _ => true) = false) :
    ∃ f, c.fraction? [] = some f ∧ (f.vanishes = true → x = 0) := by
  have hclosed' : c.hasVariable (fun x => !([] : List String).contains x) = false := hclosed
  obtain ⟨f, hf, hfx⟩ := fraction?_denotes t h.1 hclosed'
  exact ⟨f, hf, fun hvanish => h.2 ▸ hfx.eq_zero_of_vanishes t.rootTwo_sq hvanish⟩

/-- Only what is zero is found to be zero. -/
theorem eq_zero_of_sign? {K : Type*} [Field K] [CharZero K] {t : AtomValues K} {c : Combination} {x : K}
    (h : c.Represents t x) (hclosed : c.hasVariable (fun _ => true) = false) (hs : c.sign? = some 0) :
    x = 0 := by
  unfold sign? at hs
  split at hs
  · next q hq =>
    have hq0 : q = 0 := by
      simp only [signOf, Option.some.injEq] at hs
      split at hs
      · cases hs
      · split at hs
        · cases hs
        · next hpos hneg => exact le_antisymm (not_lt.1 hpos) (not_lt.1 hneg)
    rw [represents_of_toRat? t h hq, hq0, Rat.cast_zero]
  · obtain ⟨f, hf, hzero⟩ := exists_fraction? h hclosed
    rw [hf] at hs
    simp only at hs
    split at hs
    · next hvanish => exact hzero hvanish
    · obtain ⟨p, hp⟩ := exists_enclosure?_of_signFrom? hs
      obtain ⟨E, -, hsign⟩ := Option.bind_eq_some_iff.1 hp
      unfold Enclosure.sign? at hsign
      split at hsign
      · cases hsign
      · split at hsign <;> cases hsign

section

variable {values : String → ℝ} {c : Combination} {x : ℝ} (h : c.Represents (.standard values) x)
  (hclosed : c.hasVariable (fun _ => true) = false)

include h hclosed

/-- A sign that is found for a combination without variables is that of its value. -/
theorem sign_of_sign? {s : ℤ} (hs : c.sign? = some s) :
    s = 1 ∧ 0 < x ∨ s = -1 ∧ x < 0 ∨ s = 0 ∧ x = 0 := by
  by_cases hs0 : s = 0
  · subst hs0
    exact .inr (.inr ⟨rfl, eq_zero_of_sign? h hclosed hs⟩)
  unfold sign? at hs
  split at hs
  · next q hq =>
    obtain rfl := Option.some.inj hs
    rw [represents_of_toRat? _ h hq]
    rw [signOf] at hs0 ⊢
    split
    · next hpos => exact .inl ⟨rfl, by exact_mod_cast hpos⟩
    · next hpos =>
      rw [if_neg hpos] at hs0
      split
      · next hneg => exact .inr (.inl ⟨rfl, by exact_mod_cast hneg⟩)
      · next hneg => exact absurd (if_neg hneg) hs0
  · split at hs
    · cases hs
    · split at hs
      · split at hs
        · exact absurd (Option.some.inj hs).symm hs0
        · cases hs
      · exact (sign_of_enclosedSign? h hclosed hs).imp_right .inl

/-- A sign is found for every combination without variables that is not zero. -/
theorem isSome_sign? (hx : x ≠ 0) : c.sign?.isSome := by
  unfold sign?
  split
  · rfl
  · obtain ⟨f, hf, hzero⟩ := exists_fraction? h hclosed
    rw [hf]
    simp only
    split
    · next hvanish => exact absurd (hzero hvanish) hx
    · exact isSome_enclosedSign? h hclosed hx

end

end Combination

/-! ### Real values of the constants -/

/-- The given constants have their real values: a field of real numbers that contains them is part
of the ordered field. -/
def Valuation.IsReal {K : Type*} [Field K] [LinearOrder K] (ρ : Valuation K) (cs : List Constant) :
    Prop :=
  ∃ (F : Subfield ℝ) (f : F →+* K), StrictMono f ∧ ∀ c ∈ cs, ∃ h : c.real ∈ F, f ⟨c.real, h⟩ = ρ.constant c

namespace Valuation

variable {K : Type*} [Field K] [LinearOrder K] [IsStrictOrderedRing K]

/-- Where there are no constants every ordered field will do. -/
theorem isReal_nil (ρ : Valuation K) : ρ.IsReal [] := by
  let e := (Rat.castHom ℝ).rangeRestrictFieldEquiv
  refine ⟨(Rat.castHom ℝ).fieldRange, (Rat.castHom K).comp (e.symm : _ →+* ℚ), fun y z hyz => ?_, by simp⟩
  obtain ⟨p, rfl⟩ := e.surjective y
  obtain ⟨q, rfl⟩ := e.surjective z
  have hpq : (p : ℝ) < q := hyz
  simpa using hpq

/-- The reals are embedded in an ordered field as an ordered field. -/
theorem strictMono_algebraMap [Algebra ℝ K] : StrictMono (algebraMap ℝ K) := by
  intro x y hxy
  have hne : algebraMap ℝ K √(y - x) ≠ 0 := by
    rw [Ne, map_eq_zero]
    exact (Real.sqrt_pos.2 (sub_pos.2 hxy)).ne'
  rw [← sub_pos, ← map_sub, ← Real.mul_self_sqrt (sub_pos.2 hxy).le, map_mul]
  exact mul_self_pos.2 hne

theorem isReal_standard [Algebra ℝ K] (values : String → K) (cs : List Constant) :
    (standard values).IsReal cs :=
  ⟨⊤, (algebraMap ℝ K).comp (Subfield.subtype ⊤), fun _ _ h => strictMono_algebraMap h,
    fun _ _ => ⟨Subfield.mem_top _, rfl⟩⟩

end Valuation

/-! ### Expressions without variables -/

namespace Expr

theorem hasVariable_eq_false {e : Expr} {c : Combination} (hconst : e.isConstant = true)
    (h : e.combination = .ok (some c)) : c.hasVariable (fun _ => true) = false := by
  refine hasVariable_combination h fun x hx => ?_
  rw [List.isEmpty_iff.1 hconst] at hx
  cases hx

/-- **Without variables a value is a real number**, the same in every field that contains the
reals. -/
theorem value?_standard_of_isConstant {K : Type*} [Field K] [DecidableEq K] [Algebra ℝ K]
    {values : String → K} {e : Expr} (h : e.isConstant = true) (values' : String → ℝ) :
    e.value? (.standard values) = (e.value? (.standard values')).map (algebraMap ℝ K) := by
  rw [← value?_map]
  refine value?_congr (fun _ _ => rfl) fun x hx => ?_
  rw [List.isEmpty_iff.1 h] at hx
  cases hx

theorem isConstant_of_constantSign {e : Expr} {s : ℤ} (h : e.constantSign = .ok (some s)) :
    e.isConstant = true := by
  unfold constantSign at h
  split at h
  · assumption
  · cases h

/-- Where a sign is found the expression has been read. -/
theorem exists_combination_of_constantSign {e : Expr} {s : ℤ} (h : e.constantSign = .ok (some s)) :
    ∃ form, e.combination = .ok form := by
  rw [constantSign, if_pos (isConstant_of_constantSign h)] at h
  obtain ⟨form, hform, -⟩ := exists_of_bind_eq_ok h
  exact ⟨form, hform⟩

theorem constantSign_eq {e : Expr} {c : Combination} (hconst : e.isConstant = true)
    (h : e.combination = .ok (some c)) : e.constantSign = .ok c.sign? := by
  rw [constantSign, if_pos hconst, h]
  rfl

/-- An expression with a rational value has the sign of that. -/
theorem constantSign_of_constantValue {e : Expr} {q : ℚ} (h : e.constantValue = .ok (some q)) :
    e.constantSign = .ok (some (signOf q)) := by
  unfold constantValue at h
  split at h
  · next hconst =>
    obtain ⟨c, hc, h⟩ := exists_of_bind_eq_ok h
    replace h := Except.ok.inj h
    rcases c with _ | ⟨_ | _, _ | ⟨s, ts⟩⟩ <;>
      simp [ExactValue.ofCombination, ExactValue.toRat?] at h
    rw [constantSign_eq hconst hc, h, Combination.sign?, Combination.toRat?]
  · cases h

/-- **A sign is found for every expression without variables that can be read and is not zero.** -/
theorem exists_constantSign {K : Type*} [Field K] [DecidableEq K] [Algebra ℝ K] {values : String → K}
    {e : Expr} {x : K} (hread : e.IsReadable) (hconst : e.isConstant = true)
    (hx : e.value? (.standard values) = some x) (hx0 : x ≠ 0) : ∃ s, e.constantSign = .ok (some s) := by
  rw [value?_standard_of_isConstant hconst 0] at hx
  obtain ⟨y, hy, rfl⟩ := Option.map_eq_some_iff.1 hx
  have hy0 : y ≠ 0 := fun h => hx0 (by rw [h, map_zero])
  rw [← AtomValues.valuation_standard] at hy
  obtain ⟨form, hc⟩ := exists_combination_iff.2 hread
  obtain ⟨c, rfl, hcy⟩ := combination_represents _ hc hy
  obtain ⟨s, hs⟩ := Option.isSome_iff_exists.1
    (Combination.isSome_sign? hcy (hasVariable_eq_false hconst hc) hy0)
  exact ⟨s, by rw [constantSign_eq hconst hc, hs]⟩

section Ordered

variable {K : Type*} [Field K] [LinearOrder K] {ρ : Valuation K} {cs : List Constant} (hρ : ρ.IsReal cs)

include hρ

open Classical in
/-- Without variables a value is a real number with the same sign. -/
theorem exists_real_value? {e : Expr} {x : K} (hconst : e.isConstant = true) (hcs : e.constants ⊆ cs)
    (hx : e.value? ρ = some x) : ∃ y : ℝ, e.value? (.standard fun _ => (0 : ℝ)) = some y ∧
      (0 < y → 0 < x) ∧ (y < 0 → x < 0) ∧ ∀ q : ℚ, y = q → x = q := by
  obtain ⟨F, f, hmono, hf⟩ := hρ
  let σ : Valuation F := ⟨fun c => if h : c.real ∈ F then ⟨c.real, h⟩ else 0, fun _ => 0⟩
  have hvars : e.variables = [] := List.isEmpty_iff.1 hconst
  have hK : e.value? ρ = (e.value? σ).map f := by
    rw [← value?_map]
    refine value?_congr (fun c hc => ?_) fun x hx => absurd hx (by simp [hvars])
    obtain ⟨h, hfc⟩ := hf c (hcs hc)
    simp [Valuation.map, σ, h, hfc]
  have hR : e.value? (.standard fun _ => (0 : ℝ)) = (e.value? σ).map F.subtype := by
    rw [← value?_map]
    refine value?_congr (fun c hc => ?_) fun x hx => absurd hx (by simp [hvars])
    obtain ⟨h, -⟩ := hf c (hcs hc)
    simp [Valuation.map, Valuation.standard, σ, h]
  rw [hK] at hx
  obtain ⟨z, hz, rfl⟩ := Option.map_eq_some_iff.1 hx
  refine ⟨z, by rw [hR, hz]; rfl, fun hpos => ?_, fun hneg => ?_, fun q hq => ?_⟩
  · have := hmono (show (0 : F) < z from hpos)
    rwa [map_zero] at this
  · have := hmono (show z < (0 : F) from hneg)
    rwa [map_zero] at this
  · have hzq : z = (q : F) := Subtype.ext (by rw [hq, SubfieldClass.coe_ratCast])
    rw [hzq, map_ratCast]

/-- **A sign that is found for an expression is the sign of its value.** -/
theorem sign_of_constantSign {e : Expr} {s : ℤ} {x : K} (hcs : e.constants ⊆ cs)
    (hs : e.constantSign = .ok (some s)) (hx : e.value? ρ = some x) :
    s = 1 ∧ 0 < x ∨ s = -1 ∧ x < 0 ∨ s = 0 ∧ x = 0 := by
  have hconst := isConstant_of_constantSign hs
  obtain ⟨y, hy, hpos, hneg, hrat⟩ := exists_real_value? hρ hconst hcs hx
  rw [← AtomValues.valuation_standard] at hy
  obtain ⟨form, hc⟩ := exists_combination_of_constantSign hs
  obtain ⟨c, rfl, hcy⟩ := combination_represents _ hc hy
  rw [constantSign_eq hconst hc, Except.ok.injEq] at hs
  refine (Combination.sign_of_sign? hcy (hasVariable_eq_false hconst hc) hs).imp (And.imp_right hpos)
    (Or.imp (And.imp_right hneg) (And.imp_right fun h0 => ?_))
  have := hrat 0 (by rw [h0, Rat.cast_zero])
  rwa [Rat.cast_zero] at this

end Ordered

open Classical in
/-- **What is found to be zero is zero formally.** -/
theorem formal_eq_zero_of_constantSign {e : Expr} {x : FormalField} (hs : e.constantSign = .ok (some 0))
    (hx : e.value? AtomValues.formal.valuation = some x) : x = 0 := by
  have hconst := isConstant_of_constantSign hs
  obtain ⟨form, hc⟩ := exists_combination_of_constantSign hs
  obtain ⟨c, rfl, hcx⟩ := combination_represents _ hc hx
  rw [constantSign_eq hconst hc, Except.ok.injEq] at hs
  exact Combination.eq_zero_of_sign? hcx (hasVariable_eq_false hconst hc) hs

end Expr

/-! ### Rational values -/

/-- Rational values found for expressions in the given constants are their values. -/
def Valuation.RespectsNumbers {K : Type*} [Field K] [DecidableEq K] (ρ : Valuation K)
    (cs : List Constant) : Prop :=
  ∀ {e : Expr} {q : ℚ} {x : K}, e.constants ⊆ cs → e.constantValue = .ok (some q) →
    e.value? ρ = some x → x = (q : K)

theorem AtomValues.respectsNumbers {K : Type*} [Field K] [CharZero K] [DecidableEq K] (t : AtomValues K)
    (cs : List Constant) : t.valuation.RespectsNumbers cs := by
  intro e q x _ hq hx
  unfold Expr.constantValue at hq
  split at hq
  · obtain ⟨form, hform, hq⟩ := exists_of_bind_eq_ok hq
    obtain ⟨c, rfl, hcx⟩ := Expr.combination_represents t hform hx
    refine Combination.represents_of_toRat? t hcx ?_
    have hvalue : (ExactValue.ofCombination (some c)).toRat? = some q := Except.ok.inj hq
    rcases c with ⟨q' | _, _ | ⟨s, ts⟩⟩ <;> simp [ExactValue.ofCombination, ExactValue.toRat?] at hvalue
    rw [hvalue, Combination.toRat?]
  · simp at hq

theorem Expr.isConstant_of_constantValue {e : Expr} {q : ℚ} (h : e.constantValue = .ok (some q)) :
    e.isConstant = true := by
  unfold constantValue at h
  split at h
  · assumption
  · cases h

/-- **A rational value that is found is the value wherever the constants have their real values.** -/
theorem Valuation.IsReal.respectsNumbers {K : Type*} [Field K] [LinearOrder K] {ρ : Valuation K}
    {cs : List Constant} (hρ : ρ.IsReal cs) : ρ.RespectsNumbers cs := by
  intro e q x hcs hq hx
  obtain ⟨y, hy, -, -, hrat⟩ := Expr.exists_real_value? hρ (Expr.isConstant_of_constantValue hq) hcs hx
  rw [← AtomValues.valuation_standard] at hy
  exact hrat q (AtomValues.respectsNumbers _ cs hcs hq hy)

end LinearRelations
