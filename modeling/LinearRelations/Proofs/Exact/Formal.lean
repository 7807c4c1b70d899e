import LinearRelations.Exact.Decision
import LinearRelations.Proofs.Exact.Fraction

/-!
# Real and formal values of atoms

* `AtomValues.standard`: the constants among the atoms have their real values;
* `AtomValues.formal`: the constants other than the square root of two, and all variables, are
  independent unknowns over the reals;
* `AtomValues.vanishes_of_eval_formal`: formally, only those polynomials are zero that vanish;
* `Expr.exists_isZero_iff`: the zero test is exact for formal values;
* `Expr.isSome_formal_of_value?`: what has a value at all has a formal one.
-/

namespace LinearRelations

/-! ### Real values -/

section Standard

variable {K : Type*} [Field K] [Algebra ℝ K]

/-- The real number that a constant among the atoms is; variables are left at one. -/
noncomputable def Atom.real : Atom → ℝ
  | rootTwo => Constant.rootTwo.real
  | rootPi => √Real.pi
  | e => Constant.e.real
  | lnTwo => Constant.lnTwo.real
  | lnTen => Constant.lnTen.real
  | unknown _ => 1

theorem Atom.real_pos (a : Atom) : 0 < a.real := by
  cases a with
  | rootTwo => exact Real.sqrt_pos.2 two_pos
  | rootPi => exact Real.sqrt_pos.2 Real.pi_pos
  | e => exact Real.exp_pos 1
  | lnTwo => exact Real.log_pos one_lt_two
  | lnTen => exact Real.log_pos (by norm_num)
  | unknown name => exact one_pos

/-- The value of an atom: a constant at its real value, a variable at a given one. -/
noncomputable def Atom.standardValue (values : String → K) : Atom → K
  | unknown name => values name
  | a => algebraMap ℝ K a.real

theorem Atom.standardValue_eq (values : String → K) {a : Atom} (h : a.isUnknown = false) :
    a.standardValue values = algebraMap ℝ K a.real := by
  cases a with
  | unknown name => cases h
  | _ => rfl

theorem Atom.standardValue_rootTwo_sq (values : String → K) : rootTwo.standardValue values ^ 2 = 2 := by
  rw [standardValue_eq values rfl, ← map_pow, real, Constant.real, Real.sq_sqrt zero_le_two, map_ofNat]

theorem Atom.standardValue_ne_zero (values : String → K) {a : Atom} (h : a.isUnknown = false) :
    a.standardValue values ≠ 0 := by
  rw [standardValue_eq values h, Ne, map_eq_zero]
  exact a.real_pos.ne'

/-- The atoms that are constants at their real values, the variables at given ones. -/
noncomputable def AtomValues.standard (values : String → K) : AtomValues K where
  value := Atom.standardValue values
  rootTwo_sq := Atom.standardValue_rootTwo_sq values
  ne_zero _ := Atom.standardValue_ne_zero values

theorem AtomValues.standard_value (values : String → K) (a : Atom) :
    (standard values).value a = a.standardValue values :=
  rfl

/-- A constant is a rational multiple of a power of an atom. -/
theorem Constant.real_eq (c : Constant) : (c.parts.1 : ℝ) * c.parts.2.1.real ^ c.parts.2.2 = c.real := by
  have hpi : √Real.pi ^ (2 : ℤ) = Real.pi := Real.sq_sqrt Real.pi_pos.le
  have hpi' : √Real.pi ^ (-2 : ℤ) = Real.pi⁻¹ := by rw [zpow_neg, hpi]
  have htwo : √2 / 2 = 1 / √2 := by
    rw [div_eq_div_iff two_ne_zero (Real.sqrt_ne_zero'.2 two_pos), Real.mul_self_sqrt zero_le_two, one_mul]
  cases c with
  | rootHalf => rw [Constant.real, ← htwo]; simp [parts, Atom.real, Constant.real]; ring
  | _ => simp [parts, Atom.real, Constant.real, hpi, hpi'] <;> ring

theorem AtomValues.valuation_standard (values : String → K) :
    (standard values).valuation = Valuation.standard values := by
  rw [valuation, Valuation.standard]
  congr 1
  funext c
  rw [← c.real_eq, map_mul, map_ratCast, map_zpow₀]
  congr 2
  cases c <;> rfl

end Standard

/-! ### Names in order -/

theorem nodup_eraseDups (names : List String) : names.eraseDups.Nodup := by
  match names with
  | [] => exact List.nodup_nil
  | name :: names =>
    rw [List.eraseDups_cons, List.nodup_cons]
    refine ⟨fun h => ?_, nodup_eraseDups _⟩
    have := List.mem_eraseDups.1 h
    simp at this
termination_by names.length
decreasing_by exact Nat.lt_succ_of_le (List.length_filter_le _ _)

theorem Expr.variables_subset_sortedNames (e : Expr) : e.variables ⊆ sortedNames e.variables :=
  fun _ hx => List.mem_eraseDups.2 (List.mem_mergeSort.2 hx)

theorem nodup_sortedNames (names : List String) : (sortedNames names).Nodup := nodup_eraseDups _

/-! ### Formal values -/

instance isDomain_atomPolynomials : IsDomain (MvPolynomial Atom ℝ) := inferInstance

/-- The rational functions over the reals in as many unknowns as there are atoms. -/
abbrev FormalField := FractionRing (MvPolynomial Atom ℝ)

namespace AtomValues

/-- An atom as a polynomial: the square root of two is a number. -/
noncomputable def formalPolynomial (a : Atom) : MvPolynomial Atom ℝ :=
  if a = .rootTwo then MvPolynomial.C Atom.rootTwo.real else MvPolynomial.X a

theorem formalPolynomial_ne_zero (a : Atom) : formalPolynomial a ≠ 0 := by
  unfold formalPolynomial
  split
  · rw [Ne, MvPolynomial.C_eq_zero]
    exact Atom.rootTwo.real_pos.ne'
  · exact MvPolynomial.X_ne_zero a

theorem algebraMap_formalPolynomial_sq : algebraMap _ FormalField (formalPolynomial .rootTwo) ^ 2 = 2 := by
  rw [← map_pow, formalPolynomial, if_pos rfl, ← map_pow, Atom.real, Constant.real, Real.sq_sqrt zero_le_two,
    map_ofNat, map_ofNat]

/-- Every atom but the square root of two is an unknown of its own. -/
noncomputable def formal : AtomValues FormalField where
  value a := algebraMap _ FormalField (formalPolynomial a)
  rootTwo_sq := algebraMap_formalPolynomial_sq
  ne_zero a _ := by
    rw [Ne, map_eq_zero_iff _ (IsFractionRing.injective _ _)]
    exact formalPolynomial_ne_zero a

/-- The atom with a given index. -/
def atomAt (names : List String) : ℕ → Atom
  | 0 => .rootTwo
  | 1 => .rootPi
  | 2 => .e
  | 3 => .lnTwo
  | 4 => .lnTen
  | k + 5 => .unknown (names.getD k "")

theorem unknowns_eq {K : Type*} [Field K] (t : AtomValues K) (names : List String) (i : ℕ) :
    t.unknowns names i = t.value (atomAt names i) := by
  match i with
  | 0 | 1 | 2 | 3 | 4 | _ + 5 => rfl

theorem index_atomAt {names : List String} (h : names.Nodup) {i : ℕ} (hi : i < unknownCount names + 1) :
    (atomAt names i).index names = i := by
  match i with
  | 0 | 1 | 2 | 3 | 4 => rfl
  | k + 5 =>
    have hk : k < names.length := by simp only [unknownCount] at hi; omega
    rw [atomAt, Atom.index, List.getD_eq_getElem _ _ hk, h.idxOf_getElem, Nat.add_comm]

/-- At atoms that an index tells apart, the square root of two first, only those polynomials are
formally zero that vanish. -/
theorem vanishes_of_eval_atoms {n : ℕ} (atoms : ℕ → Atom) (index : Atom → ℕ) (hfirst : atoms 0 = .rootTwo)
    (hindex : ∀ i < n + 1, index (atoms i) = i) {p : Polynomial (n + 1)}
    (h : p.eval (fun i => formal.value (atoms i)) = 0) : p.vanishes = true := by
  have hpoly : p.eval (fun i => formalPolynomial (atoms i)) = 0 := by
    refine IsFractionRing.injective (MvPolynomial Atom ℝ) FormalField ?_
    rw [map_zero, ← h, Polynomial.map_eval]
    rfl
  -- the unknowns take any values
  refine Polynomial.vanishes_of_eval_eq_zero fun u => ?_
  let point : Atom → ℝ := fun a => (u (index a - 1) : ℝ)
  have := congrArg (MvPolynomial.eval point) hpoly
  rw [Polynomial.map_eval, map_zero] at this
  rw [← this]
  refine Polynomial.eval_congr p fun i hi => ?_
  rcases i with _ | i
  · simp [hfirst, formalPolynomial, Atom.real, Constant.real]
  · have hne : atoms (i + 1) ≠ .rootTwo := by
      intro heq
      have := hindex (i + 1) hi
      rw [heq, ← hfirst, hindex 0 (Nat.succ_pos n)] at this
      exact absurd this.symm (Nat.succ_ne_zero i)
    rw [formalPolynomial, if_neg hne, MvPolynomial.eval_X]
    simp only [point]
    rw [hindex (i + 1) hi]
    rfl

/-- **Formally, only those polynomials are zero that vanish.** -/
theorem vanishes_of_eval_formal {names : List String} (hnodup : names.Nodup)
    {p : Polynomial (unknownCount names + 1)} (h : p.eval (formal.unknowns names) = 0) :
    p.vanishes = true := by
  refine vanishes_of_eval_atoms (atomAt names) (Atom.index names) rfl (fun i hi => index_atomAt hnodup hi) ?_
  rw [← h]
  congr 1
  funext i
  exact (unknowns_eq formal names i).symm

end AtomValues

/-- The zero test asks whether the fraction of the expression vanishes. -/
theorem Expr.exists_isZero_eq {K : Type*} [Field K] [CharZero K] [DecidableEq K] {t : AtomValues K}
    {e : Expr} {x : K} (hread : e.IsReadable) (h : e.value? t.valuation = some x) :
    ∃ f : Fraction (unknownCount (sortedNames e.variables)),
      f.Denotes (t.unknowns (sortedNames e.variables)) x ∧ e.isZero = .ok f.vanishes := by
  obtain ⟨c, hc⟩ := exists_combination_iff.2 hread
  obtain ⟨f, hf, hfx⟩ := fraction?_denotes t h e.variables_subset_sortedNames
  refine ⟨f, hfx, ?_⟩
  rw [isZero, hc]
  simp only [bind, Except.bind, hf]
  rfl

open Classical in
/-- **The zero test is exact for formal values.** -/
theorem Expr.exists_isZero_iff {e : Expr} {x : FormalField} (hread : e.IsReadable)
    (h : e.value? AtomValues.formal.valuation = some x) : ∃ b, e.isZero = .ok b ∧ (b = true ↔ x = 0) := by
  obtain ⟨f, hfx, hzero⟩ := exists_isZero_eq hread h
  refine ⟨f.vanishes, hzero, hfx.eq_zero_of_vanishes AtomValues.formal.rootTwo_sq, ?_⟩
  rintro rfl
  exact AtomValues.vanishes_of_eval_formal (nodup_sortedNames _) (by rw [hfx.2, zero_mul])

open Classical in
/-- **What has a value over some field has a formal value.** -/
theorem Expr.isSome_formal_of_value? {K : Type*} [Field K] [CharZero K] {t : AtomValues K} {e : Expr}
    {x : K} (h : e.value? t.valuation = some x) :
    ∃ y, e.value? AtomValues.formal.valuation = some y := by
  obtain ⟨f, hf, -⟩ := fraction?_denotes t h e.variables_subset_sortedNames
  exact isSome_value?_of_fraction? AtomValues.formal
    (fun p hp => AtomValues.vanishes_of_eval_formal (nodup_sortedNames _) hp) hf
    e.variables_subset_sortedNames

end LinearRelations
