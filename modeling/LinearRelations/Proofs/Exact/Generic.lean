import LinearRelations.Proofs.Exact.Decision

/-!
# Rational functions of the variables

An expression is identically zero if it is the zero function of its variables, where the constants
are the real numbers they name.

* `Valuation.generic`, `AtomValues.generic`: the variables are independent unknowns over the reals;
* `Expr.exists_isZero`: the zero test gives an answer, and it finds nothing to be zero that is not;
* `Expr.isZero_of_generic`: it finds whatever is zero, if no constant is transcendental.
-/

namespace LinearRelations

instance isDomain_namePolynomials : IsDomain (MvPolynomial String ℝ) := inferInstance

/-- The rational functions over the reals in the variables. -/
abbrev GenericField := FractionRing (MvPolynomial String ℝ)

/-- Every constant is the real number it names, and every variable an unknown of its own. -/
noncomputable def Valuation.generic : Valuation GenericField :=
  .standard fun name => algebraMap (MvPolynomial String ℝ) GenericField (MvPolynomial.X name)

/-- The atoms as rational functions of the variables. -/
noncomputable def AtomValues.generic : AtomValues GenericField :=
  .standard fun name => algebraMap (MvPolynomial String ℝ) GenericField (MvPolynomial.X name)

theorem AtomValues.valuation_generic : AtomValues.generic.valuation = .generic :=
  AtomValues.valuation_standard _

theorem Valuation.respectsNumbers_generic (cs : List Constant) : Valuation.generic.RespectsNumbers cs :=
  AtomValues.valuation_generic ▸ AtomValues.respectsNumbers .generic cs

/-- Whether a constant is a multiple of the square root of two. -/
def Constant.isAlgebraic (c : Constant) : Bool := c.parts.2.1.isAlgebraic

/-- A polynomial in the variables as a formal value. -/
noncomputable def polynomialToFormal : MvPolynomial String ℝ →+* FormalField :=
  (algebraMap (MvPolynomial Atom ℝ) FormalField).comp (MvPolynomial.rename Atom.unknown).toRingHom

theorem polynomialToFormal_injective : Function.Injective polynomialToFormal :=
  (IsFractionRing.injective (MvPolynomial Atom ℝ) FormalField).comp
    (MvPolynomial.rename_injective _ fun _ _ h => Atom.unknown.inj h)

/-- The rational functions of the variables are formal values. -/
noncomputable def genericToFormal : GenericField →+* FormalField :=
  IsFractionRing.lift polynomialToFormal_injective

theorem genericToFormal_algebraMap (p : MvPolynomial String ℝ) :
    genericToFormal (algebraMap _ GenericField p) =
      algebraMap _ FormalField (MvPolynomial.rename Atom.unknown p) :=
  IsFractionRing.lift_algebraMap polynomialToFormal_injective p

theorem genericToFormal_real (x : ℝ) :
    genericToFormal (algebraMap ℝ GenericField x) = algebraMap ℝ FormalField x := by
  rw [IsScalarTower.algebraMap_apply ℝ (MvPolynomial String ℝ) GenericField, genericToFormal_algebraMap,
    MvPolynomial.algebraMap_eq, MvPolynomial.rename_C,
    IsScalarTower.algebraMap_apply ℝ (MvPolynomial Atom ℝ) FormalField, MvPolynomial.algebraMap_eq]

theorem formal_constant {c : Constant} (h : c.isAlgebraic = true) :
    AtomValues.formal.valuation.constant c = genericToFormal (Valuation.generic.constant c) := by
  have hatom : c.parts.2.1 = .rootTwo := by
    cases c <;> first | rfl | cases h
  have hroot : AtomValues.formal.value .rootTwo = algebraMap ℝ FormalField √2 := by
    rw [IsScalarTower.algebraMap_apply ℝ (MvPolynomial Atom ℝ) FormalField]
    rfl
  have hreal : Valuation.generic.constant c = algebraMap ℝ GenericField c.real := rfl
  have hformal : AtomValues.formal.valuation.constant c =
      (c.parts.1 : FormalField) * AtomValues.formal.value c.parts.2.1 ^ c.parts.2.2 := rfl
  rw [hformal, hreal, genericToFormal_real, ← c.real_eq, map_mul, map_ratCast, map_zpow₀, hatom, hroot]
  rfl

theorem formal_unknown (name : String) :
    AtomValues.formal.valuation.unknown name = genericToFormal (Valuation.generic.unknown name) := by
  have hgeneric : Valuation.generic.unknown name =
      algebraMap (MvPolynomial String ℝ) GenericField (MvPolynomial.X name) := rfl
  rw [hgeneric, genericToFormal_algebraMap, MvPolynomial.rename_X]
  rfl

namespace Expr

/-- **The zero test gives an answer, and it finds nothing to be zero that is not.** -/
theorem exists_isZero {K : Type*} [Field K] [CharZero K] [DecidableEq K] {t : AtomValues K} {e : Expr} {x : K}
    (hread : e.IsReadable) (h : e.value? t.valuation = some x) :
    ∃ b, e.isZero = .ok b ∧ (b = true → x = 0) := by
  obtain ⟨f, hfx, hzero⟩ := exists_isZero_eq hread h
  exact ⟨f.vanishes, hzero, hfx.eq_zero_of_vanishes t.rootTwo_sq⟩

/-- What is a rational function of the variables is a formal one, too. -/
theorem exists_formal_of_generic {e : Expr} {x : GenericField} (h : e.value? .generic = some x) :
    ∃ y, e.value? AtomValues.formal.valuation = some y := by
  refine isSome_formal_of_value? (t := .generic) (x := x) ?_
  rw [AtomValues.valuation_generic]
  convert h

open Classical in
/-- **The zero test finds whatever is zero**, if no constant is transcendental. -/
theorem isZero_of_generic {e : Expr} (hread : e.IsReadable)
    (hcs : ∀ c ∈ e.constants, c.isAlgebraic = true) (h : e.value? .generic = some 0) : e.isZero = .ok true := by
  have hformal : e.value? AtomValues.formal.valuation = some 0 := by
    have hmap := value?_map genericToFormal .generic e
    rw [h, Option.map_some, map_zero] at hmap
    rw [← hmap]
    exact value?_congr (fun c hc => formal_constant (hcs c hc)) fun x _ => formal_unknown x
  obtain ⟨b, hb, hiff⟩ := exists_isZero_iff hread hformal
  rw [hb, hiff.2 rfl]

end Expr

end LinearRelations
