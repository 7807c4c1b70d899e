import LinearRelations.Proofs.Exact.RationalPoint
import LinearRelations.Proofs.Isolation.Answer

/-!
# Whether a relation depends on a variable

Collected, the difference of the sides of a relation is an affine function of the variable: neither
the coefficients nor the remainder contain it. So the difference is constant in the variable if the
coefficients add up to zero, and only then; and if they do not, there is a rational point at which
the sides have values and the coefficients do not add up to zero.

* `Valuation.AgreeOff`, `Valuation.set`: valuations that differ in one variable;
* `Relation.gap`: the difference of the sides as it stands;
* `Relation.value?_gap_of_agreeOff`: the difference as an affine function of the variable;
* `Relation.value?_gap_of_cancels`, `Relation.exists_rational_gap_ne`: the difference where the
  coefficients are found to cancel, and where they are not zero;
* `Relation.solve_tells_dependence`: what a failed and a successful isolation say.
-/

namespace LinearRelations

/-! ### Valuations that differ in one variable -/

namespace Valuation

variable {K : Type*}

/-- Whether two valuations differ at most in the value of one variable. -/
structure AgreeOff (name : String) (ρ σ : Valuation K) : Prop where
  constant : ∀ c, ρ.constant c = σ.constant c
  unknown : ∀ y, y ≠ name → ρ.unknown y = σ.unknown y

/-- The valuation with another value for one variable. -/
def set (ρ : Valuation K) (name : String) (v : K) : Valuation K :=
  { ρ with unknown := Function.update ρ.unknown name v }

@[simp] theorem set_unknown_self (ρ : Valuation K) (name : String) (v : K) :
    (ρ.set name v).unknown name = v := by
  simp [set]

theorem set_unknown_of_ne (ρ : Valuation K) {name y : String} (v : K) (h : y ≠ name) :
    (ρ.set name v).unknown y = ρ.unknown y := by
  simp [set, h]

theorem agreeOff_set (ρ : Valuation K) (name : String) (v : K) : AgreeOff name ρ (ρ.set name v) :=
  ⟨fun _ => rfl, fun _ h => (ρ.set_unknown_of_ne v h).symm⟩

theorem agreeOff_standard {L : Type*} [Field L] [Algebra ℝ L] {name : String} {values values' : String → L}
    (h : ∀ y, y ≠ name → values y = values' y) : AgreeOff name (standard values) (standard values') :=
  ⟨fun _ => rfl, h⟩

end Valuation

section Values

variable {K : Type*} [Field K] [DecidableEq K] {ρ σ : Valuation K} {name : String}

theorem Expr.value?_eq_of_agreeOff (h : ρ.AgreeOff name σ) {e : Expr} (hname : name ∉ e.variables) :
    e.value? ρ = e.value? σ := by
  refine value?_congr (fun c _ => h.constant c) fun y hy => h.unknown y ?_
  rintro rfl
  exact hname hy

theorem Term.sum?_eq_of_agreeOff (h : ρ.AgreeOff name σ) {ts : List Term}
    (hname : ∀ t ∈ ts, name ∉ t.body.variables) : sum? ρ ts = sum? σ ts := by
  induction ts with
  | nil => rfl
  | cons t ts ih =>
    obtain ⟨ht, hts⟩ := List.forall_mem_cons.1 hname
    rw [sum?_cons, sum?_cons, ih hts, value?, value?, Expr.value?_eq_of_agreeOff h ht]

namespace Relation

variable {r s : Relation} {x : Operand} {parts : Collected} {a b : K}

/-! ### The difference of the sides -/

/-- The difference of the sides as it stands. -/
def gap (r : Relation) : Expr := .node r.lhs .sub r.rhs

theorem definedAt_iff_gap : r.DefinedAt ρ ↔ ∃ z, r.gap.value? ρ = some z := by
  rw [DefinedAt, Option.isSome_iff_exists, Option.isSome_iff_exists]
  constructor
  · rintro ⟨⟨l, hl⟩, m, hm⟩
    exact ⟨l - m, by rw [gap, Expr.value?_node, hl, hm, Operator.sub_onValues?]⟩
  · rintro ⟨z, hz⟩
    obtain ⟨l, m, hl, hm⟩ := Operator.exists_of_onValues? hz
    exact ⟨⟨l, hl⟩, m, hm⟩

/-- A relation compares the difference of its sides with zero. -/
theorem holdsAt_iff_gap {K : Type*} [Field K] [LinearOrder K] [IsStrictOrderedRing K] {ρ : Valuation K}
    {z : K} (h : r.gap.value? ρ = some z) : r.HoldsAt ρ ↔ r.comparison.Holds z 0 := by
  obtain ⟨l, m, hl, hm⟩ := Operator.exists_of_onValues? h
  obtain rfl : l - m = z := by
    rw [gap, Expr.value?_node, hl, hm, Operator.sub_onValues?] at h
    exact Option.some.inj h
  rw [holdsAt_iff hl hm, Comparison.holds_sub_zero_iff]

theorem exists_hasValues_of_gap {z : K} (hx : x.isVariable = true)
    (hcollect : r.difference.collect x.text = .ok parts) (h : r.gap.value? ρ = some z) :
    ∃ a b, parts.HasValues ρ a b := by
  obtain ⟨l, m, hl, hm⟩ := Operator.exists_of_onValues? h
  obtain ⟨a, b, hv, -⟩ := hasValues_of_collect ρ hx hcollect hl hm
  exact ⟨a, b, hv⟩

/-- The collected parts do not depend on the variable. -/
theorem hasValues_of_agreeOff (hx : x.isVariable = true)
    (hcollect : r.difference.collect x.text = .ok parts) (hv : parts.HasValues ρ a b)
    (h : ρ.AgreeOff x.text σ) : parts.HasValues σ a b := by
  obtain ⟨hcoefficients, hremainder⟩ := (Term.collects_of_collect hcollect).not_mem_variables hx
  exact ⟨(Term.sum?_eq_of_agreeOff h hcoefficients).symm.trans hv.coefficients,
    (Term.sum?_eq_of_agreeOff h hremainder).symm.trans hv.remainder⟩

/-- **The difference of the sides is an affine function of the variable**: where the collected parts
have values, it has one for every value of the variable. -/
theorem value?_gap_of_agreeOff (hx : x.isVariable = true)
    (hcollect : r.difference.collect x.text = .ok parts) (hv : parts.HasValues ρ a b)
    (h : ρ.AgreeOff x.text σ) : r.gap.value? σ = some (σ.unknown x.text * a + b) := by
  have hσ := hasValues_of_agreeOff hx hcollect hv h
  have hvalue : (Expr.leaf x).value? σ = some (σ.unknown x.text) := Expr.value?_leaf_of_isVariable hx
  have hsum := Expr.value?_of_collect hvalue hcollect
  rw [value?_difference, hσ.coefficients, hσ.remainder, Operator.mul_onValues?, Operator.add_onValues?] at hsum
  exact hsum

end Relation

end Values

/-! ### The two ends -/

namespace Relation

variable {r s : Relation} {x : Operand} {name : String} {parts : Collected}

/-- A variable of the relation is unknown only if its coefficients are found to cancel. -/
theorem exists_cancels_of_unknownVariable {y : String} {r' : Relation} (hname : name ∈ r.variables)
    (h : r.solve name = .error (.unknownVariable y r')) :
    ∃ x : Operand, x.isVariable = true ∧ x.text = name ∧
      ∃ parts, r.difference.collect x.text = .ok parts ∧ cancels parts = .ok true := by
  obtain ⟨x, hof, hx, rfl⟩ := exists_operand hname
  refine ⟨x, hx, rfl, ?_⟩
  rcases hcollect : r.difference.collect x.text with cause | parts
  · rw [solve_of_collect_eq_error hof hname hcollect] at h
    cases h
  refine ⟨parts, rfl, ?_⟩
  rcases hcancels : cancels parts with cause | _ | _
  · rw [solve_of_cancels_eq_error hof hname hcollect hcancels] at h
    cases h
  · rw [solve_eq_divideOut hof hname hcollect hcancels] at h
    rcases of_divideOut_eq_error h with ⟨cause, hcause⟩ | ⟨_, _, -, -, -, hcause⟩
    · cases hcause
    · cases hcause
  · rfl

/-- Where the coefficients are found to cancel the difference of the sides is the remainder, whatever
the value of the variable. -/
theorem value?_gap_of_cancels (hx : x.isVariable = true) (hcollect : r.difference.collect x.text = .ok parts)
    (hcancels : cancels parts = .ok true) {values values' : String → ℝ}
    (hdef : r.DefinedAt (.standard values)) (hagree : ∀ y, y ≠ x.text → values y = values' y) :
    ∃ z, r.gap.value? (.standard values) = some z ∧ r.gap.value? (.standard values') = some z := by
  obtain ⟨z, hz⟩ := definedAt_iff_gap.1 hdef
  obtain ⟨a, b, hv⟩ := exists_hasValues_of_gap hx hcollect hz
  obtain rfl : a = 0 := by
    rw [← AtomValues.valuation_standard] at hv
    exact eq_zero_of_cancels hv hcancels
  have hgap := value?_gap_of_agreeOff hx hcollect hv ⟨fun _ => rfl, fun _ _ => rfl⟩
  have hgap' := value?_gap_of_agreeOff hx hcollect hv (Valuation.agreeOff_standard hagree)
  rw [mul_zero] at hgap hgap'
  exact ⟨_, hgap, hgap'⟩

open Classical in
/-- Coefficients that are not zero as a rational function are not zero at some rational point at which
the sides have values; from there a step along the variable changes the difference of the sides. -/
theorem exists_rational_gap_ne {z a b : GenericField} (hx : x.isVariable = true)
    (hcollect : r.difference.collect x.text = .ok parts) (hz : r.gap.value? .generic = some z)
    (hv : parts.HasValues .generic a b) (ha : a ≠ 0) :
    ∃ values values' : String → ℚ, (∀ y, y ≠ x.text → values y = values' y) ∧
      r.DefinedAt (.rational values) ∧ r.DefinedAt (.rational values') ∧
      r.gap.value? (.rational values) ≠ r.gap.value? (.rational values') := by
  -- the difference over the coefficients has a value only where these are not zero
  have hquotient : (Expr.node r.gap .div (Term.join parts.coefficients)).value? .generic = some (z / a) := by
    rw [Expr.value?_div _ _ hv.join ha, hz]
    rfl
  obtain ⟨values, y, hy⟩ := Expr.exists_rational_value? hquotient
  obtain ⟨z', a', hz', ha'⟩ := Operator.exists_of_onValues? hy
  have hne : a' ≠ 0 := by
    rintro rfl
    rw [Expr.value?_node, hz', ha', Operator.div_onValues?, if_pos rfl] at hy
    cases hy
  obtain ⟨a'', b', hv'⟩ := exists_hasValues_of_gap hx hcollect hz'
  obtain rfl : a'' = a' := Option.some.inj (hv'.join.symm.trans ha')
  let values' : String → ℚ := Function.update values x.text (values x.text + 1)
  have hagree : ∀ y, y ≠ x.text → values y = values' y := fun y hy => (Function.update_of_ne hy _ _).symm
  have hoff : (Valuation.rational values).AgreeOff x.text (.rational values') :=
    Valuation.agreeOff_standard fun y hy => congrArg _ (hagree y hy)
  have hgap := value?_gap_of_agreeOff hx hcollect hv' ⟨fun _ => rfl, fun _ _ => rfl⟩
  have hgap' := value?_gap_of_agreeOff hx hcollect hv' hoff
  refine ⟨values, values', hagree, definedAt_iff_gap.2 ⟨_, hgap⟩, definedAt_iff_gap.2 ⟨_, hgap'⟩, ?_⟩
  rw [hgap, hgap', Ne, Option.some_inj, add_left_inj, mul_left_inj' hne]
  simp [Valuation.rational, Valuation.standard, values']

open Classical in
/-- **What the end of isolating a variable says of the relation**, if that was read from a text and
divides by nothing that is identically zero. A variable of the relation is unknown only if the
relation does not depend on it: the difference of the sides, and with it the truth of the relation, is
the same at any two points that differ in the variable alone. And there is an answer only if the
relation depends on the variable: at two rational points that differ in the variable alone, the
differences of the sides differ. For the latter the zero test has to be exact where there are
transcendental constants. -/
theorem solve_tells_dependence {text : String} (hparse : parse text = .ok r) (hname : name ∈ r.variables)
    (hdiv : ∀ d ∈ r.divisors, d.value? .generic ≠ some 0) :
    (∀ y r', r.solve name = .error (.unknownVariable y r') →
      ∀ values values' : String → ℝ, (∀ y, y ≠ name → values y = values' y) →
        r.DefinedAt (.standard values) → r.DefinedAt (.standard values') →
        r.gap.value? (.standard values) = r.gap.value? (.standard values') ∧
          (r.HoldsAt (.standard values) ↔ r.HoldsAt (.standard values'))) ∧
    (∀ s, r.solve name = .ok s →
      ((∃ c ∈ r.constants, c.isAlgebraic = false) → r.ZeroTestExact name) →
      ∃ values values' : String → ℚ, (∀ y, y ≠ name → values y = values' y) ∧
        r.DefinedAt (.rational values) ∧ r.DefinedAt (.rational values') ∧
        r.gap.value? (.rational values) ≠ r.gap.value? (.rational values')) := by
  constructor
  · intro y r' hs values values' hagree hdef _
    obtain ⟨x, hx, rfl, parts, hcollect, hcancels⟩ :=
      exists_cancels_of_unknownVariable hname hs
    obtain ⟨z, hgap, hgap'⟩ := value?_gap_of_cancels hx hcollect hcancels hdef hagree
    exact ⟨hgap.trans hgap'.symm, (holdsAt_iff_gap hgap).trans (holdsAt_iff_gap hgap').symm⟩
  · intro s hs hexact
    obtain ⟨x, hx, rfl, hreached⟩ := reached_of_mem_stages (isolate_mem_of_solve hs)
    obtain ⟨hl, hr⟩ := isMeaningful_of_parse hparse
    cases hreached with
    | @isolate parts _ hcollect hcancels _ =>
      obtain ⟨l, m, hl, hm⟩ := exists_generic_values hl hr hdiv
      obtain ⟨a, b, hv, -⟩ := hasValues_of_collect .generic hx hcollect hl hm
      have ha := ne_zero_of_cancels hexact hcollect hcancels hv
      have hgap : r.gap.value? .generic = some (l - m) := by
        rw [gap, Expr.value?_node, hl, hm, Operator.sub_onValues?]
      exact exists_rational_gap_ne hx hcollect hgap hv ha

/-- `u * v - v * u = w`, where `u` cancels. -/
def commuted : Relation :=
  let u : Expr := .leaf ⟨"u", by decide⟩
  let v : Expr := .leaf ⟨"v", by decide⟩
  ⟨.node (.node u .mul v) .sub (.node v .mul u), .eq, .leaf ⟨"w", by decide⟩⟩

theorem solve_commuted : commuted.solve "u" = .error (.unknownVariable "u" commuted) := by
  cbv

theorem solve_tells_dependence_commuted :
    commuted.solve "u" = .error (.unknownVariable "u" commuted) ∧
      commuted.gap.value? (.standard fun _ => (1 : ℝ)) =
        commuted.gap.value? (.standard (Function.update (fun _ => (1 : ℝ)) "u" 2)) ∧
      shared.solve "m" = .ok sharedAnswer ∧
      ∃ values values' : String → ℚ, (∀ y, y ≠ "m" → values y = values' y) ∧
        shared.gap.value? (.rational values) ≠ shared.gap.value? (.rational values') := by
  have hparse : parse commuted.render = .ok commuted := parse_render (by decide) (by decide)
  have hparse' : parse shared.render = .ok shared := parse_render (by decide) (by decide)
  have hdefined : ∀ values : String → ℝ, commuted.DefinedAt (.standard values) := by
    intro values
    obtain ⟨hl, hr⟩ := isMeaningful_of_parse hparse
    obtain ⟨l, hl⟩ := Expr.exists_value? (ρ := .standard values) hl fun d hd => by cases hd
    obtain ⟨m, hm⟩ := Expr.exists_value? (ρ := .standard values) hr fun d hd => by cases hd
    exact definedAt_of_value? hl hm
  have hcs : shared.constants = [] := by decide +kernel
  have hu : "u" ∈ commuted.variables := by decide +kernel
  have hm : "m" ∈ shared.variables := by decide +kernel
  obtain ⟨hunknown, -⟩ := solve_tells_dependence hparse hu fun d hd => by cases hd
  obtain ⟨-, hanswer⟩ := solve_tells_dependence hparse' hm fun d hd => by cases hd
  obtain ⟨values, values', hagree, -, -, hne⟩ := hanswer sharedAnswer solve_shared fun hexists => by
    obtain ⟨c, hc, -⟩ := hexists
    rw [hcs] at hc
    cases hc
  refine ⟨solve_commuted, ?_, solve_shared, values, values', hagree, hne⟩
  refine (hunknown "u" commuted solve_commuted _ _ (fun y hy => ?_) (hdefined _) (hdefined _)).1
  rw [Function.update_of_ne hy]

end Relation

end LinearRelations
