import LinearRelations.Proofs.Isolation.Dependence
import LinearRelations.Relation.Verify

/-!
# The residual of an answer

Put in the place of the variable, the right side of the answer makes both sides of the relation equal.
That holds point by point: the right side has the value at which the difference of the sides, an
affine function of the variable, is zero. Taken at independent unknowns it is an identity of
rational functions.

* `Expr.value?_replace`: an expression in the place of a variable gives the variable its value;
* `Relation.value?_substituted`: the difference of the sides behind the substitution is zero;
* `Relation.residual_of_solve`: the check of the answer finds it to be so.
-/

namespace LinearRelations

/-- Putting an expression in the place of a variable gives the variable the value of the
expression. -/
theorem Expr.value?_replace {K : Type*} [Field K] [DecidableEq K] {ρ : Valuation K} {name : String}
    {value e : Expr} {v : K} (hv : value.value? ρ = some v) :
    (replace name value e).value? ρ = e.value? (ρ.set name v) := by
  induction e with
  | leaf operand =>
    rw [replace]
    split
    · next h =>
      simp only [Bool.and_eq_true, beq_iff_eq] at h
      rw [hv, value?_leaf_of_isVariable h.1, h.2, Valuation.set_unknown_self]
    · next h =>
      refine value?_eq_of_agreeOff (ρ.agreeOff_set name v) fun hmem => h ?_
      obtain ⟨y, hy, hvar, rfl⟩ := mem_variables_iff.1 hmem
      rw [mem_leaves_leaf.1 hy] at hvar
      simp [hvar, mem_leaves_leaf.1 hy]
  | node lhs op rhs ihl ihr => rw [replace, value?_node, ihl, ihr, value?_node]

namespace Relation

variable {r s : Relation} {name : String}

/-- **The difference of the sides is zero behind the substitution**, wherever the coefficients are
not zero and numbers have their values. -/
theorem value?_substituted {K : Type*} [Field K] [CharZero K] [DecidableEq K] {ρ : Valuation K}
    (hρ : ρ.RespectsNumbers r.constants) {x : Operand} (hx : x.isVariable = true) {parts : Collected}
    (hcollect : r.difference.collect x.text = .ok parts) (hs : divideOut x r.comparison parts = .ok s)
    {a b : K} {a₀ b₀ : GenericField} (hv₀ : parts.HasValues .generic a₀ b₀) (hv : parts.HasValues ρ a b)
    (ha : a ≠ 0) : (r.substituted x.text s.rhs).value? ρ = some 0 := by
  have hrhs := value?_of_divideOut hρ hs (constantsIn_of_collect hcollect) hv₀ hv ha
  have hgap := value?_gap_of_agreeOff hx hcollect hv (ρ.agreeOff_set x.text (-b / a))
  have hsubstituted : r.substituted x.text s.rhs = .replace x.text s.rhs r.gap := rfl
  rw [hsubstituted, Expr.value?_replace hrhs, hgap, Valuation.set_unknown_self, div_mul_cancel₀ _ ha,
    neg_add_cancel]

/-- What is formally zero has the residual zero. -/
theorem residual_eq_zero {value : Expr} (hr : r.IsReadable) (hvalue : value.IsReadable)
    (hzero : (r.substituted name value).value? AtomValues.formal.valuation = some 0) :
    r.residual name value = .ok .zero := by
  obtain ⟨c, hc⟩ := Expr.exists_combination_iff.2 hr.1
  obtain ⟨d, hd⟩ := Expr.exists_combination_iff.2 hr.2
  obtain ⟨k, hk⟩ := Expr.exists_combination_iff.2 hvalue
  obtain ⟨f, hf, hfx⟩ := Expr.fraction?_denotes AtomValues.formal hzero (Expr.variables_subset_sortedNames _)
  have hvanishes : f.vanishes = true :=
    AtomValues.vanishes_of_eval_formal (nodup_sortedNames _) (by rw [hfx.2, zero_mul])
  rw [residual, hc, hd, hk]
  simp only [bind, Except.bind, hf, hvanishes]
  rfl

open Classical in
/-- **The check accepts every answer**, if the relation was read from a text and divides by nothing that
is identically zero: the residual is zero, if the numerals are in range. It is the zero rational function
of the variables, and nothing in it is divided by what is identically zero; with transcendental constants
in the relation the zero test has to be exact for that. -/
theorem residual_of_solve {text : String} (hparse : parse text = .ok r)
    (hdiv : ∀ d ∈ r.divisors, d.value? .generic ≠ some 0) (hs : r.solve name = .ok s) :
    (r.IsInRange → r.residual name s.rhs = .ok .zero) ∧
      (((∃ c ∈ r.constants, c.isAlgebraic = false) → r.ZeroTestExact name) →
        (r.substituted name s.rhs).value? .generic = some 0 ∧
          ∀ d ∈ (r.substituted name s.rhs).divisors, d.value? .generic ≠ some 0) := by
  have hr := isMeaningful_of_parse hparse
  obtain ⟨x, hx, rfl, hreached⟩ := reached_of_mem_stages (isolate_mem_of_solve hs)
  cases hreached with
  | @isolate parts _ hcollect hcancels hdivide =>
    obtain ⟨l, m, hl, hm⟩ := exists_generic_values hr.1 hr.2 hdiv
    obtain ⟨a, b, hv, -⟩ := hasValues_of_collect .generic hx hcollect hl hm
    constructor
    · intro hin
      have hread := hr.isReadable_iff.2 hin
      -- formally the coefficients are known not to cancel
      obtain ⟨l', hl'⟩ := Expr.exists_formal_of_generic hl
      obtain ⟨m', hm'⟩ := Expr.exists_formal_of_generic hm
      obtain ⟨a', b', hv', -⟩ := hasValues_of_collect _ hx hcollect hl' hm'
      refine residual_eq_zero hread (isReadable_of_solve hread hs).2 ?_
      exact value?_substituted (AtomValues.respectsNumbers _ _) hx hcollect hdivide hv hv'
        (formal_ne_zero_of_cancels hcancels hv'.join)
    · intro hexact
      have hzero := value?_substituted (Valuation.respectsNumbers_generic _) hx hcollect hdivide hv hv
        (ne_zero_of_cancels hexact hcollect hcancels hv)
      exact ⟨hzero, Expr.value?_ne_zero_of_mem_divisors hzero⟩

theorem residual_of_solve_shared :
    parse shared.render = .ok shared ∧ shared.solve "m" = .ok sharedAnswer ∧
      shared.residual "m" sharedAnswer.rhs = .ok .zero ∧
      (shared.substituted "m" sharedAnswer.rhs).value? .generic = some 0 := by
  have hparse : parse shared.render = .ok shared := parse_render (by decide) (by decide)
  have hdiv : ∀ d ∈ shared.divisors, d.value? .generic ≠ some 0 := fun d hd => by cases hd
  have hcs : shared.constants = [] := by decide +kernel
  have hread : shared.IsReadable :=
    ⟨Expr.isReadable_of_isOk (by decide +kernel), Expr.isReadable_of_isOk (by decide +kernel)⟩
  have hin : shared.IsInRange := (isMeaningful_of_parse hparse).isReadable_iff.1 hread
  obtain ⟨hresidual, hzero⟩ := residual_of_solve hparse hdiv solve_shared
  refine ⟨hparse, solve_shared, hresidual hin, (hzero fun hexists => ?_).1⟩
  obtain ⟨c, hc, -⟩ := hexists
  rw [hcs] at hc
  cases hc

end Relation

end LinearRelations
