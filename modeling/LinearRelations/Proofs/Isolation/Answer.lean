import LinearRelations.Proofs.Isolation.Operands
import LinearRelations.Proofs.Isolation.Outcome

/-!
# Values of the answer

* `Relation.isLimit_of_solve`: where all operands stand for something, only the size of a number is in the
  way of an exact test;
* `Relation.isReadable_of_solve`: the answer can be read again;
* `Relation.value?_of_divideOut`: the value of the right side of the answer;
* `Relation.exists_value?_of_solve`: where nothing in the relation is divided by zero, nothing in the
  answer is.
-/

namespace LinearRelations.Relation

variable {r s : Relation} {name : String}

theorem isMeaningful_of_parse {text : String} (h : parse text = .ok r) : r.IsMeaningful :=
  ⟨Expr.IsPlain.isMeaningful (isPlain_of_parse h).1, Expr.IsPlain.isMeaningful (isPlain_of_parse h).2⟩

/-! ### Failures -/

/-- **Only the size of a number is in the way of isolating a variable**, apart from what the relation says. -/
theorem isLimit_of_solve (hr : r.IsMeaningful) {cause : ExactError}
    (h : r.solve name = .error (.inexact cause)) : cause.IsLimit := by
  by_cases hname : name ∈ r.variables
  swap
  · rw [solve_of_not_mem hname] at h
    cases h
  obtain ⟨x, hof, hx, rfl⟩ := exists_operand hname
  rcases hcollect : r.difference.collect x.text with nonlinear | parts
  · rw [solve_of_collect_eq_error hof hname hcollect] at h
    cases h
  obtain ⟨hcoefficients, hremainder⟩ := isMeaningful_of_collect hr.1 hr.2 hcollect
  rcases hcancels : cancels parts with cause' | _ | _
  · rw [solve_of_cancels_eq_error hof hname hcollect hcancels] at h
    obtain rfl := SolveError.inexact.inj (Except.error.inj h)
    exact (cancels_yields hcoefficients).of_eq_error hcancels
  · rw [solve_eq_divideOut hof hname hcollect hcancels] at h
    obtain ⟨-, -, -, ⟨-, ⟨s, hs⟩ | ⟨cause', hcause', herror⟩⟩ | ⟨-, e, he⟩⟩ :=
      divideOut_cases x r.comparison (isReadable_of_cancels hcancels) hremainder
    · cases h.symm.trans hs
    · obtain rfl := SolveError.inexact.inj (Except.error.inj (h.symm.trans herror))
      exact hcause'
    · cases h.symm.trans he
  · rw [solve_of_cancels hof hname hcollect hcancels] at h
    cases h

/-! ### The answer -/

/-- What holds of the operands of both sides, and of written numbers, holds of those of the answer. -/
theorem forall_leaves_of_solve {P : Operand → Prop} (hwritten : ∀ {y : Operand}, y.IsWritten → P y)
    (h : ∀ y ∈ r.leaves, P y) (hs : r.solve name = .ok s) : ∀ y ∈ s.leaves, P y :=
  fun y hy => (mem_leaves_of_stage (isolate_mem_of_solve hs) hy).elim (h y) hwritten

/-- **The answer can be read** if the relation can. -/
theorem isReadable_of_solve (hr : r.IsReadable) (hs : r.solve name = .ok s) : s.IsReadable := by
  have hleaves : ∀ y ∈ s.leaves, ∃ v, y.read = .ok v := by
    refine forall_leaves_of_solve (fun h => ?_) (fun y hy => (mem_leaves_iff.1 hy).elim (hr.1 y) (hr.2 y)) hs
    obtain ⟨q, hq⟩ := h.exists_read
    exact ⟨_, hq⟩
  exact ⟨fun y hy => hleaves y (mem_leaves_iff.2 (.inl hy)), fun y hy => hleaves y (mem_leaves_iff.2 (.inr hy))⟩

/-- Coefficients that make a real number other than zero are divided by as a positive one, or in an equation
and not as a rational number. -/
theorem SignChecked.cases_real {c : Comparison} {parts : Collected} {y : ℝ} (h : SignChecked c parts)
    (hy : (Term.join parts.coefficients).value? (.standard 0) = some y) (hy0 : y ≠ 0) :
    0 < y ∨ c = .eq ∧ ∀ q, (Term.join parts.coefficients).constantValue ≠ .ok (some q) := by
  let cs := parts.coefficients.flatMap fun t => t.body.constants
  have hcs : ∀ t ∈ parts.coefficients, t.body.constants ⊆ cs := fun t ht c hc =>
    List.mem_flatMap.2 ⟨t, ht, hc⟩
  exact h.cases (Valuation.isReal_standard 0 cs) hcs hy hy0

open Classical in
/-- A rational coefficient that is divided by is positive, if it is not zero. -/
theorem SignChecked.pos {c : Comparison} {parts : Collected} {a : GenericField} {q : ℚ}
    (h : SignChecked c parts) (hsum : (Term.join parts.coefficients).value? .generic = some a)
    (hq : (Term.join parts.coefficients).constantValue = .ok (some q)) (hq0 : q ≠ 0) : 0 < q := by
  have hconst := Expr.isConstant_of_constantValue hq
  -- without variables the sum has a real value, which is the rational number
  rw [Valuation.generic, Expr.value?_standard_of_isConstant hconst 0] at hsum
  obtain ⟨y, hy, -⟩ := Option.map_eq_some_iff.1 hsum
  have hreal := Valuation.isReal_standard (K := ℝ) 0 (Term.join parts.coefficients).constants
  obtain rfl := hreal.respectsNumbers (List.Subset.refl _) hq hy
  rcases h.cases_real hy (Rat.cast_ne_zero.2 hq0) with hpos | ⟨-, hnone⟩
  · exact_mod_cast hpos
  · exact absurd hq (hnone q)

/-- Turning parts around keeps the quotient of remainder and coefficients. -/
theorem Turned.neg_div_eq {K : Type*} [Field K] [DecidableEq K] {ρ : Valuation K} {c c' : Comparison}
    {parts parts' : Collected} {a b a' b' : K} (h : Turned c parts c' parts')
    (hv : parts.HasValues ρ a b) (hv' : parts'.HasValues ρ a' b') : -b' / a' = -b / a := by
  cases h with
  | same =>
    obtain rfl := Option.some.inj (hv.coefficients.symm.trans hv'.coefficients)
    obtain rfl := Option.some.inj (hv.remainder.symm.trans hv'.remainder)
    rfl
  | around =>
    obtain rfl := Option.some.inj (hv.negate.coefficients.symm.trans hv'.coefficients)
    obtain rfl := Option.some.inj (hv.negate.remainder.symm.trans hv'.remainder)
    rw [neg_div_neg_eq]

/-- **The value of the answer** is the remainder, moved over and divided by the coefficients, wherever
these are not zero and numbers have their values. -/
theorem value?_of_divideOut {K : Type*} [Field K] [CharZero K] [DecidableEq K] {ρ : Valuation K}
    {cs : List Constant} (hρ : ρ.RespectsNumbers cs) {x : Operand} {c : Comparison} {parts : Collected}
    {a b : K} {a₀ b₀ : GenericField} (h : divideOut x c parts = .ok s) (hcs : parts.ConstantsIn cs)
    (hv₀ : parts.HasValues .generic a₀ b₀) (hv : parts.HasValues ρ a b) (ha : a ≠ 0) :
    s.rhs.value? ρ = some (-b / a) := by
  obtain ⟨c', turned, hturned, hsign, hdivided⟩ := exists_of_divideOut h
  obtain ⟨a₁, b₁, hv₁, -⟩ := hturned.exists_hasValues hv₀
  obtain ⟨a₂, b₂, hv₂, hzero⟩ := hturned.exists_hasValues hv
  have ha₂ : a₂ ≠ 0 := fun h => ha (hzero.1 h)
  have hcs := hturned.constantsIn hcs
  have hpos : ∀ q, (Term.join turned.coefficients).constantValue = .ok (some q) → 0 < q := by
    intro q hq
    refine hsign.pos hv₁.join hq ?_
    rintro rfl
    exact ha₂ (by rw [hρ (Term.constants_join_subset hcs.coefficients) hq hv₂.join, Rat.cast_zero])
  obtain ⟨rhs, hrhs, rfl⟩ := exists_of_dividedBy hdivided
  rw [← hturned.neg_div_eq hv hv₂]
  exact Term.value?_divide hρ hcs.negate.remainder (Term.constants_join_subset hcs.coefficients) hrhs
    hv₂.negate.remainder hv₂.join ha₂ hpos

open Classical in
/-- **Nothing in the answer is divided by zero**, if nothing in the relation is divided by what is
identically zero: formally the right side has a value. -/
theorem exists_value?_of_solve (hr : r.IsMeaningful) (hdiv : ∀ d ∈ r.divisors, d.value? .generic ≠ some 0)
    (hs : r.solve name = .ok s) : ∃ v, s.rhs.value? AtomValues.formal.valuation = some v := by
  obtain ⟨x, hx, rfl, hreached⟩ := reached_of_mem_stages (isolate_mem_of_solve hs)
  cases hreached with
  | @isolate parts _ hcollect hcancels hdivide =>
    obtain ⟨l, m, hl, hm⟩ := exists_generic_values hr.1 hr.2 hdiv
    obtain ⟨a, b, hv, -⟩ := hasValues_of_collect .generic hx hcollect hl hm
    obtain ⟨l', hl'⟩ := Expr.exists_formal_of_generic hl
    obtain ⟨m', hm'⟩ := Expr.exists_formal_of_generic hm
    obtain ⟨a', b', hv', -⟩ := hasValues_of_collect _ hx hcollect hl' hm'
    have hrespects : AtomValues.formal.valuation.RespectsNumbers r.constants :=
      AtomValues.respectsNumbers AtomValues.formal r.constants
    exact ⟨_, value?_of_divideOut hrespects hdivide (constantsIn_of_collect hcollect) hv hv'
      (formal_ne_zero_of_cancels hcancels hv'.join)⟩

end LinearRelations.Relation
