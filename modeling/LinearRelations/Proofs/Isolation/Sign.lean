import LinearRelations.Proofs.Isolation.Answer

/-!
# Coefficients of unknown sign

An inequality cannot be divided by a coefficient whose sign is not known. That is so for every
coefficient with a variable in it. A coefficient without variables is a number and has a sign,
unless something in it is divided by zero; then no sign is found, although nothing in it varies.

* `Expr.of_constantSign_eq_none`: the numbers whose sign is not found;
* `Relation.exists_of_solve_eq_indeterminateSign`: which coefficients are refused for their sign;
* `Relation.solve_of_mem_variables`: an inequality with a variable in the coefficients is refused;
* `Relation.indeterminateSign_of_parse`: what else is refused divides by zero;
* `Relation.indeterminateSign_overZero`: a coefficient that is refused and has no variable.
-/

namespace LinearRelations

namespace Expr

variable {e : Expr}

/-- The sign of a number is found, unless it is divided by zero or is zero itself. -/
theorem of_constantSign_eq_none (hread : e.IsReadable) (hconst : e.isConstant = true)
    (h : e.constantSign = .ok none) :
    (∃ d ∈ e.divisors, d.value? (.standard (0 : String → ℝ)) = some 0) ∨
      e.value? (.standard (0 : String → ℝ)) = some 0 := by
  by_cases hdiv : ∃ d ∈ e.divisors, d.value? (.standard (0 : String → ℝ)) = some 0
  · exact .inl hdiv
  obtain ⟨y, hy⟩ := exists_value? hread.isMeaningful fun d hd hzero => hdiv ⟨d, hd, hzero⟩
  by_cases hy0 : y = 0
  · exact .inr (hy0 ▸ hy)
  · obtain ⟨s, hs⟩ := exists_constantSign hread hconst hy hy0
    rw [hs] at h
    cases h

theorem constantSign_of_variables_ne_nil (h : e.variables ≠ []) : e.constantSign = .ok none := by
  have hconst : ¬ e.isConstant = true := fun hconst => h (List.isEmpty_iff.1 hconst)
  rw [constantSign, if_neg hconst]

open Classical in
/-- An algebraic number that is zero is so formally, too. -/
theorem value?_formal_eq_zero (hread : e.IsReadable) (hconst : e.isConstant = true)
    (hcs : ∀ c ∈ e.constants, c.isAlgebraic = true)
    (h : e.value? (.standard (0 : String → ℝ)) = some 0) :
    e.value? AtomValues.formal.valuation = some 0 := by
  have hgeneric : e.value? .generic = some 0 := by
    rw [Valuation.generic, value?_standard_of_isConstant hconst 0, h, Option.map_some, map_zero]
  obtain ⟨y, hy⟩ := exists_formal_of_generic hgeneric
  obtain ⟨b, hb, hiff⟩ := exists_isZero_iff hread hy
  have hzero : b = true := Except.ok.inj (hb.symm.trans (isZero_of_generic hread hcs hgeneric))
  rw [hy, hiff.1 hzero]

end Expr

namespace Relation

variable {r : Relation} {name : String}

/-! ### Refused coefficients -/

/-- The coefficients that are refused for their sign do not cancel, and no sign is found for their sum
once it is turned around if all of them are subtracted. -/
theorem exists_of_solve_eq_indeterminateSign {y : String} {e : Expr}
    (h : r.solve name = .error (.indeterminateSign y e)) :
    ∃ (x : Operand) (parts : Collected) (c' : Comparison) (parts' : Collected),
      x.isVariable = true ∧ x.text = name ∧ y = name ∧
      r.difference.collect name = .ok parts ∧ cancels parts = .ok false ∧ r.comparison ≠ .eq ∧
      Turned r.comparison parts c' parts' ∧ e = Term.join parts'.coefficients ∧
      e.constantSign = .ok none := by
  by_cases hname : name ∈ r.variables
  swap
  · rw [solve_of_not_mem hname] at h
    cases h
  obtain ⟨x, hof, hx, rfl⟩ := exists_operand hname
  rcases hcollect : r.difference.collect x.text with nonlinear | parts
  · rw [solve_of_collect_eq_error hof hname hcollect] at h
    cases h
  rcases hcancels : cancels parts with inexact | _ | _
  · rw [solve, isolation_of_mem hof hname, hcollect] at h
    simp only [isolationOf, hcancels] at h
    cases h
  · rw [solve_eq_divideOut hof hname hcollect hcancels] at h
    rcases of_divideOut_eq_error h with ⟨inexact, hcause⟩ | ⟨c', parts', hturned, hne, hsign, hcause⟩
    · cases hcause
    · obtain ⟨rfl, rfl⟩ := SolveError.indeterminateSign.inj hcause
      exact ⟨x, parts, c', parts', hx, rfl, rfl, rfl, hcancels, hne, hturned, rfl, hsign⟩
  · rw [solve_of_cancels hof hname hcollect hcancels] at h
    cases h

/-- An inequality with a variable in the coefficients is refused, if they do not cancel. -/
theorem solve_of_mem_variables {parts : Collected} (hname : name ∈ r.variables) (hne : r.comparison ≠ .eq)
    (hcollect : r.difference.collect name = .ok parts) (hcancels : cancels parts = .ok false)
    (hvariable : ∃ t ∈ parts.coefficients, t.body.variables ≠ []) :
    ∃ e, r.solve name = .error (.indeterminateSign name e) ∧ e.variables ≠ [] := by
  obtain ⟨x, hof, hx, rfl⟩ := exists_operand hname
  obtain ⟨c', parts', hturned, heq⟩ := exists_divideOut_eq x r.comparison parts
  have hvariables : (Term.join parts'.coefficients).variables ≠ [] := by
    intro hnil
    have hconst : (Term.join parts'.coefficients).isConstant = true := List.isEmpty_iff.2 hnil
    obtain ⟨t, ht, htv⟩ := hvariable
    exact htv (hturned.variables_eq_nil_iff.1 (isConstant_join_iff.1 hconst) t ht)
  refine ⟨Term.join parts'.coefficients, ?_, hvariables⟩
  rw [solve_eq_divideOut hof hname hcollect hcancels, heq, divideTurned,
    Expr.constantSign_of_variables_ne_nil hvariables]
  simp only [if_neg hne]

/-- Where nothing is divided by what is identically zero, the coefficients are rational functions. -/
theorem exists_generic_value?_join {x : Operand} {c' : Comparison} {parts parts' : Collected} (hr : r.IsMeaningful)
    (hdiv : ∀ d ∈ r.divisors, d.value? .generic ≠ some 0) (hx : x.isVariable = true)
    (hcollect : r.difference.collect x.text = .ok parts) (hturned : Turned r.comparison parts c' parts') :
    ∃ a, (Term.join parts'.coefficients).value? .generic = some a := by
  classical
  obtain ⟨l, m, hl, hm⟩ := exists_generic_values hr.1 hr.2 hdiv
  obtain ⟨a, b, hv, -⟩ := hasValues_of_collect .generic hx hcollect hl hm
  obtain ⟨a', b', hv', -⟩ := hturned.exists_hasValues hv
  exact ⟨a', hv'.join⟩

/-- **What is refused for its sign.** If isolating a variable in a relation that was read from a text is
refused for the sign of a coefficient, then the relation is an inequality, and the coefficient has a
variable; or it is a number without a value, because something in it is divided by zero, and then
something in the relation is divided by what is identically zero; or it is zero and that is not found,
which takes a transcendental constant. And an inequality in which the coefficients do not cancel and
have a variable is always refused, for a coefficient that has one. -/
theorem indeterminateSign_of_parse {text : String} (hparse : parse text = .ok r) (name : String) :
    (∀ y e, r.solve name = .error (.indeterminateSign y e) → y = name ∧ r.comparison ≠ .eq ∧
      (e.variables ≠ [] ∨
        (∃ d ∈ e.divisors, d.value? (.standard (0 : String → ℝ)) = some 0) ∧
          (∃ d ∈ r.divisors, d.value? .generic = some 0) ∨
        e.value? (.standard (0 : String → ℝ)) = some 0 ∧ ∃ c ∈ e.constants, c.isAlgebraic = false)) ∧
      ∀ parts, name ∈ r.variables → r.comparison ≠ .eq → r.difference.collect name = .ok parts →
        cancels parts = .ok false → (∃ t ∈ parts.coefficients, t.body.variables ≠ []) →
        ∃ e, r.solve name = .error (.indeterminateSign name e) ∧ e.variables ≠ [] := by
  have hr := isMeaningful_of_parse hparse
  refine ⟨fun y e h => ?_, fun parts => solve_of_mem_variables⟩
  obtain ⟨x, parts, c', parts', hx, rfl, rfl, hcollect, hcancels, hne, hturned, rfl, hsign⟩ :=
    exists_of_solve_eq_indeterminateSign h
  refine ⟨rfl, hne, ?_⟩
  by_cases hvariables : (Term.join parts'.coefficients).variables = []
  swap
  · exact .inl hvariables
  have hconst : (Term.join parts'.coefficients).isConstant = true := List.isEmpty_iff.2 hvariables
  have hread := isReadable_join (hturned.forall_coefficients (isReadable_of_cancels hcancels))
  rcases Expr.of_constantSign_eq_none hread hconst hsign with hzero | hzero
  · refine .inr (.inl ⟨hzero, ?_⟩)
    -- otherwise the coefficient would have a value, and so would what it is divided by
    by_contra hdiv
    push Not at hdiv
    obtain ⟨a, ha⟩ := exists_generic_value?_join hr hdiv hx hcollect hturned
    rw [Valuation.generic, Expr.value?_standard_of_isConstant hconst 0] at ha
    obtain ⟨y, hy, -⟩ := Option.map_eq_some_iff.1 ha
    obtain ⟨d, hd, hd0⟩ := hzero
    exact Expr.value?_ne_zero_of_mem_divisors hy d hd hd0
  · refine .inr (.inr ⟨hzero, ?_⟩)
    -- an algebraic zero would have been found when the coefficients were tested for cancelling
    by_contra hcs
    push Not at hcs
    have hcs' : ∀ c ∈ (Term.join parts'.coefficients).constants, c.isAlgebraic = true :=
      fun c hc => Bool.of_not_eq_false (hcs c hc)
    have hformal := hturned.value?_join_eq_zero (Expr.value?_formal_eq_zero hread hconst hcs' hzero)
    exact formal_ne_zero_of_cancels hcancels hformal rfl

/-- `l / 0 < 1`. -/
def overZero : Relation :=
  ⟨.node (.leaf ⟨"l", by decide⟩) .div .zero, .lt, .one⟩

theorem parse_overZero : parse "(l / 0) < 1" = .ok overZero :=
  have hrender : overZero.render = "(l / 0) < 1" := by decide +kernel
  hrender ▸ parse_render (by decide) (by decide)

/-- The coefficient `1 / 0`. -/
theorem solve_overZero :
    overZero.solve "l" = .error (.indeterminateSign "l" (.node .one .div .zero)) := by decide +kernel

theorem indeterminateSign_of_parse_overZero : parse "(l / 0) < 1" = .ok overZero ∧
    overZero.solve "l" = .error (.indeterminateSign "l" (.node .one .div .zero)) ∧
    ∃ d ∈ overZero.divisors, d.value? .generic = some 0 := by
  have hcs : (Expr.node .one .div .zero).constants = [] := by decide +kernel
  refine ⟨parse_overZero, solve_overZero, ?_⟩
  obtain ⟨-, -, hvariables | ⟨-, hdiv⟩ | ⟨-, c, hc, -⟩⟩ :=
    (indeterminateSign_of_parse parse_overZero "l").1 _ _ solve_overZero
  · exact absurd (by decide +kernel) hvariables
  · exact hdiv
  · rw [hcs] at hc
    cases hc

/-- **The sign that is not found need not depend on a variable**: `l / 0 < 1` is refused for the sign of
`1 / 0`. -/
theorem indeterminateSign_overZero : ¬ ∀ (text : String) (r : Relation) (name y : String) (e : Expr),
    parse text = .ok r → r.solve name = .error (.indeterminateSign y e) → e.variables ≠ [] := by
  intro h
  exact h _ _ _ _ _ parse_overZero solve_overZero (by decide +kernel)

end Relation

end LinearRelations
