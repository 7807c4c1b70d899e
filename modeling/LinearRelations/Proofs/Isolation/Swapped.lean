import LinearRelations.Proofs.Isolation.Answer

/-!
# Swapped sides

Swapping the sides of a relation turns the difference around: the same terms are collected, in another
order and under the opposite signs. So the one run may turn its parts around where the other does not,
because all its coefficients are subtracted or because they make a negative number. Whichever it is,
the parts that are divided in the end have a positive sign if they have one that is found; that
fixes the comparison, and a quotient does not change when both its parts are turned around.

* `Collected.Opposite`: the same parts in any order under the opposite signs;
* `Relation.exists_opposite_of_collect`: what is collected behind the swap;
* `Relation.signFound_iff_of_opposite`: a sign is found for both sums of coefficients or for none;
* `Relation.solve_swapped`: both runs fail for the same kind of reason, or their answers agree.
-/

namespace LinearRelations

/-- Whether two runs fail for the same kind of reason, other than a number that cannot be read or written. -/
inductive SolveError.Alike : SolveError → SolveError → Prop
  | unknownVariable {name name' : String} {r r' : Relation} :
      Alike (.unknownVariable name r) (.unknownVariable name' r')
  | nonlinear {cause cause' : NonlinearTerm} : Alike (.nonlinear cause) (.nonlinear cause')
  | indeterminateSign {name name' : String} {e e' : Expr} :
      Alike (.indeterminateSign name e) (.indeterminateSign name' e')

/-! ### Terms under opposite signs -/

/-- The difference of two sums turned around, up to the order of the terms. -/
theorem Term.append_negateAll_perm (ss ts : List Term) :
    (ts ++ negateAll ss).Perm (negateAll (ss ++ negateAll ts)) := by
  rw [negateAll_append, negateAll_negateAll]
  exact List.perm_append_comm

namespace Term

variable {name : String}

/-- Terms turned around are collected into parts turned around. -/
theorem collect_negateAll (ts : List Term) :
    collect name (negateAll ts) = (collect name ts).map Collected.negate := by
  induction ts with
  | nil => rfl
  | cons t ts ih =>
    rw [negateAll, List.map_cons, ← negateAll, collect, ih, collect]
    have hbody : t.negate.body = t.body := rfl
    rw [hbody]
    rcases t.body.splitVariable name with cause | ⟨degree, c⟩
    · rfl
    simp only [bind, Except.bind]
    by_cases hdegree : 1 < degree
    · simp [hdegree, Except.map]
    · rcases collect name ts with cause | p
      · simp [hdegree, Except.map]
      · by_cases hone : degree = 1 <;>
          simp [hdegree, hone, Except.map, Collected.negate, negateAll, negate, pure, Except.pure]

end Term

/-! ### Opposite parts -/

namespace Collected

/-- Whether parts are the given ones turned around, up to the order of their terms. -/
structure Opposite (parts parts' : Collected) : Prop where
  coefficients : parts'.coefficients.Perm (Term.negateAll parts.coefficients)
  remainder : parts'.remainder.Perm (Term.negateAll parts.remainder)

theorem opposite_negate (parts : Collected) : parts.Opposite parts.negate := ⟨.refl _, .refl _⟩

theorem opposite_append (p q : Collected) : (p.append q.negate).Opposite (q.append p.negate) :=
  ⟨Term.append_negateAll_perm _ _, Term.append_negateAll_perm _ _⟩

namespace Opposite

variable {parts parts' : Collected} (h : parts.Opposite parts')

include h

theorem sum?_coefficients {K : Type*} [Field K] [DecidableEq K] (ρ : Valuation K) :
    Term.sum? ρ parts'.coefficients = (Term.sum? ρ parts.coefficients).map (- ·) := by
  rw [Term.sum?_perm ρ h.coefficients, Term.sum?_negateAll]

theorem hasValues {K : Type*} [Field K] [DecidableEq K] {ρ : Valuation K} {a b : K}
    (hv : parts.HasValues ρ a b) : parts'.HasValues ρ (-a) (-b) where
  coefficients := by rw [h.sum?_coefficients ρ, hv.coefficients, Option.map_some]
  remainder := by rw [Term.sum?_perm ρ h.remainder, Term.sum?_negateAll, hv.remainder, Option.map_some]

/-- What holds of the bodies of all coefficients holds of those behind the turn. -/
theorem forall_coefficients_iff (P : Expr → Prop) :
    (∀ t ∈ parts'.coefficients, P t.body) ↔ ∀ t ∈ parts.coefficients, P t.body := by
  simp only [h.coefficients.mem_iff, Term.negateAll, List.forall_mem_map]
  rfl

theorem forall_remainder_iff (P : Expr → Prop) :
    (∀ t ∈ parts'.remainder, P t.body) ↔ ∀ t ∈ parts.remainder, P t.body := by
  simp only [h.remainder.mem_iff, Term.negateAll, List.forall_mem_map]
  rfl

theorem constantsIn {cs : List Constant} (hcs : parts.ConstantsIn cs) : parts'.ConstantsIn cs :=
  ⟨(h.forall_coefficients_iff fun e => e.constants ⊆ cs).2 hcs.coefficients,
    (h.forall_remainder_iff fun e => e.constants ⊆ cs).2 hcs.remainder⟩

end Opposite

end Collected

namespace Relation

variable {r s s' : Relation} {x : Operand} {name : String} {c : Comparison} {parts parts' : Collected}

theorem swapped_swapped (r : Relation) : r.swapped.swapped = r := by
  simp [swapped]

theorem mem_variables_swapped : name ∈ r.swapped.variables ↔ name ∈ r.variables := by
  simp only [swapped, Relation.variables, List.mem_append, or_comm]

/-- **Behind the swap opposite parts are collected.** -/
theorem exists_opposite_of_collect (h : r.difference.collect name = .ok parts) :
    ∃ parts', r.swapped.difference.collect name = .ok parts' ∧ parts.Opposite parts' := by
  rw [Expr.collect, terms_difference, Term.collect_append, Term.collect_negateAll] at h
  obtain ⟨p, hp, h⟩ := exists_of_bind_eq_ok h
  obtain ⟨q', hq', h⟩ := exists_of_bind_eq_ok h
  obtain rfl := Except.ok.inj h
  rcases hq : Term.collect name (r.rhs.expand.expand.terms .plus) with cause | q
  · rw [hq] at hq'
    cases hq'
  rw [hq] at hq'
  obtain rfl : q.negate = q' := Except.ok.inj hq'
  refine ⟨q.append p.negate, ?_, Collected.opposite_append p q⟩
  rw [Expr.collect, terms_difference, Term.collect_append, Term.collect_negateAll]
  simp only [swapped, hp, hq]
  rfl

/-! ### Signs -/

section Signs

variable {a b : GenericField} {z w : FormalField} (hread : ∀ t ∈ parts.coefficients, t.body.IsReadable)
  (hv : parts.HasValues .generic a b) (hz : parts.HasValues AtomValues.formal.valuation z w) (hz0 : z ≠ 0)

include hread hv hz hz0

open Classical in
/-- A sign is found for numbers that make a real number other than zero. -/
theorem signFound_iff_real :
    SignFound parts ↔ (∀ t ∈ parts.coefficients, t.body.variables = []) ∧
      ∃ y : ℝ, Term.sum? (.standard 0) parts.coefficients = some y ∧ y ≠ 0 := by
  rw [← isConstant_join_iff]
  constructor
  · rintro ⟨s, hs⟩
    have hconst := Expr.isConstant_of_constantSign hs
    have hsum := hv.join
    rw [Valuation.generic, Expr.value?_standard_of_isConstant hconst 0] at hsum
    obtain ⟨y, hy, -⟩ := Option.map_eq_some_iff.1 hsum
    refine ⟨hconst, y, (Term.value?_join _ _).symm.trans hy, ?_⟩
    rintro rfl
    -- only what is zero formally is found to be zero
    rcases Expr.sign_of_constantSign (Valuation.isReal_standard 0 _) (List.Subset.refl _) hs hy with
      ⟨-, hpos⟩ | ⟨-, hneg⟩ | ⟨rfl, -⟩
    · exact absurd hpos (lt_irrefl 0)
    · exact absurd hneg (lt_irrefl 0)
    · exact hz0 (Expr.formal_eq_zero_of_constantSign hs hz.join)
  · rintro ⟨hconst, y, hy, hy0⟩
    exact Expr.exists_constantSign (isReadable_join hread) hconst ((Term.value?_join _ _).trans hy) hy0

/-- **A sign is found for both of two opposite sums of coefficients or for none.** -/
theorem signFound_iff_of_opposite (h : parts.Opposite parts') : SignFound parts' ↔ SignFound parts := by
  rw [signFound_iff_real hread hv hz hz0,
    signFound_iff_real ((h.forall_coefficients_iff Expr.IsReadable).2 hread) (h.hasValues hv) (h.hasValues hz)
      (neg_ne_zero.2 hz0),
    h.forall_coefficients_iff fun e => e.variables = [], h.sum?_coefficients]
  rcases Term.sum? (.standard (0 : String → ℝ)) parts.coefficients with _ | y <;> simp

/-- Only a sign that is not found for the coefficients is in the way of dividing, if it is not the size of a
number. -/
theorem divideOut_of_signFound (x : Operand) (c : Comparison)
    (hremainder : ∀ t ∈ parts.remainder, t.body.IsMeaningful) :
    (c = .eq ∨ SignFound parts) ∧ DividesWithin (divideOut x c parts) ∨
      ¬ (c = .eq ∨ SignFound parts) ∧ ∃ e, divideOut x c parts = .error (.indeterminateSign x.text e) := by
  obtain ⟨c', parts', hturned, hcases⟩ := divideOut_cases x c hread hremainder
  cases hturned with
  | same => exact hcases
  | around => rwa [signFound_iff_of_opposite hread hv hz hz0 parts.opposite_negate] at hcases

end Signs

/-- **The sign of the coefficients fixes the comparison** of an inequality. -/
theorem comparison_of_divideOut {y : ℝ} (h : divideOut x c parts = .ok s) (hc : c ≠ .eq)
    (hy : Term.sum? (.standard 0) parts.coefficients = some y) (hy0 : y ≠ 0) :
    s.comparison = if 0 < y then c else c.mirrored := by
  obtain ⟨c', turned, hturned, hsign, hdivided⟩ := exists_of_divideOut h
  obtain ⟨rhs, -, rfl⟩ := exists_of_dividedBy hdivided
  have hpos : ∀ y' : ℝ, Term.sum? (.standard 0) turned.coefficients = some y' → y' ≠ 0 → 0 < y' := by
    intro y' hy' hne
    rcases hsign.cases_real ((Term.value?_join _ _).trans hy') hne with hpos | ⟨heq, -⟩
    · exact hpos
    · exact absurd heq hc
  cases hturned with
  | same => rw [if_pos (hpos y hy hy0)]
  | around =>
    have hneg : Term.sum? (.standard 0) parts.negate.coefficients = some (-y) := by
      rw [parts.opposite_negate.sum?_coefficients, hy, Option.map_some]
    have hlt : y < 0 := neg_pos.1 (hpos (-y) hneg (neg_ne_zero.2 hy0))
    rw [if_neg hlt.not_gt]

/-- **Dividing opposite parts** fails for both or gives the same comparison. -/
theorem divideOut_of_opposite {a b : GenericField} {z w : FormalField} (h : parts.Opposite parts')
    (hread : ∀ t ∈ parts.coefficients, t.body.IsReadable)
    (hremainder : ∀ t ∈ parts.remainder, t.body.IsMeaningful) (hv : parts.HasValues .generic a b)
    (hz : parts.HasValues AtomValues.formal.valuation z w) (hz0 : z ≠ 0)
    (hlimit : ∀ cause : ExactError, cause.IsLimit → divideOut x c parts ≠ .error (.inexact cause))
    (hlimit' : ∀ cause : ExactError, cause.IsLimit → divideOut x c.mirrored parts' ≠ .error (.inexact cause)) :
    (∃ e e', divideOut x c parts = .error (.indeterminateSign x.text e) ∧
        divideOut x c.mirrored parts' = .error (.indeterminateSign x.text e')) ∨
      ∃ s s', divideOut x c parts = .ok s ∧ divideOut x c.mirrored parts' = .ok s' ∧
        s'.comparison = s.comparison := by
  have hcases := divideOut_of_signFound hread hv hz hz0 x c hremainder
  have hcases' := divideOut_of_signFound ((h.forall_coefficients_iff Expr.IsReadable).2 hread) (h.hasValues hv)
    (h.hasValues hz) (neg_ne_zero.2 hz0) x c.mirrored ((h.forall_remainder_iff Expr.IsMeaningful).2 hremainder)
  rw [Comparison.mirrored_eq_eq_iff, signFound_iff_of_opposite hread hv hz hz0 h] at hcases'
  rcases hcases with ⟨hfound, hs⟩ | ⟨hnot, e, he⟩
  · obtain ⟨s, hs⟩ := hs.exists_ok hlimit
    obtain ⟨s', hs'⟩ := (hcases'.resolve_right fun h => h.1 hfound).2.exists_ok hlimit'
    refine .inr ⟨s, s', hs, hs', ?_⟩
    by_cases hc : c = .eq
    · subst hc
      have heq : s.comparison = .eq := (shape_of_divideOut hs).2.1.elim id id
      have heq' : s'.comparison = .eq := (shape_of_divideOut hs').2.1.elim id id
      rw [heq, heq']
    · obtain ⟨-, y, hy, hy0⟩ := (signFound_iff_real hread hv hz hz0).1 (hfound.resolve_left hc)
      have hy' : Term.sum? (.standard 0) parts'.coefficients = some (-y) := by
        rw [h.sum?_coefficients, hy, Option.map_some]
      rw [comparison_of_divideOut hs hc hy hy0,
        comparison_of_divideOut hs' (mt Comparison.mirrored_eq_eq_iff.1 hc) hy' (neg_ne_zero.2 hy0),
        Comparison.mirrored_mirrored]
      rcases lt_or_gt_of_ne hy0 with hneg | hpos
      · rw [if_neg hneg.not_gt, if_pos (neg_pos.2 hneg)]
      · rw [if_pos hpos, if_neg (neg_neg_iff_pos.2 hpos).not_gt]
  · obtain ⟨e', he'⟩ := (hcases'.resolve_left fun h => hnot h.1).2
    exact .inl ⟨e, e', he, he'⟩

/-! ### Both runs -/

/-- Formally the zero test is exact. -/
theorem cancels_iff {found : Bool} {z w : FormalField} (hcancels : cancels parts = .ok found)
    (hz : parts.HasValues AtomValues.formal.valuation z w) : found = true ↔ z = 0 := by
  classical
  constructor
  · rintro rfl
    exact eq_zero_of_cancels hz hcancels
  · intro h0
    by_contra hnot
    rw [Bool.not_eq_true] at hnot
    exact formal_ne_zero_of_cancels (hnot ▸ hcancels) hz.join h0

/-- What is not collected is not collected behind the swap either. -/
theorem collect_swapped_eq_error {cause : NonlinearTerm} (h : r.difference.collect name = .error cause) :
    ∃ cause', r.swapped.difference.collect name = .error cause' := by
  rcases hcollect : r.swapped.difference.collect name with cause' | parts
  · exact ⟨cause', rfl⟩
  · obtain ⟨parts', hparts', -⟩ := exists_opposite_of_collect hcollect
    rw [swapped_swapped, h] at hparts'
    cases hparts'

/-- The answers for opposite parts have the same value wherever the coefficients are not zero. -/
theorem value?_of_opposite {K : Type*} [Field K] [LinearOrder K] [IsStrictOrderedRing K] {ρ : Valuation K}
    {cs : List Constant} (hρ : ρ.IsReal cs) {c c' : Comparison} {a b : K} {a₀ b₀ : GenericField}
    (h : parts.Opposite parts') (hs : divideOut x c parts = .ok s) (hs' : divideOut x c' parts' = .ok s')
    (hcs : parts.ConstantsIn cs) (hv₀ : parts.HasValues .generic a₀ b₀) (hv : parts.HasValues ρ a b)
    (ha : a ≠ 0) : ∃ v, s.rhs.value? ρ = some v ∧ s'.rhs.value? ρ = some v := by
  refine ⟨-b / a, value?_of_divideOut hρ.respectsNumbers hs hcs hv₀ hv ha, ?_⟩
  rw [← neg_div_neg_eq]
  exact value?_of_divideOut hρ.respectsNumbers hs' (h.constantsIn hcs) (h.hasValues hv₀) (h.hasValues hv)
    (neg_ne_zero.2 ha)

/-- **Swapping the sides does not change the answer**, if the relation was read from a text and divides by
nothing that is identically zero, and if the size of a number stops neither run. Isolating a variable fails
for both relations, and for the same kind of reason, or it gives answers for both that have the same
comparison and, wherever the relation has values and the coefficients of the variable do not add up to
zero, right sides of the same value. -/
theorem solve_swapped {text : String} (hparse : parse text = .ok r) (name : String)
    (hdiv : ∀ d ∈ r.divisors, d.value? .generic ≠ some 0)
    (hlimit : ∀ cause : ExactError, cause.IsLimit → r.solve name ≠ .error (.inexact cause))
    (hlimit' : ∀ cause : ExactError, cause.IsLimit → r.swapped.solve name ≠ .error (.inexact cause)) :
    (∃ cause cause', r.solve name = .error cause ∧ r.swapped.solve name = .error cause' ∧
        cause.Alike cause') ∨
      ∃ s s', r.solve name = .ok s ∧ r.swapped.solve name = .ok s' ∧ s'.comparison = s.comparison ∧
        ∀ {K : Type*} [Field K] [LinearOrder K] [IsStrictOrderedRing K] (ρ : Valuation K),
          ρ.IsReal r.constants → r.DefinedAt ρ → r.CoefficientsNeZero ρ name →
            ∃ v, s.rhs.value? ρ = some v ∧ s'.rhs.value? ρ = some v := by
  obtain ⟨hl, hr⟩ := isMeaningful_of_parse hparse
  by_cases hname : name ∈ r.variables
  swap
  · exact .inl ⟨_, _, solve_of_not_mem hname, solve_of_not_mem (mt mem_variables_swapped.1 hname),
      .unknownVariable⟩
  have hname' : name ∈ r.swapped.variables := mem_variables_swapped.2 hname
  obtain ⟨x, hof, hx, rfl⟩ := exists_operand hname
  rcases hcollect : r.difference.collect x.text with cause | parts
  · obtain ⟨cause', hcollect'⟩ := collect_swapped_eq_error hcollect
    exact .inl ⟨_, _, solve_of_collect_eq_error hof hname hcollect,
      solve_of_collect_eq_error hof hname' hcollect', .nonlinear⟩
  obtain ⟨parts', hcollect', hopposite⟩ := exists_opposite_of_collect hcollect
  obtain ⟨hcoefficients, hremainder⟩ := isMeaningful_of_collect hl hr hcollect
  have hcoefficients' := (hopposite.forall_coefficients_iff Expr.IsMeaningful).2 hcoefficients
  obtain ⟨found, hfound, -⟩ := (cancels_yields hcoefficients).exists_ok fun cause hcause herror =>
    hlimit cause hcause (solve_of_cancels_eq_error hof hname hcollect herror)
  obtain ⟨found', hfound', -⟩ := (cancels_yields hcoefficients').exists_ok fun cause hcause herror =>
    hlimit' cause hcause (solve_of_cancels_eq_error hof hname' hcollect' herror)
  -- both sides are rational functions of the variables, and formal values
  obtain ⟨l, m, hlv, hmv⟩ := exists_generic_values hl hr hdiv
  obtain ⟨l', hlz⟩ := Expr.exists_formal_of_generic hlv
  obtain ⟨m', hmz⟩ := Expr.exists_formal_of_generic hmv
  obtain ⟨a, b, hv, -⟩ := hasValues_of_collect _ hx hcollect hlv hmv
  obtain ⟨z, w, hz, -⟩ := hasValues_of_collect _ hx hcollect hlz hmz
  have hiff := cancels_iff hfound hz
  obtain rfl : found' = found := by
    rw [Bool.eq_iff_iff, hiff, cancels_iff hfound' (hopposite.hasValues hz), neg_eq_zero]
  cases found' with
  | true =>
    exact .inl ⟨_, _, solve_of_cancels hof hname hcollect hfound,
      solve_of_cancels hof hname' hcollect' hfound', .unknownVariable⟩
  | false =>
    rw [solve_eq_divideOut hof hname hcollect hfound] at hlimit ⊢
    rw [solve_eq_divideOut hof hname' hcollect' hfound'] at hlimit' ⊢
    have hz0 : z ≠ 0 := fun h => Bool.false_ne_true (hiff.2 h)
    rcases divideOut_of_opposite (x := x) (c := r.comparison) hopposite (isReadable_of_cancels hfound) hremainder
      hv hz hz0 hlimit hlimit' with ⟨e, e', he, he'⟩ | ⟨s, s', hs, hs', hcomparison⟩
    · exact .inl ⟨_, _, he, he', .indeterminateSign⟩
    · refine .inr ⟨s, s', hs, hs', hcomparison, fun ρ hρ hdef hne => ?_⟩
      obtain ⟨u, hu⟩ := Option.isSome_iff_exists.1 hdef.1
      obtain ⟨v, hv'⟩ := Option.isSome_iff_exists.1 hdef.2
      obtain ⟨a', b', hvalues, -⟩ := hasValues_of_collect ρ hx hcollect hu hv'
      exact value?_of_opposite hρ hopposite hs hs' (constantsIn_of_collect hcollect) hv hvalues
        fun h => hne parts hcollect (h ▸ hvalues.coefficients)

/-- Of `3 - 2 * x - x < y` and `y > 3 - 2 * x - x` only the first has all coefficients subtracted. -/
theorem solve_swapped_subtracted : ∃ s s', subtracted.solve "x" = .ok s ∧
    subtracted.swapped.solve "x" = .ok s' ∧ s.comparison = .gt ∧ s'.comparison = .gt ∧
      ∃ v, s.rhs.value? ⟨fun _ => 0, fun _ => (1 : ℚ)⟩ = some v ∧
        s'.rhs.value? ⟨fun _ => 0, fun _ => (1 : ℚ)⟩ = some v := by
  have hparse : parse subtracted.render = .ok subtracted := parse_render (by decide) (by decide)
  have hdiv : ∀ d ∈ subtracted.divisors, d.value? .generic ≠ some 0 := fun d hd => by cases hd
  have hcs : subtracted.constants = [] := by decide +kernel
  have hdef : subtracted.DefinedAt ⟨fun _ => 0, fun _ => (1 : ℚ)⟩ := by constructor <;> decide +kernel
  have hne : subtracted.CoefficientsNeZero ⟨fun _ => 0, fun _ => (1 : ℚ)⟩ "x" := by
    have hsum : ((subtracted.difference.collect "x").toOption.bind fun parts =>
        Term.sum? (⟨fun _ => 0, fun _ => (1 : ℚ)⟩ : Valuation ℚ) parts.coefficients) ≠ some 0 := by
      decide +kernel
    intro parts hcollect
    rwa [hcollect] at hsum
  obtain ⟨s, hs, hcomparison⟩ := solve_subtracted
  have hok : (subtracted.swapped.solve "x").isOk = true := by decide +kernel
  have hlimit : ∀ cause : ExactError, cause.IsLimit → subtracted.solve "x" ≠ .error (.inexact cause) := by
    intro cause _ hcause
    cases hs.symm.trans hcause
  have hlimit' : ∀ cause : ExactError, cause.IsLimit → subtracted.swapped.solve "x" ≠ .error (.inexact cause) := by
    intro cause _ hcause
    rw [hcause] at hok
    cases hok
  rcases solve_swapped hparse "x" hdiv hlimit hlimit' with ⟨_, _, herror, -⟩ | ⟨s₁, s', hs₁, hs', hsame, hvalues⟩
  · rw [hs] at herror
    cases herror
  · obtain rfl : s = s₁ := Except.ok.inj (hs.symm.trans hs₁)
    exact ⟨s, s', hs, hs', hcomparison, hsame.trans hcomparison,
      hvalues _ (hcs ▸ Valuation.isReal_nil _) hdef hne⟩

end Relation

end LinearRelations
