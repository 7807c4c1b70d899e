import LinearRelations.Proofs.Collect
import LinearRelations.Proofs.Divide

/-!
# Isolation is sound

Every stage on the way to isolating a variable says the same as the relation it started from,
wherever that has values and what is divided by is not zero.

* `Comparison.holds_div_iff`: a comparison divided by a positive number;
* `Relation.divideOut_sound`: the isolated relation compares the variable with the quotient;
* `Relation.coefficient_ne_zero`: an inequality is never divided by zero;
* `Relation.isolation_sound`: all stages and the answer are equivalent to the relation.
-/

namespace LinearRelations

/-! ### Comparisons -/

namespace Comparison

theorem mirrored_eq_eq_iff {c : Comparison} : c.mirrored = .eq ↔ c = .eq := by
  cases c <;> simp [mirrored]

variable {K : Type*} [Field K] [LinearOrder K]

theorem eq_holds_div_iff {v a b : K} (ha : a ≠ 0) : eq.Holds v (-b / a) ↔ eq.Holds (v * a + b) 0 := by
  simp only [Holds]
  rw [eq_div_iff ha, eq_neg_iff_add_eq_zero]

variable [IsStrictOrderedRing K]

theorem holds_sub_zero_iff (c : Comparison) (x y : K) : c.Holds (x - y) 0 ↔ c.Holds x y := by
  cases c with
  | eq => exact sub_eq_zero
  | lt => exact sub_neg
  | le => exact sub_nonpos
  | gt => exact sub_pos
  | ge => exact sub_nonneg

/-- A comparison with zero is mirrored where the sign changes. -/
theorem holds_mirrored_neg_iff (c : Comparison) (x : K) : c.mirrored.Holds (-x) 0 ↔ c.Holds x 0 := by
  cases c with
  | eq => exact neg_eq_zero
  | lt => exact neg_pos
  | le => exact neg_nonneg
  | gt => exact neg_neg_iff_pos
  | ge => exact neg_nonpos

/-- A comparison may be divided by a positive number. -/
theorem holds_div_iff (c : Comparison) {v a b : K} (ha : 0 < a) :
    c.Holds v (-b / a) ↔ c.Holds (v * a + b) 0 := by
  cases c with
  | eq => exact eq_holds_div_iff ha.ne'
  | lt => simp only [Holds]; rw [lt_div_iff₀ ha, lt_neg_iff_add_neg]
  | le => simp only [Holds]; rw [le_div_iff₀ ha, le_neg_iff_add_nonpos_right]
  | gt => simp only [Holds]; rw [div_lt_iff₀ ha, neg_lt_iff_pos_add]
  | ge => simp only [Holds]; rw [div_le_iff₀ ha, neg_le_iff_add_nonneg]

end Comparison

/-! ### Collected parts -/

namespace Collected

theorem negate_negate (parts : Collected) : parts.negate.negate = parts := by
  rw [negate, negate, Term.negateAll_negateAll, Term.negateAll_negateAll]

section Values

variable {K : Type*} [Field K] [DecidableEq K]

/-- The values of the sum of the coefficients and of the remainder. -/
structure HasValues (ρ : Valuation K) (parts : Collected) (a b : K) : Prop where
  coefficients : Term.sum? ρ parts.coefficients = some a
  remainder : Term.sum? ρ parts.remainder = some b

theorem HasValues.negate {ρ : Valuation K} {parts : Collected} {a b : K} (h : parts.HasValues ρ a b) :
    parts.negate.HasValues ρ (-a) (-b) where
  coefficients := by rw [Collected.negate, Term.sum?_negateAll, h.coefficients]; rfl
  remainder := by rw [Collected.negate, Term.sum?_negateAll, h.remainder]; rfl

theorem HasValues.join {ρ : Valuation K} {parts : Collected} {a b : K} (h : parts.HasValues ρ a b) :
    (Term.join parts.coefficients).value? ρ = some a := by
  rw [Term.value?_join, h.coefficients]

end Values

/-- The parts have no other constants than the given ones. -/
structure ConstantsIn (cs : List Constant) (parts : Collected) : Prop where
  coefficients : ∀ t ∈ parts.coefficients, t.body.constants ⊆ cs
  remainder : ∀ t ∈ parts.remainder, t.body.constants ⊆ cs

theorem constants_negateAll_subset {cs : List Constant} {ts : List Term}
    (h : ∀ t ∈ ts, t.body.constants ⊆ cs) : ∀ t ∈ Term.negateAll ts, t.body.constants ⊆ cs := by
  intro t ht
  obtain ⟨t', ht', rfl⟩ := List.mem_map.1 ht
  exact h t' ht'

theorem ConstantsIn.negate {cs : List Constant} {parts : Collected} (h : parts.ConstantsIn cs) :
    parts.negate.ConstantsIn cs :=
  ⟨constants_negateAll_subset h.coefficients, constants_negateAll_subset h.remainder⟩

end Collected

theorem Expr.constants_zero : zero.constants = [] := by decide +kernel

theorem Expr.constants_one : one.constants = [] := by decide +kernel

theorem Term.constants_join_subset {cs : List Constant} {ts : List Term}
    (h : ∀ t ∈ ts, t.body.constants ⊆ cs) : (join ts).constants ⊆ cs := by
  intro c hc
  obtain ⟨y, hy, hyc⟩ := List.mem_filterMap.1 hc
  rcases mem_leaves_join hy with hy | hy
  · have : c ∈ Expr.zero.constants := List.mem_filterMap.2 ⟨y, hy, hyc⟩
    rw [Expr.constants_zero] at this
    cases this
  · obtain ⟨t, ht, hyt⟩ := mem_leavesOf.1 hy
    exact h t ht (List.mem_filterMap.2 ⟨y, hyt, hyc⟩)

/-! ### Dividing out -/

namespace Relation

/-- Parts as they are, or turned around together with the comparison. -/
inductive Turned (c : Comparison) (parts : Collected) : Comparison → Collected → Prop
  | same : Turned c parts c parts
  | around : Turned c parts c.mirrored parts.negate

namespace Turned

variable {c c' : Comparison} {parts parts' : Collected}

theorem turn (h : Turned c parts c' parts') : Turned c parts c'.mirrored parts'.negate := by
  cases h with
  | same => exact .around
  | around =>
    rw [Comparison.mirrored_mirrored, Collected.negate_negate]
    exact .same

theorem eq_iff (h : Turned c parts c' parts') : c' = .eq ↔ c = .eq := by
  cases h with
  | same => rfl
  | around => exact Comparison.mirrored_eq_eq_iff

theorem constantsIn {cs : List Constant} (h : Turned c parts c' parts') (hcs : parts.ConstantsIn cs) :
    parts'.ConstantsIn cs := by
  cases h with
  | same => exact hcs
  | around => exact hcs.negate

/-- Coefficients that are zero once they are turned around were zero before. -/
theorem value?_join_eq_zero {K : Type*} [Field K] [DecidableEq K] {ρ : Valuation K}
    (h : Turned c parts c' parts') (hzero : (Term.join parts'.coefficients).value? ρ = some 0) :
    (Term.join parts.coefficients).value? ρ = some 0 := by
  cases h with
  | same => exact hzero
  | around =>
    rw [Term.value?_join, Collected.negate, Term.sum?_negateAll] at hzero
    obtain ⟨a, ha, ha0⟩ := Option.map_eq_some_iff.1 hzero
    rw [Term.value?_join, ha, neg_eq_zero.1 ha0]

/-- Turning around keeps what is said of the variable. -/
theorem hasValues {K : Type*} [Field K] [LinearOrder K] [IsStrictOrderedRing K] {ρ : Valuation K}
    {a b : K} (h : Turned c parts c' parts') (hv : parts.HasValues ρ a b) (v : K) :
    ∃ a' b', parts'.HasValues ρ a' b' ∧ (a' = 0 ↔ a = 0) ∧
      (c'.Holds (v * a' + b') 0 ↔ c.Holds (v * a + b) 0) := by
  cases h with
  | same => exact ⟨a, b, hv, Iff.rfl, Iff.rfl⟩
  | around =>
    refine ⟨-a, -b, hv.negate, neg_eq_zero, ?_⟩
    rw [show v * -a + -b = -(v * a + b) by ring]
    exact Comparison.holds_mirrored_neg_iff c _

end Turned

/-- What is known of the sign of the coefficients that are divided by. -/
inductive SignChecked (c : Comparison) (parts : Collected) : Prop
  | unknown : c = .eq → (Term.join parts.coefficients).constantSign = .ok none → SignChecked c parts
  | kept {s : ℤ} : 0 ≤ s → (Term.join parts.coefficients).constantSign = .ok (some s) →
      SignChecked c parts
  | turned {s : ℤ} : s < 0 →
      (Term.join parts.negate.coefficients).constantSign = .ok (some s) → SignChecked c parts

/-- Dividing by coefficients, once they are turned around if all of them were subtracted. -/
def divideTurned (x : Operand) (c c' : Comparison) (parts : Collected) : Except SolveError Relation :=
  match (Term.join parts.coefficients).constantSign with
  | .error cause => .error (.inexact cause)
  | .ok (some sign) =>
    if sign < 0 then (dividedBy x c'.mirrored parts.negate).mapError .inexact
    else (dividedBy x c' parts).mapError .inexact
  | .ok none =>
    if c = .eq then (dividedBy x c' parts).mapError .inexact
    else .error (.indeterminateSign x.text (Term.join parts.coefficients))

theorem divideOut_eq (x : Operand) (c : Comparison) (parts : Collected) : divideOut x c parts =
    if parts.allSubtracted then divideTurned x c c.mirrored parts.negate else divideTurned x c c parts := by
  unfold divideOut
  by_cases hall : parts.allSubtracted = true
  · rw [if_pos hall, if_pos hall]
    rfl
  · rw [if_neg hall, if_neg hall]
    rfl

/-- Parts that are subtracted are turned around; then the sign of the coefficients decides. -/
theorem exists_divideOut_eq (x : Operand) (c : Comparison) (parts : Collected) :
    ∃ c' parts', Turned c parts c' parts' ∧ divideOut x c parts = divideTurned x c c' parts' := by
  rw [divideOut_eq]
  split
  · exact ⟨_, _, .around, rfl⟩
  · exact ⟨_, _, .same, rfl⟩

theorem exists_of_divideOut {x : Operand} {c : Comparison} {parts : Collected} {s : Relation}
    (h : divideOut x c parts = .ok s) : ∃ c' parts', Turned c parts c' parts' ∧
      SignChecked c parts' ∧ dividedBy x c' parts' = .ok s := by
  obtain ⟨c', parts', hturned, heq⟩ := exists_divideOut_eq x c parts
  rw [heq, divideTurned] at h
  split at h
  · cases h
  · next sign hsign =>
    split at h
    · next hneg =>
      refine ⟨_, _, hturned.turn, .turned hneg ?_, eq_ok_of_mapError h⟩
      rw [Collected.negate_negate]
      exact hsign
    · next hneg => exact ⟨_, _, hturned, .kept (not_lt.1 hneg) hsign, eq_ok_of_mapError h⟩
  · next hsign =>
    split at h
    · next heq => exact ⟨_, _, hturned, .unknown heq hsign, eq_ok_of_mapError h⟩
    · cases h

/-- Dividing fails inexactly, or in an inequality for a sign that is not found. -/
theorem of_divideOut_eq_error {x : Operand} {c : Comparison} {parts : Collected} {cause : SolveError}
    (h : divideOut x c parts = .error cause) : (∃ inexact, cause = .inexact inexact) ∨
      ∃ c' parts', Turned c parts c' parts' ∧ c ≠ .eq ∧
        (Term.join parts'.coefficients).constantSign = .ok none ∧
        cause = .indeterminateSign x.text (Term.join parts'.coefficients) := by
  have herror : ∀ {result : Except ExactError Relation}, result.mapError SolveError.inexact = .error cause →
      ∃ inexact, cause = .inexact inexact := by
    intro result hresult
    rcases result with inexact | s
    · exact ⟨inexact, (Except.error.inj hresult).symm⟩
    · cases hresult
  obtain ⟨c', parts', hturned, heq⟩ := exists_divideOut_eq x c parts
  rw [heq, divideTurned] at h
  split at h
  · exact .inl ⟨_, (Except.error.inj h).symm⟩
  · split at h
    · exact .inl (herror h)
    · exact .inl (herror h)
  · next hsign =>
    split at h
    · exact .inl (herror h)
    · next hne => exact .inr ⟨c', parts', hturned, hne, hsign, (Except.error.inj h).symm⟩

theorem exists_of_dividedBy {x : Operand} {c : Comparison} {parts : Collected} {s : Relation}
    (h : dividedBy x c parts = .ok s) :
    ∃ rhs, Term.divide (Term.negateAll parts.remainder) (Term.join parts.coefficients) = .ok rhs ∧
      s = ⟨.leaf x, c, rhs⟩ := by
  obtain ⟨rhs, hrhs, hs⟩ := exists_of_bind_eq_ok h
  exact ⟨rhs, hrhs, (Except.ok.inj hs).symm⟩

section Values

variable {K : Type*} [Field K] [LinearOrder K] [IsStrictOrderedRing K] {ρ : Valuation K}
  {cs : List Constant} (hρ : ρ.IsReal cs) {x : Operand} {parts : Collected} {a b : K}

include hρ

/-- The quotient of remainder and coefficients, if a rational coefficient is positive. -/
theorem value?_of_dividedBy {c : Comparison} {s : Relation} (h : dividedBy x c parts = .ok s)
    (hcs : parts.ConstantsIn cs) (hv : parts.HasValues ρ a b) (ha : a ≠ 0)
    (hpos : ∀ q, (Term.join parts.coefficients).constantValue = .ok (some q) → 0 < q) :
    s.lhs = .leaf x ∧ s.comparison = c ∧ s.rhs.value? ρ = some (-b / a) := by
  obtain ⟨rhs, hrhs, rfl⟩ := exists_of_dividedBy h
  exact ⟨rfl, rfl, Term.value?_divide hρ.respectsNumbers hcs.negate.remainder
    (Term.constants_join_subset hcs.coefficients) hrhs hv.negate.remainder hv.join ha hpos⟩

/-- Coefficients that are not zero are divided by either as a positive value, or in an equation and
not as a rational number. -/
theorem SignChecked.cases {c : Comparison} (h : SignChecked c parts)
    (hcs : ∀ t ∈ parts.coefficients, t.body.constants ⊆ cs)
    (hsum : (Term.join parts.coefficients).value? ρ = some a) (ha : a ≠ 0) :
    0 < a ∨ c = .eq ∧ ∀ q, (Term.join parts.coefficients).constantValue ≠ .ok (some q) := by
  cases h with
  | unknown heq hnone =>
    refine .inr ⟨heq, fun q hq => ?_⟩
    rw [Expr.constantSign_of_constantValue hq] at hnone
    cases hnone
  | @kept s hs hsign =>
    rcases Expr.sign_of_constantSign hρ (Term.constants_join_subset hcs) hsign hsum with
      ⟨-, hpos⟩ | ⟨rfl, -⟩ | ⟨-, hzero⟩
    · exact .inl hpos
    · exact absurd hs (by decide)
    · exact absurd hzero ha
  | @turned s hs hsign =>
    have hneg : (Term.join parts.negate.coefficients).value? ρ = some (-a) := by
      rw [Term.value?_join] at hsum
      rw [Term.value?_join, Collected.negate, Term.sum?_negateAll, hsum]
      rfl
    have hcs' := Term.constants_join_subset (Collected.constants_negateAll_subset hcs)
    rcases Expr.sign_of_constantSign hρ hcs' hsign hneg with ⟨rfl, -⟩ | ⟨-, hneg⟩ | ⟨rfl, -⟩
    · exact absurd hs (by decide)
    · exact .inl (neg_lt_zero.1 hneg)
    · exact absurd hs (by decide)

/-- **The isolated relation says of the variable what the collected one says.** -/
theorem divideOut_sound {c : Comparison} {s : Relation} (h : divideOut x c parts = .ok s)
    (hx : x.isVariable = true) (hcs : parts.ConstantsIn cs) (hv : parts.HasValues ρ a b) (ha : a ≠ 0) :
    s.DefinedAt ρ ∧ (s.HoldsAt ρ ↔ c.Holds (ρ.unknown x.text * a + b) 0) := by
  obtain ⟨c', parts', hturned, hsign, hdivided⟩ := exists_of_divideOut h
  obtain ⟨a', b', hv', hzero, hholds⟩ := hturned.hasValues hv (ρ.unknown x.text)
  have hcs' := hturned.constantsIn hcs
  have ha' : a' ≠ 0 := fun h => ha (hzero.1 h)
  have hcases := hsign.cases hρ hcs'.coefficients hv'.join ha'
  have hpos : ∀ q, (Term.join parts'.coefficients).constantValue = .ok (some q) → 0 < q := by
    intro q hq
    rcases hcases with hpos | ⟨-, hnone⟩
    · rw [hρ.respectsNumbers (Term.constants_join_subset hcs'.coefficients) hq hv'.join] at hpos
      exact_mod_cast hpos
    · exact absurd hq (hnone q)
  obtain ⟨hlhs, hcomp, hrhs⟩ := value?_of_dividedBy hρ hdivided hcs' hv' ha' hpos
  have hleft : s.lhs.value? ρ = some (ρ.unknown x.text) := by
    rw [hlhs, Expr.value?_leaf_of_isVariable hx]
  refine ⟨definedAt_of_value? hleft hrhs, ?_⟩
  have hdiv : c'.Holds (ρ.unknown x.text) (-b' / a') ↔ c'.Holds (ρ.unknown x.text * a' + b') 0 := by
    rcases hcases with hpos | ⟨heq, -⟩
    · exact Comparison.holds_div_iff c' hpos
    · rw [hturned.eq_iff.2 heq]
      exact Comparison.eq_holds_div_iff ha'
  rw [holdsAt_iff hleft hrhs, hcomp, ← hholds, ← hdiv]

omit hρ in
open Classical in
/-- Coefficients that are found not to cancel are not zero formally. -/
theorem formal_ne_zero_of_cancels {a : FormalField} (hcancels : cancels parts = .ok false)
    (ha : (Term.join parts.coefficients).value? AtomValues.formal.valuation = some a) : a ≠ 0 := by
  rintro rfl
  unfold cancels at hcancels
  split at hcancels
  · cases hcancels
  · obtain ⟨found, hfound, hiff⟩ := Expr.exists_isZero_iff (Expr.isReadable_of_isZero hcancels) ha
    rw [hfound, hiff.2 rfl] at hcancels
    cases hcancels

/-- **An inequality is never divided by zero**: coefficients of sign zero are found to cancel. -/
theorem coefficient_ne_zero {c : Comparison} {s : Relation} (h : divideOut x c parts = .ok s)
    (hc : c ≠ .eq) (hcancels : cancels parts = .ok false) (hcs : parts.ConstantsIn cs)
    (hv : parts.HasValues ρ a b) : a ≠ 0 := by
  classical
  rintro rfl
  obtain ⟨c', parts', hturned, hsign, -⟩ := exists_of_divideOut h
  obtain ⟨a', b', hv', hzero, -⟩ := hturned.hasValues hv (ρ.unknown x.text)
  obtain rfl : a' = 0 := hzero.2 rfl
  have hcs' := hturned.constantsIn hcs
  have hjoin := Term.constants_join_subset hcs'.coefficients
  -- the sign that is found can only be zero
  have hsign0 : (Term.join parts'.coefficients).constantSign = .ok (some 0) := by
    cases hsign with
    | unknown heq _ => exact absurd heq hc
    | kept hs hsign =>
      rcases Expr.sign_of_constantSign hρ hjoin hsign hv'.join with ⟨-, hpos⟩ | ⟨-, hneg⟩ | ⟨rfl, -⟩
      · exact absurd hpos (lt_irrefl 0)
      · exact absurd hneg (lt_irrefl 0)
      · exact hsign
    | @turned s hs hsign =>
      have hjoin' := Term.constants_join_subset hcs'.negate.coefficients
      rcases Expr.sign_of_constantSign hρ hjoin' hsign hv'.negate.join with ⟨rfl, -⟩ | ⟨-, hneg⟩ | ⟨rfl, -⟩
      · exact absurd hs (by decide)
      · exact absurd hneg (by simp)
      · exact absurd hs (by decide)
  -- formally the coefficients are zero, too, and that the zero test finds
  obtain ⟨y, hy, -⟩ := Expr.exists_real_value? hρ (Expr.isConstant_of_constantSign hsign0) hjoin hv'.join
  rw [← AtomValues.valuation_standard] at hy
  obtain ⟨z, hz⟩ := Expr.isSome_formal_of_value? hy
  obtain rfl := Expr.formal_eq_zero_of_constantSign hsign0 hz
  exact formal_ne_zero_of_cancels hcancels (hturned.value?_join_eq_zero hz) rfl

end Values

end Relation

/-! ### Stages -/

namespace Relation

/-- The constants of both sides. -/
def constants (r : Relation) : List Constant := r.lhs.constants ++ r.rhs.constants

/-- What can be reached on the way to isolating a variable. -/
inductive Reached (r : Relation) (x : Operand) : Stage → Prop
  | expand : Reached r x ⟨.expand, r.expand⟩
  | collect : Reached r x ⟨.collect, toZero r.difference r.comparison⟩
  | factor {parts : Collected} : r.difference.collect x.text = .ok parts → cancels parts = .ok false →
      Reached r x ⟨.factor, toZero (Term.factored x parts) r.comparison⟩
  | isolate {parts : Collected} {s : Relation} : r.difference.collect x.text = .ok parts →
      cancels parts = .ok false → divideOut x r.comparison parts = .ok s → Reached r x ⟨.isolate, s⟩

variable {r : Relation} {name : String}

theorem exists_operand (h : name ∈ r.variables) :
    ∃ x, Operand.ofText? name = some x ∧ x.isVariable = true ∧ x.text = name := by
  obtain ⟨x, hx, rfl⟩ : ∃ x : Operand, x.isVariable = true ∧ x.text = name := by
    rcases List.mem_append.1 h with h | h
    · obtain ⟨x, -, hx, hname⟩ := Expr.mem_variables_iff.1 h
      exact ⟨x, hx, hname⟩
    · obtain ⟨x, -, hx, hname⟩ := Expr.mem_variables_iff.1 h
      exact ⟨x, hx, hname⟩
  exact ⟨x, x.ofText?_text, hx, rfl⟩

theorem isolation_of_not_mem (h : name ∉ r.variables) :
    r.isolation name = ⟨[], .error (.unknownVariable name r)⟩ := by
  unfold isolation
  split
  · rfl
  · rw [if_neg h]

theorem reached_of_mem_stages {stage : Stage} (h : stage ∈ (r.isolation name).stages) :
    ∃ x, x.isVariable = true ∧ x.text = name ∧ Reached r x stage := by
  by_cases hname : name ∈ r.variables
  · obtain ⟨x, hof, hx, rfl⟩ := exists_operand hname
    refine ⟨x, hx, rfl, ?_⟩
    have hreached : ∀ stage ∈ [(⟨.expand, r.expand⟩ : Stage),
        ⟨.collect, toZero r.difference r.comparison⟩], Reached r x stage := by
      intro stage h
      simp only [List.mem_cons, List.not_mem_nil, or_false] at h
      rcases h with rfl | rfl
      · exact .expand
      · exact .collect
    simp only [isolation, hof, if_pos hname] at h
    split at h
    · exact hreached stage h
    · next parts hparts =>
      unfold isolationOf at h
      split at h
      · exact hreached stage h
      · exact hreached stage h
      · next hcancels =>
        simp only at h
        split at h
        · rcases List.mem_append.1 h with h | h
          · exact hreached stage h
          · rw [List.mem_singleton.1 h]
            exact .factor hparts hcancels
        · next s hs =>
          rcases List.mem_append.1 h with h | h
          · exact hreached stage h
          · simp only [List.mem_cons, List.not_mem_nil, or_false] at h
            rcases h with rfl | rfl
            · exact .factor hparts hcancels
            · exact .isolate hparts hcancels hs
  · rw [isolation_of_not_mem hname] at h
    cases h

/-- The answer is the relation of the last stage. -/
theorem isolate_mem_of_solve {s : Relation} (h : r.solve name = .ok s) :
    ⟨.isolate, s⟩ ∈ (r.isolation name).stages := by
  unfold solve at h
  by_cases hname : name ∈ r.variables
  · obtain ⟨x, hof, hx, rfl⟩ := exists_operand hname
    simp only [isolation, hof, if_pos hname] at h ⊢
    split at h
    · cases h
    · rw [isolationOf] at h ⊢
      split at h
      · cases h
      · cases h
      · next hcancels =>
        simp only at h
        split at h
        · cases h
        · next s' hs =>
          obtain rfl := Except.ok.inj h
          simp
  · rw [isolation_of_not_mem hname] at h
    cases h

/-! ### Values of stages -/

/-- The terms of the difference are those of the left side and, turned around, those of the right. -/
theorem terms_difference (r : Relation) : r.difference.terms .plus =
    r.lhs.expand.expand.terms .plus ++ Term.negateAll (r.rhs.expand.expand.terms .plus) := by
  rw [← Expr.terms_negate]
  rfl

theorem mem_leaves_difference {y : Operand} :
    y ∈ r.difference.leaves ↔ y ∈ r.lhs.leaves ∨ y ∈ r.rhs.leaves := by
  rw [difference, Expr.mem_leaves_expand, Expr.mem_leaves_node, Expr.mem_leaves_expand,
    Expr.mem_leaves_expand]

section Values

variable {K : Type*} [Field K] [DecidableEq K] (ρ : Valuation K)

theorem value?_difference : r.difference.value? ρ =
    Operator.sub.onValues? (r.lhs.value? ρ) (r.rhs.value? ρ) := by
  rw [difference, Expr.value?_expand, Expr.value?_node, Expr.value?_expand, Expr.value?_expand]

/-- The variable times the coefficients, and the remainder, make the difference of the sides. -/
theorem hasValues_of_collect {x : Operand} {parts : Collected} {l m : K} (hx : x.isVariable = true)
    (h : r.difference.collect x.text = .ok parts) (hl : r.lhs.value? ρ = some l)
    (hm : r.rhs.value? ρ = some m) :
    ∃ a b, parts.HasValues ρ a b ∧ ρ.unknown x.text * a + b = l - m := by
  have hvalue : (Expr.leaf x).value? ρ = some (ρ.unknown x.text) := Expr.value?_leaf_of_isVariable hx
  have hsum := Expr.value?_of_collect hvalue h
  rw [value?_difference, hl, hm, Operator.sub_onValues?] at hsum
  obtain ⟨y, b, hy, hb⟩ := Operator.exists_of_onValues? hsum.symm
  obtain ⟨v, a, hv, ha⟩ := Operator.exists_of_onValues? hy
  refine ⟨a, b, ⟨ha, hb⟩, ?_⟩
  rw [ha, hb] at hsum
  simpa using hsum.symm

end Values

/-- The parts are made of the operands of both sides, and of ones. -/
theorem mem_leaves_of_collect {parts : Collected} (h : r.difference.collect name = .ok parts) (y : Operand) :
    (y ∈ Term.leavesOf parts.coefficients → y ∈ Expr.one.leaves ∨ y ∈ r.lhs.leaves ++ r.rhs.leaves) ∧
      (y ∈ Term.leavesOf parts.remainder → y ∈ r.lhs.leaves ++ r.rhs.leaves) := by
  have hcollects := Term.collects_of_collect h
  have hsides : y ∈ Term.leavesOf (r.difference.terms .plus) → y ∈ r.lhs.leaves ++ r.rhs.leaves := by
    intro hy
    rw [Term.leavesOf_terms] at hy
    exact List.mem_append.2 (mem_leaves_difference.1 hy)
  exact ⟨fun hy => (hcollects.mem_leaves_coefficients hy).imp_right hsides,
    fun hy => hsides (hcollects.leaves_remainder hy)⟩

theorem constantsIn_of_collect {parts : Collected} (h : r.difference.collect name = .ok parts) :
    parts.ConstantsIn r.constants := by
  have hleaf : ∀ {y : Operand} {c : Constant}, y ∈ r.lhs.leaves ++ r.rhs.leaves → y.constant? = some c →
      c ∈ r.constants := by
    intro y c hy hc
    rw [constants, Expr.constants, Expr.constants, ← List.filterMap_append]
    exact List.mem_filterMap.2 ⟨y, hy, hc⟩
  constructor
  · intro t ht c hc
    obtain ⟨y, hy, hyc⟩ := List.mem_filterMap.1 hc
    rcases (mem_leaves_of_collect h y).1 (Term.mem_leavesOf.2 ⟨t, ht, hy⟩) with hone | hy
    · have : c ∈ Expr.one.constants := List.mem_filterMap.2 ⟨y, hone, hyc⟩
      rw [Expr.constants_one] at this
      cases this
    · exact hleaf hy hyc
  · intro t ht c hc
    obtain ⟨y, hy, hyc⟩ := List.mem_filterMap.1 hc
    exact hleaf ((mem_leaves_of_collect h y).2 (Term.mem_leavesOf.2 ⟨t, ht, hy⟩)) hyc

/-! ### Soundness -/

/-- The sum of the coefficients of a variable is not zero. -/
def CoefficientsNeZero {K : Type*} [Field K] [DecidableEq K] (ρ : Valuation K) (r : Relation)
    (name : String) : Prop :=
  ∀ parts, r.difference.collect name = .ok parts → Term.sum? ρ parts.coefficients ≠ some 0

variable {K : Type*} [Field K] [LinearOrder K] {ρ : Valuation K}

theorem holdsAt_toZero_iff {e : Expr} {c : Comparison} {z : K} (h : e.value? ρ = some z) :
    (toZero e c).DefinedAt ρ ∧ ((toZero e c).HoldsAt ρ ↔ c.Holds z 0) := by
  have hzero : (toZero e c).rhs.value? ρ = some 0 := Expr.value?_zero ρ
  exact ⟨definedAt_of_value? h hzero, holdsAt_iff h hzero⟩

variable [IsStrictOrderedRing K]

/-- Each stage is equivalent to the relation it was reached from. -/
theorem Reached.sound {x : Operand} {stage : Stage} (h : Reached r x stage) (hx : x.isVariable = true)
    (hρ : ρ.IsReal r.constants) (hdef : r.DefinedAt ρ)
    (hne : stage.name = .isolate → r.comparison = .eq → r.CoefficientsNeZero ρ x.text) :
    stage.relation.DefinedAt ρ ∧ (stage.relation.HoldsAt ρ ↔ r.HoldsAt ρ) := by
  obtain ⟨l, hl⟩ := Option.isSome_iff_exists.1 hdef.1
  obtain ⟨m, hm⟩ := Option.isSome_iff_exists.1 hdef.2
  have hr : r.HoldsAt ρ ↔ r.comparison.Holds (l - m) 0 := by
    rw [holdsAt_iff hl hm, Comparison.holds_sub_zero_iff]
  cases h with
  | expand =>
    have hlhs : r.expand.lhs.value? ρ = r.lhs.value? ρ := Expr.value?_expand ρ r.lhs
    have hrhs : r.expand.rhs.value? ρ = r.rhs.value? ρ := Expr.value?_expand ρ r.rhs
    rw [DefinedAt, HoldsAt, hlhs, hrhs]
    exact ⟨hdef, Iff.rfl⟩
  | collect =>
    rw [hr]
    exact holdsAt_toZero_iff (by rw [value?_difference, hl, hm, Operator.sub_onValues?])
  | factor hparts _ =>
    obtain ⟨a, b, hv, hab⟩ := hasValues_of_collect ρ hx hparts hl hm
    rw [hr, ← hab]
    refine holdsAt_toZero_iff ?_
    rw [Term.value?_factored (Expr.value?_leaf_of_isVariable hx), hv.coefficients, hv.remainder, Operator.mul_onValues?,
      Operator.add_onValues?]
  | @isolate parts s hparts hcancels hs =>
    obtain ⟨a, b, hv, hab⟩ := hasValues_of_collect ρ hx hparts hl hm
    have hcs := constantsIn_of_collect hparts
    have ha : a ≠ 0 := by
      by_cases hc : r.comparison = .eq
      · exact fun h0 => hne rfl hc parts hparts (h0 ▸ hv.coefficients)
      · exact coefficient_ne_zero hρ hs hc hcancels hcs hv
    rw [hr, ← hab]
    exact divideOut_sound hρ hs hx hcs hv ha

/-- **Isolating a variable is sound.** Wherever both sides of a relation have values, every stage has
and says the same, and so does the answer; in an equation the isolated variable asks for
coefficients that do not add up to zero. -/
theorem isolation_sound (r : Relation) (name : String) {K : Type*} [Field K] [LinearOrder K]
    [IsStrictOrderedRing K] (ρ : Valuation K) (hρ : ρ.IsReal r.constants) (hdef : r.DefinedAt ρ) :
    (∀ stage ∈ (r.isolation name).stages,
      (stage.name = .isolate → r.comparison = .eq → r.CoefficientsNeZero ρ name) →
        stage.relation.DefinedAt ρ ∧ (stage.relation.HoldsAt ρ ↔ r.HoldsAt ρ)) ∧
    ∀ s, r.solve name = .ok s → (r.comparison = .eq → r.CoefficientsNeZero ρ name) →
      s.DefinedAt ρ ∧ (s.HoldsAt ρ ↔ r.HoldsAt ρ) := by
  have hstage : ∀ stage ∈ (r.isolation name).stages,
      (stage.name = .isolate → r.comparison = .eq → r.CoefficientsNeZero ρ name) →
        stage.relation.DefinedAt ρ ∧ (stage.relation.HoldsAt ρ ↔ r.HoldsAt ρ) := by
    intro stage h hne
    obtain ⟨x, hx, rfl, hreached⟩ := reached_of_mem_stages h
    exact hreached.sound hx hρ hdef hne
  exact ⟨hstage, fun s hs hne => hstage _ (isolate_mem_of_solve hs) fun _ => hne⟩

/-- `3 - 2 * x - x < y`: both coefficients are subtracted. -/
def subtracted : Relation :=
  let x : Expr := .leaf ⟨"x", by decide⟩
  ⟨.node (.node (.leaf ⟨"3", by decide⟩) .sub (.node (.leaf ⟨"2", by decide⟩) .mul x)) .sub x, .lt,
    .leaf ⟨"y", by decide⟩⟩

theorem solve_subtracted : ∃ s, subtracted.solve "x" = .ok s ∧ s.comparison = .gt := by
  have h : (subtracted.solve "x").toOption.map Relation.comparison = some .gt := by
    decide +kernel
  obtain ⟨s, hsolve, hs⟩ := Option.map_eq_some_iff.1 h
  rcases hok : subtracted.solve "x" with cause | s'
  · rw [hok] at hsolve
    cases hsolve
  · rw [hok] at hsolve
    obtain rfl : s' = s := Option.some.inj hsolve
    exact ⟨_, rfl, hs⟩

theorem isolation_sound_subtracted : ∃ s, subtracted.solve "x" = .ok s ∧ s.comparison = .gt ∧
    (s.HoldsAt ⟨fun _ => 0, fun _ => (1 : ℚ)⟩ ↔ subtracted.HoldsAt ⟨fun _ => 0, fun _ => (1 : ℚ)⟩) := by
  obtain ⟨s, hs, hcomp⟩ := solve_subtracted
  have hcs : subtracted.constants = [] := by decide +kernel
  have hdef : subtracted.DefinedAt ⟨fun _ => 0, fun _ => (1 : ℚ)⟩ := by constructor <;> decide +kernel
  have hsound := isolation_sound subtracted "x" _ (hcs ▸ Valuation.isReal_nil _) hdef
  exact ⟨s, hs, hcomp, (hsound.2 s hs fun h => by cases h).2⟩

end Relation

end LinearRelations
