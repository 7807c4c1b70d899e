import LinearRelations.Proofs.Collect

/-!
# Collecting as a linear decomposition

Collecting a variable takes any sum apart, whether it has been expanded or not: the terms without the
variable are the remainder, and each of the others makes a coefficient. The sum is the variable times
the sum of the coefficients, and the remainder; and nothing is lost of where it has a value.

* `Term.IsCoefficientOf`: a term is a variable times its coefficient;
* `Term.Collects.remainder_eq`: which terms are the remainder;
* `Term.Collects.forall₂_coefficients`: which coefficients the others make;
* `Collected.Decomposes`: what the parts say of the sum;
* `Expr.collect_decomposes`: what is collected decomposes the sum, and which terms are in the way.
-/

namespace LinearRelations

namespace Term

/-- A coefficient stands under the sign of its term, and the term has the value of the variable times
the coefficient, where it has one at all. -/
structure IsCoefficientOf.{u} (name : String) (c t : Term) : Prop where
  sign_eq : c.sign = t.sign
  value?_eq : ∀ {K : Type u} [Field K] [DecidableEq K] (ρ : Valuation K),
    t.body.value? ρ = Operator.mul.onValues? (some (ρ.unknown name)) (c.body.value? ρ)

namespace Collects

variable {x : Operand} {ts : List Term} {parts : Collected} (hx : x.isVariable = true)

include hx

/-- The remainder is made of the terms without the variable, in their order. -/
theorem remainder_eq (h : Collects x.text ts parts) :
    parts.remainder = ts.filter fun t => x.text ∉ t.body.variables := by
  induction h with
  | nil => rfl
  | @linear t ts parts c hsplit _ ih =>
    have hmem := hsplit.mem_variables_of_one hx
    rw [List.filter_cons_of_neg (by simpa using hmem)]
    exact ih
  | @free t ts parts c hsplit _ ih =>
    have hnone : x.text ∉ t.body.variables := (hsplit.not_mem_iff hx).2 rfl
    rw [List.filter_cons_of_pos (by simpa using hnone)]
    exact congrArg (t :: ·) ih

/-- Each of the other terms makes a coefficient, in their order. -/
theorem forall₂_coefficients (h : Collects x.text ts parts) :
    List.Forall₂ (IsCoefficientOf x.text) parts.coefficients
      (ts.filter fun t => x.text ∈ t.body.variables) := by
  induction h with
  | nil => exact .nil
  | @linear t ts parts c hsplit _ ih =>
    have hmem := hsplit.mem_variables_of_one hx
    rw [List.filter_cons_of_pos (by simpa using hmem)]
    refine .cons ⟨rfl, fun ρ => ?_⟩ ih
    have hvalue := hsplit.value? (Expr.value?_leaf_of_isVariable (ρ := ρ) hx)
    rwa [pow_one] at hvalue
  | @free t ts parts c hsplit _ ih =>
    have hnone : x.text ∉ t.body.variables := (hsplit.not_mem_iff hx).2 rfl
    rw [List.filter_cons_of_neg (by simpa using hnone)]
    exact ih

end Collects

end Term

/-- What collected parts say of the sum in which a variable was collected. -/
structure Collected.Decomposes.{u} (parts : Collected) (name : String) (e : Expr) : Prop where
  not_mem : ∀ t ∈ parts.coefficients ++ parts.remainder, name ∉ t.body.variables
  remainder_eq : parts.remainder = (e.terms .plus).filter fun t => name ∉ t.body.variables
  coefficients : List.Forall₂ (Term.IsCoefficientOf.{u} name) parts.coefficients
    ((e.terms .plus).filter fun t => name ∈ t.body.variables)
  isSome_iff : ∀ {K : Type u} [Field K] [DecidableEq K] (ρ : Valuation K),
    (e.value? ρ).isSome ↔ ∀ t ∈ parts.coefficients ++ parts.remainder, (t.body.value? ρ).isSome
  value?_eq_some_iff : ∀ {K : Type u} [Field K] [DecidableEq K] (ρ : Valuation K) (z : K),
    e.value? ρ = some z ↔ ∃ c r, Term.sum? ρ parts.coefficients = some c ∧
      Term.sum? ρ parts.remainder = some r ∧ z = ρ.unknown name * c + r

namespace Expr

variable {x : Operand} (hx : x.isVariable = true) {e : Expr} {parts : Collected}

include hx

theorem decomposes_of_collect (h : e.collect x.text = .ok parts) : parts.Decomposes x.text e := by
  have hcollects := Term.collects_of_collect h
  obtain ⟨hcoefficients, hremainder⟩ := hcollects.not_mem_variables hx
  have hvalue : ∀ {K : Type _} [Field K] [DecidableEq K] (ρ : Valuation K), e.value? ρ =
      Operator.add.onValues? (Operator.mul.onValues? (some (ρ.unknown x.text))
        (Term.sum? ρ parts.coefficients)) (Term.sum? ρ parts.remainder) :=
    fun ρ => value?_of_collect (value?_leaf_of_isVariable hx) h
  refine ⟨?_, hcollects.remainder_eq hx, hcollects.forall₂_coefficients hx, fun ρ => ?_, fun ρ z => ?_⟩
  · exact List.forall_mem_append.2 ⟨hcoefficients, hremainder⟩
  · rw [List.forall_mem_append, ← Term.sum?_isSome_iff, ← Term.sum?_isSome_iff, hvalue]
    rcases Term.sum? ρ parts.coefficients with _ | c <;> rcases Term.sum? ρ parts.remainder with _ | r <;> simp
  · rw [hvalue]
    rcases Term.sum? ρ parts.coefficients with _ | c <;> rcases Term.sum? ρ parts.remainder with _ | r <;>
      simp [eq_comm]

/-- A variable is collected unless some term has it in a divisor or in a sum or contains it twice. -/
theorem exists_collect_eq_error_iff : (∃ cause, e.collect x.text = .error cause) ↔
    ∃ t ∈ e.terms .plus, t.body.Divides x.text ∨ t.body.StandsInSum x.text ∨ 2 ≤ t.body.occurrences x.text := by
  have hok : (e.collect x.text).isOk = true ↔ ∀ t ∈ e.terms .plus,
      ¬ (t.body.Divides x.text ∨ t.body.StandsInSum x.text ∨ 2 ≤ t.body.occurrences x.text) := by
    rw [collect, Term.isOk_collect_iff_forall_split hx]
    refine forall₂_congr fun t _ => ?_
    rw [isOk_splitVariable_iff_of_any, ← not_or, or_assoc]
  rw [← not_iff_not]
  simp only [not_exists, not_and]
  rw [← hok]
  rcases e.collect x.text with cause | parts
  · simp [Except.isOk, Except.toBool]
  · simp [Except.isOk, Except.toBool]

end Expr

/-- **Collecting a variable is a linear decomposition** of any expression, expanded or not. What is
collected are coefficients and a remainder without the variable: the remainder is made of the signed
terms without the variable, and each of the other terms makes a coefficient under its sign. At any
values the expression is defined exactly if all the parts are, and then it is the variable times the
sum of the coefficients, and the sum of the remainder. Collecting is refused if and only if some
signed term has the variable in a divisor, has it in a sum inside of a product or quotient, or
contains it at least twice. -/
theorem Expr.collect_decomposes (e : Expr) {name : String} (hname : Text.isName name = true)
    (hconstant : isConstantName name = false) :
    (∀ parts, e.collect name = .ok parts → parts.Decomposes name e) ∧
      ((∃ cause, e.collect name = .error cause) ↔ ∃ t ∈ e.terms .plus,
        t.body.Divides name ∨ t.body.StandsInSum name ∨ 2 ≤ t.body.occurrences name) := by
  obtain ⟨x, rfl, hx⟩ := Operand.exists_isVariable hname hconstant
  exact ⟨fun parts => decomposes_of_collect hx, exists_collect_eq_error_iff hx⟩

/-- `(dx - dy) * rate / time - (rate - 18 / time)`, in which a sum is a factor. -/
def Expr.sumAsFactor : Expr :=
  .node
    (.node (.node (.node (.leaf ⟨"dx", by decide⟩) .sub (.leaf ⟨"dy", by decide⟩)) .mul
      (.leaf ⟨"rate", by decide⟩)) .div (.leaf ⟨"time", by decide⟩))
    .sub (.node (.leaf ⟨"rate", by decide⟩) .sub
      (.node (.leaf ⟨"18", by decide⟩) .div (.leaf ⟨"time", by decide⟩)))

/-- What is collected of `rate` in it: `(dx - dy) / time` and a subtracted `1`, beside `18 / time`. -/
def Expr.sumAsFactorParts : Collected :=
  ⟨[⟨.plus, .node (.node (.leaf ⟨"dx", by decide⟩) .sub (.leaf ⟨"dy", by decide⟩)) .div
      (.leaf ⟨"time", by decide⟩)⟩, ⟨.minus, .one⟩],
    [⟨.plus, .node (.leaf ⟨"18", by decide⟩) .div (.leaf ⟨"time", by decide⟩)⟩]⟩

/-- There `rate` can be collected, but not `dx`, which stands in the factor. -/
theorem Expr.collect_decomposes_sumAsFactor : sumAsFactor.collect "rate" = .ok sumAsFactorParts ∧
    sumAsFactorParts.Decomposes.{0} "rate" sumAsFactor ∧
    sumAsFactor.value? ⟨fun _ => 0, fun x => if x = "dy" then 1 else (2 : ℚ)⟩ = some 8 ∧
    ∃ cause, sumAsFactor.collect "dx" = .error cause := by
  have hcollect : sumAsFactor.collect "rate" = .ok sumAsFactorParts := by decide +kernel
  have hrate : Text.isName "rate" = true := by decide +kernel
  have hdx : Text.isName "dx" = true := by decide +kernel
  obtain ⟨hparts, -⟩ := collect_decomposes.{0} sumAsFactor hrate (by decide +kernel)
  obtain ⟨-, hrefused⟩ := collect_decomposes.{0} sumAsFactor hdx (by decide +kernel)
  refine ⟨hcollect, hparts _ hcollect, ?_, hrefused.2 ?_⟩
  · exact ((hparts _ hcollect).value?_eq_some_iff _ _).2
      ⟨-1 / 2, 9, by decide +kernel, by decide +kernel, by decide +kernel⟩
  · exact ⟨_, List.mem_cons_self, .inr (.inl ⟨_, List.mem_cons_self, by decide +kernel⟩)⟩

end LinearRelations
