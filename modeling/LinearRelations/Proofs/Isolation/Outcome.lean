import LinearRelations.Proofs.Exact.Generic
import LinearRelations.Proofs.Isolation.Soundness
import LinearRelations.Proofs.Readable
import LinearRelations.Proofs.Syntax.Relation

/-!
# How isolating a variable ends

For a relation that was read from a text and divides by nothing that is identically zero there are
five ways in which isolating a variable can end, and which of them it is can be told from the
relation.

* `Relation.Outcome`: the five ways;
* `Relation.Meets`: the condition for each of them;
* `Relation.EndsAs`: the stages that are reached, and the answer;
* `Relation.divideOut_cases`, `Relation.divideOut_of_ne_zero`: only the sign of a coefficient can be in
  the way of dividing;
* `Relation.cancels_of_eq_zero`, `Relation.eq_zero_of_cancels`: the coefficients that are found to cancel;
* `Relation.isolation_outcome`: exactly one condition is met, and the end is the one it stands for.
-/

namespace LinearRelations.Relation

open Classical

/-! ### Ends and their conditions -/

/-- The ways in which isolating a variable can end. -/
inductive Outcome where
  /-- The variable is not in the relation. -/
  | absent
  /-- Some term is not linear in the variable. -/
  | nonlinear
  /-- The coefficients of the variable cancel. -/
  | cancelled
  /-- An inequality would be divided by a number of unknown sign. -/
  | indeterminate
  | isolated

/-- Whether the variable divides a term of the difference of the sides, or is a factor of it more than
once. -/
def HasNonlinearTerm (r : Relation) (name : String) : Prop :=
  ∃ t ∈ r.difference.terms .plus, t.IsNonlinear name

/-- Whether the coefficients of the variable add up to zero as a rational function. -/
def Cancels (r : Relation) (name : String) : Prop :=
  ∃ parts, r.difference.collect name = .ok parts ∧ Term.sum? .generic parts.coefficients = some 0

/-- Whether a coefficient of the variable contains a variable. -/
def HasVariableCoefficient (r : Relation) (name : String) : Prop :=
  ∃ parts, r.difference.collect name = .ok parts ∧ ∃ t ∈ parts.coefficients, t.body.variables ≠ []

/-- The condition for each outcome. -/
def Meets (r : Relation) (name : String) : Outcome → Prop
  | .absent => name ∉ r.variables
  | .nonlinear => name ∈ r.variables ∧ r.HasNonlinearTerm name
  | .cancelled => name ∈ r.variables ∧ ¬ r.HasNonlinearTerm name ∧ r.Cancels name
  | .indeterminate => name ∈ r.variables ∧ ¬ r.HasNonlinearTerm name ∧ ¬ r.Cancels name ∧
      r.comparison ≠ .eq ∧ r.HasVariableCoefficient name
  | .isolated => name ∈ r.variables ∧ ¬ r.HasNonlinearTerm name ∧ ¬ r.Cancels name ∧
      ¬ (r.comparison ≠ .eq ∧ r.HasVariableCoefficient name)

/-- Only one condition is met. -/
theorem Meets.unique {r : Relation} {name : String} {o o' : Outcome} (h : r.Meets name o)
    (h' : r.Meets name o') : o = o' := by
  cases o <;> cases o' <;> simp only [Meets] at h h' <;> tauto

/-- The stages in front of collecting the variable. -/
def begun (r : Relation) : List Stage :=
  [⟨.expand, r.expand⟩, ⟨.collect, toZero r.difference r.comparison⟩]

/-- The stages that are reached with each outcome, and the answer. -/
def EndsAs (r : Relation) (name : String) : Outcome → Prop
  | .absent => r.isolation name = ⟨[], .error (.unknownVariable name r)⟩
  | .nonlinear => ∃ term, r.isolation name = ⟨r.begun, .error (.nonlinear ⟨name, term⟩)⟩
  | .cancelled => r.isolation name = ⟨r.begun, .error (.unknownVariable name r)⟩
  | .indeterminate => ∃ factored coefficient, r.isolation name =
      ⟨r.begun ++ [⟨.factor, factored⟩], .error (.indeterminateSign name coefficient)⟩
  | .isolated => ∃ factored isolated, r.isolation name =
      ⟨r.begun ++ [⟨.factor, factored⟩, ⟨.isolate, isolated⟩], .ok isolated⟩

variable {r : Relation} {name : String}

/-- The outcome that stages and an answer show. -/
def shown (isolation : Isolation) : Outcome :=
  match isolation.answer, isolation.stages with
  | .ok _, _ => .isolated
  | .error (.indeterminateSign _ _), _ => .indeterminate
  | .error (.nonlinear _), _ => .nonlinear
  | .error _, [] => .absent
  | .error _, _ => .cancelled

theorem EndsAs.shown_eq {o : Outcome} (h : r.EndsAs name o) : shown (r.isolation name) = o := by
  cases o with
  | absent =>
    unfold EndsAs at h
    rw [h]
    rfl
  | nonlinear =>
    obtain ⟨_, h⟩ := h
    rw [h]
    rfl
  | cancelled =>
    unfold EndsAs at h
    rw [h]
    rfl
  | indeterminate =>
    obtain ⟨_, _, h⟩ := h
    rw [h]
    rfl
  | isolated =>
    obtain ⟨_, _, h⟩ := h
    rw [h]
    rfl

/-! ### Collected parts -/

/-- What holds of the operands of both sides, and of a one, holds of those of what is collected. -/
theorem forall_leaves_of_collect {P : Operand → Prop} {parts : Collected} (hone : ∀ y ∈ Expr.one.leaves, P y)
    (hl : ∀ y ∈ r.lhs.leaves, P y) (hr : ∀ y ∈ r.rhs.leaves, P y)
    (h : r.difference.collect name = .ok parts) :
    (∀ t ∈ parts.coefficients, ∀ y ∈ t.body.leaves, P y) ∧ ∀ t ∈ parts.remainder, ∀ y ∈ t.body.leaves, P y := by
  have hsides : ∀ y ∈ r.lhs.leaves ++ r.rhs.leaves, P y := by
    intro y hy
    rcases List.mem_append.1 hy with hy | hy
    · exact hl y hy
    · exact hr y hy
  constructor
  · intro t ht y hy
    rcases (mem_leaves_of_collect h y).1 (Term.mem_leavesOf.2 ⟨t, ht, hy⟩) with hy | hy
    · exact hone y hy
    · exact hsides y hy
  · intro t ht y hy
    exact hsides y ((mem_leaves_of_collect h y).2 (Term.mem_leavesOf.2 ⟨t, ht, hy⟩))

theorem isMeaningful_of_collect {parts : Collected} (hl : r.lhs.IsMeaningful) (hr : r.rhs.IsMeaningful)
    (h : r.difference.collect name = .ok parts) :
    (∀ t ∈ parts.coefficients, t.body.IsMeaningful) ∧ ∀ t ∈ parts.remainder, t.body.IsMeaningful :=
  forall_leaves_of_collect Expr.isReadable_one.isMeaningful hl hr h

/-- **A variable of the relation has coefficients**: expansion does not lose it. -/
theorem coefficients_ne_nil {parts : Collected} (hname : name ∈ r.variables)
    (h : r.difference.collect name = .ok parts) : parts.coefficients ≠ [] := by
  obtain ⟨x, -, hx, rfl⟩ := exists_operand hname
  rw [Ne, Expr.coefficients_eq_nil_iff_of_collect hx h, not_not, Expr.mem_variables_node,
    Expr.mem_variables_expand, Expr.mem_variables_expand]
  exact List.mem_append.1 hname

/-- A variable can be collected exactly when no term is nonlinear in it. -/
theorem isOk_collect_difference_iff (hname : name ∈ r.variables) :
    (r.difference.collect name).isOk = true ↔ ¬ r.HasNonlinearTerm name := by
  obtain ⟨x, -, hx, rfl⟩ := exists_operand hname
  exact Expr.isOk_collect_expand_iff hx

/-! ### Dividing out -/

/-- A sum is constant if its terms are. -/
theorem isConstant_join_iff {ts : List Term} :
    (Term.join ts).isConstant = true ↔ ∀ t ∈ ts, t.body.variables = [] := by
  rw [Expr.isConstant, (Term.variables_join_perm ts).isEmpty_eq, List.isEmpty_iff, List.flatMap_eq_nil_iff]

namespace Turned

variable {c c' : Comparison} {parts parts' : Collected}

theorem exists_hasValues {K : Type*} [Field K] [DecidableEq K] {ρ : Valuation K} {a b : K}
    (h : Turned c parts c' parts') (hv : parts.HasValues ρ a b) :
    ∃ a' b', parts'.HasValues ρ a' b' ∧ (a' = 0 ↔ a = 0) := by
  cases h with
  | same => exact ⟨a, b, hv, Iff.rfl⟩
  | around => exact ⟨-a, -b, hv.negate, neg_eq_zero⟩

/-- What holds of the bodies of all coefficients holds of those behind the turn. -/
theorem forall_coefficients {P : Expr → Prop} (h : Turned c parts c' parts')
    (hcoefficients : ∀ t ∈ parts.coefficients, P t.body) : ∀ t ∈ parts'.coefficients, P t.body := by
  cases h with
  | same => exact hcoefficients
  | around => exact Term.forall_mem_negateAll hcoefficients

/-- And so it is for the remainder. -/
theorem forall_remainder {P : Expr → Prop} (h : Turned c parts c' parts')
    (hremainder : ∀ t ∈ parts.remainder, P t.body) : ∀ t ∈ parts'.remainder, P t.body := by
  cases h with
  | same => exact hremainder
  | around => exact Term.forall_mem_negateAll hremainder

theorem variables_eq_nil_iff (h : Turned c parts c' parts') :
    (∀ t ∈ parts'.coefficients, t.body.variables = []) ↔ ∀ t ∈ parts.coefficients, t.body.variables = [] := by
  cases h with
  | same => rfl
  | around => simp [Collected.negate, Term.negateAll, Term.negate]

end Turned

/-- Whether dividing gives an answer, or is stopped by the size of a number. -/
def DividesWithin (result : Except SolveError Relation) : Prop :=
  (∃ s, result = .ok s) ∨ ∃ cause : ExactError, cause.IsLimit ∧ result = .error (.inexact cause)

theorem DividesWithin.exists_ok {result : Except SolveError Relation} (h : DividesWithin result)
    (hlimit : ∀ cause : ExactError, cause.IsLimit → result ≠ .error (.inexact cause)) : ∃ s, result = .ok s := by
  rcases h with hs | ⟨cause, hcause, herror⟩
  · exact hs
  · exact absurd herror (hlimit cause hcause)

theorem dividesWithin_dividedBy {x : Operand} {c : Comparison} {parts : Collected}
    (hcoefficients : ∀ t ∈ parts.coefficients, t.body.IsMeaningful)
    (hremainder : ∀ t ∈ parts.remainder, t.body.IsMeaningful) :
    DividesWithin ((dividedBy x c parts).mapError SolveError.inexact) := by
  have hjoin : (Term.join parts.coefficients).IsMeaningful :=
    Term.forall_leaves_join Expr.isReadable_zero.isMeaningful hcoefficients
  have hyields := Term.divide_yields (Term.forall_mem_negateAll hremainder) hjoin
  rw [dividedBy]
  rcases hdivide : Term.divide (Term.negateAll parts.remainder) (Term.join parts.coefficients) with cause | e
  · exact .inr ⟨cause, hyields.of_eq_error hdivide, rfl⟩
  · exact .inl ⟨_, rfl⟩

/-- Whether a sign is found for the sum of the coefficients. -/
def SignFound (parts : Collected) : Prop := ∃ s, (Term.join parts.coefficients).constantSign = .ok (some s)

theorem isReadable_join {ts : List Term} (h : ∀ t ∈ ts, t.body.IsReadable) : (Term.join ts).IsReadable :=
  Term.forall_leaves_join Expr.isReadable_zero h

/-- **Only a sign that is not found is in the way of dividing by coefficients that can be read**, and only in
an inequality, if it is not the size of a number. -/
theorem divideOut_cases (x : Operand) (c : Comparison) {parts : Collected}
    (hcoefficients : ∀ t ∈ parts.coefficients, t.body.IsReadable)
    (hremainder : ∀ t ∈ parts.remainder, t.body.IsMeaningful) :
    ∃ c' parts', Turned c parts c' parts' ∧
      ((c = .eq ∨ SignFound parts') ∧ DividesWithin (divideOut x c parts) ∨
        ¬ (c = .eq ∨ SignFound parts') ∧ ∃ e, divideOut x c parts = .error (.indeterminateSign x.text e)) := by
  obtain ⟨c', parts', hturned, heq⟩ := exists_divideOut_eq x c parts
  have hmeaning : ∀ t ∈ parts.coefficients, t.body.IsMeaningful := fun t ht => (hcoefficients t ht).isMeaningful
  have hkept := dividesWithin_dividedBy (x := x) (c := c') (hturned.forall_coefficients hmeaning)
    (hturned.forall_remainder hremainder)
  have hback := dividesWithin_dividedBy (x := x) (c := c'.mirrored) (hturned.turn.forall_coefficients hmeaning)
    (hturned.turn.forall_remainder hremainder)
  refine ⟨c', parts', hturned, ?_⟩
  rw [heq, divideTurned]
  obtain ⟨sign, hsign⟩ := (isReadable_join (hturned.forall_coefficients hcoefficients)).exists_constantSign
  rw [hsign]
  rcases sign with _ | sign
  · have hnone : ¬ SignFound parts' := by
      rintro ⟨s, hs⟩
      rw [hsign] at hs
      cases hs
    by_cases hc : c = .eq
    · simp only [if_pos hc]
      exact .inl ⟨.inl hc, hkept⟩
    · simp only [if_neg hc]
      exact .inr ⟨fun h => h.elim hc hnone, _, rfl⟩
  · refine .inl ⟨.inr ⟨sign, hsign⟩, ?_⟩
    simp only
    split
    · exact hback
    · exact hkept

/-- Coefficients that are not zero have a sign that is found, if they are numbers. -/
theorem signFound_iff {parts : Collected} {a b : GenericField}
    (hread : ∀ t ∈ parts.coefficients, t.body.IsReadable) (hv : parts.HasValues .generic a b) (ha : a ≠ 0) :
    SignFound parts ↔ ∀ t ∈ parts.coefficients, t.body.variables = [] := by
  rw [← isConstant_join_iff]
  exact ⟨fun ⟨_, hs⟩ => Expr.isConstant_of_constantSign hs,
    fun hconst => Expr.exists_constantSign (isReadable_join hread) hconst hv.join ha⟩

/-- **Only the sign of a coefficient can be in the way of dividing by it**, if it is not zero: in an
inequality, where it contains a variable. -/
theorem divideOut_of_ne_zero {x : Operand} {c : Comparison} {parts : Collected} {a b : GenericField}
    (hcoefficients : ∀ t ∈ parts.coefficients, t.body.IsReadable)
    (hremainder : ∀ t ∈ parts.remainder, t.body.IsMeaningful)
    (hv : parts.HasValues .generic a b) (ha : a ≠ 0) :
    if c ≠ .eq ∧ ∃ t ∈ parts.coefficients, t.body.variables ≠ [] then
      ∃ e, divideOut x c parts = .error (.indeterminateSign x.text e)
    else DividesWithin (divideOut x c parts) := by
  obtain ⟨c', parts', hturned, hcases⟩ := divideOut_cases x c hcoefficients hremainder
  obtain ⟨a', b', hv', hzero⟩ := hturned.exists_hasValues hv
  have hfound : SignFound parts' ↔ ¬ ∃ t ∈ parts.coefficients, t.body.variables ≠ [] := by
    rw [signFound_iff (hturned.forall_coefficients hcoefficients) hv' fun h => ha (hzero.1 h),
      hturned.variables_eq_nil_iff]
    push Not
    rfl
  rw [hfound] at hcases
  rcases hcases with ⟨h, hs⟩ | ⟨h, he⟩
  · rwa [if_neg fun hnot => h.elim hnot.1 fun hnone => hnone hnot.2]
  · obtain ⟨hc, hexists⟩ := not_or.1 h
    rwa [if_pos ⟨hc, not_not.1 hexists⟩]

/-! ### The zero test -/

/-- The expressions that stand behind a division sign. -/
def divisors (r : Relation) : List Expr := r.lhs.divisors ++ r.rhs.divisors

/-- Where nothing is divided by what is identically zero both sides are rational functions. -/
theorem exists_generic_values (hl : r.lhs.IsMeaningful) (hr : r.rhs.IsMeaningful)
    (hdiv : ∀ d ∈ r.divisors, d.value? .generic ≠ some 0) :
    ∃ l m, r.lhs.value? .generic = some l ∧ r.rhs.value? .generic = some m := by
  obtain ⟨l, hlv⟩ := Expr.exists_value? hl fun d hd => hdiv d (List.mem_append_left _ hd)
  obtain ⟨m, hmv⟩ := Expr.exists_value? hr fun d hd => hdiv d (List.mem_append_right _ hd)
  exact ⟨l, m, hlv, hmv⟩

/-- Coefficients that cancel are found to do so. -/
def ZeroTestExact (r : Relation) (name : String) : Prop :=
  ∀ parts, r.difference.collect name = .ok parts → Term.sum? .generic parts.coefficients = some 0 →
    (Term.join parts.coefficients).isZero = .ok true

/-- Coefficients that are tested for cancelling can be read. -/
theorem isReadable_of_cancels {parts : Collected} {found : Bool} (h : cancels parts = .ok found) :
    ∀ t ∈ parts.coefficients, t.body.IsReadable := by
  intro t ht y hy
  unfold cancels at h
  split at h
  · next hnil =>
    rw [List.isEmpty_iff.1 hnil] at ht
    cases ht
  · exact Expr.isReadable_of_isZero h y (Term.mem_leaves_join_of_mem (Term.mem_leavesOf.2 ⟨t, ht, hy⟩))

/-- Coefficients that cancel are found to do so: without transcendental constants the zero test is exact,
if it gives an answer. -/
theorem cancels_of_eq_zero {parts : Collected} {b : GenericField} {found : Bool}
    (hexact : (∃ c ∈ r.constants, c.isAlgebraic = false) → r.ZeroTestExact name)
    (hcollect : r.difference.collect name = .ok parts) (hcancels : cancels parts = .ok found)
    (hv : parts.HasValues .generic 0 b) : found = true := by
  have hread := isReadable_of_cancels hcancels
  unfold cancels at hcancels
  split at hcancels
  · exact (Except.ok.inj hcancels).symm
  by_cases hcs : ∃ c ∈ r.constants, c.isAlgebraic = false
  · rw [hexact hcs parts hcollect hv.coefficients] at hcancels
    exact (Except.ok.inj hcancels).symm
  · have hzero := Expr.isZero_of_generic (isReadable_join hread) (fun c hc => ?_) hv.join
    · rw [hzero] at hcancels
      exact (Except.ok.inj hcancels).symm
    · by_contra hnot
      exact hcs ⟨c, Term.constants_join_subset (constantsIn_of_collect hcollect).coefficients hc,
        Bool.eq_false_iff.2 hnot⟩

/-- Coefficients that are not found to cancel do not, if the zero test is exact. -/
theorem ne_zero_of_cancels {parts : Collected} {a b : GenericField}
    (hexact : (∃ c ∈ r.constants, c.isAlgebraic = false) → r.ZeroTestExact name)
    (hcollect : r.difference.collect name = .ok parts) (hcancels : cancels parts = .ok false)
    (hv : parts.HasValues .generic a b) : a ≠ 0 := by
  rintro rfl
  exact Bool.false_ne_true (cancels_of_eq_zero hexact hcollect hcancels hv)

/-- Only coefficients are found to cancel that add up to zero. -/
theorem eq_zero_of_cancels {K : Type*} [Field K] [CharZero K] [DecidableEq K] {t : AtomValues K}
    {parts : Collected} {a b : K} (hv : parts.HasValues t.valuation a b) (hcancels : cancels parts = .ok true) :
    a = 0 := by
  have hread := isReadable_join (isReadable_of_cancels hcancels)
  unfold cancels at hcancels
  split at hcancels
  · next hnil =>
    have hsum := hv.coefficients
    rw [List.isEmpty_iff.1 hnil] at hsum
    exact (Option.some.inj hsum).symm
  · obtain ⟨found, hfound, hzero⟩ := Expr.exists_isZero hread hv.join
    exact hzero (Except.ok.inj (hfound.symm.trans hcancels))

/-- Whether coefficients cancel is decided, unless a numeral in them is out of range. -/
theorem cancels_yields {parts : Collected} (h : ∀ t ∈ parts.coefficients, t.body.IsMeaningful) :
    Yields (fun _ => True) ExactError.IsLimit (cancels parts) := by
  unfold cancels
  split
  · trivial
  · have hjoin : (Term.join parts.coefficients).IsMeaningful :=
      Term.forall_leaves_join Expr.isReadable_zero.isMeaningful h
    rcases hjoin.isZero_answersIf with ⟨-, found, hfound⟩ | ⟨-, hfound⟩
    · rw [hfound]
      trivial
    · rw [hfound]
      trivial

/-! ### The end that is reached -/

theorem isolation_of_mem {x : Operand} (hof : Operand.ofText? name = some x) (hname : name ∈ r.variables) :
    r.isolation name = (match r.difference.collect name with
      | .error cause => ⟨r.begun, .error (.nonlinear cause)⟩
      | .ok parts => isolationOf r x r.begun parts) := by
  rw [isolation, hof]
  simp only [if_pos hname]
  rfl

theorem solve_of_not_mem (hname : name ∉ r.variables) : r.solve name = .error (.unknownVariable name r) := by
  rw [solve, isolation_of_not_mem hname]

section Mem

variable {x : Operand} (hof : Operand.ofText? name = some x) (hname : name ∈ r.variables)

include hof hname

theorem solve_of_collect_eq_error {cause : NonlinearTerm}
    (hcollect : r.difference.collect name = .error cause) : r.solve name = .error (.nonlinear cause) := by
  rw [solve, isolation_of_mem hof hname, hcollect]

variable {parts : Collected} (hcollect : r.difference.collect name = .ok parts)

include hcollect

theorem solve_of_cancels (hcancels : cancels parts = .ok true) :
    r.solve name = .error (.unknownVariable x.text r) := by
  rw [solve, isolation_of_mem hof hname, hcollect]
  simp only [isolationOf, hcancels]

theorem solve_of_cancels_eq_error {cause : ExactError} (hcancels : cancels parts = .error cause) :
    r.solve name = .error (.inexact cause) := by
  rw [solve, isolation_of_mem hof hname, hcollect]
  simp only [isolationOf, hcancels]

/-- Coefficients that do not cancel are divided by. -/
theorem solve_eq_divideOut (hcancels : cancels parts = .ok false) :
    r.solve name = divideOut x r.comparison parts := by
  rw [solve, isolation_of_mem hof hname, hcollect]
  simp only [isolationOf, hcancels]
  split
  · next hdivide => exact hdivide.symm
  · next hdivide => exact hdivide.symm

end Mem

theorem exists_endsAs (hl : r.lhs.IsMeaningful) (hr : r.rhs.IsMeaningful)
    (hdiv : ∀ d ∈ r.divisors, d.value? .generic ≠ some 0)
    (hexact : (∃ c ∈ r.constants, c.isAlgebraic = false) → r.ZeroTestExact name)
    (hlimit : ∀ cause : ExactError, cause.IsLimit → r.solve name ≠ .error (.inexact cause)) :
    ∃ o, r.Meets name o ∧ r.EndsAs name o := by
  by_cases hname : name ∈ r.variables
  swap
  · exact ⟨.absent, hname, isolation_of_not_mem hname⟩
  obtain ⟨x, hof, hx, rfl⟩ := exists_operand hname
  have hisolation := isolation_of_mem hof hname
  by_cases hnonlinear : r.HasNonlinearTerm x.text
  · rcases hcollect : r.difference.collect x.text with ⟨y, term⟩ | parts
    · obtain rfl : y = x.text := (Term.of_collect_eq_error hcollect).1
      rw [hcollect] at hisolation
      exact ⟨.nonlinear, ⟨hname, hnonlinear⟩, term, hisolation⟩
    · have hok : (r.difference.collect x.text).isOk = true := by
        rw [hcollect]
        rfl
      exact absurd hnonlinear ((isOk_collect_difference_iff hname).1 hok)
  obtain ⟨parts, hcollect⟩ : ∃ parts, r.difference.collect x.text = .ok parts := by
    have hok := (isOk_collect_difference_iff hname).2 hnonlinear
    rcases hcollect : r.difference.collect x.text with cause | parts
    · rw [hcollect] at hok
      cases hok
    · exact ⟨parts, rfl⟩
  -- both sides are rational functions, and so are the coefficients
  obtain ⟨l, m, hlv, hmv⟩ := exists_generic_values hl hr hdiv
  obtain ⟨a, b, hv, -⟩ := hasValues_of_collect .generic hx hcollect hlv hmv
  have hne := coefficients_ne_nil hname hcollect
  have hcancels : r.Cancels x.text ↔ a = 0 := by
    constructor
    · rintro ⟨parts', hparts', hsum⟩
      obtain rfl : parts = parts' := Except.ok.inj (hcollect.symm.trans hparts')
      exact Option.some.inj (hv.coefficients.symm.trans hsum)
    · rintro rfl
      exact ⟨parts, hcollect, hv.coefficients⟩
  have hvariable : r.HasVariableCoefficient x.text ↔ ∃ t ∈ parts.coefficients, t.body.variables ≠ [] := by
    constructor
    · rintro ⟨parts', hparts', h⟩
      obtain rfl : parts = parts' := Except.ok.inj (hcollect.symm.trans hparts')
      exact h
    · exact fun h => ⟨parts, hcollect, h⟩
  obtain ⟨hcoefficients, hremainder⟩ := isMeaningful_of_collect hl hr hcollect
  obtain ⟨found, hfound, -⟩ := (cancels_yields hcoefficients).exists_ok fun cause hcause herror =>
    hlimit cause hcause (solve_of_cancels_eq_error hof hname hcollect herror)
  have hread := isReadable_of_cancels hfound
  rw [hcollect] at hisolation
  simp only [isolationOf] at hisolation
  by_cases ha : a = 0
  · subst ha
    rw [hfound, cancels_of_eq_zero hexact hcollect hfound hv] at hisolation
    exact ⟨.cancelled, ⟨hname, hnonlinear, hcancels.2 rfl⟩, hisolation⟩
  obtain rfl : found = false := by
    rw [← AtomValues.valuation_generic] at hv
    exact Bool.eq_false_of_not_eq_true fun h => ha (eq_zero_of_cancels hv (h ▸ hfound))
  rw [hfound] at hisolation
  have hnot : ¬ r.Cancels x.text := fun h => ha (hcancels.1 h)
  have hdivide := divideOut_of_ne_zero (x := x) (c := r.comparison) hread hremainder hv ha
  simp only at hisolation
  split at hdivide
  · next hsign =>
    obtain ⟨e, he⟩ := hdivide
    rw [he] at hisolation
    exact ⟨.indeterminate, ⟨hname, hnonlinear, hnot, hsign.1, hvariable.2 hsign.2⟩, _, e, hisolation⟩
  · next hsign =>
    obtain ⟨s, hs⟩ := hdivide.exists_ok fun cause hcause herror =>
      hlimit cause hcause ((solve_eq_divideOut hof hname hcollect hfound).trans herror)
    rw [hs] at hisolation
    refine ⟨.isolated, ⟨hname, hnonlinear, hnot, ?_⟩, _, s, hisolation⟩
    rwa [hvariable]

/-- Some condition is met. -/
theorem exists_meets (r : Relation) (name : String) : ∃ o, r.Meets name o := by
  by_cases hname : name ∈ r.variables
  swap
  · exact ⟨.absent, hname⟩
  by_cases hnonlinear : r.HasNonlinearTerm name
  · exact ⟨.nonlinear, hname, hnonlinear⟩
  by_cases hcancels : r.Cancels name
  · exact ⟨.cancelled, hname, hnonlinear, hcancels⟩
  by_cases hsign : r.comparison ≠ .eq ∧ r.HasVariableCoefficient name
  · exact ⟨.indeterminate, hname, hnonlinear, hcancels, hsign⟩
  · exact ⟨.isolated, hname, hnonlinear, hcancels, hsign⟩

/-- **How isolating a variable ends.** For a relation that was read from a text and divides by nothing
that is identically zero, exactly one of the five conditions is met. Isolating ends as a condition
says if and only if it is that one, unless the size of a number is in the way; a variable of the relation
always has coefficients. With transcendental constants in the relation, the zero test has to be exact. -/
theorem isolation_outcome {text : String} (hparse : parse text = .ok r) (name : String)
    (hdiv : ∀ d ∈ r.divisors, d.value? .generic ≠ some 0)
    (hexact : (∃ c ∈ r.constants, c.isAlgebraic = false) → r.ZeroTestExact name) :
    (∃! o, r.Meets name o) ∧
      ((∀ cause : ExactError, cause.IsLimit → r.solve name ≠ .error (.inexact cause)) →
        ∀ o, r.EndsAs name o ↔ r.Meets name o) ∧
      ∀ parts, name ∈ r.variables → r.difference.collect name = .ok parts → parts.coefficients ≠ [] := by
  obtain ⟨hl, hr⟩ := isPlain_of_parse hparse
  obtain ⟨o, hmeets⟩ := exists_meets r name
  refine ⟨⟨o, hmeets, fun o' h => h.unique hmeets⟩, fun hlimit o' => ?_, fun parts => coefficients_ne_nil⟩
  obtain ⟨o, hmeets, hends⟩ := exists_endsAs (Expr.IsPlain.isMeaningful hl) (Expr.IsPlain.isMeaningful hr) hdiv
    hexact hlimit
  constructor
  · intro h
    obtain rfl : o = o' := hends.shown_eq.symm.trans h.shown_eq
    exact hmeets
  · intro h
    obtain rfl : o = o' := hmeets.unique h
    exact hends

/-- `1 / t = f`: linear in `f`, but not in `t`. -/
def inverse : Relation :=
  ⟨.node .one .div (.leaf ⟨"t", by decide⟩), .eq, .leaf ⟨"f", by decide⟩⟩

theorem parse_inverse : parse "1/t=f" = .ok inverse := by
  have htokens : Token.scan Token.relationSymbols "1/t=f" =
      [.operand "1/t", .relation "=", .operand "f"] := by cbv
  have hl : Expr.parse "1/t" = .ok inverse.lhs := by
    have hscan : Token.scan Token.expressionSymbols "1/t" =
        [.operand "1", .operator "/" 1, .operand "t"] := by cbv
    rw [Expr.parse, hscan]
    refine Expr.ofTokens_of_renders (.split .div (.operand ⟨"1", by decide⟩)
      (.operand ⟨"t", by decide⟩) ?_ ?_) <;> simp [Token.outer, Token.outerFrom]
  have hr : Expr.parse "f" = .ok inverse.rhs := by
    have hscan : Token.scan Token.expressionSymbols "f" = [.operand "f"] := by cbv
    rw [Expr.parse, hscan]
    exact Expr.ofTokens_of_renders (.operand ⟨"f", by decide⟩)
  have hl' : Expr.parse (Token.joined [.operand "1/t"]) = .ok inverse.lhs := hl
  have hr' : Expr.parse (Token.joined [.operand "f"]) = .ok inverse.rhs := hr
  rw [parse, htokens]
  simp [Token.kind, comparisonCount, hl', hr', Comparison.ofToken, bind, Except.bind]
  rfl

theorem isolation_outcome_inverse :
    parse "1/t=f" = .ok inverse ∧ (∀ d ∈ inverse.divisors, d.value? .generic ≠ some 0) ∧
      inverse.EndsAs "t" .nonlinear := by
  have hdiv : ∀ d ∈ inverse.divisors, d.value? .generic ≠ some 0 := by
    intro d hd
    obtain rfl : d = .leaf ⟨"t", by decide⟩ := List.mem_singleton.1 hd
    rw [Expr.value?_leaf_of_isVariable (by decide +kernel), Ne, Option.some_inj]
    exact (map_ne_zero_iff _ (IsFractionRing.injective _ GenericField)).2 (MvPolynomial.X_ne_zero "t")
  have hcs : inverse.constants = [] := by decide +kernel
  have hterm : inverse.HasNonlinearTerm "t" := by
    have hterms : inverse.difference.terms .plus =
        [⟨.plus, inverse.lhs⟩, ⟨.minus, inverse.rhs⟩] := by cbv
    rw [HasNonlinearTerm, hterms]
    refine ⟨_, List.mem_cons_self, .inl ⟨.leaf ⟨"t", by decide⟩, List.mem_cons_self, ?_⟩⟩
    decide +kernel
  have hexact : (∃ c ∈ inverse.constants, c.isAlgebraic = false) → inverse.ZeroTestExact "t" := by
    rintro ⟨c, hc, -⟩
    rw [hcs] at hc
    cases hc
  have hsolve : inverse.solve "t" = .error (.nonlinear ⟨"t", inverse.lhs⟩) := by decide +kernel
  have hlimit : ∀ cause : ExactError, cause.IsLimit → inverse.solve "t" ≠ .error (.inexact cause) := by
    intro cause _ hcause
    cases hsolve.symm.trans hcause
  obtain ⟨-, hends, -⟩ := isolation_outcome parse_inverse "t" hdiv hexact
  exact ⟨parse_inverse, hdiv, (hends hlimit .nonlinear).2 ⟨by decide +kernel, hterm⟩⟩

end LinearRelations.Relation
