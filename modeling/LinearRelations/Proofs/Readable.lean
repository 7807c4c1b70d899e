import LinearRelations.Proofs.Divide
import LinearRelations.Proofs.Plain

/-!
# Readable expressions

Where every operand stands for something, there is a value wherever nothing is divided by zero. The exact
tests and the division of sums give an answer, unless the size of a number is in the way: a numeral has
digits out of range, or a number to be written has too many of them.

* `Expr.exists_value?`, `Expr.value?_ne_zero_of_mem_divisors`: there is a value where no divisor is
  zero, and only there;
* `Expr.IsMeaningful.constantValue_answersIf`, `Expr.IsMeaningful.isZero_answersIf`: the exact tests give
  an answer unless a numeral is out of range;
* `Expr.ofSize_yields`: a literal, or why it would be too long;
* `Term.divide_yields`: a sum can be divided unless the size of a number is in the way;
* `Term.divide_spec`: what the quotient says.
-/

namespace LinearRelations

/-! ### Leaves of what is made of expressions -/

section Leaves

variable {P : Operand → Prop}

namespace Expr

theorem forall_leaves_expand {e : Expr} (h : ∀ x ∈ e.leaves, P x) : ∀ x ∈ e.expand.leaves, P x :=
  fun x hx => h x ((mem_leaves_expand e).1 hx)

theorem forall_leaves_of_mem_terms {e : Expr} {s : Sign} (h : ∀ x ∈ e.leaves, P x) :
    ∀ t ∈ e.terms s, ∀ x ∈ t.body.leaves, P x := by
  intro t ht x hx
  apply h x
  rw [← Term.leavesOf_terms e s]
  exact Term.mem_leavesOf.2 ⟨t, ht, hx⟩

theorem forall_leaves_over {term d : Expr} (hterm : ∀ x ∈ term.leaves, P x) (hd : ∀ x ∈ d.leaves, P x) :
    ∀ x ∈ (term.over d).leaves, P x :=
  fun x hx => (mem_leaves_over hx).elim (hterm x) (hd x)

end Expr

namespace Term

variable {ts : List Term}

theorem forall_mem_negateAll {P : Expr → Prop} (h : ∀ t ∈ ts, P t.body) : ∀ t ∈ negateAll ts, P t.body := by
  intro t ht
  obtain ⟨t', ht', rfl⟩ := List.mem_map.1 ht
  exact h t' ht'

theorem forall_leaves_join (hzero : ∀ x ∈ Expr.zero.leaves, P x) (h : ∀ t ∈ ts, ∀ x ∈ t.body.leaves, P x) :
    ∀ x ∈ (join ts).leaves, P x := by
  intro x hx
  rcases mem_leaves_join hx with hx | hx
  · exact hzero x hx
  · obtain ⟨t, ht, hxt⟩ := mem_leavesOf.1 hx
    exact h t ht x hxt

theorem forall_leaves_mapOver {d : Expr} (h : ∀ t ∈ ts, ∀ x ∈ t.body.leaves, P x) (hd : ∀ x ∈ d.leaves, P x) :
    ∀ t ∈ mapOver ts d, ∀ x ∈ t.body.leaves, P x := by
  intro t ht
  obtain ⟨t', ht', rfl⟩ := List.mem_map.1 ht
  exact Expr.forall_leaves_over (h t' ht') hd

end Term

end Leaves

/-- `0e1000000000000000000`, a zero with its digit out of range. -/
def Operand.farZero : Operand := ⟨"0e1000000000000000000", by decide⟩

theorem Operand.meaning?_farZero : farZero.meaning? = some (.number 0) := by decide +kernel

namespace Expr

theorem isReadable_zero : zero.IsReadable :=
  isReadable_leaf (v := .number 0) (by decide +kernel)

theorem isReadable_one : one.IsReadable :=
  isReadable_leaf (v := .number 1) (by decide +kernel)

theorem IsPlain.isMeaningful {e : Expr} (h : e.IsPlain) : e.IsMeaningful :=
  fun x hx => (h x hx).exists_meaning?

theorem isReadable_of_ofSize {q : ℚ} {size : Expr} (h : ofSize q = .ok (some size)) : size.IsReadable := by
  obtain ⟨x, rfl, hx⟩ := of_ofSize h
  exact isReadable_leaf hx

/-! ### Values -/

/-- **There is a value where no divisor is zero.** -/
theorem exists_value? {K : Type*} [Field K] [DecidableEq K] {ρ : Valuation K} {e : Expr}
    (h : e.IsMeaningful) (hdiv : ∀ d ∈ e.divisors, d.value? ρ ≠ some 0) : ∃ x, e.value? ρ = some x := by
  induction e with
  | leaf operand =>
    obtain ⟨v, hv⟩ := h operand (by simp)
    exact ⟨v.value ρ, by simp [value?, hv]⟩
  | node lhs op rhs ihl ihr =>
    obtain ⟨hl, hr⟩ := isMeaningful_node.1 h
    have hsides : ∀ d ∈ lhs.divisors ++ rhs.divisors, d ∈ (node lhs op rhs).divisors := by
      intro d hd
      cases op with
      | div => exact List.mem_cons_of_mem _ hd
      | _ => exact hd
    obtain ⟨x, hx⟩ := ihl hl fun d hd => hdiv d (hsides d (List.mem_append_left _ hd))
    obtain ⟨y, hy⟩ := ihr hr fun d hd => hdiv d (hsides d (List.mem_append_right _ hd))
    rw [value?_node, hx, hy]
    cases op with
    | mul => exact ⟨_, rfl⟩
    | add => exact ⟨_, rfl⟩
    | sub => exact ⟨_, rfl⟩
    | div =>
      have hne : y ≠ 0 := by
        rintro rfl
        exact hdiv rhs List.mem_cons_self hy
      exact ⟨x / y, by rw [Operator.div_onValues?, if_neg hne]⟩

/-- There is a value only where every operand stands for something. -/
theorem isMeaningful_of_value? {K : Type*} [Field K] [DecidableEq K] {ρ : Valuation K} {e : Expr}
    (h : (e.value? ρ).isSome) : e.IsMeaningful := by
  induction e with
  | leaf operand =>
    rw [value?, Option.isSome_map] at h
    obtain ⟨v, hv⟩ := Option.isSome_iff_exists.1 h
    exact isMeaningful_leaf hv
  | node lhs op rhs ihl ihr =>
    obtain ⟨x, hx⟩ := Option.isSome_iff_exists.1 h
    rw [value?_node] at hx
    obtain ⟨y, z, hy, hz⟩ := Operator.exists_of_onValues? hx
    exact isMeaningful_node.2 ⟨ihl (by rw [hy]; rfl), ihr (by rw [hz]; rfl)⟩

/-- Where there is a value no divisor is zero. -/
theorem value?_ne_zero_of_mem_divisors {K : Type*} [Field K] [DecidableEq K] {ρ : Valuation K} {e : Expr}
    {x : K} (hx : e.value? ρ = some x) : ∀ d ∈ e.divisors, d.value? ρ ≠ some 0 := by
  induction e generalizing x with
  | leaf operand => simp [divisors]
  | node lhs op rhs ihl ihr =>
    rw [value?_node] at hx
    obtain ⟨y, z, hy, hz⟩ := Operator.exists_of_onValues? hx
    have hsides : ∀ d ∈ lhs.divisors ++ rhs.divisors, d.value? ρ ≠ some 0 := by
      intro d hd
      exact (List.mem_append.1 hd).elim (ihl hy d) (ihr hz d)
    cases op with
    | div =>
      refine List.forall_mem_cons.2 ⟨fun hzero => ?_, hsides⟩
      rw [hy, hzero, Operator.div_onValues?, if_pos rfl] at hx
      cases hx
    | _ => exact hsides

/-! ### Tests -/

section Tests

variable {e : Expr} (h : e.IsMeaningful)

include h

/-- **The number that an expression stands for** is found or found not to be there, unless a numeral
in an expression without variables is out of range. -/
theorem IsMeaningful.constantValue_answersIf :
    AnswersIf (e.isConstant = true → e.IsInRange) e.constantValue := by
  unfold constantValue
  split
  · next hconst =>
    rw [forall_prop_of_true hconst]
    exact h.combination_answersIf.bind fun _ => ⟨_, rfl⟩
  · next hconst => exact .inl ⟨fun h => absurd h hconst, _, rfl⟩

/-- And so is its sign. -/
theorem IsMeaningful.constantSign_answersIf :
    AnswersIf (e.isConstant = true → e.IsInRange) e.constantSign := by
  unfold constantSign
  split
  · next hconst =>
    rw [forall_prop_of_true hconst]
    exact h.combination_answersIf.bind fun _ => ⟨_, rfl⟩
  · next hconst => exact .inl ⟨fun h => absurd h hconst, _, rfl⟩

/-- **The zero test** gives an answer unless a numeral is out of range. -/
theorem IsMeaningful.isZero_answersIf : AnswersIf e.IsInRange e.isZero := by
  refine h.combination_answersIf.bind fun value => ?_
  simp only
  split
  · exact ⟨_, rfl⟩
  · exact ⟨_, rfl⟩

end Tests

theorem IsReadable.exists_constantSign {e : Expr} (h : e.IsReadable) : ∃ s, e.constantSign = .ok s :=
  h.isMeaningful.constantSign_answersIf.exists_ok_iff.2 fun _ => h.isMeaningful.isReadable_iff.1 h

/-! ### Literals -/

/-- **A number is written, is not a fraction over a power of ten, or is too long.** -/
theorem ofSize_yields (q : ℚ) :
    Yields (fun size => ∀ literal ∈ size, literal.IsReadable) ExactError.IsLimit (ofSize q) := by
  rcases hsize : ofSize q with cause | size
  · rcases Text.plainDecimal_cases q with ⟨-, heq⟩ | ⟨_, -, ⟨-, heq⟩ | ⟨-, -, heq⟩ | ⟨-, -, heq⟩⟩
    all_goals rw [ofSize, heq] at hsize
    · cases hsize
    · obtain rfl := Except.error.inj hsize
      trivial
    · obtain rfl := Except.error.inj hsize
      trivial
    · cases hsize
  · rintro literal rfl
    exact isReadable_of_ofSize hsize

theorem IsMeaningful.sizeLiteral_yields {e : Expr} (h : e.IsMeaningful) :
    Yields (fun size => ∀ literal ∈ size, literal.IsReadable) ExactError.IsLimit e.sizeLiteral := by
  refine h.constantValue_answersIf.yields.bind fun value _ => ?_
  rcases value with _ | q
  · intro literal hliteral
    cases hliteral
  · exact ofSize_yields q

end Expr

/-! ### Dividing -/

namespace Term

variable {ts : List Term} {d : Expr}

/-- The numerals in terms without variables are in range. -/
def AreNumbersInRange (ts : List Term) : Prop := ∀ t ∈ ts, t.body.isConstant = true → t.body.IsInRange

theorem valued_answersIf (h : ∀ t ∈ ts, t.body.IsMeaningful) : AnswersIf (AreNumbersInRange ts) (valued ts) := by
  unfold AreNumbersInRange
  induction ts with
  | nil => exact .inl ⟨fun t ht => absurd ht List.not_mem_nil, [], rfl⟩
  | cons t ts ih =>
    obtain ⟨ht, hts⟩ := List.forall_mem_cons.1 h
    rw [valued_cons, List.forall_mem_cons]
    rcases ht.constantValue_answersIf with ⟨hin, q, hq⟩ | ⟨hout, hq⟩
    · rw [and_iff_right hin, hq]
      exact (ih hts).bind fun rest => ⟨_, rfl⟩
    · exact .inr ⟨fun h => hout h.1, by rw [hq]; rfl⟩

theorem foldConstants_yields (h : ∀ t ∈ ts, t.body.IsMeaningful) :
    Yields (fun _ => True) ExactError.IsLimit (foldConstants ts) := by
  refine (valued_answersIf h).yields.bind fun entries _ => ?_
  split
  · trivial
  · refine (Expr.ofSize_yields (total entries)).bind fun size _ => ?_
    rcases size with _ | size <;> trivial

theorem divideEach_yields (h : ∀ t ∈ ts, t.body.IsMeaningful) (hd : d.IsMeaningful) :
    Yields (fun _ => True) ExactError.IsLimit (divideEach ts d) :=
  (foldConstants_yields (forall_leaves_mapOver h hd)).bind fun _ _ => trivial

/-- **A sum can be divided unless the size of a number is in the way.** -/
theorem divide_yields (h : ∀ t ∈ ts, t.body.IsMeaningful) (hd : d.IsMeaningful) :
    Yields (fun _ => True) ExactError.IsLimit (divide ts d) := by
  unfold divide
  split
  · trivial
  split
  · refine hd.sizeLiteral_yields.bind fun size hsize => ?_
    rcases size with _ | size
    · exact (foldConstants_yields h).bind fun _ _ => trivial
    · exact divideEach_yields h (hsize size rfl).isMeaningful
  · exact divideEach_yields h hd

/-- **Dividing a sum by a coefficient that is not zero** gives an expression, unless the size of a number is in
the way. It has the value of the quotient, unless the sign of the coefficient is lost; then it has the
opposite value. -/
theorem divide_spec {K : Type*} [Field K] [LinearOrder K] [IsStrictOrderedRing K] {ρ : Valuation K} {y : K}
    (hρ : ρ.IsReal (d.constants ++ ts.flatMap fun t => t.body.constants))
    (hdefined : ∀ t ∈ ts, (t.body.value? ρ).isSome) (hd : d.value? ρ = some y) (hy : y ≠ 0)
    (hlimit : ∀ cause, cause.IsLimit → divide ts d ≠ .error cause) :
    ∃ e x, sum? ρ ts = some x ∧ divide ts d = .ok e ∧ (¬ d.LosesSign → e.value? ρ = some (x / y)) ∧
      (d.LosesSign → e.value? ρ = some (-(x / y))) := by
  have hts : ∀ t ∈ ts, t.body.constants ⊆ d.constants ++ ts.flatMap fun t => t.body.constants := by
    intro t ht c hc
    exact List.mem_append_right _ (List.mem_flatMap.2 ⟨t, ht, hc⟩)
  obtain ⟨x, hx⟩ := Option.isSome_iff_exists.1 ((sum?_isSome_iff ρ).2 hdefined)
  have hyields := divide_yields (fun t ht => Expr.isMeaningful_of_value? (hdefined t ht))
    (Expr.isMeaningful_of_value? (e := d) (ρ := ρ) (by rw [hd]; rfl))
  obtain ⟨e, he, -⟩ := hyields.exists_ok hlimit
  obtain ⟨z, hz, hsign⟩ :=
    exists_value?_divide hρ.respectsNumbers hts (List.subset_append_left _ _) he hx hd hy
  refine ⟨e, x, hx, he, fun hkept => ?_, fun hloses => ?_⟩
  · obtain ⟨-, rfl⟩ | ⟨hloses, -⟩ := hsign
    · exact hz
    · exact absurd hloses hkept
  · obtain ⟨hkept, -⟩ | ⟨-, rfl⟩ := hsign
    · exact absurd hloses hkept
    · rw [hz, div_neg]

/-- The sum of the one term `30`. -/
def thirty : List Term := [⟨.plus, .leaf ⟨"30", by decide⟩⟩]

/-- `0 - 15`, the sign of which is lost. -/
def minusFifteen : Expr := .node .zero .sub (.leaf ⟨"15", by decide⟩)

theorem divide_spec_minusFifteen : minusFifteen.LosesSign ∧ ∃ e, divide thirty minusFifteen = .ok e ∧
    e.value? ⟨fun _ => 0, fun _ => (1 : ℚ)⟩ = some (-(30 / -15)) := by
  have hliteral : (Expr.ofSize (-15)).toOption.join.isSome = true := by decide +kernel
  have hloses : minusFifteen.LosesSign := by
    refine ⟨rfl, -15, by decide +kernel, by norm_num, ?_⟩
    rcases hsize : Expr.ofSize (-15) with cause | _ | size
    · rw [hsize] at hliteral
      cases hliteral
    · rw [hsize] at hliteral
      cases hliteral
    · exact ⟨size, rfl⟩
  have hcs : minusFifteen.constants ++ thirty.flatMap (fun t => t.body.constants) = [] := by decide +kernel
  have hd : minusFifteen.value? ⟨fun _ => 0, fun _ => (1 : ℚ)⟩ = some (-15) := by decide +kernel
  have hok : (divide thirty minusFifteen).isOk = true := by decide +kernel
  obtain ⟨e, x, hx, he, -, hvalue⟩ :=
    divide_spec (hcs ▸ Valuation.isReal_nil _) (by decide +kernel) hd (by norm_num) fun cause _ hcause => by
      rw [hcause] at hok
      cases hok
  have hthirty : sum? ⟨fun _ => 0, fun _ => (1 : ℚ)⟩ thirty = some 30 := by decide +kernel
  rw [hthirty] at hx
  obtain rfl := Option.some.inj hx
  exact ⟨hloses, e, he, hvalue hloses⟩

/-- So `30 / (0 - 15)` comes out as `2`. -/
theorem divide_minusFifteen : ¬ ∀ (ts : List Term) (d : Expr) (ρ : Valuation ℚ) (x y : ℚ),
    ρ.IsReal (d.constants ++ ts.flatMap fun t => t.body.constants) → sum? ρ ts = some x →
      d.value? ρ = some y → y ≠ 0 → (∀ cause, cause.IsLimit → divide ts d ≠ .error cause) →
        ∃ e, divide ts d = .ok e ∧ e.value? ρ = some (x / y) := by
  intro h
  have hcs : minusFifteen.constants ++ thirty.flatMap (fun t => t.body.constants) = [] := by decide +kernel
  have hok : (divide thirty minusFifteen).isOk = true := by decide +kernel
  obtain ⟨e, he, hvalue⟩ := h thirty minusFifteen ⟨fun _ => 0, fun _ => 1⟩ 30 (-15)
    (hcs ▸ Valuation.isReal_nil _) (by decide +kernel) (by decide +kernel) (by norm_num) fun cause _ hcause => by
      rw [hcause] at hok
      cases hok
  have htwo : (divide thirty minusFifteen).toOption.bind (Expr.value? ⟨fun _ => 0, fun _ => (1 : ℚ)⟩) =
      some 2 := by decide +kernel
  rw [he] at htwo
  have htwo : e.value? ⟨fun _ => 0, fun _ => (1 : ℚ)⟩ = some 2 := htwo
  rw [hvalue] at htwo
  norm_num at htwo

end Term

/-! ### Relations -/

namespace Relation

/-- All operands of both sides stand for something. -/
def IsMeaningful (r : Relation) : Prop := r.lhs.IsMeaningful ∧ r.rhs.IsMeaningful

/-- All operands of both sides can be read. -/
def IsReadable (r : Relation) : Prop := r.lhs.IsReadable ∧ r.rhs.IsReadable

/-- No operand of either side has digits that reach beyond the range of decimal places. -/
def IsInRange (r : Relation) : Prop := r.lhs.IsInRange ∧ r.rhs.IsInRange

theorem IsMeaningful.isReadable_iff {r : Relation} (h : r.IsMeaningful) : r.IsReadable ↔ r.IsInRange :=
  and_congr h.1.isReadable_iff h.2.isReadable_iff

end Relation

end LinearRelations
