import LinearRelations.Proofs.DecimalPlaces
import LinearRelations.Proofs.Joined
import LinearRelations.Proofs.Readable

/-!
# Folded sums

The numeric terms of a sum are replaced by one literal, in the place of the first of them, unless a
numeral in them is out of range or the literal would be too long. A sum that was folded is left alone
when it is folded again, and so is any reordering of it. Joining a folded sum can put a zero in front of
it; then folding takes that zero away again, as the literal of a sum without an added term is its first
term, if there is one. So the terms of a joined folded sum are folded into terms that make the same sum.

* `Term.folded`: what the terms of a sum are folded into;
* `Term.FoldFault`, `Term.foldConstants_cases`: folding them gives that, or why it fails;
* `Term.IsFolded`: the forms of a folded sum;
* `Term.folded_of_isFolded`, `Term.isFolded_folded`: such sums are left alone, and folding reaches one;
* `Term.IsFolding`: which terms are kept and where the literal stands among them;
* `Term.foldConstants_exact`: folding keeps to that, keeps the value and leaves alone what was folded;
* `Term.foldConstants_farZero`: a zero that is out of range;
* `Term.join_folded_ordered`: what was joined is taken apart, folded and joined into the same sum.
-/

namespace LinearRelations

/-! ### Literals -/

namespace Expr

theorem isConstant_of_ofSize {q : ℚ} {size : Expr} (h : ofSize q = .ok (some size)) : size.isConstant = true := by
  obtain ⟨x, rfl, hx⟩ := of_ofSize h
  rw [isConstant, Expr.variables, Operand.isVariable_eq_false_of_meaning? (Operand.meaning?_of_read hx)]
  rfl

/-- A literal is found to be the number it was made for, without its sign. -/
theorem constantValue_of_ofSize {q : ℚ} {size : Expr} (h : ofSize q = .ok (some size)) :
    size.constantValue = .ok (some |q|) := by
  have hconstant := isConstant_of_ofSize h
  obtain ⟨x, rfl, hx⟩ := of_ofSize h
  rw [constantValue, if_pos hconstant, combination_leaf hx]
  rfl

theorem ofSize_zero : ofSize 0 = .ok (some zero) := by decide +kernel

/-- There is no literal for a number that is no fraction over a power of ten. -/
theorem ofSize_eq_none_iff {q : ℚ} : ofSize q = .ok none ↔ ¬ Text.IsDecimalFraction q := by
  rw [← Text.plainDecimal_eq_none_iff]
  constructor
  · intro h
    obtain ⟨text, htext, h⟩ := exists_of_bind_eq_ok h
    rcases text with _ | text
    · exact htext
    · obtain ⟨x, rfl, -, -⟩ := Text.exists_operand_of_plainDecimal htext
      rw [Option.bind_some, x.ofText?_text] at h
      cases h
  · intro h
    rw [ofSize, h]
    rfl

/-- Nor for one that is too long. -/
theorem ofSize_eq_error_iff {q : ℚ} {cause : ExactError} : ofSize q = .error cause ↔ Text.IsTooLong q cause := by
  rw [← Text.plainDecimal_eq_error_iff, ofSize]
  rcases Text.plainDecimal q with cause' | text
  · exact ⟨fun h => congrArg Except.error (Except.error.inj h),
      fun h => congrArg Except.error (Except.error.inj h)⟩
  · constructor
    · intro h
      cases h
    · intro h
      cases h

theorem constantValue_zero : zero.constantValue = .ok (some 0) := by decide +kernel

end Expr

namespace Term

variable {t : Term} {ts ss : List Term}

/-! ### Numeric terms -/

/-- The number that the body of a term is found to be, if it is one. -/
def number? (t : Term) : Option Rat := t.body.constantValue.toOption.bind id

def isNumeric (t : Term) : Bool := t.number?.isSome

/-- What a term adds to the sum of the numeric terms. -/
def amount (t : Term) : Rat := (t.number?.map (signed t.sign)).getD 0

/-- The sum of the numeric terms. -/
def amounts (ts : List Term) : Rat := (ts.map amount).sum

/-- The terms that are not numeric. -/
def others (ts : List Term) : List Term := ts.filter fun t => !t.isNumeric

theorem number?_of_constantValue {q? : Option Rat} (h : t.body.constantValue = .ok q?) : t.number? = q? := by
  rw [number?, h]
  rfl

theorem amount_of_not_isNumeric (h : t.isNumeric = false) : t.amount = 0 := by
  have hnone : t.number? = none := by
    rw [← Option.isNone_iff_eq_none, ← Option.not_isSome, ← isNumeric, h]
    rfl
  rw [amount, hnone]
  rfl

theorem number?_ofNumber {q : ℚ} {size : Expr} (h : Expr.ofSize q = .ok (some size)) :
    (ofNumber q size).number? = some |q| :=
  number?_of_constantValue (Expr.constantValue_of_ofSize h)

theorem isNumeric_ofNumber {q : ℚ} {size : Expr} (h : Expr.ofSize q = .ok (some size)) :
    (ofNumber q size).isNumeric = true := by
  rw [isNumeric, number?_ofNumber h]
  rfl

/-- The literal of a number adds that number. -/
theorem amount_ofNumber {q : ℚ} {size : Expr} (h : Expr.ofSize q = .ok (some size)) :
    (ofNumber q size).amount = q := by
  rw [amount, number?_ofNumber h]
  exact signed_abs q

theorem number?_zero (s : Sign) : (⟨s, .zero⟩ : Term).number? = some 0 :=
  number?_of_constantValue Expr.constantValue_zero

theorem isNumeric_zero (s : Sign) : (⟨s, .zero⟩ : Term).isNumeric = true := by
  rw [isNumeric, number?_zero]
  rfl

theorem amounts_append : amounts (ss ++ ts) = amounts ss + amounts ts := by
  rw [amounts, List.map_append, List.sum_append]
  rfl

theorem amounts_cons : amounts (t :: ts) = t.amount + amounts ts := by
  rw [amounts, List.map_cons, List.sum_cons]
  rfl

theorem amounts_perm (h : ss.Perm ts) : amounts ss = amounts ts :=
  (h.map amount).sum_eq

theorem amounts_eq_zero (h : ∀ t ∈ ts, t.isNumeric = false) : amounts ts = 0 := by
  rw [amounts, List.sum_eq_zero]
  intro q hq
  obtain ⟨t, ht, rfl⟩ := List.mem_map.1 hq
  exact amount_of_not_isNumeric (h t ht)

theorem others_append : others (ss ++ ts) = others ss ++ others ts :=
  List.filter_append ss ts

theorem others_others (ts : List Term) : others (others ts) = others ts := by
  simp [others]

theorem others_eq_self (h : ∀ t ∈ ts, t.isNumeric = false) : others ts = ts :=
  List.filter_eq_self.2 fun t ht => by rw [h t ht]; rfl

theorem others_cons_of_isNumeric (h : t.isNumeric = true) : others (t :: ts) = others ts := by
  rw [others, List.filter_cons, h]
  rfl

theorem isNumeric_of_mem_others (h : t ∈ others ts) : t.isNumeric = false := by
  simpa using (List.mem_filter.1 h).2

/-! ### What is folded -/

/-- The terms with one literal in the place of the first numeric one. A sum of zero is left out, unless it
is all there is. -/
def withLiteral (ts : List Term) (size : Expr) : List Term :=
  if amounts ts = 0 then if others ts = [] then [⟨.plus, .zero⟩] else others ts
  else (ts.takeWhile fun t => !t.isNumeric) ++
    ofNumber (amounts ts) size :: others (ts.dropWhile fun t => !t.isNumeric)

/-- Replaces the numeric terms by one literal, if their sum has a finite decimal expansion. -/
def folded (ts : List Term) : List Term :=
  if ts.all fun t => !t.isNumeric then ts
  else
    match Expr.ofSize (amounts ts) with
    | .ok (some size) => withLiteral ts size
    | _ => ts

/-- The entries, where there are any. -/
theorem eq_map_of_valued {entries : List (Term × Option Rat)} (h : valued ts = .ok entries) :
    entries = ts.map fun t => (t, t.number?) := by
  obtain ⟨rfl, hall⟩ := of_valued h
  rw [List.map_map]
  conv_lhs => rw [← List.map_id entries]
  refine List.map_congr_left fun entry hentry => ?_
  rw [Function.comp_apply, number?_of_constantValue (hall entry hentry)]
  rfl

theorem total_map (ts : List Term) : total (ts.map fun t => (t, t.number?)) = amounts ts := by
  induction ts with
  | nil => rfl
  | cons t ts ih =>
    rw [List.map_cons, total_cons, ih, amounts_cons]
    rfl

theorem isNone_comp_number? :
    ((fun entry : Term × Option Rat => entry.2.isNone) ∘ fun t => (t, t.number?)) = fun t => !t.isNumeric := by
  funext t
  rw [isNumeric, Option.not_isSome]
  rfl

theorem unvalued_map (ts : List Term) : unvalued (ts.map fun t => (t, t.number?)) = others ts := by
  have hfst : Prod.fst ∘ (fun t : Term => (t, t.number?)) = id := rfl
  rw [unvalued, List.filter_map, isNone_comp_number?, List.map_map, hfst, List.map_id, others]

theorem replaceNumeric_map (ts : List Term) (size : Expr) :
    replaceNumeric (ts.map fun t => (t, t.number?)) size = withLiteral ts size := by
  have hbefore : (ts.map fun t => (t, t.number?)).takeWhile (fun entry => entry.2.isNone) =
      (ts.takeWhile fun t => !t.isNumeric).map fun t => (t, t.number?) := by
    rw [List.takeWhile_map, isNone_comp_number?]
  have hafter : ts.drop (ts.takeWhile fun t => !t.isNumeric).length = ts.dropWhile fun t => !t.isNumeric := by
    have hsplit : ((ts.takeWhile fun t => !t.isNumeric) ++ ts.dropWhile fun t => !t.isNumeric).drop
        (ts.takeWhile fun t => !t.isNumeric).length = ts.dropWhile fun t => !t.isNumeric :=
      List.drop_left' rfl
    rwa [List.takeWhile_append_dropWhile] at hsplit
  have hunnumbered : others (ts.takeWhile fun t => !t.isNumeric) = ts.takeWhile fun t => !t.isNumeric :=
    others_eq_self fun t ht => by simpa using List.mem_takeWhile_imp ht
  simp only [replaceNumeric, withLiteral, hbefore, List.length_map, ← List.map_drop, hafter, total_map,
    unvalued_map, hunnumbered]
  congr 1
  rcases others ts with _ | ⟨t, rest⟩
  · rfl
  · rfl

/-- Why the numeric terms of a sum are not folded: a numeral in them is out of range, or their sum is too
long to be written. -/
inductive FoldFault (ts : List Term) : ExactError → Prop
  | outOfRange : ¬ AreNumbersInRange ts → FoldFault ts .exponentOutOfRange
  | tooLong {cause : ExactError} : AreNumbersInRange ts → Text.IsTooLong (amounts ts) cause → FoldFault ts cause

/-- Without numeric terms there is nothing to write. -/
theorem not_isTooLong_of_all {cause : ExactError} (h : (ts.all fun t => !t.isNumeric) = true) :
    ¬ Text.IsTooLong (amounts ts) cause := by
  rw [amounts_eq_zero fun t ht => by simpa using List.all_eq_true.1 h t ht]
  exact Text.not_isTooLong_zero cause

/-- **Folding the numeric terms of a sum** replaces them so, or it fails for one of these reasons. -/
theorem foldConstants_cases (h : ∀ t ∈ ts, t.body.IsMeaningful) :
    (∀ cause, ¬ FoldFault ts cause) ∧ foldConstants ts = .ok (folded ts) ∨
      ∃ cause, FoldFault ts cause ∧ foldConstants ts = .error cause := by
  rcases valued_answersIf h with ⟨hin, entries, hentries⟩ | ⟨hout, hentries⟩
  · have hfault : ∀ {cause}, FoldFault ts cause → Text.IsTooLong (amounts ts) cause := by
      rintro cause (hout | ⟨-, hlong⟩)
      · exact absurd hin hout
      · exact hlong
    have hall : (ts.map fun t => (t, t.number?)).all (fun entry => entry.2.isNone) =
        ts.all fun t => !t.isNumeric := by
      rw [List.all_map, isNone_comp_number?]
    rw [foldConstants, hentries, eq_map_of_valued hentries, folded]
    simp only [bind, Except.bind, hall, total_map]
    split
    · next hnone => exact .inl ⟨fun cause h => not_isTooLong_of_all hnone (hfault h), rfl⟩
    rcases hsize : Expr.ofSize (amounts ts) with cause | size
    · exact .inr ⟨cause, .tooLong hin (Expr.ofSize_eq_error_iff.1 hsize), rfl⟩
    · refine .inl ⟨fun cause h => ?_, ?_⟩
      · cases hsize.symm.trans (Expr.ofSize_eq_error_iff.2 (hfault h))
      · rcases size with _ | size
        · rfl
        · simp only [replaceNumeric_map]
          rfl
  · exact .inr ⟨_, .outOfRange hout, by rw [foldConstants, hentries]; rfl⟩

/-- There is one reason at most. -/
theorem FoldFault.unique {cause cause' : ExactError} (h : FoldFault ts cause) (h' : FoldFault ts cause') :
    cause = cause' := by
  cases h with
  | outOfRange hout =>
    cases h' with
    | outOfRange _ => rfl
    | tooLong hin _ => exact absurd hin hout
  | tooLong hin hlong =>
    cases h' with
    | outOfRange hout => exact absurd hin hout
    | tooLong _ hlong' =>
      rw [← Text.plainDecimal_eq_error_iff] at hlong hlong'
      exact Except.error.inj (hlong.symm.trans hlong')

theorem foldConstants_eq (h : ∀ t ∈ ts, t.body.IsMeaningful) (hfault : ∀ cause, ¬ FoldFault ts cause) :
    foldConstants ts = .ok (folded ts) := by
  rcases foldConstants_cases h with ⟨-, hfolded⟩ | ⟨cause, hcause, -⟩
  · exact hfolded
  · exact absurd hcause (hfault cause)

theorem foldConstants_eq_error_iff (h : ∀ t ∈ ts, t.body.IsMeaningful) {cause : ExactError} :
    foldConstants ts = .error cause ↔ FoldFault ts cause := by
  rcases foldConstants_cases h with ⟨hnone, hfolded⟩ | ⟨cause', hcause', herror⟩
  · rw [hfolded]
    exact iff_of_false (fun h => by cases h) (hnone cause)
  · rw [herror]
    exact ⟨fun h => Except.error.inj h ▸ hcause', fun h => congrArg Except.error (hcause'.unique h)⟩

/-- The ways in which folding can end. -/
theorem folded_cases (ts : List Term) :
    (∀ t ∈ ts, t.isNumeric = false) ∧ folded ts = ts ∨
      (∀ size, Expr.ofSize (amounts ts) ≠ .ok (some size)) ∧ folded ts = ts ∨
      amounts ts = 0 ∧ others ts = [] ∧ folded ts = [⟨.plus, .zero⟩] ∨
      amounts ts = 0 ∧ others ts ≠ [] ∧ folded ts = others ts ∨
      ∃ size, Expr.ofSize (amounts ts) = .ok (some size) ∧ amounts ts ≠ 0 ∧
        folded ts = (ts.takeWhile fun t => !t.isNumeric) ++
          ofNumber (amounts ts) size :: others (ts.dropWhile fun t => !t.isNumeric) := by
  unfold folded
  by_cases hall : (ts.all fun t => !t.isNumeric) = true
  · rw [if_pos hall]
    refine .inl ⟨fun t ht => ?_, rfl⟩
    simpa using List.all_eq_true.1 hall t ht
  rw [if_neg hall]
  rcases hsize : Expr.ofSize (amounts ts) with cause | _ | size
  · exact .inr (.inl ⟨by simp, rfl⟩)
  · exact .inr (.inl ⟨by simp, rfl⟩)
  dsimp only
  rw [withLiteral]
  by_cases hzero : amounts ts = 0
  · rw [if_pos hzero]
    by_cases hnil : others ts = []
    · rw [if_pos hnil]
      exact .inr (.inr (.inl ⟨hzero, hnil, rfl⟩))
    · rw [if_neg hnil]
      exact .inr (.inr (.inr (.inl ⟨hzero, hnil, rfl⟩)))
  · rw [if_neg hzero]
    exact .inr (.inr (.inr (.inr ⟨size, rfl, hzero, rfl⟩)))

/-- What holds of the bodies of the terms, of a zero and of every literal holds of the folded terms. -/
theorem forall_mem_folded {P : Expr → Prop} (h : ∀ t ∈ ts, P t.body) (hzero : P .zero)
    (hsize : ∀ {q size}, Expr.ofSize q = .ok (some size) → P size) : ∀ t ∈ folded ts, P t.body := by
  have hothers : ∀ {rest : List Term}, rest ⊆ ts → ∀ t ∈ others rest, P t.body :=
    fun hrest t ht => h t (hrest (List.mem_of_mem_filter ht))
  rcases folded_cases ts with ⟨-, hfold⟩ | ⟨-, hfold⟩ | ⟨-, -, hfold⟩ | ⟨-, -, hfold⟩ | ⟨size, hof, -, hfold⟩
  · rwa [hfold]
  · rwa [hfold]
  · rw [hfold]
    exact List.forall_mem_singleton.2 hzero
  · rw [hfold]
    exact hothers (List.Subset.refl _)
  · rw [hfold]
    intro t ht
    rcases List.mem_append.1 ht with ht | ht
    · exact h t ((List.takeWhile_subset _) ht)
    · rcases List.mem_cons.1 ht with rfl | ht
      · exact hsize hof
      · exact hothers (List.dropWhile_sublist _).subset t ht

/-! ### Folding again -/

/-- The forms of a folded sum: without a numeric term; with numeric terms the sum of which cannot be
written; with one literal, other than zero, among other terms; or zero alone. -/
inductive IsFolded : List Term → Prop
  | unnumbered {ts : List Term} : (∀ t ∈ ts, t.isNumeric = false) → IsFolded ts
  | unwritten {ts : List Term} : (∀ size, Expr.ofSize (amounts ts) ≠ .ok (some size)) → IsFolded ts
  | literal {q : ℚ} {size : Expr} {before after : List Term} : q ≠ 0 → Expr.ofSize q = .ok (some size) →
      (∀ t ∈ before, t.isNumeric = false) → (∀ t ∈ after, t.isNumeric = false) →
      IsFolded (before ++ ofNumber q size :: after)
  | zero : IsFolded [⟨.plus, .zero⟩]

/-- Folding reaches one of the forms. -/
theorem isFolded_folded (ts : List Term) : IsFolded (folded ts) := by
  rcases folded_cases ts with ⟨h, hfold⟩ | ⟨h, hfold⟩ | ⟨-, -, hfold⟩ | ⟨-, -, hfold⟩ | ⟨size, hof, hne, hfold⟩
  · rw [hfold]
    exact .unnumbered h
  · rw [hfold]
    exact .unwritten h
  · rw [hfold]
    exact .zero
  · rw [hfold]
    exact .unnumbered fun t ht => isNumeric_of_mem_others ht
  · rw [hfold]
    refine .literal hne hof (fun t ht => ?_) fun t ht => isNumeric_of_mem_others ht
    simpa using List.mem_takeWhile_imp ht

/-- The first numeric term is where the literal goes. -/
theorem folded_of_first {before after : List Term} {size : Expr} (hbefore : ∀ t ∈ before, t.isNumeric = false)
    (ht : t.isNumeric = true) (hsize : Expr.ofSize (amounts (before ++ t :: after)) = .ok (some size)) :
    folded (before ++ t :: after) =
      if amounts (before ++ t :: after) = 0 then
        if before ++ others after = [] then [⟨.plus, .zero⟩] else before ++ others after
      else before ++ ofNumber (amounts (before ++ t :: after)) size :: others after := by
  have hfirst : (!t.isNumeric) = false := by rw [ht]; rfl
  have hbefore' : ∀ t ∈ before, (!t.isNumeric) = true := fun t ht => by rw [hbefore t ht]; rfl
  have hall : ¬ ((before ++ t :: after).all fun t => !t.isNumeric) = true := by
    rw [List.all_append, List.all_cons, hfirst]
    simp
  have htake : (before ++ t :: after).takeWhile (fun t => !t.isNumeric) = before := by
    rw [List.takeWhile_append_of_pos hbefore', List.takeWhile_cons, hfirst]
    simp
  have hdrop : (before ++ t :: after).dropWhile (fun t => !t.isNumeric) = t :: after := by
    rw [List.dropWhile_append_of_pos hbefore', List.dropWhile_cons, hfirst]
    simp
  have hothers : others (before ++ t :: after) = before ++ others after := by
    rw [others_append, others_eq_self hbefore, others_cons_of_isNumeric ht]
  rw [folded, if_neg hall, hsize]
  dsimp only
  rw [withLiteral, hothers, htake, hdrop, others_cons_of_isNumeric ht]

/-- A literal among other terms is left in its place. -/
theorem folded_literal {q : ℚ} {size : Expr} {before after : List Term} (hq : q ≠ 0)
    (hsize : Expr.ofSize q = .ok (some size)) (hbefore : ∀ t ∈ before, t.isNumeric = false)
    (hafter : ∀ t ∈ after, t.isNumeric = false) :
    folded (before ++ ofNumber q size :: after) = before ++ ofNumber q size :: after := by
  have hamounts : amounts (before ++ ofNumber q size :: after) = q := by
    rw [amounts_append, amounts_cons, amount_ofNumber hsize, amounts_eq_zero hbefore, amounts_eq_zero hafter,
      add_zero, zero_add]
  rw [folded_of_first hbefore (isNumeric_ofNumber hsize) (by rw [hamounts, hsize]), hamounts, if_neg hq,
    others_eq_self hafter]

/-- **A folded sum is left alone.** -/
theorem folded_of_isFolded (h : IsFolded ts) : folded ts = ts := by
  cases h with
  | unnumbered h =>
    rw [folded, if_pos]
    exact List.all_eq_true.2 fun t ht => by rw [h t ht]; rfl
  | unwritten h =>
    unfold folded
    split
    · rfl
    · split
      · next size hsize => exact absurd hsize (h size)
      · rfl
  | literal hq hsize hbefore hafter => exact folded_literal hq hsize hbefore hafter
  | zero => decide +kernel

/-- The order of a folded sum does not matter. -/
theorem IsFolded.perm (h : IsFolded ss) (hperm : ss.Perm ts) : IsFolded ts := by
  cases h with
  | unnumbered h => exact .unnumbered fun t ht => h t (hperm.mem_iff.2 ht)
  | unwritten h => exact .unwritten (by rwa [← amounts_perm hperm])
  | @literal q size before after hq hsize hbefore hafter =>
    have hmem : ofNumber q size ∈ ts := hperm.mem_iff.1 (List.mem_append_right _ List.mem_cons_self)
    obtain ⟨before', after', rfl⟩ := List.append_of_mem hmem
    have hrest : (before ++ after).Perm (before' ++ after') := by
      have hfront := (List.perm_middle.symm.trans hperm).trans List.perm_middle
      exact (List.perm_cons _).1 hfront
    have hother : ∀ t ∈ before' ++ after', t.isNumeric = false := by
      intro t ht
      exact (List.mem_append.1 (hrest.mem_iff.2 ht)).elim (hbefore t) (hafter t)
    exact .literal hq hsize (fun t ht => hother t (List.mem_append_left _ ht))
      fun t ht => hother t (List.mem_append_right _ ht)
  | zero =>
    rw [List.perm_singleton.1 hperm.symm]
    exact .zero

/-! ### Where the literal stands -/

/-- An operand that writes the size of a number as a plain decimal. -/
structure IsLiteralFor (q : ℚ) (x : Operand) : Prop where
  read : x.read = .ok (.number |q|)
  isPlainDecimal : ∃ whole parts, x.text.toList = Text.withPoint whole parts ∧ Text.IsPlainDecimal whole parts

theorem exists_isLiteralFor {q : ℚ} {size : Expr} (h : Expr.ofSize q = .ok (some size)) :
    ∃ x : Operand, size = .leaf x ∧ IsLiteralFor q x := by
  obtain ⟨x, rfl, htext⟩ := Expr.exists_of_ofSize h
  obtain ⟨whole, parts, hchars, hplain, -⟩ := Text.exists_isPlainDecimal htext
  exact ⟨x, rfl, Operand.read_of_plainDecimal htext, whole, parts, hchars, hplain⟩

/-- What the terms of a sum may be folded into. The terms that are not numeric are kept. Where there are
numeric terms, and their sum is a fraction over a power of ten, one literal with the sign of that sum
takes the place of the first of them; but a sum of zero is left out beside other terms. -/
structure IsFolding (ts fs : List Term) : Prop where
  others_eq : others fs = others ts
  unchanged : (∀ t ∈ ts, t.isNumeric = false) ∨ ¬ Text.IsDecimalFraction (amounts ts) → fs = ts
  countP_le_one : Text.IsDecimalFraction (amounts ts) → fs.countP isNumeric ≤ 1
  written {before after : List Term} {t : Term} : ts = before ++ t :: after → (∀ t ∈ before, t.isNumeric = false) →
    t.isNumeric = true → Text.IsDecimalFraction (amounts ts) →
      amounts ts = 0 ∧ before ++ others after ≠ [] ∧ fs = before ++ others after ∨
        (amounts ts = 0 → before ++ others after = []) ∧ ∃ x : Operand, IsLiteralFor (amounts ts) x ∧
          fs = before ++ ⟨if 0 ≤ amounts ts then .plus else .minus, .leaf x⟩ :: others after

theorem ofNumber_leaf {q : ℚ} (hq : q ≠ 0) (x : Operand) :
    ofNumber q (.leaf x) = ⟨if 0 ≤ q then .plus else .minus, .leaf x⟩ := by
  rw [ofNumber]
  congr 2
  exact propext ⟨le_of_lt, fun hle => lt_of_le_of_ne hle hq.symm⟩

theorem countP_isNumeric_eq_zero (h : ∀ t ∈ ts, t.isNumeric = false) : ts.countP isNumeric = 0 := by
  rw [List.countP_eq_zero]
  intro t ht
  rw [h t ht]
  exact Bool.false_ne_true

/-- **Folded terms** are such. -/
theorem isFolding_folded (hlong : ∀ cause, ¬ Text.IsTooLong (amounts ts) cause) : IsFolding ts (folded ts) := by
  have hwritten : Text.IsDecimalFraction (amounts ts) → ∃ size, Expr.ofSize (amounts ts) = .ok (some size) := by
    intro hdecimal
    rcases hsize : Expr.ofSize (amounts ts) with cause | _ | size
    · exact absurd (Expr.ofSize_eq_error_iff.1 hsize) (hlong cause)
    · exact absurd hdecimal (Expr.ofSize_eq_none_iff.1 hsize)
    · exact ⟨size, rfl⟩
  have hothers : ∀ ss : List Term, ∀ t ∈ others ss, t.isNumeric = false := fun _ _ ht => isNumeric_of_mem_others ht
  have hbefore : ∀ t ∈ ts.takeWhile fun t => !t.isNumeric, t.isNumeric = false := by
    intro t ht
    simpa using List.mem_takeWhile_imp ht
  refine ⟨?_, ?_, ?_, ?_⟩
  · rcases folded_cases ts with ⟨-, h⟩ | ⟨-, h⟩ | ⟨-, hnil, h⟩ | ⟨-, -, h⟩ | ⟨size, hsize, -, h⟩
    · rw [h]
    · rw [h]
    · rw [h, others_cons_of_isNumeric (isNumeric_zero .plus), hnil]
      rfl
    · rw [h, others_others]
    · rw [h, others_append, others_cons_of_isNumeric (isNumeric_ofNumber hsize), others_others, ← others_append,
        List.takeWhile_append_dropWhile]
  · intro h
    unfold folded
    split
    · rfl
    · next hall =>
      rcases h with h | h
      · exact absurd (List.all_eq_true.2 fun t ht => by rw [h t ht]; rfl) hall
      · rw [Expr.ofSize_eq_none_iff.2 h]
  · intro hdecimal
    rcases folded_cases ts with ⟨hnone, h⟩ | ⟨hnone, -⟩ | ⟨-, -, h⟩ | ⟨-, -, h⟩ | ⟨size, -, -, h⟩
    · rw [h, countP_isNumeric_eq_zero hnone]
      exact Nat.zero_le 1
    · obtain ⟨size, hsize⟩ := hwritten hdecimal
      exact absurd hsize (hnone size)
    · rw [h]
      exact List.countP_le_length
    · rw [h, countP_isNumeric_eq_zero (hothers ts)]
      exact Nat.zero_le 1
    · rw [h, List.countP_append, List.countP_cons, countP_isNumeric_eq_zero hbefore,
        countP_isNumeric_eq_zero (hothers _)]
      split <;> omega
  · intro before after t hts hunnumbered ht hdecimal
    obtain ⟨size, hsize⟩ := hwritten hdecimal
    subst hts
    rw [folded_of_first hunnumbered ht hsize]
    by_cases hzero : amounts (before ++ t :: after) = 0
    · rw [if_pos hzero]
      by_cases hnil : before ++ others after = []
      · obtain ⟨x, hx, hliteral⟩ := exists_isLiteralFor Expr.ofSize_zero
        obtain ⟨rfl, hafter⟩ := List.append_eq_nil_iff.1 hnil
        refine .inr ⟨fun _ => hnil, x, by rwa [hzero], ?_⟩
        rw [if_pos hnil, hzero, if_pos le_rfl, hafter, hx]
        rfl
      · exact .inl ⟨hzero, hnil, if_neg hnil⟩
    · obtain ⟨x, rfl, hliteral⟩ := exists_isLiteralFor hsize
      refine .inr ⟨fun h => absurd h hzero, x, hliteral, ?_⟩
      rw [if_neg hzero, ofNumber_leaf hzero]

/-- Folding keeps the sum of the numeric terms. -/
theorem amounts_folded (ts : List Term) : amounts (folded ts) = amounts ts := by
  have hothers : ∀ ss : List Term, amounts (others ss) = 0 := fun _ =>
    amounts_eq_zero fun _ ht => isNumeric_of_mem_others ht
  rcases folded_cases ts with ⟨-, h⟩ | ⟨-, h⟩ | ⟨hzero, -, h⟩ | ⟨hzero, -, h⟩ | ⟨size, hsize, -, h⟩
  · rw [h]
  · rw [h]
  · rw [h, hzero]
    decide +kernel
  · rw [h, hzero, hothers]
  · have hbefore : amounts (ts.takeWhile fun t => !t.isNumeric) = 0 :=
      amounts_eq_zero fun t ht => by simpa using List.mem_takeWhile_imp ht
    rw [h, amounts_append, amounts_cons, amount_ofNumber hsize, hbefore, hothers, add_zero, zero_add]

theorem isMeaningful_folded (h : ∀ t ∈ ts, t.body.IsMeaningful) : ∀ t ∈ folded ts, t.body.IsMeaningful :=
  forall_mem_folded h Expr.isReadable_zero.isMeaningful fun hsize => (Expr.isReadable_of_ofSize hsize).isMeaningful

theorem areNumbersInRange_folded (h : AreNumbersInRange ts) : AreNumbersInRange (folded ts) := by
  have hinRange : ∀ {e : Expr}, e.IsReadable → e.isConstant = true → e.IsInRange :=
    fun hread _ => hread.isMeaningful.isReadable_iff.1 hread
  exact forall_mem_folded (P := fun e => e.isConstant = true → e.IsInRange) h (hinRange Expr.isReadable_zero)
    fun hsize => hinRange (Expr.isReadable_of_ofSize hsize)

theorem areNumbersInRange_of_not_foldFault (h : ∀ cause, ¬ FoldFault ts cause) : AreNumbersInRange ts := by
  by_contra hout
  exact h _ (.outOfRange hout)

theorem not_isTooLong_of_not_foldFault (h : ∀ cause, ¬ FoldFault ts cause) (cause : ExactError) :
    ¬ Text.IsTooLong (amounts ts) cause :=
  fun hlong => h cause (.tooLong (areNumbersInRange_of_not_foldFault h) hlong)

/-- What stops folding depends on the numerals and the sum of the numeric terms alone. -/
theorem not_foldFault_of_amounts_eq (hrange : AreNumbersInRange ts → AreNumbersInRange ss)
    (hamounts : amounts ss = amounts ts) (h : ∀ cause, ¬ FoldFault ts cause) (cause : ExactError) :
    ¬ FoldFault ss cause := by
  rintro (hout | ⟨-, hlong⟩)
  · exact hout (hrange (areNumbersInRange_of_not_foldFault h))
  · exact not_isTooLong_of_not_foldFault h cause (hamounts ▸ hlong)

/-- What has been folded can be folded again. -/
theorem not_foldFault_folded (h : ∀ cause, ¬ FoldFault ts cause) (cause : ExactError) :
    ¬ FoldFault (folded ts) cause :=
  not_foldFault_of_amounts_eq areNumbersInRange_folded (amounts_folded ts) h cause

/-- **Folding constants** fails where a numeral is out of range or the sum of the numeric terms is too long to
be written, and nowhere else. It keeps the value of the sum, puts one literal in the place of the numeric
terms and changes nothing the second time. -/
theorem foldConstants_exact (h : ∀ t ∈ ts, t.body.IsMeaningful) :
    (∀ cause, foldConstants ts = .error cause ↔ FoldFault ts cause) ∧
      ((∀ cause, ¬ FoldFault ts cause) →
        ∃ fs, foldConstants ts = .ok fs ∧ IsFolding ts fs ∧ foldConstants fs = .ok fs ∧
          ∀ {K : Type*} [Field K] [LinearOrder K] [IsStrictOrderedRing K] (ρ : Valuation K),
            ρ.IsReal (ts.flatMap fun t => t.body.constants) → (∀ t ∈ ts, (t.body.value? ρ).isSome) →
              sum? ρ fs = sum? ρ ts) := by
  refine ⟨fun cause => foldConstants_eq_error_iff h, fun hfault => ?_⟩
  refine ⟨folded ts, foldConstants_eq h hfault, isFolding_folded (not_isTooLong_of_not_foldFault hfault), ?_, ?_⟩
  · rw [foldConstants_eq (isMeaningful_folded h) (not_foldFault_folded hfault),
      folded_of_isFolded (isFolded_folded ts)]
  · intro K _ _ _ ρ hρ hdefined
    obtain ⟨x, hx⟩ := Option.isSome_iff_exists.1 ((sum?_isSome_iff ρ).2 hdefined)
    have hconstants : ∀ t ∈ ts, t.body.constants ⊆ ts.flatMap fun t => t.body.constants := by
      intro t ht c hc
      exact List.mem_flatMap.2 ⟨t, ht, hc⟩
    rw [hx]
    exact sum?_foldConstants hρ.respectsNumbers hconstants (foldConstants_eq h hfault) hx

/-- `x1 + 1 / 16 - x2 - 2.0625`. -/
def sixteenths : List Term :=
  [⟨.plus, .leaf ⟨"x1", by decide⟩⟩, ⟨.plus, .node .one .div (.leaf ⟨"16", by decide⟩)⟩,
    ⟨.minus, .leaf ⟨"x2", by decide⟩⟩, ⟨.minus, .leaf ⟨"2.0625", by decide⟩⟩]

theorem foldConstants_exact_sixteenths : ∃ fs, foldConstants sixteenths = .ok fs ∧ foldConstants fs = .ok fs ∧
    fs.map (fun t => (t.sign, t.body.render)) = [(.plus, "x1"), (.minus, "2"), (.minus, "x2")] := by
  have hmeaning : ∀ t ∈ sixteenths, t.body.IsMeaningful := by
    simp only [sixteenths, List.forall_mem_cons, List.not_mem_nil, false_implies, implies_true, and_true]
    refine ⟨?_, ?_, ?_, ?_⟩
    · exact Expr.isMeaningful_leaf (v := .unknown "x1") (by decide +kernel)
    · refine Expr.isMeaningful_node.2 ⟨Expr.isReadable_one.isMeaningful, ?_⟩
      exact Expr.isMeaningful_leaf (v := .number 16) (by decide +kernel)
    · exact Expr.isMeaningful_leaf (v := .unknown "x2") (by decide +kernel)
    · exact Expr.isMeaningful_leaf (v := .number 2.0625) (by decide +kernel)
  have hshown : (foldConstants sixteenths).toOption.map (List.map fun t => (t.sign, t.body.render)) =
      some [(.plus, "x1"), (.minus, "2"), (.minus, "x2")] := by
    decide +kernel
  obtain ⟨herror, hok⟩ := foldConstants_exact.{0} hmeaning
  obtain ⟨fs, hfs, -, hagain, -⟩ := hok fun cause hfault => by
    rw [(herror cause).2 hfault] at hshown
    cases hshown
  rw [hfs] at hshown
  exact ⟨fs, hfs, hagain, Option.some.inj hshown⟩

/-- **A zero that cannot be folded**: its digit is out of range. -/
theorem foldConstants_farZero : foldConstants [⟨.plus, .leaf .farZero⟩] = .error .exponentOutOfRange ∧
    ¬ ∀ ts : List Term, (∀ t ∈ ts, t.body.IsMeaningful) → ∃ fs, foldConstants ts = .ok fs := by
  have herror : foldConstants [⟨.plus, .leaf .farZero⟩] = .error .exponentOutOfRange := by decide +kernel
  refine ⟨herror, fun h => ?_⟩
  obtain ⟨fs, hfs⟩ := h [⟨.plus, .leaf .farZero⟩]
    (List.forall_mem_singleton.2 (Expr.isMeaningful_leaf Operand.meaning?_farZero))
  rw [herror] at hfs
  cases hfs

/-! ### A zero in front -/

theorem amounts_cons_zero (ts : List Term) : amounts (⟨.plus, .zero⟩ :: ts) = amounts ts := by
  rw [amounts_cons, amount, number?_zero]
  exact zero_add _

theorem not_all_of_isNumeric (h : t.isNumeric = true) : ¬ ((t :: ts).all fun t => !t.isNumeric) = true := by
  rw [List.all_cons, h]
  exact Bool.false_ne_true

/-- A zero in front of other terms is folded away. -/
theorem folded_cons_zero_of_unnumbered (h : ∀ t ∈ ts, t.isNumeric = false) (hne : ts ≠ []) :
    folded (⟨.plus, .zero⟩ :: ts) = ts := by
  have hamounts : amounts (⟨.plus, .zero⟩ :: ts) = 0 := by rw [amounts_cons_zero, amounts_eq_zero h]
  have hothers : others (⟨.plus, .zero⟩ :: ts) = ts := by
    rw [others_cons_of_isNumeric (isNumeric_zero .plus), others_eq_self h]
  rw [folded, if_neg (not_all_of_isNumeric (isNumeric_zero .plus)), hamounts, Expr.ofSize_zero]
  dsimp only
  rw [withLiteral, hamounts, if_pos rfl, hothers, if_neg hne]

/-- So is a zero in front of a literal. -/
theorem folded_cons_zero_of_literal {q : ℚ} {size : Expr} (hq : q ≠ 0) (hsize : Expr.ofSize q = .ok (some size))
    (h : ∀ t ∈ ts, t.isNumeric = false) :
    folded (⟨.plus, .zero⟩ :: ofNumber q size :: ts) = ofNumber q size :: ts := by
  have hamounts : amounts (⟨.plus, .zero⟩ :: ofNumber q size :: ts) = q := by
    rw [amounts_cons_zero, amounts_cons, amount_ofNumber hsize, amounts_eq_zero h, add_zero]
  have hothers : others (⟨.plus, .zero⟩ :: ofNumber q size :: ts) = ts := by
    rw [others_cons_of_isNumeric (isNumeric_zero .plus), others_cons_of_isNumeric (isNumeric_ofNumber hsize),
      others_eq_self h]
  rw [folded, if_neg (not_all_of_isNumeric (isNumeric_zero .plus)), hamounts, hsize]
  dsimp only
  rw [withLiteral, hamounts, if_neg hq, List.takeWhile_cons, List.dropWhile_cons, isNumeric_zero]
  simp only [Bool.not_true, Bool.false_eq_true, if_false]
  rw [hothers, List.nil_append]

/-- Where the first term was added and no folded one is, the literal is the first of the folded terms, if
there is one. So a zero in front of them is folded away. -/
theorem folded_cons_zero_folded (ht : t.sign = .plus) (hadded : added (folded (t :: ts)) = []) :
    folded (⟨.plus, .zero⟩ :: folded (t :: ts)) = folded (t :: ts) := by
  have hminus := added_eq_nil_iff.1 hadded
  have hfirst : t ∉ folded (t :: ts) := by
    intro hmem
    have hsign := hminus t hmem
    rw [ht] at hsign
    cases hsign
  rcases folded_cases (t :: ts) with ⟨-, hfold⟩ | ⟨-, hfold⟩ | ⟨-, -, hfold⟩ | ⟨-, hne, hfold⟩ |
    ⟨size, hof, hne, hfold⟩
  · rw [hfold] at hfirst
    exact absurd List.mem_cons_self hfirst
  · rw [hfold] at hfirst
    exact absurd List.mem_cons_self hfirst
  · rw [hfold] at hadded
    cases hadded
  · rw [hfold]
    exact folded_cons_zero_of_unnumbered (fun t ht => isNumeric_of_mem_others ht) hne
  · have hnumeric : t.isNumeric = true := by
      -- else it would stand in front of the literal
      by_contra hnot
      apply hfirst
      rw [hfold, List.takeWhile_cons, Bool.eq_false_of_not_eq_true hnot]
      exact List.mem_append_left _ List.mem_cons_self
    rw [List.takeWhile_cons, hnumeric] at hfold
    rw [hfold]
    exact folded_cons_zero_of_literal hne hof fun t ht => isNumeric_of_mem_others ht

/-- The order of the terms, and a zero in front of them, do not stop folding. -/
theorem not_foldFault_ordered (h : ∀ cause, ¬ FoldFault ts cause) (cause : ExactError) :
    ¬ FoldFault (ordered ts) cause := by
  by_cases hadded : added ts = []
  · rw [ordered_of_added_eq_nil hadded]
    refine not_foldFault_of_amounts_eq (fun hrange => ?_) (amounts_cons_zero ts) h cause
    have hread := Expr.isReadable_zero
    exact List.forall_mem_cons.2 ⟨fun _ => hread.isMeaningful.isReadable_iff.1 hread, hrange⟩
  · rw [ordered_of_added_ne_nil hadded]
    have hperm := added_append_subtracted_perm ts
    exact not_foldFault_of_amounts_eq (fun hrange t ht => hrange t (hperm.mem_iff.1 ht)) (amounts_perm hperm) h cause

/-- **Joining folded terms, taking the sum apart and folding again** makes the same sum, if the first
term was added before it was folded. -/
theorem join_folded_ordered (ht : t.sign = .plus) :
    join (folded (ordered (folded (t :: ts)))) = join (folded (t :: ts)) := by
  have hfolded := isFolded_folded (t :: ts)
  by_cases hadded : added (folded (t :: ts)) = []
  · rw [ordered_of_added_eq_nil hadded, folded_cons_zero_folded ht hadded]
  · have hperm : (folded (t :: ts)).Perm (ordered (folded (t :: ts))) := by
      rw [ordered_of_added_ne_nil hadded]
      exact (added_append_subtracted_perm _).symm
    rw [folded_of_isFolded (hfolded.perm hperm), join_ordered]

end Term

end LinearRelations
