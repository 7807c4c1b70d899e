import LinearRelations.Proofs.Exact.Decision
import LinearRelations.Proofs.PlainDecimal
import LinearRelations.Proofs.Sum

/-!
# Values of folded and divided sums

* `Term.sum?_foldConstants`: folding the numeric terms of a sum keeps its value;
* `Expr.value?_over`: dividing by a fraction turned around is dividing by the fraction;
* `Expr.LosesSign`: whether the sign of a coefficient is lost;
* `Term.exists_value?_divide`: a sum divided by a coefficient has the value of the quotient by it, or by
  its opposite if the sign is lost.
-/

namespace LinearRelations

variable {K : Type*} [Field K]

/-! ### Numeric terms -/

section Numeric

namespace Term

theorem cast_signed (s : Sign) (q : ℚ) : ((signed s q : ℚ) : K) = s.onValue (q : K) := by
  cases s <;> simp [signed]

/-- The size of a number under its sign is the number. -/
theorem signed_abs (q : ℚ) : signed (if 0 < q then .plus else .minus) |q| = q := by
  split
  · next hpos => rw [signed, abs_of_pos hpos]
  · next hpos => rw [signed, abs_of_nonpos (not_lt.1 hpos), neg_neg]

theorem valued_cons (t : Term) (ts : List Term) :
    valued (t :: ts) = do
      let value ← t.body.constantValue
      let rest ← valued ts
      return (t, value) :: rest := by
  rw [valued, List.mapM_cons, ← valued]
  rcases t.body.constantValue with cause | value <;> rfl

/-- The entries are the terms in order, each with its value. -/
theorem of_valued {ts : List Term} {entries : List (Term × Option Rat)} (h : valued ts = .ok entries) :
    entries.map Prod.fst = ts ∧ ∀ entry ∈ entries, entry.1.body.constantValue = .ok entry.2 := by
  induction ts generalizing entries with
  | nil =>
    obtain rfl : [] = entries := by simpa [valued, pure, Except.pure] using h
    simp
  | cons t ts ih =>
    rw [valued_cons] at h
    obtain ⟨value, hvalue, h⟩ := exists_of_bind_eq_ok h
    obtain ⟨rest, hrest, h⟩ := exists_of_bind_eq_ok h
    obtain rfl : (t, value) :: rest = entries := Except.ok.inj h
    obtain ⟨hfst, hall⟩ := ih hrest
    refine ⟨by rw [List.map_cons, hfst], ?_⟩
    intro entry hentry
    rcases List.mem_cons.1 hentry with rfl | hentry
    · exact hvalue
    · exact hall entry hentry

theorem total_cons (entry : Term × Option Rat) (entries : List (Term × Option Rat)) :
    total (entry :: entries) = (entry.2.map (signed entry.1.sign)).getD 0 + total entries := by
  have hfold : ∀ (start : ℚ) (l : List (Term × Option Rat)),
      l.foldl (fun sum entry => sum + (entry.2.map (signed entry.1.sign)).getD 0) start =
        start + total l := by
    intro start l
    induction l generalizing start with
    | nil => simp [total]
    | cons entry l ih => rw [total, List.foldl_cons, List.foldl_cons, ih, ih (0 + _)]; ring
  rw [total, List.foldl_cons, hfold, zero_add]

theorem unvalued_cons (entry : Term × Option Rat) (entries : List (Term × Option Rat)) :
    unvalued (entry :: entries) =
      if entry.2.isNone then entry.1 :: unvalued entries else unvalued entries := by
  rw [unvalued, List.filter_cons]
  split <;> rfl

theorem unvalued_append (es fs : List (Term × Option Rat)) :
    unvalued (es ++ fs) = unvalued es ++ unvalued fs := by
  simp [unvalued]

variable [DecidableEq K] (ρ : Valuation K)

theorem value?_ofNumber {q : ℚ} {size : Expr} (h : size.value? ρ = some ((|q| : ℚ) : K)) :
    (ofNumber q size).value? ρ = some (q : K) := by
  rw [ofNumber, value?, h, Option.map_some, ← cast_signed, signed_abs q]

variable [CharZero K]

/-- Each entry that has a number has it as its value. -/
def IsValued (entries : List (Term × Option Rat)) : Prop :=
  ∀ entry ∈ entries, ∀ q, entry.2 = some q → entry.1.value? ρ = some ((signed entry.1.sign q : ℚ) : K)

/-- A sum is the sum of its other terms and the total of its numeric ones. -/
theorem sum?_of_isValued {entries : List (Term × Option Rat)} (h : IsValued ρ entries) :
    sum? ρ (entries.map Prod.fst) =
      Operator.add.onValues? (sum? ρ (unvalued entries)) (some ((total entries : ℚ) : K)) := by
  induction entries with
  | nil => simp [unvalued, sum?, total]
  | cons entry entries ih =>
    have ih := ih fun e he => h e (by simp [he])
    rw [List.map_cons, sum?_cons, ih, total_cons]
    rcases hvalue : entry.2 with _ | q
    · rw [unvalued_cons, hvalue, Option.isNone_none, if_pos rfl, sum?_cons,
        Operator.add_onValues?_assoc, Option.map_none, Option.getD_none, zero_add]
    · rw [unvalued_cons, hvalue, Option.isNone_some, if_neg Bool.false_ne_true,
        h entry (by simp) q hvalue]
      rcases sum? ρ (unvalued entries) with _ | x
      · simp
      · simp [add_left_comm]

/-- Replacing the numeric terms by their total keeps the sum. -/
theorem sum?_replaceNumeric {entries : List (Term × Option Rat)} {size : Expr}
    (h : IsValued ρ entries) (hsize : size.value? ρ = some ((|total entries| : ℚ) : K)) :
    sum? ρ (replaceNumeric entries size) = sum? ρ (entries.map Prod.fst) := by
  rw [sum?_of_isValued ρ h]
  simp only [replaceNumeric]
  split
  · next hzero =>
    rw [hzero, Rat.cast_zero, Operator.add_onValues?_zero_right]
    split
    · next hnil => rw [hnil, sum?_singleton, value?, Expr.value?_zero]; simp [sum?]
    · rfl
  · set before := entries.takeWhile fun entry => entry.2.isNone with hbefore
    have hsplit : before ++ entries.drop before.length = entries := by
      have hprefix : before <+: entries := List.takeWhile_prefix _
      obtain ⟨after, hafter⟩ := hprefix
      conv_lhs => rw [← hafter, List.drop_left]
      exact hafter
    rw [sum?_perm ρ List.perm_middle, sum?_cons, ← unvalued_append, hsplit, value?_ofNumber ρ hsize,
      Operator.add_onValues?_comm]

end Term

end Numeric

/-! ### Folding -/

section Fold

variable [DecidableEq K]

namespace Term

variable {ρ : Valuation K} {cs : List Constant} (hρ : ρ.RespectsNumbers cs)

include hρ

theorem isValued_of_valued {ts : List Term} {entries : List (Term × Option Rat)} {x : K}
    (hcs : ∀ term ∈ ts, term.body.constants ⊆ cs) (h : valued ts = .ok entries)
    (hx : sum? ρ ts = some x) : IsValued ρ entries := by
  obtain ⟨rfl, hall⟩ := of_valued h
  intro entry hentry q hq
  have hmem : entry.1 ∈ entries.map Prod.fst := List.mem_map_of_mem hentry
  have hdef := (sum?_isSome_iff ρ).1 (by rw [hx]; rfl) entry.1 hmem
  obtain ⟨y, hy⟩ := Option.isSome_iff_exists.1 hdef
  rw [value?, hy, Option.map_some, cast_signed, hρ (hcs _ hmem) (hq ▸ hall entry hentry) hy]

variable [CharZero K]

/-- **Folding the numeric terms of a sum keeps its value.** -/
theorem sum?_foldConstants {ts folded : List Term} {x : K}
    (hcs : ∀ term ∈ ts, term.body.constants ⊆ cs) (h : foldConstants ts = .ok folded)
    (hx : sum? ρ ts = some x) : sum? ρ folded = some x := by
  unfold foldConstants at h
  obtain ⟨entries, hentries, h⟩ := exists_of_bind_eq_ok h
  have hvalued := isValued_of_valued hρ hcs hentries hx
  split at h
  · obtain rfl := Except.ok.inj h
    exact hx
  · obtain ⟨size, hsize, h⟩ := exists_of_bind_eq_ok h
    rcases size with _ | size
    · obtain rfl := Except.ok.inj h
      exact hx
    · obtain rfl := Except.ok.inj h
      rw [sum?_replaceNumeric ρ hvalued (Expr.value?_of_ofSize _ hsize), (of_valued hentries).1, hx]

end Term

end Fold

/-! ### Dividing -/

section Divide

namespace Expr

theorem mem_leaves_over {y : Operand} {term d : Expr} (h : y ∈ (term.over d).leaves) :
    y ∈ term.leaves ∨ y ∈ d.leaves := by
  fun_induction Expr.over term d with
  | case1 operand hone => exact .inl h
  | case2 operand _ => exact mem_leaves_node.1 h
  | case3 a b ih =>
    rcases mem_leaves_node.1 h with h | h
    · exact (ih h).imp_right fun h => mem_leaves_node.2 (.inl h)
    · exact .inr (mem_leaves_node.2 (.inr h))
  | case4 d _ _ => exact mem_leaves_node.1 h

theorem constants_over_subset {term d : Expr} {cs : List Constant} (hterm : term.constants ⊆ cs)
    (hd : d.constants ⊆ cs) : (term.over d).constants ⊆ cs := by
  intro c hc
  obtain ⟨y, hy, hyc⟩ := List.mem_filterMap.1 hc
  rcases mem_leaves_over hy with hy | hy
  · exact hterm (List.mem_filterMap.2 ⟨y, hy, hyc⟩)
  · exact hd (List.mem_filterMap.2 ⟨y, hy, hyc⟩)

theorem constants_of_ofSize {q : ℚ} {size : Expr} (h : ofSize q = .ok (some size)) : size.constants = [] := by
  obtain ⟨x, rfl, hx⟩ := of_ofSize h
  simp [constants, leaves, Operand.constant?, Operand.meaning?_of_read hx]

/-- A literal for the size of an expression is one for the size of its number. -/
theorem of_sizeLiteral {e : Expr} {size : Option Expr} (h : e.sizeLiteral = .ok size) :
    e.constantValue = .ok none ∧ size = none ∨
      ∃ q, e.constantValue = .ok (some q) ∧ ofSize q = .ok size := by
  obtain ⟨value, hvalue, h⟩ := exists_of_bind_eq_ok h
  rcases value with _ | q
  · exact .inl ⟨hvalue, (Except.ok.inj h).symm⟩
  · exact .inr ⟨q, hvalue, h⟩

variable [DecidableEq K]

theorem value?_div (ρ : Valuation K) (term : Expr) {d : Expr} {y : K}
    (hd : d.value? ρ = some y) (hy : y ≠ 0) :
    (node term .div d).value? ρ = (term.value? ρ).map (· / y) := by
  rw [value?_node, hd]
  rcases term.value? ρ with _ | x
  · rfl
  · rw [Operator.div_onValues?, if_neg hy]
    rfl

/-- **Dividing by a fraction turned around is dividing by the fraction.** -/
theorem value?_over (ρ : Valuation K) (term : Expr) {d : Expr} {y : K}
    (hd : d.value? ρ = some y) (hy : y ≠ 0) :
    (term.over d).value? ρ = (term.value? ρ).map (· / y) := by
  fun_induction Expr.over term d generalizing y with
  | case1 operand hone =>
    rw [hone, value?_one] at hd
    obtain rfl := Option.some.inj hd
    simp
  | case2 operand _ => exact value?_div ρ term hd hy
  | case3 a b ih =>
    rw [value?_node] at hd
    obtain ⟨u, v, hu, hv⟩ := Operator.exists_of_onValues? hd
    rw [hu, hv, Operator.div_onValues?] at hd
    split at hd
    · cases hd
    · obtain rfl := Option.some.inj hd
      have hu0 : u ≠ 0 := fun h => hy (by rw [h, zero_div])
      rw [value?_node, ih hu hu0, hv]
      rcases term.value? ρ with _ | x
      · rfl
      · simp only [Option.map_some, Operator.mul_onValues?]
        rw [div_div_eq_mul_div, div_mul_eq_mul_div]
  | case4 d _ _ => exact value?_div ρ term hd hy

end Expr

/-- Whether the sign of a coefficient is lost where a sum is divided by it: the coefficient is a sum that is
found to be a negative number with a finite decimal expansion, and of such a number only the size is
written. -/
def Expr.LosesSign (d : Expr) : Prop :=
  d.isAdditive = true ∧ ∃ q, d.constantValue = .ok (some q) ∧ q < 0 ∧ ∃ size, ofSize q = .ok (some size)

namespace Term

/-- The terms, each divided by a coefficient. -/
def mapOver (ts : List Term) (d : Expr) : List Term :=
  ts.map fun term => { term with body := term.body.over d }

variable [DecidableEq K]

/-- Dividing every term divides the sum. -/
theorem sum?_mapOver (ρ : Valuation K) (ts : List Term) {d : Expr} {y : K}
    (hd : d.value? ρ = some y) (hy : y ≠ 0) : sum? ρ (mapOver ts d) = (sum? ρ ts).map (· / y) := by
  induction ts with
  | nil => simp [mapOver, sum?]
  | cons t ts ih =>
    rw [mapOver, List.map_cons, ← mapOver, sum?_cons, ih, sum?_cons]
    simp only [value?, Expr.value?_over ρ t.body hd hy]
    rcases t.body.value? ρ with _ | x <;> rcases sum? ρ ts with _ | z <;> cases t.sign <;>
      simp [add_div, neg_div]

variable [CharZero K] {ρ : Valuation K} {cs : List Constant} (hρ : ρ.RespectsNumbers cs)

include hρ

theorem value?_divideEach {ts : List Term} {d e : Expr} {x y : K}
    (hts : ∀ term ∈ ts, term.body.constants ⊆ cs) (hdcs : d.constants ⊆ cs)
    (h : divideEach ts d = .ok e) (hx : sum? ρ ts = some x) (hd : d.value? ρ = some y) (hy : y ≠ 0) :
    e.value? ρ = some (x / y) := by
  rw [divideEach, ← mapOver] at h
  obtain ⟨folded, hfold, h⟩ := exists_of_bind_eq_ok h
  obtain rfl := Except.ok.inj h
  have hcs : ∀ term ∈ mapOver ts d, term.body.constants ⊆ cs := by
    intro term hterm
    obtain ⟨t, ht, rfl⟩ := List.mem_map.1 hterm
    exact Expr.constants_over_subset (hts t ht) hdcs
  rw [value?_join]
  refine sum?_foldConstants hρ hcs hfold ?_
  rw [sum?_mapOver _ _ hd hy, hx]
  rfl

/-- **A sum divided by a coefficient has the value of the quotient** by it, or by its opposite if the sign
of the coefficient is lost. -/
theorem exists_value?_divide {ts : List Term} {d e : Expr} {x y : K}
    (hts : ∀ term ∈ ts, term.body.constants ⊆ cs) (hdcs : d.constants ⊆ cs)
    (h : divide ts d = .ok e) (hx : sum? ρ ts = some x) (hd : d.value? ρ = some y) (hy : y ≠ 0) :
    ∃ z, e.value? ρ = some (x / z) ∧ (¬ d.LosesSign ∧ z = y ∨ d.LosesSign ∧ z = -y) := by
  unfold divide at h
  split at h
  · next hnil =>
    obtain rfl := List.isEmpty_iff.1 hnil
    obtain rfl := Option.some.inj hx
    obtain rfl := Except.ok.inj h
    have hzero : ∀ z : K, Expr.zero.value? ρ = some (0 / z) := fun z => by rw [Expr.value?_zero, zero_div]
    by_cases hloses : d.LosesSign
    · exact ⟨-y, hzero (-y), .inr ⟨hloses, rfl⟩⟩
    · exact ⟨y, hzero y, .inl ⟨hloses, rfl⟩⟩
  · split at h
    · next hadditive =>
      obtain ⟨size, hsize, h⟩ := exists_of_bind_eq_ok h
      rcases size with _ | size
      · obtain ⟨folded, hfold, h⟩ := exists_of_bind_eq_ok h
        obtain rfl := Except.ok.inj h
        refine ⟨y, ?_, .inl ⟨?_, rfl⟩⟩
        · rw [Expr.value?_div ρ _ hd hy, value?_join, sum?_foldConstants hρ hts hfold hx]
          rfl
        · rintro ⟨-, q, hq, -, size, hwritten⟩
          rcases Expr.of_sizeLiteral hsize with ⟨hnone, -⟩ | ⟨q', hq', hnone⟩
          · cases hnone.symm.trans hq
          · obtain rfl := Option.some.inj (Except.ok.inj (hq'.symm.trans hq))
            cases hnone.symm.trans hwritten
      · obtain ⟨-, hnone⟩ | ⟨q, hvalue, hq⟩ := Expr.of_sizeLiteral hsize
        · cases hnone
        have hsizecs : size.constants ⊆ cs := by simp [Expr.constants_of_ofSize hq]
        have hyq : y = (q : K) := hρ hdcs hvalue hd
        have hq0 : q ≠ 0 := by
          rintro rfl
          exact hy (by rw [hyq, Rat.cast_zero])
        refine ⟨((|q| : ℚ) : K), value?_divideEach hρ hts hsizecs h hx (Expr.value?_of_ofSize _ hq) ?_, ?_⟩
        · exact_mod_cast abs_ne_zero.2 hq0
        -- only the size of the number is written
        rcases lt_or_gt_of_ne hq0 with hneg | hpos
        · refine .inr ⟨⟨hadditive, q, hvalue, hneg, size, hq⟩, ?_⟩
          rw [abs_of_neg hneg, hyq, Rat.cast_neg]
        · refine .inl ⟨?_, by rw [abs_of_pos hpos, hyq]⟩
          rintro ⟨-, q', hq', hneg, -⟩
          obtain rfl := Option.some.inj (Except.ok.inj (hvalue.symm.trans hq'))
          exact absurd hneg hpos.not_gt
    · next hadditive =>
      exact ⟨y, value?_divideEach hρ hts hdcs h hx hd hy, .inl ⟨fun hloses => hadditive hloses.1, rfl⟩⟩

/-- A coefficient that is no negative number keeps its sign. -/
theorem value?_divide {ts : List Term} {d e : Expr} {x y : K}
    (hts : ∀ term ∈ ts, term.body.constants ⊆ cs) (hdcs : d.constants ⊆ cs)
    (h : divide ts d = .ok e) (hx : sum? ρ ts = some x) (hd : d.value? ρ = some y) (hy : y ≠ 0)
    (hpos : ∀ q, d.constantValue = .ok (some q) → 0 < q) : e.value? ρ = some (x / y) := by
  obtain ⟨z, hz, ⟨-, rfl⟩ | ⟨⟨-, q, hq, hneg, -⟩, -⟩⟩ := exists_value?_divide hρ hts hdcs h hx hd hy
  · exact hz
  · exact absurd hneg (hpos q hq).not_gt

end Term

end Divide

end LinearRelations
