import LinearRelations.Proofs.Sum

/-!
# The expanded form

An expression is normal if no sum stands as a factor or as a numerator anywhere in it, its divisors
included. Expanding reaches a normal expression at once and leaves normal expressions alone, so it
makes no difference whether the products and quotients that come up while distributing are expanded
again. The terms of an expanded product are all products of a term of the one factor and a term of
the other, in the order of the two factors.

* `Expr.isNormal_expand`, `Expr.expand_of_isNormal`: expanded expressions are normal, and normal
  ones are expanded;
* `Expr.expand_reaches_normal_form`: so expanding twice is expanding once;
* `Expr.expand_mul_of_left`, `Expr.expand_mul_of_right`, `Expr.expand_div_of_left`: distributing and
  expanding again, step by step;
* `Expr.terms_distribute`, `Expr.terms_shareDivisor`: the terms of a product and of a quotient;
* `Expr.terms_expand`: the terms of an expanded expression by its operator.
-/

namespace LinearRelations.Expr

/-! ### Normal expressions -/

/-- Whether nowhere in an expression, its divisors included, a sum is a factor or a numerator. -/
def isNormal : Expr → Bool
  | leaf _ => true
  | node lhs .mul rhs => !lhs.isAdditive && !rhs.isAdditive && lhs.isNormal && rhs.isNormal
  | node lhs .div rhs => !lhs.isAdditive && lhs.isNormal && rhs.isNormal
  | node lhs _ rhs => lhs.isNormal && rhs.isNormal

theorem isAdditive_eq_false_iff {e : Expr} :
    e.isAdditive = false ↔ (∀ a b, e = node a .add b → False) ∧ ∀ a b, e = node a .sub b → False := by
  match e with
  | leaf _ => simp [isAdditive]
  | node _ .mul _ => simp [isAdditive, Operator.isAdditive]
  | node _ .div _ => simp [isAdditive, Operator.isAdditive]
  | node _ .add _ => simp [isAdditive, Operator.isAdditive]
  | node _ .sub _ => simp [isAdditive, Operator.isAdditive]

theorem isNormal_distributeRight {lhs rhs : Expr} (hl : lhs.isNormal = true)
    (hfactor : lhs.isAdditive = false) (hr : rhs.isNormal = true) :
    (lhs.distributeRight rhs).isNormal = true := by
  fun_induction distributeRight lhs rhs with
  | case1 a b iha ihb =>
    simp only [isNormal, Bool.and_eq_true] at hr ⊢
    exact ⟨iha hr.1, ihb hr.2⟩
  | case2 a b iha ihb =>
    simp only [isNormal, Bool.and_eq_true] at hr ⊢
    exact ⟨iha hr.1, ihb hr.2⟩
  | case3 rhs hadd hsub =>
    have hterm : rhs.isAdditive = false := isAdditive_eq_false_iff.2 ⟨hadd, hsub⟩
    simp [isNormal, hfactor, hterm, hl, hr]

theorem isNormal_distribute {rhs lhs : Expr} (hl : lhs.isNormal = true) (hr : rhs.isNormal = true) :
    (rhs.distribute lhs).isNormal = true := by
  fun_induction distribute rhs lhs with
  | case1 a b iha ihb =>
    simp only [isNormal, Bool.and_eq_true] at hl ⊢
    exact ⟨iha hl.1, ihb hl.2⟩
  | case2 a b iha ihb =>
    simp only [isNormal, Bool.and_eq_true] at hl ⊢
    exact ⟨iha hl.1, ihb hl.2⟩
  | case3 lhs hadd hsub => exact isNormal_distributeRight hl (isAdditive_eq_false_iff.2 ⟨hadd, hsub⟩) hr

theorem isNormal_shareDivisor {divisor numerator : Expr} (hd : divisor.isNormal = true)
    (hn : numerator.isNormal = true) : (divisor.shareDivisor numerator).isNormal = true := by
  fun_induction shareDivisor divisor numerator with
  | case1 a b iha ihb =>
    simp only [isNormal, Bool.and_eq_true] at hn ⊢
    exact ⟨iha hn.1, ihb hn.2⟩
  | case2 a b iha ihb =>
    simp only [isNormal, Bool.and_eq_true] at hn ⊢
    exact ⟨iha hn.1, ihb hn.2⟩
  | case3 numerator hadd hsub =>
    have hterm : numerator.isAdditive = false := isAdditive_eq_false_iff.2 ⟨hadd, hsub⟩
    simp [isNormal, hterm, hn, hd]

/-- **An expanded expression is normal.** -/
theorem isNormal_expand (e : Expr) : e.expand.isNormal = true := by
  fun_induction expand e with
  | case1 => rfl
  | case2 lhs rhs ihr ihl => exact isNormal_distribute ihl ihr
  | case3 lhs rhs ihr ihl => exact isNormal_shareDivisor ihr ihl
  | case4 lhs rhs ihl ihr => simp [isNormal, ihl, ihr]
  | case5 lhs rhs ihl ihr => simp [isNormal, ihl, ihr]

/-! ### Normal expressions are left alone -/

theorem distributeRight_of_not_isAdditive {lhs rhs : Expr} (h : rhs.isAdditive = false) :
    lhs.distributeRight rhs = node lhs .mul rhs := by
  obtain ⟨hadd, hsub⟩ := isAdditive_eq_false_iff.1 h
  exact distributeRight.eq_3 lhs rhs hadd hsub

theorem distribute_of_not_isAdditive {rhs lhs : Expr} (h : lhs.isAdditive = false) :
    rhs.distribute lhs = lhs.distributeRight rhs := by
  obtain ⟨hadd, hsub⟩ := isAdditive_eq_false_iff.1 h
  exact distribute.eq_3 rhs lhs hadd hsub

theorem shareDivisor_of_not_isAdditive {divisor numerator : Expr} (h : numerator.isAdditive = false) :
    divisor.shareDivisor numerator = node numerator .div divisor := by
  obtain ⟨hadd, hsub⟩ := isAdditive_eq_false_iff.1 h
  exact shareDivisor.eq_3 divisor numerator hadd hsub

/-- **A normal expression is its own expanded form.** -/
theorem expand_of_isNormal {e : Expr} (h : e.isNormal = true) : e.expand = e := by
  fun_induction expand e with
  | case1 => rfl
  | case2 lhs rhs ihr ihl =>
    simp only [isNormal, Bool.and_eq_true, Bool.not_eq_true'] at h
    obtain ⟨⟨⟨hlhs, hrhs⟩, hl⟩, hr⟩ := h
    rw [ihl hl, ihr hr, distribute_of_not_isAdditive hlhs, distributeRight_of_not_isAdditive hrhs]
  | case3 lhs rhs ihr ihl =>
    simp only [isNormal, Bool.and_eq_true, Bool.not_eq_true'] at h
    obtain ⟨⟨hlhs, hl⟩, hr⟩ := h
    rw [ihl hl, ihr hr, shareDivisor_of_not_isAdditive hlhs]
  | case4 lhs rhs ihl ihr =>
    simp only [isNormal, Bool.and_eq_true] at h
    rw [ihl h.1, ihr h.2]
  | case5 lhs rhs ihl ihr =>
    simp only [isNormal, Bool.and_eq_true] at h
    rw [ihl h.1, ihr h.2]

/-- **Expanding reaches the normal form in one go**: the expanded form is normal, exactly the normal
expressions are left as they are, and expanding twice is expanding once. -/
theorem expand_reaches_normal_form (e : Expr) :
    e.expand.isNormal = true ∧ (e.isNormal = true ↔ e.expand = e) ∧ e.expand.expand = e.expand := by
  refine ⟨isNormal_expand e, ⟨expand_of_isNormal, fun h => ?_⟩, expand_of_isNormal (isNormal_expand e)⟩
  rw [← h]
  exact isNormal_expand e

/-! ### Parts that are expanded again -/

section Again

variable {op : Operator} (hop : op.isAdditive = true) {lhs rhs a b : Expr}

include hop

theorem isNormal_of_expand_eq {e : Expr} (h : e.expand = node a op b) :
    a.isNormal = true ∧ b.isNormal = true := by
  have hnormal : (node a op b).isNormal = true := h ▸ isNormal_expand e
  cases op with
  | mul => cases hop
  | div => cases hop
  | add => exact Bool.and_eq_true_iff.1 hnormal
  | sub => exact Bool.and_eq_true_iff.1 hnormal

/-- A product with a sum on the left is the sum of two products that are expanded again. -/
theorem expand_mul_of_left (h : lhs.expand = node a op b) :
    (node lhs .mul rhs).expand =
      node (node a .mul rhs.expand).expand op (node b .mul rhs.expand).expand := by
  obtain ⟨ha, hb⟩ := isNormal_of_expand_eq hop h
  have hr : rhs.expand.expand = rhs.expand := expand_of_isNormal (isNormal_expand rhs)
  have hexpand : (node lhs .mul rhs).expand = rhs.expand.distribute (node a op b) := by rw [expand, h]
  rw [hexpand, expand, expand, hr, expand_of_isNormal ha, expand_of_isNormal hb]
  cases op with
  | mul => cases hop
  | div => cases hop
  | add => rfl
  | sub => rfl

/-- So is a product with a sum on the right, if the left factor is none. -/
theorem expand_mul_of_right (hlhs : lhs.expand.isAdditive = false) (h : rhs.expand = node a op b) :
    (node lhs .mul rhs).expand =
      node (node lhs.expand .mul a).expand op (node lhs.expand .mul b).expand := by
  obtain ⟨ha, hb⟩ := isNormal_of_expand_eq hop h
  have hl : lhs.expand.expand = lhs.expand := expand_of_isNormal (isNormal_expand lhs)
  have hexpand : (node lhs .mul rhs).expand = lhs.expand.distributeRight (node a op b) := by
    rw [expand, h, distribute_of_not_isAdditive hlhs]
  rw [hexpand, expand, expand, hl, expand_of_isNormal ha, expand_of_isNormal hb,
    distribute_of_not_isAdditive hlhs, distribute_of_not_isAdditive hlhs]
  cases op with
  | mul => cases hop
  | div => cases hop
  | add => rfl
  | sub => rfl

/-- A quotient of a sum is the sum of two quotients that are expanded again. -/
theorem expand_div_of_left (h : lhs.expand = node a op b) :
    (node lhs .div rhs).expand =
      node (node a .div rhs.expand).expand op (node b .div rhs.expand).expand := by
  obtain ⟨ha, hb⟩ := isNormal_of_expand_eq hop h
  have hr : rhs.expand.expand = rhs.expand := expand_of_isNormal (isNormal_expand rhs)
  have hexpand : (node lhs .div rhs).expand = rhs.expand.shareDivisor (node a op b) := by rw [expand, h]
  rw [hexpand, expand, expand, hr, expand_of_isNormal ha, expand_of_isNormal hb]
  cases op with
  | mul => cases hop
  | div => cases hop
  | add => rfl
  | sub => rfl

end Again

/-! ### Terms -/

theorem terms_of_not_isAdditive {e : Expr} (h : e.isAdditive = false) (s : Sign) : e.terms s = [⟨s, e⟩] := by
  fun_cases Expr.terms s e with
  | case1 => rfl
  | case2 => cases h
  | case3 => cases h
  | case4 => rfl
  | case5 => rfl

/-- Under a sign an expression has its terms with their signs multiplied by it. -/
theorem terms_eq_map (e : Expr) (s : Sign) :
    e.terms s = (e.terms .plus).map fun t => ⟨s.times t.sign, t.body⟩ := by
  cases s with
  | plus => exact (List.map_id _).symm
  | minus => exact terms_negate e .plus

/-- The products of a factor with the terms of a sum. -/
theorem terms_distributeRight {lhs : Expr} (rhs : Expr) (s : Sign) :
    (lhs.distributeRight rhs).terms s = (rhs.terms s).map fun t => ⟨t.sign, node lhs .mul t.body⟩ := by
  fun_induction distributeRight lhs rhs generalizing s with
  | case1 a b iha ihb => simp only [terms, iha, ihb, List.map_append]
  | case2 a b iha ihb => simp only [terms, iha, ihb, List.map_append]
  | case3 rhs hadd hsub =>
    rw [terms_of_not_isAdditive (isAdditive_eq_false_iff.2 ⟨hadd, hsub⟩)]
    rfl

/-- **The terms of a product** are the products of the terms, those with the first term of the left
factor first. -/
theorem terms_distribute (rhs lhs : Expr) (s : Sign) :
    (rhs.distribute lhs).terms s =
      (lhs.terms s).flatMap fun p => (rhs.terms p.sign).map fun t => ⟨t.sign, node p.body .mul t.body⟩ := by
  fun_induction distribute rhs lhs generalizing s with
  | case1 a b iha ihb => simp only [terms, iha, ihb, List.flatMap_append]
  | case2 a b iha ihb => simp only [terms, iha, ihb, List.flatMap_append]
  | case3 lhs hadd hsub =>
    rw [terms_of_not_isAdditive (isAdditive_eq_false_iff.2 ⟨hadd, hsub⟩), List.flatMap_singleton,
      terms_distributeRight]

/-- **The terms of a quotient** are the quotients of the terms of the numerator. -/
theorem terms_shareDivisor (divisor numerator : Expr) (s : Sign) :
    (divisor.shareDivisor numerator).terms s =
      (numerator.terms s).map fun t => ⟨t.sign, node t.body .div divisor⟩ := by
  fun_induction shareDivisor divisor numerator generalizing s with
  | case1 a b iha ihb => simp only [terms, iha, ihb, List.map_append]
  | case2 a b iha ihb => simp only [terms, iha, ihb, List.map_append]
  | case3 numerator hadd hsub =>
    rw [terms_of_not_isAdditive (isAdditive_eq_false_iff.2 ⟨hadd, hsub⟩)]
    rfl

/-- **The terms of an expanded expression**: those of a product are all products of a term of the one
factor and a term of the other, signs multiplied; those of a quotient are divided by the expanded
divisor one by one; those of a sum or a difference follow each other, behind a minus turned around. -/
theorem terms_expand (a b : Expr) :
    (node a .mul b).expand.terms .plus = ((a.expand.terms .plus).flatMap fun s =>
        (b.expand.terms .plus).map fun t => ⟨s.sign.times t.sign, node s.body .mul t.body⟩) ∧
      (node a .div b).expand.terms .plus =
        ((a.expand.terms .plus).map fun s => ⟨s.sign, node s.body .div b.expand⟩) ∧
      (node a .add b).expand.terms .plus = a.expand.terms .plus ++ b.expand.terms .plus ∧
      (node a .sub b).expand.terms .plus =
        a.expand.terms .plus ++ Term.negateAll (b.expand.terms .plus) := by
  refine ⟨?_, terms_shareDivisor b.expand a.expand .plus, rfl, ?_⟩
  · rw [expand, terms_distribute]
    refine List.flatMap_congr fun s _ => ?_
    rw [terms_eq_map b.expand s.sign, List.map_map]
    rfl
  · rw [expand, terms, terms_negate]

end LinearRelations.Expr
