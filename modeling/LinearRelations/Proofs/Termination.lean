import LinearRelations.Proofs.NormalForm

/-!
# Expanding step by step

Expanding can be read as a recursion that starts over on what it has built: it expands both sides of
a node, and where one of them is a sum it takes the product or the quotient of the expanded sides
apart into two new ones, which it expands from the beginning. The new nodes are no parts of the old
one and can be larger than it, since the other side is copied. The recursion ends nevertheless,
because the weight of an expression goes down: a leaf weighs two, a product or a quotient as much as
the weights of its sides multiplied, and a sum one more than the weights of its sides together.

* `Expr.Distributes`: how a product or a quotient of expanded sides is taken apart;
* `Expr.Expands`, `Expr.Calls`: the results of the recursion and its calls;
* `Expr.weight`: the weight, with `Expr.Expands.weight_le` and `Expr.Calls.weight_lt`;
* `Expr.expands_iff`: the recursion has the expanded form as its one result;
* `Expr.expansion_terminates`: and it ends on every expression.
-/

namespace LinearRelations.Expr

/-! ### The recursion -/

/-- A product with a sum in it, on the left before on the right, and a quotient of a sum are taken
apart into two products or two quotients and the operator that joins them. -/
inductive Distributes : Expr → Expr → Operator → Expr → Prop
  | left {a b : Expr} {op : Operator} (rhs : Expr) (hop : op.isAdditive = true) :
      Distributes (node (node a op b) .mul rhs) (node a .mul rhs) op (node b .mul rhs)
  | right {lhs a b : Expr} {op : Operator} (hlhs : lhs.isAdditive = false)
      (hop : op.isAdditive = true) :
      Distributes (node lhs .mul (node a op b)) (node lhs .mul a) op (node lhs .mul b)
  | numerator {a b : Expr} {op : Operator} (divisor : Expr) (hop : op.isAdditive = true) :
      Distributes (node (node a op b) .div divisor) (node a .div divisor) op (node b .div divisor)

/-- The results of the recursion: both sides of a node are expanded first, and what the node of the
expanded sides is taken apart into is expanded again. -/
inductive Expands : Expr → Expr → Prop
  | leaf (operand : Operand) : Expands (leaf operand) (leaf operand)
  | stop {lhs rhs l r : Expr} {op : Operator} (hl : Expands lhs l) (hr : Expands rhs r)
      (hwhole : ∀ p join q, ¬ Distributes (node l op r) p join q) :
      Expands (node lhs op rhs) (node l op r)
  | again {lhs rhs l r p q p' q' : Expr} {op join : Operator} (hl : Expands lhs l)
      (hr : Expands rhs r) (hparts : Distributes (node l op r) p join q) (hp : Expands p p')
      (hq : Expands q q') : Expands (node lhs op rhs) (node p' join q')

/-- The calls of the recursion: to expand the first expression it expands the second one. -/
inductive Calls : Expr → Expr → Prop
  | lhs (lhs : Expr) (op : Operator) (rhs : Expr) : Calls (node lhs op rhs) lhs
  | rhs (lhs : Expr) (op : Operator) (rhs : Expr) : Calls (node lhs op rhs) rhs
  | first {lhs rhs l r p q : Expr} {op join : Operator} (hl : Expands lhs l) (hr : Expands rhs r)
      (hparts : Distributes (node l op r) p join q) : Calls (node lhs op rhs) p
  | second {lhs rhs l r p q : Expr} {op join : Operator} (hl : Expands lhs l) (hr : Expands rhs r)
      (hparts : Distributes (node l op r) p join q) : Calls (node lhs op rhs) q

/-! ### The weight -/

/-- The weight of an expression: two for a leaf, the product for a product or a quotient, and one
more than the sum for a sum or a difference. -/
def weight : Expr → Nat
  | leaf _ => 2
  | node lhs .mul rhs => lhs.weight * rhs.weight
  | node lhs .div rhs => lhs.weight * rhs.weight
  | node lhs .add rhs => lhs.weight + rhs.weight + 1
  | node lhs .sub rhs => lhs.weight + rhs.weight + 1

theorem weight_of_isAdditive {op : Operator} (hop : op.isAdditive = true) (lhs rhs : Expr) :
    (node lhs op rhs).weight = lhs.weight + rhs.weight + 1 := by
  cases op with
  | mul => cases hop
  | div => cases hop
  | add => rfl
  | sub => rfl

theorem two_le_weight (e : Expr) : 2 ≤ e.weight := by
  fun_induction weight e with
  | case1 => exact le_rfl
  | case2 lhs rhs ihl ihr => nlinarith
  | case3 lhs rhs ihl ihr => nlinarith
  | case4 lhs rhs ihl ihr => omega
  | case5 lhs rhs ihl ihr => omega

theorem lt_mul_weight {n : Nat} (hn : 0 < n) (e : Expr) : n < n * e.weight :=
  lt_mul_of_one_lt_right hn (two_le_weight e)

/-- A node weighs more than each of its sides. -/
theorem weight_lt_weight_node (lhs : Expr) (op : Operator) (rhs : Expr) :
    lhs.weight < (node lhs op rhs).weight ∧ rhs.weight < (node lhs op rhs).weight := by
  have hl : 0 < lhs.weight := Nat.zero_lt_of_lt (two_le_weight lhs)
  have hr : 0 < rhs.weight := Nat.zero_lt_of_lt (two_le_weight rhs)
  have hproduct : lhs.weight < lhs.weight * rhs.weight ∧ rhs.weight < lhs.weight * rhs.weight :=
    ⟨lt_mul_weight hl rhs, Nat.mul_comm rhs.weight lhs.weight ▸ lt_mul_weight hr lhs⟩
  cases op with
  | mul => exact hproduct
  | div => exact hproduct
  | add => simp only [weight]; omega
  | sub => simp only [weight]; omega

/-- Lighter sides make a lighter node. -/
theorem weight_node_le {lhs rhs l r : Expr} (op : Operator) (hl : l.weight ≤ lhs.weight)
    (hr : r.weight ≤ rhs.weight) : (node l op r).weight ≤ (node lhs op rhs).weight := by
  cases op with
  | mul => exact Nat.mul_le_mul hl hr
  | div => exact Nat.mul_le_mul hl hr
  | add => simp only [weight]; omega
  | sub => simp only [weight]; omega

/-- What a node is taken apart into does not weigh more than the node when it is joined again. The
side that is copied weighs at least two, which pays for the sum. -/
theorem Distributes.weight_le {e p q : Expr} {join : Operator} (h : Distributes e p join q) :
    (node p join q).weight ≤ e.weight := by
  cases h with
  | @left a b op rhs hop =>
    have h2 : 2 ≤ rhs.weight := two_le_weight rhs
    simp only [weight_of_isAdditive hop, weight]
    nlinarith
  | @right lhs a b op hlhs hop =>
    have h2 : 2 ≤ lhs.weight := two_le_weight lhs
    simp only [weight_of_isAdditive hop, weight]
    nlinarith
  | @numerator a b op divisor hop =>
    have h2 : 2 ≤ divisor.weight := two_le_weight divisor
    simp only [weight_of_isAdditive hop, weight]
    nlinarith

/-- **Expanding makes nothing heavier.** -/
theorem Expands.weight_le {e r : Expr} (h : Expands e r) : r.weight ≤ e.weight := by
  induction h with
  | leaf operand => exact le_rfl
  | stop _ _ _ ihl ihr => exact weight_node_le _ ihl ihr
  | @again lhs rhs l r p q p' q' op join _ _ hparts _ _ ihl ihr ihp ihq =>
    calc (node p' join q').weight ≤ (node p join q).weight := weight_node_le join ihp ihq
      _ ≤ (node l op r).weight := hparts.weight_le
      _ ≤ (node lhs op rhs).weight := weight_node_le op ihl ihr

/-- **Every call is made on a lighter expression.** -/
theorem Calls.weight_lt {e d : Expr} (h : Calls e d) : d.weight < e.weight := by
  -- The expanded sides weigh no more than the sides, so a part of their node weighs less than the node.
  have hpart {lhs rhs l r p q : Expr} {op join : Operator} (hl : Expands lhs l)
      (hr : Expands rhs r) (hparts : Distributes (node l op r) p join q) :
      p.weight < (node lhs op rhs).weight ∧ q.weight < (node lhs op rhs).weight := by
    have hjoined : (node p join q).weight ≤ (node lhs op rhs).weight :=
      hparts.weight_le.trans (weight_node_le op hl.weight_le hr.weight_le)
    obtain ⟨hp, hq⟩ := weight_lt_weight_node p join q
    exact ⟨hp.trans_le hjoined, hq.trans_le hjoined⟩
  cases h with
  | lhs => exact (weight_lt_weight_node _ _ _).1
  | rhs => exact (weight_lt_weight_node _ _ _).2
  | first hl hr hparts => exact (hpart hl hr hparts).1
  | second hl hr hparts => exact (hpart hl hr hparts).2

/-- The calls of the recursion are well-founded: no expression starts an endless chain of them. -/
theorem wellFounded_calls : WellFounded fun d e => Calls e d :=
  Subrelation.wf (fun h => Calls.weight_lt h) (measure weight).wf

/-! ### The result -/

theorem isAdditive_eq_false_of_forall {e : Expr}
    (h : ∀ a join b, e = node a join b → join.isAdditive = true → False) : e.isAdditive = false := by
  cases e with
  | leaf operand => rfl
  | node a join b => exact Bool.eq_false_iff.2 (h a join b rfl)

/-- The expanded form of a node that cannot be taken apart is the node of the expanded sides. -/
theorem expand_of_not_distributes {lhs rhs : Expr} {op : Operator}
    (h : ∀ p join q, ¬ Distributes (node lhs.expand op rhs.expand) p join q) :
    (node lhs op rhs).expand = node lhs.expand op rhs.expand := by
  cases op with
  | add => rfl
  | sub => rfl
  | mul =>
    have hl : lhs.expand.isAdditive = false := isAdditive_eq_false_of_forall fun a join b heq hjoin =>
      h _ _ _ (by rw [heq]; exact .left rhs.expand hjoin)
    have hr : rhs.expand.isAdditive = false := isAdditive_eq_false_of_forall fun a join b heq hjoin =>
      h _ _ _ (by rw [heq]; exact .right hl hjoin)
    rw [expand, distribute_of_not_isAdditive hl, distributeRight_of_not_isAdditive hr]
  | div =>
    have hl : lhs.expand.isAdditive = false := isAdditive_eq_false_of_forall fun a join b heq hjoin =>
      h _ _ _ (by rw [heq]; exact .numerator rhs.expand hjoin)
    rw [expand, shareDivisor_of_not_isAdditive hl]

/-- The expanded form of a node that is taken apart joins the expanded forms of the two parts. -/
theorem expand_of_distributes {lhs rhs p q : Expr} {op join : Operator}
    (h : Distributes (node lhs.expand op rhs.expand) p join q) :
    (node lhs op rhs).expand = node p.expand join q.expand := by
  generalize hl : lhs.expand = l at h
  generalize hr : rhs.expand = r at h
  cases h with
  | left rhs' hop => rw [expand_mul_of_left hop hl, hr]
  | right hlhs hop => rw [expand_mul_of_right hop (hl ▸ hlhs) hr, hl]
  | numerator divisor hop => rw [expand_div_of_left hop hl, hr]

theorem Expands.expand_eq {e r : Expr} (h : Expands e r) : e.expand = r := by
  induction h with
  | leaf operand => rfl
  | stop _ _ hwhole ihl ihr =>
    subst ihl ihr
    exact expand_of_not_distributes hwhole
  | again _ _ hparts _ _ ihl ihr ihp ihq =>
    subst ihl ihr ihp ihq
    exact expand_of_distributes hparts

/-- The recursion comes to a result, by induction along its calls. -/
theorem expands_expand (e : Expr) : Expands e e.expand := by
  induction e using wellFounded_calls.induction with
  | _ e ih =>
    cases e with
    | leaf operand => exact .leaf operand
    | node lhs op rhs =>
      have hl : Expands lhs lhs.expand := ih lhs (.lhs lhs op rhs)
      have hr : Expands rhs rhs.expand := ih rhs (.rhs lhs op rhs)
      by_cases hparts : ∃ p join q, Distributes (node lhs.expand op rhs.expand) p join q
      · obtain ⟨p, join, q, hparts⟩ := hparts
        rw [expand_of_distributes hparts]
        exact .again hl hr hparts (ih p (.first hl hr hparts)) (ih q (.second hl hr hparts))
      · have hwhole : ∀ p join q, ¬ Distributes (node lhs.expand op rhs.expand) p join q :=
          fun p join q h => hparts ⟨p, join, q, h⟩
        rw [expand_of_not_distributes hwhole]
        exact .stop hl hr hwhole

/-- The recursion has one result, the expanded form. -/
theorem expands_iff {e r : Expr} : Expands e r ↔ e.expand = r :=
  ⟨Expands.expand_eq, fun h => h ▸ expands_expand e⟩

/-- **Expanding ends on every expression**: the recursion calls itself on lighter expressions only,
on those it has built as well as on the sides, so its calls are well-founded, and it has exactly one
result, the expanded form, which is no heavier than the expression. -/
theorem expansion_terminates :
    (∀ e d : Expr, Calls e d → d.weight < e.weight) ∧
      (WellFounded fun d e : Expr => Calls e d) ∧
      (∀ e r : Expr, Expands e r ↔ e.expand = r) ∧ ∀ e : Expr, e.expand.weight ≤ e.weight :=
  ⟨fun _ _ h => h.weight_lt, wellFounded_calls, fun _ _ => expands_iff,
    fun e => (expands_expand e).weight_le⟩

end LinearRelations.Expr
