import LinearRelations.Proofs.Leaves

/-!
# Expansion

Distributing products and quotients over sums changes neither the value of an expression, nor where
it has one, nor the operands in it.

* `Expr.value?_expand`: the strict value stays;
* `Expr.mem_leaves_expand`: so do the operands;
* `Expr.expand_keeps_meaning`: an expression and its expanded form cannot be told apart by values;
* `Expr.isDistributed_expand`: behind it, no sum is a factor or a numerator.
-/

namespace LinearRelations.Expr

/-! ### The value -/

section Value

variable {K : Type*} [Field K] [DecidableEq K] (ρ : Valuation K)

theorem value?_distributeRight (lhs rhs : Expr) :
    (lhs.distributeRight rhs).value? ρ = Operator.mul.onValues? (lhs.value? ρ) (rhs.value? ρ) := by
  fun_induction distributeRight lhs rhs with
  | case1 a b iha ihb =>
    simp only [value?_node] at iha ihb ⊢
    rw [iha, ihb, Operator.mul_onValues?_right rfl]
  | case2 a b iha ihb =>
    simp only [value?_node] at iha ihb ⊢
    rw [iha, ihb, Operator.mul_onValues?_right rfl]
  | case3 => rfl

theorem value?_distribute (rhs lhs : Expr) :
    (rhs.distribute lhs).value? ρ = Operator.mul.onValues? (lhs.value? ρ) (rhs.value? ρ) := by
  fun_induction distribute rhs lhs with
  | case1 a b iha ihb =>
    simp only [value?_node] at iha ihb ⊢
    rw [iha, ihb, Operator.mul_onValues?_left rfl]
  | case2 a b iha ihb =>
    simp only [value?_node] at iha ihb ⊢
    rw [iha, ihb, Operator.mul_onValues?_left rfl]
  | case3 lhs => exact value?_distributeRight ρ lhs rhs

theorem value?_shareDivisor (divisor numerator : Expr) :
    (divisor.shareDivisor numerator).value? ρ =
      Operator.div.onValues? (numerator.value? ρ) (divisor.value? ρ) := by
  fun_induction shareDivisor divisor numerator with
  | case1 a b iha ihb =>
    simp only [value?_node] at iha ihb ⊢
    rw [iha, ihb, Operator.div_onValues?_left rfl]
  | case2 a b iha ihb =>
    simp only [value?_node] at iha ihb ⊢
    rw [iha, ihb, Operator.div_onValues?_left rfl]
  | case3 => rfl

theorem value?_expand (expr : Expr) : expr.expand.value? ρ = expr.value? ρ := by
  fun_induction expand expr with
  | case1 => rfl
  | case2 lhs rhs ihr ihl => rw [value?_distribute, ihl, ihr, value?_node]
  | case3 lhs rhs ihr ihl => rw [value?_shareDivisor, ihl, ihr, value?_node]
  | case4 lhs rhs ihl ihr => rw [value?_node, ihl, ihr, value?_node]
  | case5 lhs rhs ihl ihr => rw [value?_node, ihl, ihr, value?_node]

end Value

/-! ### The operands -/

theorem mem_leaves_distributeRight {operand : Operand} (lhs rhs : Expr) :
    operand ∈ (lhs.distributeRight rhs).leaves ↔ operand ∈ lhs.leaves ∨ operand ∈ rhs.leaves := by
  fun_induction distributeRight lhs rhs with
  | case1 a b iha ihb => simp only [mem_leaves_node, iha, ihb]; tauto
  | case2 a b iha ihb => simp only [mem_leaves_node, iha, ihb]; tauto
  | case3 => exact mem_leaves_node

theorem mem_leaves_distribute {operand : Operand} (rhs lhs : Expr) :
    operand ∈ (rhs.distribute lhs).leaves ↔ operand ∈ lhs.leaves ∨ operand ∈ rhs.leaves := by
  fun_induction distribute rhs lhs with
  | case1 a b iha ihb => simp only [mem_leaves_node, iha, ihb]; tauto
  | case2 a b iha ihb => simp only [mem_leaves_node, iha, ihb]; tauto
  | case3 lhs => exact mem_leaves_distributeRight lhs rhs

theorem mem_leaves_shareDivisor {operand : Operand} (divisor numerator : Expr) :
    operand ∈ (divisor.shareDivisor numerator).leaves ↔
      operand ∈ numerator.leaves ∨ operand ∈ divisor.leaves := by
  fun_induction shareDivisor divisor numerator with
  | case1 a b iha ihb => simp only [mem_leaves_node, iha, ihb]; tauto
  | case2 a b iha ihb => simp only [mem_leaves_node, iha, ihb]; tauto
  | case3 => exact mem_leaves_node

theorem mem_leaves_expand {operand : Operand} (expr : Expr) :
    operand ∈ expr.expand.leaves ↔ operand ∈ expr.leaves := by
  fun_induction expand expr with
  | case1 => rfl
  | case2 lhs rhs ihr ihl => rw [mem_leaves_distribute, ihl, ihr, mem_leaves_node]
  | case3 lhs rhs ihr ihl => rw [mem_leaves_shareDivisor, ihl, ihr, mem_leaves_node]
  | case4 lhs rhs ihl ihr => rw [mem_leaves_node, ihl, ihr, mem_leaves_node]
  | case5 lhs rhs ihl ihr => rw [mem_leaves_node, ihl, ihr, mem_leaves_node]

theorem mem_variables_expand {name : String} {expr : Expr} :
    name ∈ expr.expand.variables ↔ name ∈ expr.variables := by
  simp only [mem_variables_iff, mem_leaves_expand]

/-- **Expansion keeps the meaning.** Whatever the values of variables and constants are, the expanded
form has a value exactly where the expression has one, and the same value; and it has the same
variables. -/
theorem expand_keeps_meaning (expr : Expr) {K : Type*} [Field K] [DecidableEq K] (ρ : Valuation K) :
    ((expr.expand.value? ρ).isSome ↔ (expr.value? ρ).isSome) ∧
      (∀ x, expr.expand.value? ρ = some x ↔ expr.value? ρ = some x) ∧
      ∀ name, name ∈ expr.expand.variables ↔ name ∈ expr.variables := by
  have hvalue := value?_expand ρ expr
  refine ⟨by rw [hvalue], fun x => by rw [hvalue], fun name => mem_variables_expand⟩

/-! ### The form -/

/-- Whether an expression is built from leaves by products and quotients, where divisors are left
as they are. -/
def isFlat : Expr → Bool
  | leaf _ => true
  | node lhs .mul rhs => lhs.isFlat && rhs.isFlat
  | node lhs .div _ => lhs.isFlat
  | node _ _ _ => false

/-- Whether an expression is a sum of flat terms. -/
def isDistributed : Expr → Bool
  | node a .add b => a.isDistributed && b.isDistributed
  | node a .sub b => a.isDistributed && b.isDistributed
  | term => term.isFlat

theorem isDistributed_of_isFlat {expr : Expr} (h : expr.isFlat = true) : expr.isDistributed = true := by
  match expr with
  | leaf _ => rfl
  | node _ .mul _ => exact h
  | node _ .div _ => exact h
  | node _ .add _ => simp [isFlat] at h
  | node _ .sub _ => simp [isFlat] at h

theorem isDistributed_distributeRight {lhs rhs : Expr} (hl : lhs.isFlat = true)
    (hr : rhs.isDistributed = true) : (lhs.distributeRight rhs).isDistributed = true := by
  fun_induction distributeRight lhs rhs with
  | case1 a b iha ihb =>
    simp only [isDistributed, Bool.and_eq_true] at hr ⊢
    exact ⟨iha hr.1, ihb hr.2⟩
  | case2 a b iha ihb =>
    simp only [isDistributed, Bool.and_eq_true] at hr ⊢
    exact ⟨iha hr.1, ihb hr.2⟩
  | case3 rhs hadd hsub =>
    refine isDistributed_of_isFlat ?_
    rw [isDistributed.eq_3 rhs hadd hsub] at hr
    simp [isFlat, hl, hr]

theorem isDistributed_distribute {rhs lhs : Expr} (hl : lhs.isDistributed = true)
    (hr : rhs.isDistributed = true) : (rhs.distribute lhs).isDistributed = true := by
  fun_induction distribute rhs lhs with
  | case1 a b iha ihb =>
    simp only [isDistributed, Bool.and_eq_true] at hl ⊢
    exact ⟨iha hl.1, ihb hl.2⟩
  | case2 a b iha ihb =>
    simp only [isDistributed, Bool.and_eq_true] at hl ⊢
    exact ⟨iha hl.1, ihb hl.2⟩
  | case3 lhs hadd hsub =>
    rw [isDistributed.eq_3 lhs hadd hsub] at hl
    exact isDistributed_distributeRight hl hr

theorem isDistributed_shareDivisor {divisor numerator : Expr}
    (hn : numerator.isDistributed = true) : (divisor.shareDivisor numerator).isDistributed = true := by
  fun_induction shareDivisor divisor numerator with
  | case1 a b iha ihb =>
    simp only [isDistributed, Bool.and_eq_true] at hn ⊢
    exact ⟨iha hn.1, ihb hn.2⟩
  | case2 a b iha ihb =>
    simp only [isDistributed, Bool.and_eq_true] at hn ⊢
    exact ⟨iha hn.1, ihb hn.2⟩
  | case3 numerator hadd hsub =>
    rwa [isDistributed.eq_3 numerator hadd hsub] at hn

theorem isDistributed_expand (expr : Expr) : expr.expand.isDistributed = true := by
  fun_induction expand expr with
  | case1 => rfl
  | case2 lhs rhs ihr ihl => exact isDistributed_distribute ihl ihr
  | case3 lhs rhs ihr ihl => exact isDistributed_shareDivisor ihl
  | case4 lhs rhs ihl ihr => simp [isDistributed, ihl, ihr]
  | case5 lhs rhs ihl ihr => simp [isDistributed, ihl, ihr]

end LinearRelations.Expr
