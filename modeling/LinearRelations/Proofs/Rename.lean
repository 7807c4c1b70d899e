import LinearRelations.Proofs.Collect
import LinearRelations.Proofs.NormalForm

/-!
# Renaming variables

Expanding, taking sums apart and collecting a variable ask whether two variables are the same, and
never what they are called.

* `Expr.rename`, `Term.rename`, `Collected.rename`: other names for the variables;
* `IsRenaming`: different variables get different names of variables;
* `exists_isRenaming`: different names for some variables extend to all;
* `Expr.rename_expand`, `Expr.collect_rename`, `Term.rename_factored`: the steps commute with renaming.
-/

namespace LinearRelations

/-- Whether a text names a variable: a name, but not that of a constant. -/
def isVariableName (text : String) : Bool := Text.isName text && !isConstantName text

/-- Different names for different variables, and of what is no variable a name of none. -/
structure IsRenaming (ρ : String → String) : Prop where
  injective : Function.Injective ρ
  isVariableName : ∀ name, isVariableName (ρ name) = isVariableName name

/-- **Different names for some variables extend to a renaming.** -/
theorem exists_isRenaming (ρ : String → String) (names : Finset String)
    (h : ∀ y ∈ names, isVariableName y = true) (hρ : ∀ y ∈ names, isVariableName (ρ y) = true)
    (hinj : Set.InjOn ρ names) : ∃ σ, IsRenaming σ ∧ ∀ y ∈ names, σ y = ρ y := by
  -- a permutation of the old and new names together, that leaves all others in place
  let both := names ∪ names.image ρ
  have hboth : ∀ y ∈ both, isVariableName y = true := by
    intro y hy
    rcases Finset.mem_union.1 hy with hy | hy
    · exact h y hy
    · obtain ⟨z, hz, rfl⟩ := Finset.mem_image.1 hy
      exact hρ z hz
  have himage : (names.subtype (· ∈ both)).image (fun y : both => ρ y) ⊆ both := by
    intro y hy
    obtain ⟨z, hz, rfl⟩ := Finset.mem_image.1 hy
    exact Finset.mem_union_right _ (Finset.mem_image_of_mem ρ (Finset.mem_subtype.1 hz))
  have hinj' : Set.InjOn (fun y : both => ρ y) (names.subtype (· ∈ both)) := by
    intro y hy z hz hyz
    exact Subtype.ext (hinj (Finset.mem_subtype.1 hy) (Finset.mem_subtype.1 hz) hyz)
  obtain ⟨g, hg⟩ := Finset.exists_equiv_extend_of_card_eq (Fintype.card_coe both) himage hinj'
  refine ⟨Equiv.Perm.ofSubtype g, ⟨Equiv.injective _, fun y => ?_⟩, fun y hy => ?_⟩
  · by_cases hy : y ∈ both
    · rw [Equiv.Perm.ofSubtype_apply_of_mem g hy, hboth _ (g ⟨y, hy⟩).2, hboth y hy]
    · rw [Equiv.Perm.ofSubtype_apply_of_not_mem g hy]
  · have hmem : y ∈ both := Finset.mem_union_left _ hy
    rw [Equiv.Perm.ofSubtype_apply_of_mem g hmem]
    exact hg ⟨y, hmem⟩ (Finset.mem_subtype.2 hy)

/-- A variable by another name, if that can stand as an operand; a number or constant as it is. -/
def Operand.rename (ρ : String → String) (x : Operand) : Operand :=
  if x.isVariable then (ofText? (ρ x.text)).getD x else x

namespace Expr

/-- The expression with other names for its variables. -/
def rename (ρ : String → String) : Expr → Expr
  | leaf operand => leaf (operand.rename ρ)
  | node lhs op rhs => node (lhs.rename ρ) op (rhs.rename ρ)

end Expr

def Term.rename (ρ : String → String) (term : Term) : Term := { term with body := term.body.rename ρ }

namespace Collected

def rename (ρ : String → String) (parts : Collected) : Collected :=
  ⟨parts.coefficients.map (Term.rename ρ), parts.remainder.map (Term.rename ρ)⟩

end Collected

/-- A nonlinear term, its variables and the variable that was asked for by other names. -/
def NonlinearTerm.rename (ρ : String → String) (cause : NonlinearTerm) : NonlinearTerm :=
  ⟨ρ cause.name, cause.term.rename ρ⟩

variable {ρ σ : String → String}

/-! ### Operands -/

namespace Operand

theorem isVariable_eq (x : Operand) : x.isVariable = isVariableName x.text := by
  have hvalid := x.valid
  rw [isOperand, Bool.or_eq_true] at hvalid
  rw [isVariable, isNumeral, isVariableName]
  by_cases hname : Text.isName x.text = true
  · simp [Text.isNumeral, hname]
  · simp [hname, hvalid.resolve_right hname]

theorem exists_ofText? {name : String} (h : isVariableName name = true) :
    ∃ x, ofText? name = some x ∧ x.text = name ∧ x.isVariable = true := by
  rw [isVariableName, Bool.and_eq_true, Bool.not_eq_true'] at h
  obtain ⟨x, rfl, hx⟩ := exists_isVariable h.1 h.2
  exact ⟨x, ofText?_text x, rfl, hx⟩

theorem rename_of_isVariable_eq_false {x : Operand} (h : x.isVariable = false) : x.rename ρ = x := by
  rw [rename, h]
  rfl

/-- The name of a variable is renamed where the new name is one of a variable. -/
theorem text_rename_of_isVariable {x : Operand} (hx : x.isVariable = true)
    (h : isVariableName (ρ x.text) = true) : (x.rename ρ).text = ρ x.text := by
  obtain ⟨y, hy, htext, -⟩ := exists_ofText? h
  rw [rename, if_pos hx, hy, Option.getD_some, htext]

theorem rename_congr {x : Operand} (h : x.isVariable = true → ρ x.text = σ x.text) :
    x.rename ρ = x.rename σ := by
  by_cases hx : x.isVariable = true
  · rw [rename, rename, h hx]
  · rw [rename_of_isVariable_eq_false (Bool.not_eq_true _ ▸ hx),
      rename_of_isVariable_eq_false (Bool.not_eq_true _ ▸ hx)]

variable (hρ : IsRenaming ρ)

include hρ

theorem text_rename (x : Operand) : (x.rename ρ).text = if x.isVariable then ρ x.text else x.text := by
  by_cases hx : x.isVariable = true
  · rw [if_pos hx, text_rename_of_isVariable hx]
    rwa [hρ.isVariableName, ← isVariable_eq]
  · rw [if_neg hx, rename_of_isVariable_eq_false (Bool.not_eq_true _ ▸ hx)]

@[simp] theorem isVariable_rename (x : Operand) : (x.rename ρ).isVariable = x.isVariable := by
  rw [isVariable_eq, text_rename hρ]
  split
  · rw [hρ.isVariableName, isVariable_eq]
  · rw [isVariable_eq]

/-- An operand is a variable by its new name just if it was that variable. -/
theorem text_rename_eq_iff {x : Operand} {name : String} (hname : isVariableName name = true) :
    (x.rename ρ).text = ρ name ↔ x.text = name := by
  by_cases hx : x.isVariable = true
  · rw [text_rename hρ, if_pos hx, hρ.injective.eq_iff]
  · rw [text_rename hρ, if_neg hx]
    refine iff_of_false (fun h => hx ?_) fun h => hx ?_
    · rw [isVariable_eq, h, hρ.isVariableName, hname]
    · rw [isVariable_eq, h, hname]

theorem rename_injective : Function.Injective (rename ρ) := by
  intro x y h
  have hvar : x.isVariable = y.isVariable := by rw [← isVariable_rename hρ x, h, isVariable_rename hρ]
  have htext := congrArg text h
  rw [text_rename hρ, text_rename hρ, hvar] at htext
  refine ext ?_
  split at htext
  · exact hρ.injective htext
  · exact htext

end Operand

/-! ### Expressions -/

namespace Expr

/-- Without variables there is nothing to rename. -/
theorem rename_of_forall_leaves {e : Expr} (h : ∀ x ∈ e.leaves, x.isVariable = false) : e.rename ρ = e := by
  induction e with
  | leaf operand => rw [rename, Operand.rename_of_isVariable_eq_false (h _ (mem_leaves_leaf.2 rfl))]
  | node lhs op rhs ihl ihr =>
    rw [rename, ihl fun x hx => h x (mem_leaves_node.2 (.inl hx)),
      ihr fun x hx => h x (mem_leaves_node.2 (.inr hx))]

theorem rename_of_isConstant {e : Expr} (h : e.isConstant = true) : e.rename ρ = e := by
  refine rename_of_forall_leaves fun x hx => ?_
  by_contra hvar
  have hmem := mem_variables_iff.2 ⟨x, hx, Bool.not_eq_false _ ▸ hvar, rfl⟩
  rw [List.isEmpty_iff.1 h] at hmem
  exact List.not_mem_nil hmem

@[simp] theorem rename_one : one.rename ρ = one := rename_of_isConstant (by decide +kernel)

@[simp] theorem rename_zero : zero.rename ρ = zero := rename_of_isConstant (by decide +kernel)

@[simp] theorem rename_node (lhs rhs : Expr) (op : Operator) :
    (node lhs op rhs).rename ρ = node (lhs.rename ρ) op (rhs.rename ρ) := rfl

theorem rename_congr {e : Expr} (h : ∀ name ∈ e.variables, ρ name = σ name) : e.rename ρ = e.rename σ := by
  induction e with
  | leaf operand =>
    rw [rename, rename, Operand.rename_congr fun hx => h _ (mem_variables_iff.2 ⟨_, mem_leaves_leaf.2 rfl, hx, rfl⟩)]
  | node lhs op rhs ihl ihr =>
    rw [rename, rename, ihl fun x hx => h x (mem_variables_node.2 (.inl hx)),
      ihr fun x hx => h x (mem_variables_node.2 (.inr hx))]

@[simp] theorem isAdditive_rename (e : Expr) : (e.rename ρ).isAdditive = e.isAdditive := by
  cases e <;> rfl

/-! ### Expanding -/

theorem isAdditive_rename_eq_false {e : Expr} (hadd : ∀ a b, e = node a .add b → False)
    (hsub : ∀ a b, e = node a .sub b → False) : (e.rename ρ).isAdditive = false := by
  rw [isAdditive_rename]
  exact isAdditive_eq_false_iff.2 ⟨hadd, hsub⟩

theorem rename_distributeRight (lhs rhs : Expr) :
    (lhs.distributeRight rhs).rename ρ = (lhs.rename ρ).distributeRight (rhs.rename ρ) := by
  fun_induction distributeRight lhs rhs with
  | case1 a b iha ihb => rw [rename_node, iha, ihb, rename_node, distributeRight]
  | case2 a b iha ihb => rw [rename_node, iha, ihb, rename_node, distributeRight]
  | case3 rhs hadd hsub =>
    rw [rename_node, distributeRight_of_not_isAdditive (isAdditive_rename_eq_false hadd hsub)]

theorem rename_distribute (rhs lhs : Expr) :
    (rhs.distribute lhs).rename ρ = (rhs.rename ρ).distribute (lhs.rename ρ) := by
  fun_induction distribute rhs lhs with
  | case1 a b iha ihb => rw [rename_node, iha, ihb, rename_node, distribute]
  | case2 a b iha ihb => rw [rename_node, iha, ihb, rename_node, distribute]
  | case3 lhs hadd hsub =>
    rw [rename_distributeRight, distribute_of_not_isAdditive (isAdditive_rename_eq_false hadd hsub)]

theorem rename_shareDivisor (divisor numerator : Expr) :
    (divisor.shareDivisor numerator).rename ρ = (divisor.rename ρ).shareDivisor (numerator.rename ρ) := by
  fun_induction shareDivisor divisor numerator with
  | case1 a b iha ihb => rw [rename_node, iha, ihb, rename_node, shareDivisor]
  | case2 a b iha ihb => rw [rename_node, iha, ihb, rename_node, shareDivisor]
  | case3 numerator hadd hsub =>
    rw [rename_node, shareDivisor_of_not_isAdditive (isAdditive_rename_eq_false hadd hsub)]

/-- **Renaming and expanding commute.** -/
theorem rename_expand (e : Expr) : e.expand.rename ρ = (e.rename ρ).expand := by
  fun_induction expand e with
  | case1 operand => rfl
  | case2 lhs rhs ihl ihr => rw [rename_distribute, ihl, ihr, rename_node, expand]
  | case3 lhs rhs ihl ihr => rw [rename_shareDivisor, ihl, ihr, rename_node, expand]
  | case4 lhs rhs ihl ihr => rw [rename_node, ihl, ihr, rename_node, expand]
  | case5 lhs rhs ihl ihr => rw [rename_node, ihl, ihr, rename_node, expand]

theorem terms_rename (s : Sign) (e : Expr) : (e.rename ρ).terms s = (e.terms s).map (Term.rename ρ) := by
  fun_induction terms s e with
  | case1 => rfl
  | case2 s lhs rhs ihl ihr => rw [rename_node, terms, ihl, ihr, List.map_append]
  | case3 s lhs rhs ihl ihr => rw [rename_node, terms, ihl, ihr, List.map_append]
  | case4 => rfl
  | case5 => rfl

theorem rename_timesCoefficient (c d : Option Expr) : (timesCoefficient c d).map (rename ρ) =
    timesCoefficient (c.map (rename ρ)) (d.map (rename ρ)) := by
  rcases c with _ | c <;> rcases d with _ | d <;> rfl

theorem getD_one_rename (c : Option Expr) : (c.map (rename ρ)).getD one = (c.getD one).rename ρ := by
  cases c with
  | none => exact rename_one.symm
  | some c => rfl

variable (hρ : IsRenaming ρ)

include hρ

theorem rename_injective : Function.Injective (rename ρ) := by
  intro e f h
  induction e generalizing f with
  | leaf x =>
    cases f with
    | leaf y => rw [Operand.rename_injective hρ (leaf.inj h)]
    | node => cases h
  | node lhs op rhs ihl ihr =>
    cases f with
    | leaf => cases h
    | node lhs' op' rhs' =>
      obtain ⟨hl, rfl, hr⟩ := node.inj h
      rw [ihl hl, ihr hr]

theorem rename_eq_one_iff {e : Expr} : e.rename ρ = one ↔ e = one := by
  conv_lhs => rw [← @rename_one ρ, (rename_injective hρ).eq_iff]

/-- The variables of a renamed expression are those of the expression, renamed. -/
theorem variables_rename (e : Expr) : (e.rename ρ).variables = e.variables.map ρ := by
  induction e with
  | leaf operand =>
    rw [rename, Expr.variables, Expr.variables, Operand.isVariable_rename hρ, Operand.text_rename hρ]
    split <;> rfl
  | node lhs op rhs ihl ihr => rw [rename_node, Expr.variables, ihl, ihr, Expr.variables, List.map_append]

theorem mem_variables_rename_iff {e : Expr} {name : String} :
    ρ name ∈ (e.rename ρ).variables ↔ name ∈ e.variables := by
  rw [variables_rename hρ, List.mem_map_of_injective hρ.injective]

theorem mem_variables_node_rename_iff {lhs rhs : Expr} {op : Operator} {name : String} :
    ρ name ∈ (node (lhs.rename ρ) op (rhs.rename ρ)).variables ↔ name ∈ (node lhs op rhs).variables := by
  rw [← rename_node, mem_variables_rename_iff hρ]

@[simp] theorem isConstant_rename (e : Expr) : (e.rename ρ).isConstant = e.isConstant := by
  rw [isConstant, variables_rename hρ, List.isEmpty_map, isConstant]

/-- Numbers are not renamed, so they are found where they were. -/
theorem constantValue_rename (e : Expr) : (e.rename ρ).constantValue = e.constantValue := by
  by_cases h : e.isConstant = true
  · rw [rename_of_isConstant h]
  · rw [constantValue, constantValue, isConstant_rename hρ, if_neg h, if_neg h]

theorem constantSign_rename (e : Expr) : (e.rename ρ).constantSign = e.constantSign := by
  by_cases h : e.isConstant = true
  · rw [rename_of_isConstant h]
  · rw [constantSign, constantSign, isConstant_rename hρ, if_neg h, if_neg h]

/-! ### Collecting -/

variable {name : String} (hname : isVariableName name = true)

include hname

/-- **A variable is split off a renamed term** as it is off the term. -/
theorem splitVariable_rename (e : Expr) : (e.rename ρ).splitVariable (ρ name) =
    ((e.splitVariable name).map fun p => (p.1, p.2.map (rename ρ))).mapError (NonlinearTerm.rename ρ) := by
  fun_induction splitVariable name e with
  | case1 operand h =>
    rw [rename, splitVariable, if_pos ((Operand.text_rename_eq_iff hρ hname).2 h)]
    rfl
  | case2 operand h =>
    rw [rename, splitVariable, if_neg (mt (Operand.text_rename_eq_iff hρ hname).1 h)]
    rfl
  | case3 lhs rhs ihl ihr =>
    rw [rename_node, splitVariable, ihl, ihr]
    rcases lhs.splitVariable name with cause | ⟨m, c⟩
    · rfl
    rcases rhs.splitVariable name with cause | ⟨n, d⟩
    · rfl
    · simp only [Except.map, Except.mapError, bind, Except.bind, pure, Except.pure, rename_timesCoefficient]
  | case4 lhs rhs h hr =>
    rw [rename_node, splitVariable, if_pos ((mem_variables_node_rename_iff hρ).2 h),
      if_pos ((mem_variables_rename_iff hρ).2 hr)]
    rfl
  | case5 lhs rhs h hr ih =>
    rw [rename_node, splitVariable, if_pos ((mem_variables_node_rename_iff hρ).2 h),
      if_neg (mt (mem_variables_rename_iff hρ).1 hr), ih]
    rcases lhs.splitVariable name with cause | ⟨m, c⟩
    · rfl
    · simp only [Except.map, Except.mapError, bind, Except.bind, pure, Except.pure, getD_one_rename,
        Option.map_some, rename_node]
  | case6 lhs rhs h =>
    rw [rename_node, splitVariable, if_neg (mt (mem_variables_node_rename_iff hρ).1 h)]
    rfl
  | case7 lhs op rhs hmul hdiv h =>
    rw [rename_node, splitVariable, if_pos ((mem_variables_node_rename_iff hρ).2 h)]
    · rfl
    · exact hmul
    · exact hdiv
  | case8 lhs op rhs hmul hdiv h =>
    rw [rename_node, splitVariable, if_neg (mt (mem_variables_node_rename_iff hρ).1 h)]
    · rfl
    · exact hmul
    · exact hdiv

end Expr

namespace Term

/-! ### Sums -/

theorem negateAll_map_rename (ts : List Term) :
    negateAll (ts.map (rename ρ)) = (negateAll ts).map (rename ρ) := by
  rw [negateAll, negateAll, List.map_map, List.map_map]
  rfl

theorem foldl_append_rename (sum : Expr) (ts : List Term) :
    (ts.map (rename ρ)).foldl append (sum.rename ρ) = (ts.foldl append sum).rename ρ := by
  induction ts generalizing sum with
  | nil => rfl
  | cons t ts ih => exact ih (append sum t)

theorem rename_joinInOrder (ts : List Term) :
    joinInOrder (ts.map (rename ρ)) = (joinInOrder ts).rename ρ := by
  match ts with
  | [] => exact Expr.rename_zero.symm
  | ⟨.plus, body⟩ :: rest => exact foldl_append_rename body rest
  | ⟨.minus, body⟩ :: rest =>
    rw [joinInOrder, ← foldl_append_rename, Expr.rename_node, Expr.rename_zero]
    rfl

/-- Terms are put together by any names. -/
theorem join_map_rename (ts : List Term) : join (ts.map (rename ρ)) = (join ts).rename ρ := by
  rw [join, join, ← rename_joinInOrder, List.map_append, added, added, subtracted, subtracted,
    List.filter_map, List.filter_map]
  rfl

variable (hρ : IsRenaming ρ)

include hρ

theorem rename_timesVariable (x : Operand) (cs : List Term) :
    (timesVariable x cs).rename ρ = timesVariable (x.rename ρ) (cs.map (rename ρ)) := by
  rw [timesVariable, timesVariable, join_map_rename]
  by_cases h : join cs = .one
  · rw [if_pos h, if_pos ((Expr.rename_eq_one_iff hρ).2 h)]
    rfl
  · rw [if_neg h, if_neg (mt (Expr.rename_eq_one_iff hρ).1 h)]
    rfl

end Term

namespace Collected

theorem rename_negate (parts : Collected) : parts.negate.rename ρ = (parts.rename ρ).negate := by
  rw [negate, negate, rename, rename, Term.negateAll_map_rename, Term.negateAll_map_rename]

@[simp] theorem allSubtracted_rename (parts : Collected) :
    (parts.rename ρ).allSubtracted = parts.allSubtracted := by
  rw [allSubtracted, rename, List.all_map]
  rfl

end Collected

namespace Term

variable (hρ : IsRenaming ρ)

include hρ

/-- **Renaming and factoring out commute.** -/
theorem rename_factored (x : Operand) (parts : Collected) :
    (factored x parts).rename ρ = factored (x.rename ρ) (parts.rename ρ) := by
  rw [factored, factored, Collected.allSubtracted_rename, Collected.rename, negateAll_map_rename,
    ← rename_timesVariable hρ, ← rename_timesVariable hρ]
  split
  · rw [← join_map_rename]
    rfl
  · rw [← join_map_rename]
    rfl

variable {name : String} (hname : isVariableName name = true)

include hname

/-- **A variable is collected in renamed terms** as it is in the terms. -/
theorem collect_map_rename (ts : List Term) : collect (ρ name) (ts.map (rename ρ)) =
    ((collect name ts).map (Collected.rename ρ)).mapError (NonlinearTerm.rename ρ) := by
  induction ts with
  | nil => rfl
  | cons t ts ih =>
    rw [List.map_cons, collect, collect, ih, rename, Expr.splitVariable_rename hρ hname]
    rcases t.body.splitVariable name with cause | ⟨degree, c⟩
    · rfl
    simp only [Except.map, Except.mapError, bind, Except.bind]
    by_cases hmany : 1 < degree
    · rw [if_pos hmany, if_pos hmany]
      rfl
    rw [if_neg hmany, if_neg hmany]
    rcases collect name ts with cause | parts
    · rfl
    by_cases hone : degree = 1
    · simp only [if_pos hone, pure, Except.pure, Expr.getD_one_rename]
      rfl
    · simp only [if_neg hone, pure, Except.pure]
      rfl

end Term

namespace Expr

/-- **A variable is collected in a renamed sum** as it is in the sum. -/
theorem collect_rename (hρ : IsRenaming ρ) {name : String} (hname : isVariableName name = true) (e : Expr) :
    (e.rename ρ).collect (ρ name) =
      ((e.collect name).map (Collected.rename ρ)).mapError (NonlinearTerm.rename ρ) := by
  rw [collect, collect, terms_rename, Term.collect_map_rename hρ hname]

end Expr

end LinearRelations
