import LinearRelations.Proofs.Expand

/-!
# Sums of signed terms

The strict value of a sum depends neither on the order of its terms nor on whether it is given as a
list or as an expression.

* `Term.sum?_perm`: the order does not matter;
* `Term.value?_join`: a joined list has the value of the list;
* `Term.sum?_terms`: the terms of an expression have the value of the expression;
* `Term.sum?_negateAll`: turning all signs around turns the value around.
-/

namespace LinearRelations

variable {K : Type*} [Field K] [DecidableEq K]

namespace Operator

theorem add_onValues?_comm (x? y? : Option K) : add.onValues? x? y? = add.onValues? y? x? := by
  rcases x? with _ | x <;> rcases y? with _ | y <;> simp [add_comm]

theorem add_onValues?_assoc (x? y? z? : Option K) :
    add.onValues? (add.onValues? x? y?) z? = add.onValues? x? (add.onValues? y? z?) := by
  rcases x? with _ | x <;> rcases y? with _ | y <;> rcases z? with _ | z <;> simp [add_assoc]

@[simp] theorem add_onValues?_zero_left (x? : Option K) : add.onValues? (some 0) x? = x? := by
  rcases x? with _ | x <;> simp

@[simp] theorem add_onValues?_zero_right (x? : Option K) : add.onValues? x? (some 0) = x? := by
  rcases x? with _ | x <;> simp

end Operator

theorem Sign.operator_onValues? (s : Sign) (x? y? : Option K) :
    s.operator.onValues? x? y? = Operator.add.onValues? x? (y?.map s.onValue) := by
  rcases x? with _ | x <;> rcases y? with _ | y <;> cases s <;> simp [operator, sub_eq_add_neg]

namespace Term

variable (ρ : Valuation K)

/-! ### Lists of terms -/

theorem sum?_cons (term : Term) (rest : List Term) :
    sum? ρ (term :: rest) = Operator.add.onValues? (term.value? ρ) (sum? ρ rest) := rfl

@[simp] theorem sum?_singleton (term : Term) : sum? ρ [term] = term.value? ρ := by
  simp [sum?]

theorem sum?_append (ss ts : List Term) :
    sum? ρ (ss ++ ts) = Operator.add.onValues? (sum? ρ ss) (sum? ρ ts) := by
  induction ss with
  | nil => simp [sum?]
  | cons s ss ih => rw [List.cons_append, sum?_cons, ih, sum?_cons, Operator.add_onValues?_assoc]

theorem sum?_perm {ss ts : List Term} (h : ss.Perm ts) : sum? ρ ss = sum? ρ ts := by
  induction h with
  | nil => rfl
  | cons t _ ih => rw [sum?_cons, ih, sum?_cons]
  | swap s t ts =>
    simp only [sum?_cons, ← Operator.add_onValues?_assoc, Operator.add_onValues?_comm (s.value? ρ)]
  | trans _ _ ih₁ ih₂ => rw [ih₁, ih₂]

/-- A sum has a value if and only if each of its terms has one. -/
theorem sum?_isSome_iff {ts : List Term} :
    (sum? ρ ts).isSome ↔ ∀ t ∈ ts, (t.body.value? ρ).isSome := by
  induction ts with
  | nil => simp [sum?]
  | cons t ts ih =>
    rw [List.forall_mem_cons, ← ih, sum?_cons, value?]
    rcases t.body.value? ρ with _ | x <;> rcases sum? ρ ts with _ | y <;> simp

/-! ### Signs -/

theorem value?_negate (t : Term) : t.negate.value? ρ = (t.value? ρ).map (- ·) := by
  rw [value?, value?, negate, Option.map_map]
  congr 1
  funext x
  exact Sign.onValue_negate t.sign x

theorem sum?_negateAll (ts : List Term) :
    sum? ρ (negateAll ts) = (sum? ρ ts).map (- ·) := by
  induction ts with
  | nil => simp [negateAll, sum?]
  | cons t ts ih =>
    rw [negateAll, List.map_cons, ← negateAll, sum?_cons, ih, value?_negate, sum?_cons]
    rcases t.value? ρ with _ | x <;> rcases sum? ρ ts with _ | y <;> simp [add_comm]

/-! ### Joined lists -/

theorem value?_append (sum : Expr) (t : Term) :
    (append sum t).value? ρ = Operator.add.onValues? (sum.value? ρ) (t.value? ρ) := by
  rw [append, Expr.value?_node, Sign.operator_onValues?, value?]

theorem value?_foldl_append (sum : Expr) (ts : List Term) :
    (ts.foldl append sum).value? ρ = Operator.add.onValues? (sum.value? ρ) (sum? ρ ts) := by
  induction ts generalizing sum with
  | nil => simp [sum?]
  | cons t ts ih => rw [List.foldl_cons, ih, value?_append, sum?_cons, Operator.add_onValues?_assoc]

theorem value?_joinInOrder (ts : List Term) : (joinInOrder ts).value? ρ = sum? ρ ts := by
  match ts with
  | [] => exact Expr.value?_zero ρ
  | ⟨.plus, body⟩ :: rest =>
    have h : (⟨.plus, body⟩ : Term).value? ρ = body.value? ρ := by
      simp [value?, Option.map_id_fun', show Sign.plus.onValue = (fun x : K => x) from rfl]
    rw [joinInOrder, value?_foldl_append, sum?_cons, h]
  | ⟨.minus, body⟩ :: rest =>
    have h : (Expr.node .zero .sub body).value? ρ = (⟨.minus, body⟩ : Term).value? ρ := by
      rw [Expr.value?_node, Expr.value?_zero, value?]
      rcases body.value? ρ with _ | x <;> simp
    rw [joinInOrder, value?_foldl_append, h, sum?_cons]

theorem added_append_subtracted_perm (ts : List Term) : (added ts ++ subtracted ts).Perm ts := by
  have h : subtracted ts = ts.filter fun t => !(t.sign == .plus) := by
    refine List.filter_congr fun t _ => ?_
    rcases t with ⟨_ | _, _⟩ <;> rfl
  rw [h]
  exact List.filter_append_perm _ ts

theorem value?_join (ts : List Term) : (join ts).value? ρ = sum? ρ ts := by
  rw [join, value?_joinInOrder, sum?_perm ρ (added_append_subtracted_perm ts)]

/-! ### The terms of an expression -/

theorem sum?_terms (expr : Expr) (s : Sign) :
    sum? ρ (expr.terms s) = (expr.value? ρ).map s.onValue := by
  fun_induction Expr.terms s expr with
  | case1 s operand => simp [value?]
  | case2 s lhs rhs ihl ihr =>
    rw [sum?_append, ihl, ihr, Expr.value?_node]
    rcases lhs.value? ρ with _ | x <;> rcases rhs.value? ρ with _ | y <;> cases s <;>
      simp [add_comm]
  | case3 s lhs rhs ihl ihr =>
    rw [sum?_append, ihl, ihr, Expr.value?_node]
    rcases lhs.value? ρ with _ | x <;> rcases rhs.value? ρ with _ | y <;> cases s <;>
      simp [Sign.negate, sub_eq_add_neg, add_comm]
  | case4 s lhs rhs => simp [value?]
  | case5 s lhs rhs => simp [value?]

theorem sum?_terms_plus (expr : Expr) : sum? ρ (expr.terms .plus) = expr.value? ρ := by
  rw [sum?_terms]
  exact Option.map_id_apply

end Term

/-! ### Terms under the opposite sign -/

theorem Term.negateAll_append (ss ts : List Term) :
    negateAll (ss ++ ts) = negateAll ss ++ negateAll ts :=
  List.map_append

theorem Term.negateAll_negateAll (ts : List Term) : negateAll (negateAll ts) = ts := by
  have hnegate : Term.negate ∘ Term.negate = id := by
    funext t
    simp [Term.negate]
  rw [negateAll, negateAll, List.map_map, hnegate, List.map_id]

/-- Under the opposite sign an expression has its terms turned around. -/
theorem Expr.terms_negate (e : Expr) (s : Sign) : e.terms s.negate = Term.negateAll (e.terms s) := by
  fun_induction Expr.terms s e with
  | case1 s operand => rfl
  | case2 s lhs rhs ihl ihr => rw [Expr.terms, ihl, ihr, Term.negateAll_append]
  | case3 s lhs rhs ihl ihr => rw [Expr.terms, ihl, ihr, Term.negateAll_append]
  | case4 s lhs rhs => rfl
  | case5 s lhs rhs => rfl

/-! ### Operands and form -/

namespace Term

/-- The operands in a list of terms. -/
def leavesOf (ts : List Term) : List Operand := ts.flatMap fun t => t.body.leaves

@[simp] theorem mem_leavesOf {x : Operand} {ts : List Term} :
    x ∈ leavesOf ts ↔ ∃ t ∈ ts, x ∈ t.body.leaves := by
  simp [leavesOf]

theorem leaves_foldl_append (sum : Expr) (ts : List Term) :
    (ts.foldl append sum).leaves = sum.leaves ++ leavesOf ts := by
  induction ts generalizing sum with
  | nil => simp [leavesOf]
  | cons t ts ih => simp [ih, append, Expr.leaves, leavesOf]

/-- A sum has the operands of its terms in the order in which they are joined, maybe behind a zero. -/
theorem leaves_join (ts : List Term) :
    (join ts).leaves = leavesOf (added ts ++ subtracted ts) ∨
      (join ts).leaves = Expr.zero.leaves ++ leavesOf (added ts ++ subtracted ts) := by
  unfold join
  match added ts ++ subtracted ts with
  | [] => exact .inr (List.append_nil _).symm
  | ⟨.plus, body⟩ :: rest =>
    rw [joinInOrder, leaves_foldl_append]
    exact .inl rfl
  | ⟨.minus, body⟩ :: rest =>
    rw [joinInOrder, leaves_foldl_append, Expr.leaves, List.append_assoc]
    exact .inr rfl

theorem mem_leavesOf_added_append_subtracted {x : Operand} {ts : List Term} :
    x ∈ leavesOf (added ts ++ subtracted ts) ↔ x ∈ leavesOf ts := by
  simp only [mem_leavesOf, (added_append_subtracted_perm ts).mem_iff]

/-- Joining terms adds no operand but a zero. -/
theorem mem_leaves_join {x : Operand} {ts : List Term} (h : x ∈ (join ts).leaves) :
    x ∈ Expr.zero.leaves ∨ x ∈ leavesOf ts := by
  rw [← mem_leavesOf_added_append_subtracted]
  rcases leaves_join ts with heq | heq
  · exact .inr (heq ▸ h)
  · exact List.mem_append.1 (heq ▸ h)

/-- And it loses none. -/
theorem mem_leaves_join_of_mem {x : Operand} {ts : List Term} (h : x ∈ leavesOf ts) : x ∈ (join ts).leaves := by
  rw [← mem_leavesOf_added_append_subtracted] at h
  rcases leaves_join ts with heq | heq
  · exact heq ▸ h
  · exact heq ▸ List.mem_append_right _ h

theorem leavesOf_terms (expr : Expr) (s : Sign) : leavesOf (expr.terms s) = expr.leaves := by
  fun_induction Expr.terms s expr with
  | case1 s operand => simp [leavesOf]
  | case2 s lhs rhs ihl ihr => simpa [leavesOf, Expr.leaves] using congrArg₂ (· ++ ·) ihl ihr
  | case3 s lhs rhs ihl ihr => simpa [leavesOf, Expr.leaves] using congrArg₂ (· ++ ·) ihl ihr
  | case4 s lhs rhs => simp [leavesOf]
  | case5 s lhs rhs => simp [leavesOf]

theorem variables_foldl_append (sum : Expr) (ts : List Term) :
    (ts.foldl append sum).variables = sum.variables ++ ts.flatMap fun t => t.body.variables := by
  induction ts generalizing sum with
  | nil => simp
  | cons t ts ih => simp [ih, append, Expr.variables]

/-- Joining terms keeps their variables, occurrence by occurrence. -/
theorem variables_join_perm (ts : List Term) :
    (join ts).variables.Perm (ts.flatMap fun t => t.body.variables) := by
  refine List.Perm.trans ?_ ((added_append_subtracted_perm ts).flatMap_right fun t => t.body.variables)
  unfold join
  match added ts ++ subtracted ts with
  | [] => rw [joinInOrder, Expr.variables_zero, List.flatMap_nil]
  | ⟨.plus, body⟩ :: rest => rw [joinInOrder, variables_foldl_append, List.flatMap_cons]
  | ⟨.minus, body⟩ :: rest =>
    rw [joinInOrder, variables_foldl_append, Expr.variables, Expr.variables_zero, List.nil_append, List.flatMap_cons]

theorem variables_terms (expr : Expr) (s : Sign) :
    (expr.terms s).flatMap (fun t => t.body.variables) = expr.variables := by
  fun_induction Expr.terms s expr with
  | case1 s operand => simp
  | case2 s lhs rhs ihl ihr => rw [List.flatMap_append, ihl, ihr, Expr.variables]
  | case3 s lhs rhs ihl ihr => rw [List.flatMap_append, ihl, ihr, Expr.variables]
  | case4 s lhs rhs => simp
  | case5 s lhs rhs => simp

theorem isFlat_of_mem_terms {expr : Expr} (h : expr.isDistributed = true) {s : Sign} {t : Term}
    (ht : t ∈ expr.terms s) : t.body.isFlat = true := by
  fun_induction Expr.terms s expr with
  | case1 s operand => simp only [List.mem_singleton] at ht; subst ht; rfl
  | case2 s lhs rhs ihl ihr =>
    simp only [Expr.isDistributed, Bool.and_eq_true] at h
    exact (List.mem_append.1 ht).elim (ihl h.1) (ihr h.2)
  | case3 s lhs rhs ihl ihr =>
    simp only [Expr.isDistributed, Bool.and_eq_true] at h
    exact (List.mem_append.1 ht).elim (ihl h.1) (ihr h.2)
  | case4 s lhs rhs => simp only [List.mem_singleton] at ht; subst ht; exact h
  | case5 s lhs rhs => simp only [List.mem_singleton] at ht; subst ht; exact h

end Term

end LinearRelations
