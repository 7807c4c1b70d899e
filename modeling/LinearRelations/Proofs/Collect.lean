import LinearRelations.Proofs.Sum

/-!
# Collecting a variable

Collecting splits a sum into a part that is linear in a variable and a part without it. Factoring
the variable out puts the parts of the expanded form together again; it is refused exactly where a
term is not linear in the variable, and else keeps what the expression says.

* `Expr.Splits`: the rules by which a variable is split off a term;
* `Expr.isOk_splitVariable_iff_of_any`, `Expr.isOk_splitVariable_iff`: which terms are refused;
* `Term.Collects.sum?`: a sum is the variable times its coefficients, and the remainder;
* `Term.value?_factored`: so is the factored form;
* `Term.occurrences_factored`: the variable stands in it once;
* `Expr.factorFor_spec`: when factoring out is refused, and what it gives where it is not.
-/

namespace LinearRelations

namespace Expr

/-! ### Occurrences -/

/-- Whether a variable stands in a divisor. -/
def Divides (name : String) (expr : Expr) : Prop := ∃ d ∈ expr.divisors, name ∈ d.variables

/-- The sums and differences in an expression, those inside of others included. -/
def sums : Expr → List Expr
  | leaf _ => []
  | node lhs .add rhs => node lhs .add rhs :: (lhs.sums ++ rhs.sums)
  | node lhs .sub rhs => node lhs .sub rhs :: (lhs.sums ++ rhs.sums)
  | node lhs _ rhs => lhs.sums ++ rhs.sums

/-- Whether a variable stands in a sum or difference. -/
def StandsInSum (name : String) (expr : Expr) : Prop := ∃ s ∈ expr.sums, name ∈ s.variables

/-- How often a variable stands in an expression. -/
def occurrences (name : String) (expr : Expr) : Nat := expr.variables.count name

variable {name : String}

theorem occurrences_node (lhs rhs : Expr) (op : Operator) :
    (node lhs op rhs).occurrences name = lhs.occurrences name + rhs.occurrences name :=
  List.count_append

theorem occurrences_eq_zero_iff {expr : Expr} :
    expr.occurrences name = 0 ↔ name ∉ expr.variables :=
  List.count_eq_zero

theorem occurrences_leaf {x : Operand} (hx : x.isVariable = true) (operand : Operand) :
    (leaf operand).occurrences x.text = if operand.text = x.text then 1 else 0 := by
  split
  · next h =>
    obtain rfl : operand = x := Operand.ext h
    simp [occurrences, Expr.variables, hx]
  · next h =>
    rw [occurrences_eq_zero_iff, mem_variables_iff]
    rintro ⟨y, hy, -, hname⟩
    rw [mem_leaves_leaf] at hy
    exact h (hy ▸ hname)

theorem not_divides_leaf (operand : Operand) : ¬ (leaf operand).Divides name := by
  simp [Divides, divisors]

theorem mem_variables_of_divides {expr : Expr} (h : expr.Divides name) : name ∈ expr.variables := by
  obtain ⟨d, hd, hname⟩ := h
  exact variables_subset (leaves_subset_of_mem_divisors hd) hname

theorem divides_node_iff {lhs rhs : Expr} {op : Operator} (hop : op ≠ .div) :
    (node lhs op rhs).Divides name ↔ lhs.Divides name ∨ rhs.Divides name := by
  cases op with
  | div => exact absurd rfl hop
  | _ => simp only [Divides, divisors, List.mem_append, or_and_right, exists_or]

theorem divides_div_iff {lhs rhs : Expr} :
    (node lhs .div rhs).Divides name ↔ lhs.Divides name ∨ name ∈ rhs.variables := by
  simp only [Divides, divisors, List.mem_cons, List.mem_append]
  constructor
  · rintro ⟨d, rfl | hd | hd, hname⟩
    · exact .inr hname
    · exact .inl ⟨d, hd, hname⟩
    · exact .inr (mem_variables_of_divides ⟨d, hd, hname⟩)
  · rintro (⟨d, hd, hname⟩ | hname)
    · exact ⟨d, .inr (.inl hd), hname⟩
    · exact ⟨rhs, .inl rfl, hname⟩

theorem leaves_subset_of_mem_sums {s e : Expr} (h : s ∈ e.sums) : s.leaves ⊆ e.leaves := by
  have hnode : ∀ {lhs rhs : Expr}, (s ∈ lhs.sums → s.leaves ⊆ lhs.leaves) →
      (s ∈ rhs.sums → s.leaves ⊆ rhs.leaves) → s ∈ lhs.sums ++ rhs.sums → s.leaves ⊆ lhs.leaves ++ rhs.leaves := by
    intro lhs rhs ihl ihr h
    rcases List.mem_append.1 h with h | h
    · exact List.subset_append_of_subset_left _ (ihl h)
    · exact List.subset_append_of_subset_right _ (ihr h)
  fun_induction sums e with
  | case1 => simp at h
  | case2 lhs rhs ihl ihr =>
    rcases List.mem_cons.1 h with rfl | h
    · exact List.Subset.refl _
    · exact hnode ihl ihr h
  | case3 lhs rhs ihl ihr =>
    rcases List.mem_cons.1 h with rfl | h
    · exact List.Subset.refl _
    · exact hnode ihl ihr h
  | case4 lhs op rhs _ _ ihl ihr => exact hnode ihl ihr h

theorem mem_variables_of_standsInSum {expr : Expr} (h : expr.StandsInSum name) : name ∈ expr.variables := by
  obtain ⟨s, hs, hname⟩ := h
  exact variables_subset (leaves_subset_of_mem_sums hs) hname

theorem not_standsInSum_leaf (operand : Operand) : ¬ (leaf operand).StandsInSum name := by
  simp [StandsInSum, sums]

theorem standsInSum_node_iff {lhs rhs : Expr} {op : Operator} (hop : op.isAdditive = false) :
    (node lhs op rhs).StandsInSum name ↔ lhs.StandsInSum name ∨ rhs.StandsInSum name := by
  cases op with
  | add => cases hop
  | sub => cases hop
  | _ => simp only [StandsInSum, sums, List.mem_append, or_and_right, exists_or]

/-- A variable of a sum stands in that sum. -/
theorem standsInSum_sum_iff {lhs rhs : Expr} {op : Operator} (hop : op.isAdditive = true) :
    (node lhs op rhs).StandsInSum name ↔ name ∈ (node lhs op rhs).variables := by
  refine ⟨mem_variables_of_standsInSum, fun hname => ⟨node lhs op rhs, ?_, hname⟩⟩
  cases op with
  | mul => cases hop
  | div => cases hop
  | add => exact List.mem_cons_self
  | sub => exact List.mem_cons_self

/-- In a flat term all sums are parts of divisors. -/
theorem divides_of_standsInSum {term : Expr} (hflat : term.isFlat = true) (h : term.StandsInSum name) :
    term.Divides name := by
  fun_induction isFlat term with
  | case1 operand => exact absurd h (not_standsInSum_leaf operand)
  | case2 lhs rhs ihl ihr =>
    rw [Bool.and_eq_true] at hflat
    rw [divides_node_iff (by decide)]
    exact ((standsInSum_node_iff rfl).1 h).imp (ihl hflat.1) (ihr hflat.2)
  | case3 lhs rhs ihl =>
    rw [divides_div_iff]
    exact ((standsInSum_node_iff rfl).1 h).imp (ihl hflat) mem_variables_of_standsInSum
  | case4 => cases hflat

/-! ### Splitting a variable off a term -/

/-- The rules by which a variable is split off a term, with its degree and what is left. -/
inductive Splits (name : String) : Expr → Nat → Option Expr → Prop
  | itself {operand : Operand} : operand.text = name → Splits name (leaf operand) 1 none
  | product {lhs rhs : Expr} {m n : Nat} {c d : Option Expr} : Splits name lhs m c →
      Splits name rhs n d → Splits name (node lhs .mul rhs) (m + n) (timesCoefficient c d)
  | quotient {lhs rhs : Expr} {m : Nat} {c : Option Expr} : name ∉ rhs.variables →
      Splits name lhs m c → Splits name (node lhs .div rhs) m (some (node (c.getD one) .div rhs))
  /-- A term without the variable is left as it is. -/
  | without {term : Expr} : name ∉ term.variables → Splits name term 0 (some term)

theorem splits_of_splitVariable {term : Expr} {degree : Nat} {rest : Option Expr}
    (h : term.splitVariable name = .ok (degree, rest)) : Splits name term degree rest := by
  fun_induction splitVariable name term generalizing degree rest with
  | case1 operand htext =>
    obtain ⟨rfl, rfl⟩ := Prod.mk.inj (Except.ok.inj h)
    exact .itself htext
  | case2 operand htext =>
    obtain ⟨rfl, rfl⟩ := Prod.mk.inj (Except.ok.inj h)
    refine .without fun hmem => ?_
    obtain ⟨y, hy, -, hname⟩ := mem_variables_iff.1 hmem
    exact htext (mem_leaves_leaf.1 hy ▸ hname)
  | case3 lhs rhs ihl ihr =>
    obtain ⟨⟨m, c⟩, hl, h⟩ := exists_of_bind_eq_ok h
    obtain ⟨⟨n, d⟩, hr, h⟩ := exists_of_bind_eq_ok h
    obtain ⟨rfl, rfl⟩ := Prod.mk.inj (Except.ok.inj h)
    exact .product (ihl hl) (ihr hr)
  | case4 lhs rhs _ hrhs => simp at h
  | case5 lhs rhs _ hrhs ihl =>
    obtain ⟨⟨m, c⟩, hl, h⟩ := exists_of_bind_eq_ok h
    obtain ⟨rfl, rfl⟩ := Prod.mk.inj (Except.ok.inj h)
    exact .quotient hrhs (ihl hl)
  | case6 lhs rhs hnone =>
    obtain ⟨rfl, rfl⟩ := Prod.mk.inj (Except.ok.inj h)
    exact .without hnone
  | case7 => simp at h
  | case8 lhs op rhs _ _ hnone =>
    obtain ⟨rfl, rfl⟩ := Prod.mk.inj (Except.ok.inj h)
    exact .without hnone

/-- A term is refused exactly when the variable stands in a divisor or in a sum that is part of it. -/
theorem isOk_splitVariable_iff_of_any {term : Expr} :
    (term.splitVariable name).isOk = true ↔ ¬ (term.Divides name ∨ term.StandsInSum name) := by
  fun_induction splitVariable name term with
  | case1 operand => simp [Except.isOk, Except.toBool, not_divides_leaf, not_standsInSum_leaf]
  | case2 operand => simp [Except.isOk, Except.toBool, not_divides_leaf, not_standsInSum_leaf]
  | case3 lhs rhs ihl ihr =>
    rw [divides_node_iff (by decide), standsInSum_node_iff rfl, or_or_or_comm, not_or, ← ihl, ← ihr]
    rcases lhs.splitVariable name with _ | _ <;> rcases rhs.splitVariable name with _ | _ <;>
      simp [Except.isOk, Except.toBool, bind, Except.bind, pure, Except.pure]
  | case4 lhs rhs _ hrhs => simp [Except.isOk, Except.toBool, divides_div_iff, hrhs]
  | case5 lhs rhs _ hrhs ihl =>
    rw [divides_div_iff, standsInSum_node_iff rfl, or_iff_left hrhs,
      or_iff_left (mt mem_variables_of_standsInSum hrhs), ← ihl]
    rcases lhs.splitVariable name with _ | _ <;>
      simp [Except.isOk, Except.toBool, bind, Except.bind, pure, Except.pure]
  | case6 lhs rhs hnone =>
    have hnot : ¬ ((node lhs .div rhs).Divides name ∨ (node lhs .div rhs).StandsInSum name) :=
      not_or.2 ⟨mt mem_variables_of_divides hnone, mt mem_variables_of_standsInSum hnone⟩
    simpa [Except.isOk, Except.toBool] using hnot
  | case7 lhs op rhs hmul hdiv hname =>
    have hop : op.isAdditive = true := by cases op <;> simp_all [Operator.isAdditive]
    simp [Except.isOk, Except.toBool, (standsInSum_sum_iff hop).2 hname]
  | case8 lhs op rhs hmul hdiv hnone =>
    have hnot : ¬ ((node lhs op rhs).Divides name ∨ (node lhs op rhs).StandsInSum name) :=
      not_or.2 ⟨mt mem_variables_of_divides hnone, mt mem_variables_of_standsInSum hnone⟩
    simpa [Except.isOk, Except.toBool] using hnot

/-- A flat term is refused exactly when the variable stands in one of its divisors. -/
theorem isOk_splitVariable_iff {term : Expr} (hflat : term.isFlat = true) :
    (term.splitVariable name).isOk = true ↔ ¬ term.Divides name := by
  rw [isOk_splitVariable_iff_of_any, or_iff_left_of_imp (divides_of_standsInSum hflat)]

/-- A cause of refusal names the variable that was to be split off, and a term made of the operands
of the one that is refused. -/
theorem of_splitVariable_eq_error {term : Expr} {cause : NonlinearTerm}
    (h : term.splitVariable name = .error cause) : cause.name = name ∧ cause.term.leaves ⊆ term.leaves := by
  fun_induction splitVariable name term with
  | case1 => simp at h
  | case2 => simp at h
  | case3 lhs rhs ihl ihr =>
    rcases hl : lhs.splitVariable name with cause' | ⟨_, _⟩
    · rw [hl] at h
      obtain rfl := Except.error.inj h
      exact (ihl hl).imp_right (List.subset_append_of_subset_left _)
    · rcases hr : rhs.splitVariable name with cause' | ⟨_, _⟩
      · rw [hl, hr] at h
        obtain rfl := Except.error.inj h
        exact (ihr hr).imp_right (List.subset_append_of_subset_right _)
      · simp [hl, hr, bind, Except.bind, pure, Except.pure] at h
  | case4 =>
    obtain rfl := Except.error.inj h
    exact ⟨rfl, List.Subset.refl _⟩
  | case5 lhs rhs _ _ ihl =>
    rcases hl : lhs.splitVariable name with cause' | ⟨_, _⟩
    · rw [hl] at h
      obtain rfl := Except.error.inj h
      exact (ihl hl).imp_right (List.subset_append_of_subset_left _)
    · simp [hl, bind, Except.bind, pure, Except.pure] at h
  | case6 => simp at h
  | case7 =>
    obtain rfl := Except.error.inj h
    exact ⟨rfl, List.Subset.refl _⟩
  | case8 => simp at h

namespace Splits

variable {term : Expr} {degree : Nat} {rest : Option Expr}

/-- What is left is made of the operands of the term. -/
theorem mem_leaves (h : Splits name term degree rest) {y : Operand}
    (hy : y ∈ (rest.getD one).leaves) : y ∈ one.leaves ∨ y ∈ term.leaves := by
  induction h with
  | itself => exact .inl hy
  | @product lhs rhs m n c d _ _ ihl ihr =>
    have hsides : y ∈ (c.getD one).leaves ∨ y ∈ (d.getD one).leaves := by
      rcases c with _ | a <;> rcases d with _ | b
      · exact .inl hy
      · exact .inr hy
      · exact .inl hy
      · exact mem_leaves_node.1 hy
    rcases hsides with hy | hy
    · exact (ihl hy).imp_right fun h => mem_leaves_node.2 (.inl h)
    · exact (ihr hy).imp_right fun h => mem_leaves_node.2 (.inr h)
  | quotient _ _ ihl =>
    rcases mem_leaves_node.1 hy with hy | hy
    · exact (ihl hy).imp_right fun h => mem_leaves_node.2 (.inl h)
    · exact .inr (mem_leaves_node.2 (.inr hy))
  | without => exact .inr hy

/-- Nothing of the variable is left. -/
theorem not_mem_variables (h : Splits name term degree rest) :
    name ∉ (rest.getD one).variables := by
  have hone : name ∉ one.variables := by
    rw [variables_one]
    exact List.not_mem_nil
  induction h with
  | itself => exact hone
  | @product lhs rhs m n c d _ _ ihl ihr =>
    rcases c with _ | a <;> rcases d with _ | b
    · exact hone
    · exact ihr
    · exact ihl
    · exact fun hmem => (mem_variables_node.1 hmem).elim ihl ihr
  | quotient hrhs _ ihl => exact fun hmem => (mem_variables_node.1 hmem).elim ihl hrhs
  | without hnone => exact hnone

variable {x : Operand}

/-- The degree counts the occurrences of the variable. -/
theorem degree_eq (hx : x.isVariable = true) (h : Splits x.text term degree rest) :
    degree = term.occurrences x.text := by
  induction h with
  | itself htext => rw [occurrences_leaf hx, if_pos htext]
  | product _ _ ihl ihr => rw [occurrences_node, ihl, ihr]
  | quotient hrhs _ ihl => rw [occurrences_node, occurrences_eq_zero_iff.2 hrhs, ihl, Nat.add_zero]
  | without hnone => exact (occurrences_eq_zero_iff.2 hnone).symm

/-- A term is without the variable exactly if it has degree zero. -/
theorem not_mem_iff (hx : x.isVariable = true) (h : Splits x.text term degree rest) :
    x.text ∉ term.variables ↔ degree = 0 := by
  rw [h.degree_eq hx, occurrences_eq_zero_iff]

theorem mem_variables_of_one (hx : x.isVariable = true) (h : Splits x.text term 1 rest) :
    x.text ∈ term.variables := by
  by_contra hnone
  exact one_ne_zero ((h.not_mem_iff hx).1 hnone)

/-- A term is a power of what was split off times what is left of the term. -/
theorem value? {K : Type*} [Field K] [DecidableEq K] {ρ : Valuation K} {w : K}
    (hw : (leaf x).value? ρ = some w) (h : Splits x.text term degree rest) :
    term.value? ρ = Operator.mul.onValues? (some (w ^ degree)) ((rest.getD one).value? ρ) := by
  induction h with
  | @itself operand htext =>
    obtain rfl : operand = x := Operand.ext htext
    rw [hw, Option.getD_none, value?_one]
    simp
  | @product lhs rhs m n c d _ _ ihl ihr =>
    have htimes : ((timesCoefficient c d).getD one).value? ρ =
        Operator.mul.onValues? ((c.getD one).value? ρ) ((d.getD one).value? ρ) := by
      rcases c with _ | a <;> rcases d with _ | b
      · simp [timesCoefficient, value?_one]
      · rcases hb : b.value? ρ with _ | v <;> simp [timesCoefficient, value?_one, hb]
      · rcases ha : a.value? ρ with _ | v <;> simp [timesCoefficient, value?_one, ha]
      · rfl
    rw [htimes, value?_node, ihl, ihr]
    rcases (c.getD one).value? ρ with _ | u <;> rcases (d.getD one).value? ρ with _ | v <;>
      simp [pow_add, mul_mul_mul_comm]
  | @quotient lhs rhs m c _ _ ihl =>
    rw [value?_node, ihl, Option.getD_some, value?_node]
    rcases (c.getD one).value? ρ with _ | u <;> rcases rhs.value? ρ with _ | v <;> try simp
    by_cases hv : v = 0 <;> simp [Operator.div_onValues?, hv, mul_div_assoc]
  | @without e _ =>
    rcases he : e.value? ρ with _ | v <;> simp [he]

end Splits

end Expr

/-! ### Sums of terms -/

namespace Collected

/-- The parts of two lists of terms, one behind the other. -/
def append (p q : Collected) : Collected :=
  ⟨p.coefficients ++ q.coefficients, p.remainder ++ q.remainder⟩

end Collected

namespace Term

variable {x : Operand} {ts : List Term} {parts : Collected}

/-- Whether a variable stands in a divisor of a term or is a factor of it more than once. -/
def IsNonlinear (name : String) (term : Term) : Prop :=
  term.body.Divides name ∨ 2 ≤ term.body.occurrences name

/-- The rules by which terms are collected. -/
inductive Collects (name : String) : List Term → Collected → Prop
  | nil : Collects name [] ⟨[], []⟩
  | linear {term : Term} {rest : List Term} {parts : Collected} {c : Option Expr} :
      Expr.Splits name term.body 1 c → Collects name rest parts →
      Collects name (term :: rest)
        { parts with coefficients := ⟨term.sign, c.getD .one⟩ :: parts.coefficients }
  | free {term : Term} {rest : List Term} {parts : Collected} {c : Option Expr} :
      Expr.Splits name term.body 0 c → Collects name rest parts →
      Collects name (term :: rest) { parts with remainder := term :: parts.remainder }

theorem collects_of_collect {name : String} (h : collect name ts = .ok parts) :
    Collects name ts parts := by
  induction ts generalizing parts with
  | nil => exact (Except.ok.inj h) ▸ .nil
  | cons t ts ih =>
    unfold collect at h
    obtain ⟨⟨degree, c⟩, ht, h⟩ := exists_of_bind_eq_ok h
    have hsplit := Expr.splits_of_splitVariable ht
    simp only at h
    split at h
    · cases h
    · obtain ⟨parts', hts, h⟩ := exists_of_bind_eq_ok h
      split at h
      · next hone =>
        obtain rfl := Except.ok.inj h
        exact .linear (hone ▸ hsplit) (ih hts)
      · next hle hone =>
        obtain rfl := Except.ok.inj h
        obtain rfl : degree = 0 := by omega
        exact .free hsplit (ih hts)

/-- Terms are collected exactly when each of them can be split and contains the variable at most
once. -/
theorem isOk_collect_iff_forall_split (hx : x.isVariable = true) : (collect x.text ts).isOk = true ↔
    ∀ t ∈ ts, (t.body.splitVariable x.text).isOk = true ∧ ¬ 2 ≤ t.body.occurrences x.text := by
  induction ts with
  | nil => simp [collect, Except.isOk, Except.toBool]
  | cons t ts ih =>
    rw [List.forall_mem_cons, ← ih, collect]
    rcases hs : t.body.splitVariable x.text with _ | ⟨degree, c⟩
    · simp [Except.isOk, Except.toBool, bind, Except.bind]
    have hdegree := (Expr.splits_of_splitVariable hs).degree_eq hx
    simp only [bind, Except.bind, ← hdegree]
    by_cases hlt : 1 < degree
    · simp [hlt, Except.isOk, Except.toBool, Nat.not_le.2 hlt]
    · rcases collect x.text ts with _ | parts
      · simp [hlt, Except.isOk, Except.toBool]
      · by_cases hone : degree = 1 <;>
          simp [hlt, hone, Except.isOk, Except.toBool, pure, Except.pure]
        omega

/-- Flat terms are collected exactly when all of them are linear in the variable. -/
theorem isOk_collect_iff (hx : x.isVariable = true) (hflat : ∀ t ∈ ts, t.body.isFlat = true) :
    (collect x.text ts).isOk = true ↔ ∀ t ∈ ts, ¬ t.IsNonlinear x.text := by
  rw [isOk_collect_iff_forall_split hx]
  refine forall₂_congr fun t ht => ?_
  rw [Expr.isOk_splitVariable_iff (hflat t ht), IsNonlinear, not_or]

/-- Lists of terms are collected one after the other. -/
theorem collect_append {name : String} (ss ts : List Term) : collect name (ss ++ ts) = (do
    let p ← collect name ss
    let q ← collect name ts
    return p.append q) := by
  induction ss with
  | nil =>
    rw [List.nil_append]
    rcases collect name ts with cause | q <;>
      simp [collect, Collected.append, bind, Except.bind, pure, Except.pure]
  | cons t ss ih =>
    rw [List.cons_append, collect, ih, collect]
    rcases t.body.splitVariable name with cause | ⟨degree, c⟩
    · rfl
    simp only [bind, Except.bind]
    by_cases hdegree : 1 < degree
    · simp [hdegree]
    · rcases collect name ss with cause | p
      · simp [hdegree]
      · rcases collect name ts with cause | q <;> by_cases hone : degree = 1 <;>
          simp [hdegree, hone, Collected.append, pure, Except.pure]

/-- A cause of refusal names the variable that was collected, and a term made of the operands of the
terms. -/
theorem of_collect_eq_error {name : String} {cause : NonlinearTerm} (h : collect name ts = .error cause) :
    cause.name = name ∧ cause.term.leaves ⊆ leavesOf ts := by
  induction ts with
  | nil => simp [collect] at h
  | cons t ts ih =>
    unfold collect at h
    rcases hs : t.body.splitVariable name with cause' | ⟨degree, c⟩
    · simp only [hs, bind, Except.bind, Except.error.injEq] at h
      obtain rfl := h
      exact (Expr.of_splitVariable_eq_error hs).imp_right (List.subset_append_of_subset_left _)
    simp only [hs, bind, Except.bind] at h
    split at h
    · obtain rfl := Except.error.inj h
      exact ⟨rfl, List.subset_append_left _ _⟩
    · rcases hts : collect name ts with cause' | parts
      · simp only [hts, Except.error.injEq] at h
        exact (ih (h ▸ hts)).imp_right (List.subset_append_of_subset_right _)
      · simp only [hts] at h
        split at h <;> simp [pure, Except.pure] at h

namespace Collects

theorem leaves_remainder {name : String} (h : Collects name ts parts) :
    leavesOf parts.remainder ⊆ leavesOf ts := by
  induction h with
  | nil => exact List.Subset.refl _
  | linear _ _ ih => exact List.subset_append_of_subset_right _ ih
  | free _ _ ih =>
    exact List.append_subset.2
      ⟨List.subset_append_left _ _, List.subset_append_of_subset_right _ ih⟩

theorem mem_leaves_coefficients {name : String} (h : Collects name ts parts) {y : Operand}
    (hy : y ∈ leavesOf parts.coefficients) : y ∈ Expr.one.leaves ∨ y ∈ leavesOf ts := by
  induction h with
  | nil => exact .inr hy
  | linear hsplit _ ih =>
    rcases List.mem_append.1 hy with hy | hy
    · exact (hsplit.mem_leaves hy).imp_right fun h => List.mem_append.2 (.inl h)
    · exact (ih hy).imp_right fun h => List.mem_append.2 (.inr h)
  | free _ _ ih => exact (ih hy).imp_right fun h => List.mem_append.2 (.inr h)

variable (hx : x.isVariable = true)
include hx

/-- Without coefficients the variable did not occur. -/
theorem not_mem_variables_of_coefficients_eq_nil (h : Collects x.text ts parts)
    (hnil : parts.coefficients = []) : ∀ t ∈ ts, x.text ∉ t.body.variables := by
  induction h with
  | nil => simp
  | linear => simp at hnil
  | free hsplit _ ih => exact List.forall_mem_cons.2 ⟨(hsplit.not_mem_iff hx).2 rfl, ih hnil⟩

/-- There are coefficients exactly where the variable occurs. -/
theorem coefficients_eq_nil_iff (h : Collects x.text ts parts) :
    parts.coefficients = [] ↔ ∀ t ∈ ts, x.text ∉ t.body.variables := by
  refine ⟨h.not_mem_variables_of_coefficients_eq_nil hx, fun hnone => ?_⟩
  induction h with
  | nil => rfl
  | linear hsplit _ _ =>
    exact absurd (hsplit.mem_variables_of_one hx) (List.forall_mem_cons.1 hnone).1
  | free _ _ ih => exact ih (List.forall_mem_cons.1 hnone).2

/-- No coefficient contains the variable, and no term of the remainder does. -/
theorem not_mem_variables (h : Collects x.text ts parts) :
    (∀ t ∈ parts.coefficients, x.text ∉ t.body.variables) ∧
      ∀ t ∈ parts.remainder, x.text ∉ t.body.variables := by
  induction h with
  | nil => simp
  | linear hsplit _ ih => exact ⟨List.forall_mem_cons.2 ⟨hsplit.not_mem_variables, ih.1⟩, ih.2⟩
  | free hsplit _ ih =>
    exact ⟨ih.1, List.forall_mem_cons.2 ⟨(hsplit.not_mem_iff hx).2 rfl, ih.2⟩⟩

omit hx

/-- **A sum is the variable times the sum of its coefficients, and the remainder.** -/
theorem sum? {K : Type*} [Field K] [DecidableEq K] {ρ : Valuation K} {w : K}
    (hw : (Expr.leaf x).value? ρ = some w) (h : Collects x.text ts parts) :
    Term.sum? ρ ts = Operator.add.onValues?
      (Operator.mul.onValues? (some w) (Term.sum? ρ parts.coefficients))
      (Term.sum? ρ parts.remainder) := by
  induction h with
  | nil => simp [Term.sum?]
  | @linear t ts parts c hsplit _ ih =>
    rw [sum?_cons, ih, sum?_cons, Term.value?, hsplit.value? hw, Term.value?, pow_one]
    rcases (c.getD .one).value? ρ with _ | u <;>
      rcases Term.sum? ρ parts.coefficients with _ | v <;>
      rcases Term.sum? ρ parts.remainder with _ | w <;> try simp
    cases t.sign <;> simp <;> ring
  | @free t ts parts c _ _ ih =>
    rw [sum?_cons, ih, sum?_cons, ← Operator.add_onValues?_assoc, ← Operator.add_onValues?_assoc,
      Operator.add_onValues?_comm (t.value? ρ)]

end Collects

/-! ### The factored form -/

section Factored

variable {K : Type*} [Field K] [DecidableEq K] {ρ : Valuation K} {w : K}
  (hw : (Expr.leaf x).value? ρ = some w)

include hw

theorem value?_timesVariable (cs : List Term) :
    (timesVariable x cs).value? ρ = Operator.mul.onValues? (some w) (sum? ρ cs) := by
  rw [← value?_join, timesVariable]
  split
  · next hone =>
    rw [hone, Expr.value?_one, hw]
    simp
  · rw [Expr.value?_node, hw]

/-- **The factored form is the variable times the sum of its coefficients, and the remainder.** -/
theorem value?_factored (parts : Collected) :
    (factored x parts).value? ρ = Operator.add.onValues?
      (Operator.mul.onValues? (some w) (sum? ρ parts.coefficients)) (sum? ρ parts.remainder) := by
  unfold factored
  split
  · rw [value?_join, sum?_cons, value?, value?_timesVariable hw, sum?_negateAll]
    rcases sum? ρ parts.coefficients with _ | v <;> simp
  · rw [value?_join, sum?_cons, value?, value?_timesVariable hw]
    rcases sum? ρ parts.coefficients with _ | v <;> simp

end Factored

end Term

theorem Operand.isVariable_of_isName {x : Operand} (hname : Text.isName x.text = true)
    (hconstant : isConstantName x.text = false) : x.isVariable = true := by
  simp [isVariable, isNumeral, Text.isNumeral, hname, hconstant]

/-- The name of a variable is an operand. -/
theorem Operand.exists_isVariable {name : String} (hname : Text.isName name = true)
    (hconstant : isConstantName name = false) : ∃ x : Operand, x.text = name ∧ x.isVariable = true := by
  have hvalid : isOperand name = true := by rw [isOperand, hname, Bool.or_true]
  exact ⟨⟨name, hvalid⟩, rfl, isVariable_of_isName hname hconstant⟩

/-! ### Factoring out -/

namespace Term

theorem occurrences_join (name : String) (ts : List Term) :
    (join ts).occurrences name = (ts.map fun t => t.body.occurrences name).sum := by
  rw [Expr.occurrences, (variables_join_perm ts).count_eq, List.count_flatMap]
  rfl

theorem occurrences_join_eq_zero {name : String} {ts : List Term}
    (h : ∀ t ∈ ts, name ∉ t.body.variables) : (join ts).occurrences name = 0 := by
  rw [occurrences_join, List.sum_eq_zero_iff]
  intro n hn
  obtain ⟨t, ht, rfl⟩ := List.mem_map.1 hn
  exact Expr.occurrences_eq_zero_iff.2 (h t ht)

variable {x : Operand} (hx : x.isVariable = true)

include hx

theorem occurrences_timesVariable {cs : List Term} (h : ∀ t ∈ cs, x.text ∉ t.body.variables) :
    (timesVariable x cs).occurrences x.text = 1 := by
  have hleaf : (Expr.leaf x).occurrences x.text = 1 := by rw [Expr.occurrences_leaf hx, if_pos rfl]
  rw [timesVariable]
  by_cases hone : join cs = .one
  · rw [if_pos hone, hleaf]
  · rw [if_neg hone, Expr.occurrences_node, hleaf, occurrences_join_eq_zero h]

/-- **Parts without the variable are put together with one occurrence of it.** -/
theorem occurrences_factored {parts : Collected}
    (hcoefficients : ∀ t ∈ parts.coefficients, x.text ∉ t.body.variables)
    (hremainder : ∀ t ∈ parts.remainder, x.text ∉ t.body.variables) :
    (factored x parts).occurrences x.text = 1 := by
  have hsum : ∀ (s : Sign) (cs : List Term), (∀ t ∈ cs, x.text ∉ t.body.variables) →
      (join (⟨s, timesVariable x cs⟩ :: parts.remainder)).occurrences x.text = 1 := by
    intro s cs hcs
    have hrest := occurrences_join_eq_zero hremainder
    rw [occurrences_join] at hrest
    rw [occurrences_join, List.map_cons, List.sum_cons, hrest, occurrences_timesVariable hx hcs]
  unfold factored
  split
  · refine hsum _ _ fun t ht => ?_
    obtain ⟨t', ht', rfl⟩ := List.mem_map.1 ht
    exact hcoefficients t' ht'
  · exact hsum _ _ hcoefficients

end Term

/-! ### The factored expression -/

namespace Expr

variable {x : Operand} (hx : x.isVariable = true) {e : Expr} {parts : Collected}

/-- Factoring out collects the variable, and puts the parts together where there is a coefficient. -/
theorem factorFor_eq (e : Expr) (x : Operand) :
    e.factorFor x.text = (e.expand.collect x.text).map fun parts =>
      if parts.coefficients.isEmpty then e.expand else Term.factored x parts := by
  rw [factorFor, x.ofText?_text]
  rcases e.expand.collect x.text with cause | parts
  · rfl
  · simp only [bind, Except.bind, Except.map]
    split <;> rfl

/-- The variable times the coefficients, and the remainder, make the expression. -/
theorem value?_of_collect {K : Type*} [Field K] [DecidableEq K] {ρ : Valuation K} {w : K}
    (hw : (leaf x).value? ρ = some w) (h : e.collect x.text = .ok parts) : e.value? ρ = Operator.add.onValues?
      (Operator.mul.onValues? (some w) (Term.sum? ρ parts.coefficients)) (Term.sum? ρ parts.remainder) := by
  rw [← Term.sum?_terms_plus]
  exact (Term.collects_of_collect h).sum? hw

include hx

/-- The variable is collected exactly where no term of the expanded form is nonlinear in it. -/
theorem isOk_collect_expand_iff :
    (e.expand.collect x.text).isOk = true ↔ ¬ ∃ t ∈ e.expand.terms .plus, t.IsNonlinear x.text := by
  have hflat : ∀ t ∈ e.expand.terms .plus, t.body.isFlat = true := by
    intro t ht
    exact Term.isFlat_of_mem_terms (isDistributed_expand e) ht
  rw [collect, Term.isOk_collect_iff hx hflat]
  simp only [not_exists, not_and]

variable (hcollect : e.expand.collect x.text = .ok parts)

include hcollect

/-- There are coefficients exactly where the variable occurs in the expression. -/
theorem coefficients_eq_nil_iff_of_collect : parts.coefficients = [] ↔ x.text ∉ e.variables := by
  rw [(Term.collects_of_collect hcollect).coefficients_eq_nil_iff hx, ← mem_variables_expand,
    ← Term.variables_terms e.expand .plus, List.mem_flatMap]
  simp only [not_exists, not_and]

omit hx in
/-- The collected parts of the expanded form, put together, say what the expression says. -/
theorem value?_factored_of_collect {K : Type*} [Field K] [DecidableEq K] {ρ : Valuation K} {w : K}
    (hw : (leaf x).value? ρ = some w) : (Term.factored x parts).value? ρ = e.value? ρ := by
  rw [Term.value?_factored hw, ← value?_of_collect hw hcollect, value?_expand]

end Expr

/-- **Factoring out a variable** is refused if and only if it stands in a divisor of a term of the
expanded form or is a factor of one more than once. Otherwise the result has a value exactly where
the expression has one, and the same value; in it the variable stands once if the expression
contains it, and if not, the result is the expanded form. -/
theorem Expr.factorFor_spec (e : Expr) {name : String} (hname : Text.isName name = true)
    (hconstant : isConstantName name = false) :
    ((∃ cause, e.factorFor name = .error cause) ↔ ∃ t ∈ e.expand.terms .plus, t.IsNonlinear name) ∧
      ((¬ ∃ t ∈ e.expand.terms .plus, t.IsNonlinear name) → ∃ f, e.factorFor name = .ok f ∧
        (∀ {K : Type*} [Field K] [DecidableEq K] (ρ : Valuation K), f.value? ρ = e.value? ρ) ∧
          (name ∈ e.variables → f.occurrences name = 1) ∧ (name ∉ e.variables → f = e.expand)) := by
  obtain ⟨x, rfl, hx⟩ := Operand.exists_isVariable hname hconstant
  have hok := isOk_collect_expand_iff hx (e := e)
  have hfactor := e.factorFor_eq x
  rcases hcollect : e.expand.collect x.text with cause | parts
  · rw [hcollect] at hok hfactor
    have hnonlinear : ∃ t ∈ e.expand.terms .plus, t.IsNonlinear x.text := by
      by_contra hnone
      exact Bool.false_ne_true (hok.2 hnone)
    exact ⟨⟨fun _ => hnonlinear, fun _ => ⟨cause, hfactor⟩⟩, fun hnone => absurd hnonlinear hnone⟩
  rw [hcollect] at hok
  simp only [hcollect, Except.map] at hfactor
  have hlinear := hok.1 rfl
  have hnil := coefficients_eq_nil_iff_of_collect hx hcollect
  refine ⟨⟨?_, fun h => absurd h hlinear⟩, fun _ => ⟨_, hfactor, ?_⟩⟩
  · rintro ⟨cause, hcause⟩
    rw [hfactor] at hcause
    cases hcause
  by_cases hmem : x.text ∈ e.variables
  · have hne : ¬ parts.coefficients.isEmpty = true := fun h => hnil.1 (List.isEmpty_iff.1 h) hmem
    obtain ⟨hcoefficients, hremainder⟩ := (Term.collects_of_collect hcollect).not_mem_variables hx
    rw [if_neg hne]
    exact ⟨fun ρ => value?_factored_of_collect hcollect (value?_leaf_of_isVariable hx),
      fun _ => Term.occurrences_factored hx hcoefficients hremainder, fun hnone => absurd hmem hnone⟩
  · rw [if_pos (List.isEmpty_iff.2 (hnil.2 hmem))]
    exact ⟨fun ρ => value?_expand ρ e, fun h => absurd h hmem, fun _ => rfl⟩

/-- `p * g - 8 * (p - h) / z`: two terms with `p` and one without it. -/
def Expr.linearSample : Expr :=
  .node (.node (.leaf ⟨"p", by decide⟩) .mul (.leaf ⟨"g", by decide⟩)) .sub
    (.node (.node (.leaf ⟨"8", by decide⟩) .mul
      (.node (.leaf ⟨"p", by decide⟩) .sub (.leaf ⟨"h", by decide⟩))) .div (.leaf ⟨"z", by decide⟩))

theorem Expr.factorFor_spec_linearSample : ∃ f, linearSample.factorFor "p" = .ok f ∧ f.occurrences "p" = 1 ∧
    f.value? ⟨fun _ => 0, fun _ => (1 : ℚ)⟩ = some 1 := by
  have hx : (⟨"p", by decide⟩ : Operand).isVariable = true := by decide +kernel
  have hlinear := (isOk_collect_expand_iff hx (e := linearSample)).1 (by decide +kernel)
  obtain ⟨f, hf, hvalue, hoccurrences, -⟩ :=
    (factorFor_spec linearSample (by decide +kernel) (by decide +kernel)).2 hlinear
  exact ⟨f, hf, hoccurrences (by decide +kernel), (hvalue _).trans (by decide +kernel)⟩

end LinearRelations
