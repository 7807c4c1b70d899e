import LinearRelations.Proofs.Factor
import LinearRelations.Proofs.Fold
import LinearRelations.Proofs.Isolation.Outcome

/-!
# Variables that stand alone already

A relation with a variable alone on the left, and nowhere on the right, is solved by moving everything
to the left and back again: the right side is expanded, its terms are folded, and it is joined. What is
joined is already expanded, and its terms are folded into terms that make the same sum. So the
answer is canonical: solving it once more gives it back. There is none only where the terms cannot be folded.

* `Expr.IsFreeTerm`: the terms of the other side, and what they are folded into;
* `Relation.collect_difference_leaf`: the variable is collected with the coefficient one;
* `Relation.solve_leaf_cases`: the answer, or why there is none;
* `Relation.solve_isolated`: solving the answer gives it back;
* `Relation.solve_isolated_farZero`: a variable that stands alone and is not solved for.
-/

namespace LinearRelations

/-! ### Terms without the variable -/

/-- A normal term the leaves of which stand for something, and do not contain a variable. -/
structure Expr.IsFreeTerm (name : String) (e : Expr) : Prop where
  normal : e.IsNormalTerm
  meaningful : e.IsMeaningful
  free : name ∉ e.variables

namespace Term

variable {name : String} {rhs : Expr}

theorem isMeaningful_of_mem_terms_expand (hmeaning : rhs.IsMeaningful) :
    ∀ t ∈ rhs.expand.terms .plus, t.body.IsMeaningful :=
  Expr.forall_leaves_of_mem_terms (Expr.forall_leaves_expand hmeaning)

theorem isFreeTerm_of_mem_terms_expand (hfree : name ∉ rhs.variables) (hmeaning : rhs.IsMeaningful) :
    ∀ t ∈ rhs.expand.terms .plus, t.body.IsFreeTerm name := by
  intro t ht
  exact ⟨Expr.isNormalTerm_of_mem_terms (Expr.isNormal_expand rhs) ht, isMeaningful_of_mem_terms_expand hmeaning t ht,
    Expr.not_mem_variables_of_mem_terms (mt Expr.mem_variables_expand.1 hfree) ht⟩

/-- Folding makes no other terms than such. -/
theorem isFreeTerm_folded {ts : List Term} (h : ∀ t ∈ ts, t.body.IsFreeTerm name) :
    ∀ t ∈ folded ts, t.body.IsFreeTerm name := by
  apply forall_mem_folded (P := Expr.IsFreeTerm name) h
  · refine ⟨Expr.isNormalTerm_leaf _, Expr.isReadable_zero.isMeaningful, ?_⟩
    rw [Expr.variables_zero]
    exact List.not_mem_nil
  · intro q size hsize
    have hconstant := List.isEmpty_iff.1 (Expr.isConstant_of_ofSize hsize)
    obtain ⟨y, rfl, -⟩ := Expr.of_ofSize hsize
    refine ⟨Expr.isNormalTerm_leaf y, (Expr.isReadable_of_ofSize hsize).isMeaningful, ?_⟩
    rw [hconstant]
    exact List.not_mem_nil

theorem terms_expand_join_of_isFreeTerm {ts : List Term} (h : ∀ t ∈ ts, t.body.IsFreeTerm name) :
    (join ts).expand.terms .plus = ordered ts := by
  rw [expand_join_of_isNormalTerm fun t ht => (h t ht).normal,
    terms_join_of_single fun t ht => (h t ht).normal.single]

theorem not_mem_variables_join {ts : List Term} (h : ∀ t ∈ ts, t.body.IsFreeTerm name) :
    name ∉ (join ts).variables := by
  rw [← Expr.occurrences_eq_zero_iff]
  exact occurrences_join_eq_zero fun t ht => (h t ht).free

end Term

/-! ### Solving -/

namespace Relation

variable {x : Operand} {c : Comparison} {rhs : Expr}

/-- Dividing by the coefficient one folds and joins the terms. -/
theorem divideOut_one {ts : List Term} (hne : ts ≠ []) :
    divideOut x c ⟨[⟨.plus, .one⟩], Term.negateAll ts⟩ =
      ((Term.foldConstants ts).map fun folded => ⟨.leaf x, c, Term.join folded⟩).mapError .inexact := by
  have hsign : (Term.join [⟨.plus, .one⟩]).constantSign = .ok (some 1) := by decide +kernel
  have hover : (ts.map fun t => { t with body := t.body.over (Term.join [⟨.plus, .one⟩]) }) = ts := by
    conv_rhs => rw [← List.map_id ts]
    rfl
  have hdivide : Term.divide ts (Term.join [⟨.plus, .one⟩]) = (Term.foldConstants ts).map Term.join := by
    rw [Term.divide, if_neg (by simpa using hne), if_neg (by decide +kernel), Term.divideEach, hover]
    rfl
  have hadded : ¬ (⟨[⟨.plus, .one⟩], Term.negateAll ts⟩ : Collected).allSubtracted = true := Bool.false_ne_true
  rw [divideOut_eq, if_neg hadded, divideTurned, hsign]
  dsimp only
  rw [if_neg (by decide), dividedBy, Term.negateAll_negateAll, hdivide]
  rcases Term.foldConstants ts with cause | folded
  · rfl
  · rfl

section Variable

variable (hx : x.isVariable = true) (hfree : x.text ∉ rhs.variables)

include hx hfree

/-- The variable is collected with the coefficient one, and the other side turned around. -/
theorem collect_difference_leaf : (⟨.leaf x, c, rhs⟩ : Relation).difference.collect x.text =
    .ok ⟨[⟨.plus, .one⟩], Term.negateAll (rhs.expand.terms .plus)⟩ := by
  have hrest : ∀ t ∈ Term.negateAll (rhs.expand.terms .plus), x.text ∉ t.body.variables := by
    rw [← Expr.terms_negate]
    intro t ht
    exact Expr.not_mem_variables_of_mem_terms (mt Expr.mem_variables_expand.1 hfree) ht
  have hleaf : Term.collect x.text [⟨.plus, .leaf x⟩] = .ok ⟨[⟨.plus, .one⟩], []⟩ := by
    simp [Term.collect, Expr.splitVariable, bind, Except.bind, pure, Except.pure]
  rw [Expr.collect, terms_difference, Expr.expand_of_isNormal (Expr.isNormal_expand rhs)]
  show Term.collect x.text ([⟨.plus, .leaf x⟩] ++ _) = _
  rw [Term.collect_append, hleaf, Term.collect_of_not_mem hx hrest]
  rfl

variable (hmeaning : rhs.IsMeaningful)

include hmeaning

/-- **A variable that stands alone is solved for** by folding the terms of the other side, if they can be
folded. -/
theorem solve_leaf_cases : (∀ cause, ¬ Term.FoldFault (rhs.expand.terms .plus) cause) ∧
      (⟨.leaf x, c, rhs⟩ : Relation).solve x.text =
        .ok ⟨.leaf x, c, Term.join (Term.folded (rhs.expand.terms .plus))⟩ ∨
    ∃ cause, Term.FoldFault (rhs.expand.terms .plus) cause ∧
      (⟨.leaf x, c, rhs⟩ : Relation).solve x.text = .error (.inexact cause) := by
  have hname : x.text ∈ (⟨.leaf x, c, rhs⟩ : Relation).variables := by
    apply List.mem_append_left
    simp [Expr.variables, hx]
  have hcancels : cancels ⟨[⟨.plus, .one⟩], Term.negateAll (rhs.expand.terms .plus)⟩ = .ok false := by
    show (Term.join [⟨.plus, .one⟩]).isZero = .ok false
    decide +kernel
  have hne : rhs.expand.terms .plus ≠ [] := by
    obtain ⟨t, rest, hterms, -⟩ := rhs.expand.exists_terms_eq_cons .plus
    rw [hterms]
    exact List.cons_ne_nil t rest
  rw [solve_eq_divideOut x.ofText?_text hname (collect_difference_leaf hx hfree) hcancels, divideOut_one hne]
  rcases Term.foldConstants_cases (Term.isMeaningful_of_mem_terms_expand hmeaning) with ⟨hnone, hfolded⟩ |
    ⟨cause, hcause, herror⟩
  · rw [hfolded]
    exact .inl ⟨hnone, rfl⟩
  · rw [herror]
    exact .inr ⟨cause, hcause, rfl⟩

end Variable

/-- **A variable that stands alone** on the left of a relation, and not on the right, is solved for with the
same comparison, and solving the answer for it gives the answer back; unless the numeric terms of the right
side cannot be folded, which is all that can be in the way. -/
theorem solve_isolated (x : Operand) (hname : Text.isName x.text = true)
    (hconstant : isConstantName x.text = false) (c : Comparison) (rhs : Expr) (hfree : x.text ∉ rhs.variables)
    (hmeaning : rhs.IsMeaningful) :
    (∀ cause, (⟨.leaf x, c, rhs⟩ : Relation).solve x.text = .error cause ↔
      ∃ fault, Term.FoldFault (rhs.expand.terms .plus) fault ∧ cause = .inexact fault) ∧
    ((∀ fault, ¬ Term.FoldFault (rhs.expand.terms .plus) fault) →
      ∃ s, (⟨.leaf x, c, rhs⟩ : Relation).solve x.text = .ok s ∧ s.lhs = .leaf x ∧ s.comparison = c ∧
        s.solve x.text = .ok s) := by
  have hx : x.isVariable = true := Operand.isVariable_of_isName hname hconstant
  rcases solve_leaf_cases (c := c) hx hfree hmeaning with ⟨hnone, hs⟩ | ⟨fault, hfault, herror⟩
  · refine ⟨fun cause => iff_of_false (fun h => ?_) fun ⟨fault, hfault, _⟩ => hnone fault hfault, fun _ => ?_⟩
    · cases hs.symm.trans h
    have hfolded := Term.isFreeTerm_folded (Term.isFreeTerm_of_mem_terms_expand hfree hmeaning)
    have hjoined := Term.not_mem_variables_join hfolded
    have hmeaning' := Term.forall_leaves_join Expr.isReadable_zero.isMeaningful
      fun t ht => (hfolded t ht).meaningful
    obtain ⟨t, rest, hfirst, hsign⟩ := rhs.expand.exists_terms_eq_cons .plus
    refine ⟨_, hs, rfl, rfl, ?_⟩
    -- the second run folds the terms of what the first has joined
    have hagain := solve_leaf_cases (c := c) hx hjoined hmeaning'
    rw [Term.terms_expand_join_of_isFreeTerm hfolded] at hagain
    rcases hagain with ⟨-, hs'⟩ | ⟨fault, hfault, -⟩
    · rwa [hfirst, Term.join_folded_ordered hsign, ← hfirst] at hs'
    · exact absurd hfault (Term.not_foldFault_ordered (Term.not_foldFault_folded hnone) fault)
  · refine ⟨fun cause => ⟨fun h => ?_, ?_⟩, fun hnone => absurd hfault (hnone fault)⟩
    · exact ⟨fault, hfault, Except.error.inj (h.symm.trans herror)⟩
    · rintro ⟨fault', hfault', rfl⟩
      rw [herror, hfault.unique hfault']

/-- `j < 11 - c - 14`, of which all terms are subtracted once the numbers are folded. -/
def alone : Relation :=
  ⟨.leaf ⟨"j", by decide⟩, .lt, .node (.node (.leaf ⟨"11", by decide⟩) .sub (.leaf ⟨"c", by decide⟩)) .sub
    (.leaf ⟨"14", by decide⟩)⟩

theorem solve_isolated_alone : ∃ s, alone.solve "j" = .ok s ∧ s.rhs.render = "((0 - 3) - c)" ∧
    s.solve "j" = .ok s := by
  have hmeaning : alone.rhs.IsMeaningful := by
    refine Expr.isMeaningful_node.2 ⟨Expr.isMeaningful_node.2 ⟨?_, ?_⟩, ?_⟩
    · exact Expr.isMeaningful_leaf (v := .number 11) (by decide +kernel)
    · exact Expr.isMeaningful_leaf (v := .unknown "c") (by decide +kernel)
    · exact Expr.isMeaningful_leaf (v := .number 14) (by decide +kernel)
  have hrender : (alone.solve "j").toOption.map (fun s => s.rhs.render) = some "((0 - 3) - c)" := by
    decide +kernel
  obtain ⟨herror, hok⟩ := solve_isolated ⟨"j", by decide⟩ (by decide +kernel) (by decide +kernel) .lt
    alone.rhs (by decide +kernel) hmeaning
  obtain ⟨s, hs, -, -, hagain⟩ := hok fun fault hfault => by
    have hfails : alone.solve "j" = .error (.inexact fault) := (herror _).2 ⟨fault, hfault, rfl⟩
    rw [hfails] at hrender
    cases hrender
  have hs' : alone.solve "j" = .ok s := hs
  rw [hs'] at hrender
  exact ⟨s, hs', Option.some.inj hrender, hagain⟩

/-- **A variable that stands alone and is not solved for**: what it equals is a zero out of range. -/
theorem solve_isolated_farZero :
    (⟨.leaf ⟨"j", by decide⟩, .eq, .leaf .farZero⟩ : Relation).solve "j" =
        .error (.inexact .exponentOutOfRange) ∧
      ¬ ∀ (x : Operand) (c : Comparison) (rhs : Expr), Text.isName x.text = true →
        isConstantName x.text = false → x.text ∉ rhs.variables → rhs.IsMeaningful →
          ∃ s, (⟨.leaf x, c, rhs⟩ : Relation).solve x.text = .ok s := by
  have herror : (⟨.leaf ⟨"j", by decide⟩, .eq, .leaf .farZero⟩ : Relation).solve "j" =
      .error (.inexact .exponentOutOfRange) := by decide +kernel
  refine ⟨herror, fun h => ?_⟩
  obtain ⟨s, hs⟩ := h ⟨"j", by decide⟩ .eq (.leaf .farZero) (by decide +kernel) (by decide +kernel)
    (by decide +kernel) (Expr.isMeaningful_leaf Operand.meaning?_farZero)
  cases herror.symm.trans hs

end Relation

end LinearRelations
