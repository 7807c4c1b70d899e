import LinearRelations.Proofs.Collect
import LinearRelations.Proofs.Joined

/-!
# Factoring out twice, and factoring out what is no variable

A term without a variable is collected as it is, so what was factored out is found again: the
factored form is expanded into the terms it was made of, in the order in which they stand in it, and
putting them together once more makes the same expression.

Which factors are collected is decided by their texts, and not by whether they are variables. So a
named constant or a number that is a factor of a term is factored out like a variable, and refused
like one where it is a factor of a term more than once.

* `Expr.factorCount`: how often a text is a factor of a term;
* `Expr.splitVariable_of_not_mem`, `Term.exists_collect_of_not_mem`: what is collected for a text
  that is no variable of the expression;
* `Expr.factorFor_of_not_mem`: when it is factored out, and what that gives;
* `Term.collect_terms_timesVariable`: the terms of a variable times a sum of coefficients;
* `Term.exists_collect_factored`: what is collected in the factored form;
* `Expr.factorFor_factorFor`: factoring out a variable twice is factoring it out once.
-/

namespace LinearRelations

/-! ### Texts that are no variables -/

namespace Expr

variable {name : String}

/-- How often a leaf of the given text is a factor of a term. Sums and quotients have no factors. -/
def factorCount (text : String) : Expr → Nat
  | leaf operand => if operand.text = text then 1 else 0
  | node lhs .mul rhs => lhs.factorCount text + rhs.factorCount text
  | node _ .div _ => 0
  | node _ .add _ => 0
  | node _ .sub _ => 0

/-- A text that is no variable of a term is split off as often as it is a factor. -/
theorem splitVariable_of_not_mem {e : Expr} (h : name ∉ e.variables) :
    ∃ rest, e.splitVariable name = .ok (e.factorCount name, rest) ∧
      (e.factorCount name = 0 → rest = some e) := by
  fun_induction splitVariable name e with
  | case1 operand htext =>
    rw [factorCount, if_pos htext]
    exact ⟨none, rfl, fun hzero => absurd hzero one_ne_zero⟩
  | case2 operand htext =>
    rw [factorCount, if_neg htext]
    exact ⟨some (leaf operand), rfl, fun _ => rfl⟩
  | case3 lhs rhs ihl ihr =>
    rw [mem_variables_node, not_or] at h
    obtain ⟨c, hl, hlzero⟩ := ihl h.1
    obtain ⟨d, hr, hrzero⟩ := ihr h.2
    refine ⟨timesCoefficient c d, by rw [hl, hr]; rfl, fun hzero => ?_⟩
    rw [factorCount, Nat.add_eq_zero_iff] at hzero
    rw [hlzero hzero.1, hrzero hzero.2]
    rfl
  | case4 lhs rhs hmem => exact absurd hmem h
  | case5 lhs rhs hmem => exact absurd hmem h
  | case6 lhs rhs => exact ⟨_, rfl, fun _ => rfl⟩
  | case7 lhs op rhs _ _ hmem => exact absurd hmem h
  | case8 lhs op rhs hmul hdiv =>
    cases op with
    | mul => exact absurd rfl hmul
    | div => exact absurd rfl hdiv
    | add => exact ⟨_, rfl, fun _ => rfl⟩
    | sub => exact ⟨_, rfl, fun _ => rfl⟩

/-- A variable is a factor only of terms in which it stands. -/
theorem factorCount_eq_zero {x : Operand} (hx : x.isVariable = true) {e : Expr} (h : x.text ∉ e.variables) :
    e.factorCount x.text = 0 := by
  fun_induction factorCount x.text e with
  | case1 operand htext =>
    obtain rfl : operand = x := Operand.ext htext
    exact absurd (by simp [Expr.variables, hx]) h
  | case2 => rfl
  | case3 lhs rhs ihl ihr =>
    rw [mem_variables_node, not_or] at h
    rw [ihl h.1, ihr h.2]
  | case4 => rfl
  | case5 => rfl
  | case6 => rfl

/-- Only operands are factors. -/
theorem exists_operand_of_factorCount {e : Expr} (h : e.factorCount name ≠ 0) : ∃ x : Operand, x.text = name := by
  fun_induction factorCount name e with
  | case1 operand htext => exact ⟨operand, htext⟩
  | case2 => exact absurd rfl h
  | case3 lhs rhs ihl ihr =>
    by_cases hl : lhs.factorCount name = 0
    · exact ihr fun hr => h (by rw [hl, hr])
    · exact ihl hl
  | case4 => exact absurd rfl h
  | case5 => exact absurd rfl h
  | case6 => exact absurd rfl h

/-- A term has a value only where its factors have one. -/
theorem exists_value?_of_factorCount {K : Type*} [Field K] [DecidableEq K] {ρ : Valuation K} {x : Operand}
    {e : Expr} (h : e.factorCount x.text ≠ 0) (hv : (e.value? ρ).isSome) : ((leaf x).value? ρ).isSome := by
  fun_induction factorCount x.text e with
  | case1 operand htext =>
    obtain rfl : operand = x := Operand.ext htext
    exact hv
  | case2 => exact absurd rfl h
  | case3 lhs rhs ihl ihr =>
    obtain ⟨v, hv⟩ := Option.isSome_iff_exists.1 hv
    rw [value?_node] at hv
    obtain ⟨y, z, hy, hz⟩ := Operator.exists_of_onValues? hv
    by_cases hl : lhs.factorCount x.text = 0
    · exact ihr (fun hr => h (by rw [hl, hr])) (by simp [hz])
    · exact ihl hl (by simp [hy])
  | case4 => exact absurd rfl h
  | case5 => exact absurd rfl h
  | case6 => exact absurd rfl h

end Expr

namespace Term

variable {name : String} {ts : List Term}

/-- Terms of which the text is a factor at most once are collected: those of which it is none are the
remainder, and the others make coefficients under their signs. -/
theorem exists_collect_of_not_mem (h : ∀ t ∈ ts, name ∉ t.body.variables)
    (hle : ∀ t ∈ ts, t.body.factorCount name ≤ 1) :
    ∃ cs, collect name ts = .ok ⟨cs, ts.filter fun t => t.body.factorCount name == 0⟩ ∧
      cs.map Term.sign = (ts.filter fun t => t.body.factorCount name != 0).map Term.sign := by
  induction ts with
  | nil => exact ⟨[], rfl, rfl⟩
  | cons t ts ih =>
    obtain ⟨ht, hts⟩ := List.forall_mem_cons.1 h
    obtain ⟨hone, hones⟩ := List.forall_mem_cons.1 hle
    obtain ⟨c, hc, -⟩ := Expr.splitVariable_of_not_mem ht
    obtain ⟨cs, hcs, hsigns⟩ := ih hts hones
    rw [collect, hc, hcs]
    rcases Nat.le_one_iff_eq_zero_or_eq_one.1 hone with hcount | hcount
    · rw [hcount]
      exact ⟨cs, by simp [hcount, bind, Except.bind, pure, Except.pure], by simp [hcount, hsigns]⟩
    · rw [hcount]
      exact ⟨⟨t.sign, c.getD .one⟩ :: cs, by simp [hcount, bind, Except.bind, pure, Except.pure],
        by simp [hcount, hsigns]⟩

/-- Terms of which the text is no factor are collected as they are. -/
theorem collect_of_factorCount_eq_zero (h : ∀ t ∈ ts, name ∉ t.body.variables)
    (hzero : ∀ t ∈ ts, t.body.factorCount name = 0) : collect name ts = .ok ⟨[], ts⟩ := by
  obtain ⟨cs, hcs, hsigns⟩ := exists_collect_of_not_mem h fun t ht => (hzero t ht).trans_le zero_le_one
  have hall : (ts.filter fun t => t.body.factorCount name == 0) = ts :=
    List.filter_eq_self.2 fun t ht => by simp [hzero t ht]
  have hnone : (ts.filter fun t => t.body.factorCount name != 0) = [] :=
    List.filter_eq_nil_iff.2 fun t ht => by simp [hzero t ht]
  rw [hnone, List.map_nil, List.map_eq_nil_iff] at hsigns
  rw [hcs, hall, hsigns]

/-- A term of which the text is a factor more than once is refused. -/
theorem exists_collect_eq_error (h : ∀ t ∈ ts, name ∉ t.body.variables)
    (hlt : ∃ t ∈ ts, 2 ≤ t.body.factorCount name) : ∃ cause, collect name ts = .error cause := by
  induction ts with
  | nil =>
    obtain ⟨t, ht, -⟩ := hlt
    cases ht
  | cons t ts ih =>
    obtain ⟨ht, hts⟩ := List.forall_mem_cons.1 h
    obtain ⟨c, hc, -⟩ := Expr.splitVariable_of_not_mem ht
    rw [collect, hc]
    simp only [bind, Except.bind]
    by_cases hcount : 1 < t.body.factorCount name
    · rw [if_pos hcount]
      exact ⟨_, rfl⟩
    · rw [if_neg hcount]
      obtain ⟨t', ht', hlt⟩ := hlt
      rcases List.mem_cons.1 ht' with rfl | ht'
      · exact absurd hlt hcount
      · obtain ⟨cause, hcause⟩ := ih hts ⟨t', ht', hlt⟩
        rw [hcause]
        exact ⟨cause, rfl⟩

variable {x : Operand} {parts : Collected} {K : Type*} [Field K] [DecidableEq K] {ρ : Valuation K}

/-- The factored form has a value only where what was factored out has one. -/
theorem value?_isSome_of_factored (h : ((factored x parts).value? ρ).isSome) :
    ((Expr.leaf x).value? ρ).isSome := by
  have htimes : ∀ cs : List Term, ((timesVariable x cs).value? ρ).isSome → ((Expr.leaf x).value? ρ).isSome := by
    intro cs hcs
    rw [timesVariable] at hcs
    split at hcs
    · exact hcs
    · obtain ⟨v, hv⟩ := Option.isSome_iff_exists.1 hcs
      rw [Expr.value?_node] at hv
      obtain ⟨y, z, hy, -⟩ := Operator.exists_of_onValues? hv
      rw [hy]
      rfl
  unfold factored at h
  split at h
  · rw [value?_join, sum?_isSome_iff] at h
    exact htimes _ (h _ List.mem_cons_self)
  · rw [value?_join, sum?_isSome_iff] at h
    exact htimes _ (h _ List.mem_cons_self)

end Term

namespace Expr

variable {name : String}

theorem not_mem_variables_of_mem_terms {e : Expr} (h : name ∉ e.variables) {s : Sign} {t : Term}
    (ht : t ∈ e.terms s) : name ∉ t.body.variables := by
  intro hmem
  rw [← Term.variables_terms e s] at h
  exact h (List.mem_flatMap.2 ⟨t, ht, hmem⟩)

/-- What is factored out and is no variable has a value where the expression has one, and where it has
none neither has the factored form. -/
theorem value?_factored_of_factorCount {x : Operand} {e : Expr} {parts : Collected}
    (hcollect : e.expand.collect x.text = .ok parts)
    (hcount : ∃ t ∈ e.expand.terms .plus, t.body.factorCount x.text ≠ 0) {K : Type*} [Field K] [DecidableEq K]
    (ρ : Valuation K) : (Term.factored x parts).value? ρ = e.value? ρ := by
  rcases hw : (leaf x).value? ρ with _ | w
  · have hfactored : (Term.factored x parts).value? ρ = none := by
      by_contra hsome
      have := Term.value?_isSome_of_factored (Option.isSome_iff_ne_none.2 hsome)
      rw [hw] at this
      cases this
    rw [hfactored, eq_comm]
    by_contra hsome
    obtain ⟨v, hv⟩ := Option.ne_none_iff_exists'.1 hsome
    have hterms : (Term.sum? ρ (e.expand.terms .plus)).isSome := by
      rw [Term.sum?_terms_plus, value?_expand, hv]
      rfl
    obtain ⟨t, ht, hcount⟩ := hcount
    have := exists_value?_of_factorCount hcount ((Term.sum?_isSome_iff ρ).1 hterms t ht)
    rw [hw] at this
    cases this
  · exact value?_factored_of_collect hcollect hw

/-- Nothing but collecting is in the way of factoring out. -/
theorem exists_factorFor_eq_error_iff {e : Expr} :
    (∃ cause, e.factorFor name = .error cause) ↔ ∃ cause, e.expand.collect name = .error cause := by
  unfold factorFor
  constructor
  · rintro ⟨cause, hcause⟩
    rcases hcollect : e.expand.collect name with cause' | parts
    · exact ⟨cause', rfl⟩
    · simp only [hcollect, bind, Except.bind] at hcause
      split at hcause
      · cases hcause
      · split at hcause
        · cases hcause
        · cases hcause
  · rintro ⟨cause, hcause⟩
    rw [hcause]
    exact ⟨cause, rfl⟩

/-- Where no coefficient is collected the result is the expanded form. -/
theorem factorFor_of_coefficients_eq_nil {e : Expr} {rest : List Term}
    (h : e.expand.collect name = .ok ⟨[], rest⟩) : e.factorFor name = .ok e.expand := by
  rw [factorFor, h]
  rfl

/-- Where a coefficient is collected it is the factored form. -/
theorem factorFor_of_coefficients_ne_nil {x : Operand} {e : Expr} {parts : Collected}
    (h : e.expand.collect x.text = .ok parts) (hne : parts.coefficients ≠ []) :
    e.factorFor x.text = .ok (Term.factored x parts) := by
  rw [factorFor_eq, h, Except.map, if_neg fun hnil => hne (List.isEmpty_iff.1 hnil)]

/-- **A text that is no variable of an expression** is nevertheless factored out of the terms of which it
is a factor, if it is the text of a constant or of a number. Factoring it out is refused if and only
if it is a factor of some term of the expanded form more than once. If it is a factor of none, as the
name of a variable is, the result is the expanded form; if it is a factor of some, the result is the
factored form, and that has the value of the expression wherever one of them has a value. -/
theorem factorFor_of_not_mem (e : Expr) (h : name ∉ e.variables) :
    ((∃ cause, e.factorFor name = .error cause) ↔ ∃ t ∈ e.expand.terms .plus, 2 ≤ t.body.factorCount name) ∧
      ((∀ t ∈ e.expand.terms .plus, t.body.factorCount name = 0) → e.factorFor name = .ok e.expand) ∧
      ((∀ t ∈ e.expand.terms .plus, t.body.factorCount name ≤ 1) →
        (∃ t ∈ e.expand.terms .plus, t.body.factorCount name = 1) →
          ∃ x parts, x.text = name ∧ e.expand.collect name = .ok parts ∧ parts.coefficients ≠ [] ∧
            e.factorFor name = .ok (Term.factored x parts) ∧
            ∀ {K : Type*} [Field K] [DecidableEq K] (ρ : Valuation K),
              (Term.factored x parts).value? ρ = e.value? ρ) ∧
      (Text.isName name = true → isConstantName name = false → e.factorFor name = .ok e.expand) := by
  have hterms : ∀ t ∈ e.expand.terms .plus, name ∉ t.body.variables := fun t ht =>
    not_mem_variables_of_mem_terms (mt mem_variables_expand.1 h) ht
  have hzero : (∀ t ∈ e.expand.terms .plus, t.body.factorCount name = 0) → e.factorFor name = .ok e.expand :=
    fun hzero => factorFor_of_coefficients_eq_nil (Term.collect_of_factorCount_eq_zero hterms hzero)
  refine ⟨?_, hzero, ?_, ?_⟩
  · rw [exists_factorFor_eq_error_iff]
    constructor
    · rintro ⟨cause, hcause⟩
      by_contra hnone
      push Not at hnone
      obtain ⟨cs, hcs, -⟩ := Term.exists_collect_of_not_mem hterms fun t ht => Nat.le_of_lt_succ (hnone t ht)
      rw [collect, hcs] at hcause
      cases hcause
    · exact Term.exists_collect_eq_error hterms
  · intro hle hone
    obtain ⟨t, ht, hcount⟩ := hone
    have hcount : t.body.factorCount name ≠ 0 := by omega
    obtain ⟨x, rfl⟩ := exists_operand_of_factorCount hcount
    obtain ⟨cs, hcs, hsigns⟩ := Term.exists_collect_of_not_mem hterms hle
    have hne : cs ≠ [] := by
      rintro rfl
      rw [List.map_nil, eq_comm, List.map_eq_nil_iff, List.filter_eq_nil_iff] at hsigns
      exact hsigns t ht (by simpa using hcount)
    exact ⟨x, _, rfl, hcs, hne, factorFor_of_coefficients_ne_nil hcs hne,
      fun ρ => value?_factored_of_factorCount hcs ⟨t, ht, hcount⟩ ρ⟩
  · intro hname hconstant
    obtain ⟨x, rfl, hx⟩ := Operand.exists_isVariable hname hconstant
    exact hzero fun t ht => factorCount_eq_zero hx (hterms t ht)

/-- `r * M_PI`, in which the constant is a factor once. -/
def timesPi : Expr := .node (.leaf ⟨"r", by decide⟩) .mul (.leaf ⟨"M_PI", by decide⟩)

/-- `M_PI * M_PI`, in which it is one twice. -/
def piSquared : Expr := .node (.leaf ⟨"M_PI", by decide⟩) .mul (.leaf ⟨"M_PI", by decide⟩)

/-- In `r * M_PI` the constant comes to the front. -/
theorem factorFor_timesPi : ∃ f, timesPi.factorFor "M_PI" = .ok f ∧ f ≠ timesPi.expand ∧
    ∀ ρ : Valuation ℚ, f.value? ρ = timesPi.value? ρ := by
  have hmem : "M_PI" ∉ timesPi.variables := by decide +kernel
  obtain ⟨-, -, hone, -⟩ := factorFor_of_not_mem timesPi hmem
  obtain ⟨x, parts, -, -, -, hf, hvalue⟩ := hone (by decide +kernel) (by decide +kernel)
  have hne : timesPi.factorFor "M_PI" ≠ .ok timesPi.expand := by decide +kernel
  refine ⟨Term.factored x parts, hf, ?_, fun ρ => hvalue ρ⟩
  intro h
  rw [h] at hf
  exact hne hf

/-- No variable stands in `M_PI * M_PI`, but it is refused. -/
theorem factorFor_piSquared : "M_PI" ∉ piSquared.variables ∧
    piSquared.factorFor "M_PI" = .error ⟨"M_PI", piSquared⟩ := by
  decide +kernel

end Expr

/-! ### Normal parts -/

namespace Expr

theorem IsNormalTerm.of_mul {lhs rhs : Expr} (h : (node lhs .mul rhs).IsNormalTerm) :
    lhs.IsNormalTerm ∧ rhs.IsNormalTerm := by
  have hnormal := h.normal
  simp only [isNormal, Bool.and_eq_true, Bool.not_eq_true'] at hnormal
  obtain ⟨⟨⟨hlhs, hrhs⟩, hl⟩, hr⟩ := hnormal
  exact ⟨⟨hl, hlhs⟩, hr, hrhs⟩

theorem IsNormalTerm.of_div {lhs rhs : Expr} (h : (node lhs .div rhs).IsNormalTerm) :
    lhs.IsNormalTerm ∧ rhs.isNormal = true := by
  have hnormal := h.normal
  simp only [isNormal, Bool.and_eq_true, Bool.not_eq_true'] at hnormal
  obtain ⟨⟨hlhs, hl⟩, hr⟩ := hnormal
  exact ⟨⟨hl, hlhs⟩, hr⟩

/-- What is left of a normal term is normal. -/
theorem Splits.isNormalTerm {name : String} {term : Expr} {degree : Nat} {rest : Option Expr}
    (h : Splits name term degree rest) (hterm : term.IsNormalTerm) : (rest.getD one).IsNormalTerm := by
  induction h with
  | itself => exact isNormalTerm_leaf _
  | @product lhs rhs m n c d _ _ ihl ihr =>
    obtain ⟨hl, hr⟩ := hterm.of_mul
    rcases c with _ | a <;> rcases d with _ | b
    · exact isNormalTerm_leaf _
    · exact ihr hr
    · exact ihl hl
    · exact isNormalTerm_mul (ihl hl) (ihr hr)
  | quotient _ _ ihl =>
    obtain ⟨hl, hr⟩ := hterm.of_div
    exact isNormalTerm_div (ihl hl) hr
  | without => exact hterm

end Expr

namespace Term

variable {x : Operand} {ts : List Term} {parts : Collected}

/-- The parts of a normal sum are normal. -/
theorem Collects.isNormalTerm {name : String} (h : Collects name ts parts)
    (hts : ∀ t ∈ ts, t.body.IsNormalTerm) :
    (∀ t ∈ parts.coefficients, t.body.IsNormalTerm) ∧ ∀ t ∈ parts.remainder, t.body.IsNormalTerm := by
  induction h with
  | nil => simp
  | linear hsplit _ ih =>
    obtain ⟨ht, hts⟩ := List.forall_mem_cons.1 hts
    exact ⟨List.forall_mem_cons.2 ⟨hsplit.isNormalTerm ht, (ih hts).1⟩, (ih hts).2⟩
  | free _ _ ih =>
    obtain ⟨ht, hts⟩ := List.forall_mem_cons.1 hts
    exact ⟨(ih hts).1, List.forall_mem_cons.2 ⟨ht, (ih hts).2⟩⟩

/-! ### What is found in the factored form -/

section Again

variable (hx : x.isVariable = true)

include hx

/-- Terms without a variable are collected as they are. -/
theorem collect_of_not_mem (h : ∀ t ∈ ts, x.text ∉ t.body.variables) : collect x.text ts = .ok ⟨[], ts⟩ :=
  collect_of_factorCount_eq_zero h fun t ht => Expr.factorCount_eq_zero hx (h t ht)

/-- Of a variable times terms without it those terms are the coefficients. -/
theorem collect_mul (h : ∀ t ∈ ts, x.text ∉ t.body.variables) :
    collect x.text (ts.map fun t => ⟨t.sign, .node (.leaf x) .mul t.body⟩) = .ok ⟨ts, []⟩ := by
  induction ts with
  | nil => rfl
  | cons t ts ih =>
    obtain ⟨ht, hts⟩ := List.forall_mem_cons.1 h
    obtain ⟨rest, hrest, hnone⟩ := Expr.splitVariable_of_not_mem ht
    have hzero := Expr.factorCount_eq_zero hx ht
    have hsplit : (Expr.node (.leaf x) .mul t.body).splitVariable x.text = .ok (1, some t.body) := by
      rw [Expr.splitVariable, Expr.splitVariable, if_pos rfl, hrest, hzero, hnone hzero]
      rfl
    rw [List.map_cons, collect, hsplit, ih hts]
    rfl

/-- **A variable times a sum of coefficients** is expanded into as many terms, and those coefficients are
found in them. -/
theorem collect_terms_timesVariable {cs : List Term} (hnormal : ∀ t ∈ cs, t.body.IsNormalTerm)
    (h : ∀ t ∈ cs, x.text ∉ t.body.variables) (s : Sign) :
    collect x.text ((timesVariable x cs).expand.terms s) = .ok ⟨(join cs).terms s, []⟩ := by
  unfold timesVariable
  by_cases hone : join cs = .one
  · rw [if_pos hone, hone]
    simp [Expr.expand, Expr.terms, collect, Expr.splitVariable, Expr.one, bind, Except.bind, pure, Except.pure]
  · have hleaf : (Expr.leaf x).isAdditive = false := rfl
    rw [if_neg hone, Expr.expand, Expr.expand, expand_join_of_isNormalTerm hnormal,
      Expr.distribute_of_not_isAdditive hleaf, Expr.terms_distributeRight]
    apply collect_mul hx
    intro t ht
    have hjoin : x.text ∉ (join cs).variables := by
      rw [← Expr.occurrences_eq_zero_iff]
      exact occurrences_join_eq_zero h
    exact Expr.not_mem_variables_of_mem_terms hjoin ht

end Again

end Term

/-- Parts that are normal and do not contain the variable any more. -/
structure Collected.IsSeparate (name : String) (parts : Collected) : Prop where
  coefficients : ∀ t ∈ parts.coefficients, t.body.IsNormalTerm ∧ name ∉ t.body.variables
  remainder : ∀ t ∈ parts.remainder, t.body.IsNormalTerm ∧ name ∉ t.body.variables

namespace Term

variable {x : Operand} {ts : List Term} {parts : Collected}

theorem Collects.isSeparate (hx : x.isVariable = true) (h : Collects x.text ts parts)
    (hts : ∀ t ∈ ts, t.body.IsNormalTerm) : parts.IsSeparate x.text := by
  obtain ⟨hcoefficients, hremainder⟩ := h.isNormalTerm hts
  obtain ⟨hcoefficients', hremainder'⟩ := h.not_mem_variables hx
  exact ⟨fun t ht => ⟨hcoefficients t ht, hcoefficients' t ht⟩,
    fun t ht => ⟨hremainder t ht, hremainder' t ht⟩⟩

/-- An added member of a joined list stands in front of the others. -/
theorem terms_expand_join_cons_plus {p : Expr} {rest : List Term} (h : ∀ t ∈ rest, t.body.IsNormalTerm) :
    (join (⟨.plus, p⟩ :: rest)).expand.terms .plus = p.expand.terms .plus ++ (added rest ++ subtracted rest) := by
  have hexpand : expandAll (⟨.plus, p⟩ :: rest) = ⟨.plus, p.expand⟩ :: rest := by
    rw [expandAll, List.map_cons, ← expandAll, expandAll_of_isNormalTerm h]
  have hrest : ∀ t ∈ added rest ++ subtracted rest, t.body.isAdditive = false := fun t ht =>
    (h t ((added_append_subtracted_perm rest).mem_iff.1 ht)).single
  rw [expand_join, hexpand, terms_join, ordered_of_added_ne_nil (by simp), added_cons_plus, subtracted_cons_plus,
    List.cons_append, List.flatMap_cons, flatMap_terms_of_single hrest]

/-- A subtracted one stands behind the added ones. -/
theorem terms_expand_join_cons_minus {p : Expr} {rest : List Term} (h : ∀ t ∈ rest, t.body.IsNormalTerm) :
    (join (⟨.minus, p⟩ :: rest)).expand.terms .plus =
      leading rest ++ (p.expand.terms .minus ++ subtracted rest) := by
  have hexpand : expandAll (⟨.minus, p⟩ :: rest) = ⟨.minus, p.expand⟩ :: rest := by
    rw [expandAll, List.map_cons, ← expandAll, expandAll_of_isNormalTerm h]
  have hleading : leading (⟨.minus, p.expand⟩ :: rest) = leading rest := rfl
  have hrest : ∀ t ∈ ordered rest, t.body.isAdditive = false := by
    intro t ht
    rcases mem_ordered ht with rfl | ht
    · rfl
    · exact (h t ht).single
  have hfirst : ∀ t ∈ leading rest, t.body.isAdditive = false := fun t ht =>
    hrest t (List.mem_append_left _ ht)
  have hlast : ∀ t ∈ subtracted rest, t.body.isAdditive = false := fun t ht =>
    hrest t (List.mem_append_right _ ht)
  rw [expand_join, hexpand, terms_join, ordered, hleading, subtracted_cons_minus, List.flatMap_append,
    List.flatMap_cons, flatMap_terms_of_single hfirst, flatMap_terms_of_single hlast]

/-- Putting a remainder in order makes no difference behind a subtracted term. -/
theorem join_cons_ordered (p : Expr) (rest : List Term) :
    join (⟨.minus, p⟩ :: ordered rest) = join (⟨.minus, p⟩ :: rest) := by
  by_cases h : added rest = []
  · have hcons : added (⟨.minus, p⟩ :: rest) = [] := h
    rw [ordered_of_added_eq_nil h, ← join_cons_zero hcons]
    apply join_congr
    · rfl
    · rfl
  · rw [ordered_of_added_ne_nil h]
    apply join_congr
    · simp
    · simp

theorem allSubtracted_iff : parts.allSubtracted = true ↔ added parts.coefficients = [] := by
  rw [Collected.allSubtracted, List.all_eq_true, added_eq_nil_iff]
  simp

theorem factored_of_added_eq_nil {cs : List Term} (h : added cs = []) (rest : List Term) :
    factored x ⟨cs, rest⟩ = join (⟨.minus, timesVariable x (negateAll cs)⟩ :: rest) := by
  rw [factored, if_pos (allSubtracted_iff.2 h)]

theorem factored_of_added_ne_nil {cs : List Term} (h : added cs ≠ []) (rest : List Term) :
    factored x ⟨cs, rest⟩ = join (⟨.plus, timesVariable x cs⟩ :: rest) := by
  rw [factored, if_neg (mt allSubtracted_iff.1 h)]

section Separate

variable (hx : x.isVariable = true) {cs rest : List Term} (h : (⟨cs, rest⟩ : Collected).IsSeparate x.text)

include hx h

/-- Where all coefficients are subtracted they are found as they are, behind the added terms. -/
theorem collect_factored_of_added_eq_nil (hcs : added cs = []) (hne : cs ≠ []) :
    (factored x ⟨cs, rest⟩).expand.collect x.text = .ok ⟨cs, ordered rest⟩ := by
  have hplus : subtracted (negateAll cs) = [] := by
    rw [subtracted_eq_nil_iff]
    intro t ht
    obtain ⟨t', ht', rfl⟩ := List.mem_map.1 ht
    rw [negate, added_eq_nil_iff.1 hcs t' ht']
    rfl
  have hturned : ∀ t ∈ negateAll cs, t.body.IsNormalTerm ∧ x.text ∉ t.body.variables := by
    intro t ht
    obtain ⟨t', ht', rfl⟩ := List.mem_map.1 ht
    exact h.coefficients t' ht'
  have hterms : (join (negateAll cs)).terms .minus = cs := by
    have hsingle : (join (negateAll cs)).terms .plus = negateAll cs := by
      rw [terms_join_of_single fun t ht => (hturned t ht).1.single]
      exact ordered_of_subtracted_eq_nil hplus (by simpa [negateAll] using hne)
    rw [show Sign.minus = Sign.plus.negate from rfl, Expr.terms_negate, hsingle, negateAll_negateAll]
  have hfirst : collect x.text (leading rest) = .ok ⟨[], leading rest⟩ := by
    apply collect_of_not_mem hx
    intro t ht
    rcases mem_ordered (List.mem_append_left _ ht) with rfl | ht
    · rw [Expr.variables_zero]
      exact List.not_mem_nil
    · exact (h.remainder t ht).2
  have hlast : collect x.text (subtracted rest) = .ok ⟨[], subtracted rest⟩ := by
    apply collect_of_not_mem hx
    intro t ht
    exact (h.remainder t (List.mem_of_mem_filter ht)).2
  rw [factored_of_added_eq_nil hcs, Expr.collect,
    terms_expand_join_cons_minus fun t ht => (h.remainder t ht).1, collect_append, collect_append, hfirst, hlast,
    collect_terms_timesVariable hx (fun t ht => (hturned t ht).1) (fun t ht => (hturned t ht).2), hterms]
  simp [Collected.append, ordered, bind, Except.bind, pure, Except.pure]

/-- Else they are found in the order in which they are joined, in front. -/
theorem collect_factored_of_added_ne_nil (hcs : added cs ≠ []) :
    (factored x ⟨cs, rest⟩).expand.collect x.text =
      .ok ⟨added cs ++ subtracted cs, added rest ++ subtracted rest⟩ := by
  have hterms : (join cs).terms .plus = added cs ++ subtracted cs := by
    rw [terms_join_of_single fun t ht => (h.coefficients t ht).1.single, ordered_of_added_ne_nil hcs]
  have hrest : collect x.text (added rest ++ subtracted rest) = .ok ⟨[], added rest ++ subtracted rest⟩ := by
    apply collect_of_not_mem hx
    intro t ht
    exact (h.remainder t ((added_append_subtracted_perm rest).mem_iff.1 ht)).2
  rw [factored_of_added_ne_nil hcs, Expr.collect,
    terms_expand_join_cons_plus fun t ht => (h.remainder t ht).1, collect_append, hrest,
    collect_terms_timesVariable hx (fun t ht => (h.coefficients t ht).1) (fun t ht => (h.coefficients t ht).2),
    hterms]
  simp [Collected.append, bind, Except.bind, pure, Except.pure]

/-- **Collecting in the factored form** finds parts that make the same factored form. -/
theorem exists_collect_factored (hne : cs ≠ []) : ∃ parts,
    (factored x ⟨cs, rest⟩).expand.collect x.text = .ok parts ∧ parts.coefficients ≠ [] ∧
      factored x parts = factored x ⟨cs, rest⟩ := by
  by_cases hcs : added cs = []
  · refine ⟨_, collect_factored_of_added_eq_nil hx h hcs hne, hne, ?_⟩
    rw [factored_of_added_eq_nil hcs, factored_of_added_eq_nil hcs, join_cons_ordered]
  · refine ⟨_, collect_factored_of_added_ne_nil hx h hcs, by simp [hcs], ?_⟩
    have hagain : added (added cs ++ subtracted cs) ≠ [] := by simpa using hcs
    have htimes : timesVariable x (added cs ++ subtracted cs) = timesVariable x cs := by
      rw [timesVariable, timesVariable, ← ordered_of_added_ne_nil hcs, join_ordered]
    rw [factored_of_added_ne_nil hagain, factored_of_added_ne_nil hcs, htimes]
    apply join_congr
    · simp
    · simp

end Separate

end Term

namespace Expr

/-- **Factoring out a variable twice is factoring it out once.** -/
theorem factorFor_factorFor {e f : Expr} {name : String} (hname : Text.isName name = true)
    (hconstant : isConstantName name = false) (h : e.factorFor name = .ok f) : f.factorFor name = .ok f := by
  obtain ⟨x, rfl, hx⟩ := Operand.exists_isVariable hname hconstant
  have hagain : e.expand.expand = e.expand := expand_of_isNormal (isNormal_expand e)
  rcases hcollect : e.expand.collect x.text with cause | parts
  · rw [factorFor_eq, hcollect] at h
    cases h
  by_cases hnil : parts.coefficients = []
  · -- nothing is collected, neither in the expression nor in its expanded form
    have hrest : e.expand.collect x.text = .ok ⟨[], parts.remainder⟩ := by rw [hcollect, ← hnil]
    rw [factorFor_of_coefficients_eq_nil hrest] at h
    obtain rfl := Except.ok.inj h
    rw [← hagain] at hrest
    rw [factorFor_of_coefficients_eq_nil hrest, hagain]
  · rw [factorFor_of_coefficients_ne_nil hcollect hnil] at h
    obtain rfl := Except.ok.inj h
    have hnormal : ∀ t ∈ e.expand.terms .plus, t.body.IsNormalTerm := fun t ht =>
      isNormalTerm_of_mem_terms (isNormal_expand e) ht
    have hseparate := (Term.collects_of_collect hcollect).isSeparate hx hnormal
    obtain ⟨parts', hcollect', hne, hsame⟩ := Term.exists_collect_factored hx hseparate hnil
    rw [factorFor_of_coefficients_ne_nil hcollect' hne, hsame]

/-- `9 - s * a - s * b`, where both coefficients are subtracted. -/
def twiceSubtracted : Expr :=
  .node (.node (.leaf ⟨"9", by decide⟩) .sub (.node (.leaf ⟨"s", by decide⟩) .mul (.leaf ⟨"a", by decide⟩)))
    .sub (.node (.leaf ⟨"s", by decide⟩) .mul (.leaf ⟨"b", by decide⟩))

/-- `9 - s * (a + b)`. -/
def subtractedOnce : Expr :=
  .node (.leaf ⟨"9", by decide⟩) .sub
    (.node (.leaf ⟨"s", by decide⟩) .mul (.node (.leaf ⟨"a", by decide⟩) .add (.leaf ⟨"b", by decide⟩)))

theorem factorFor_subtractedOnce : twiceSubtracted.factorFor "s" = .ok subtractedOnce ∧
    subtractedOnce.factorFor "s" = .ok subtractedOnce := by
  have h : twiceSubtracted.factorFor "s" = .ok subtractedOnce := by decide +kernel
  exact ⟨h, factorFor_factorFor (by decide +kernel) (by decide +kernel) h⟩

end Expr

end LinearRelations
