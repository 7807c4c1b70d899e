import LinearRelations.Proofs.Isolation.Sign

/-!
# Expressions that come from texts

Rewriting brings no operand into an expression but numbers that it has written itself. So whatever is
made of expressions that were read from texts has plain leaves, too: it could have been read from a
text, and it has an exact value wherever nothing in it is divided by zero. Of an operand that was not
read from a text this is not true; it can be a signed infinity. But there are numerals in texts that
cannot be read as the numbers they stand for, because their digits are out of range, and the exact tests
fail for these.

* `Expr.Derived`: the expressions made of those that were read from texts;
* `Expr.Derived.isPlain`, `Expr.derived_iff_exists_parse`: these are the ones that can be read;
* `Expr.HasExactForm`: the leaves are exact, and the exact tests give an answer unless a numeral is out
  of range;
* `Expr.hasExactForm_of_derived`: so it is for every derived expression;
* `Expr.constantValue_farZero`: a zero for which the exact tests fail.
-/

namespace LinearRelations

/-! ### One rewrite -/

theorem Expr.Splits.exists_mem_leaves {name : String} {term : Expr} {degree : Nat} {rest : Option Expr}
    (h : Splits name term degree rest) (hdegree : degree ≠ 0) : ∃ x ∈ term.leaves, x.text = name := by
  induction h with
  | @itself operand htext => exact ⟨operand, mem_leaves_leaf.2 rfl, htext⟩
  | @product lhs rhs m n c d _ _ ihl ihr =>
    by_cases hm : m = 0
    · obtain ⟨x, hx, htext⟩ := ihr (by omega)
      exact ⟨x, mem_leaves_node.2 (.inr hx), htext⟩
    · obtain ⟨x, hx, htext⟩ := ihl hm
      exact ⟨x, mem_leaves_node.2 (.inl hx), htext⟩
  | quotient _ _ ihl =>
    obtain ⟨x, hx, htext⟩ := ihl hdegree
    exact ⟨x, mem_leaves_node.2 (.inl hx), htext⟩
  | without => exact absurd rfl hdegree

namespace Term

variable {name : String} {ts : List Term} {parts : Collected}

/-- Where there are coefficients, some leaf is what they are the coefficients of. -/
theorem Collects.exists_mem_leaves (h : Collects name ts parts) (hne : parts.coefficients ≠ []) :
    ∃ x ∈ leavesOf ts, x.text = name := by
  induction h with
  | nil => exact absurd rfl hne
  | linear hsplit _ _ =>
    obtain ⟨x, hx, htext⟩ := hsplit.exists_mem_leaves one_ne_zero
    exact ⟨x, List.mem_append_left _ hx, htext⟩
  | free _ _ ih =>
    obtain ⟨x, hx, htext⟩ := ih hne
    exact ⟨x, List.mem_append_right _ hx, htext⟩

theorem forall_isPlain_iff : (∀ t ∈ ts, t.body.IsPlain) ↔ ∀ x ∈ leavesOf ts, x.IsPlain := by
  simp only [Expr.IsPlain, mem_leavesOf, forall_exists_index, and_imp]
  exact ⟨fun h x t ht hx => h t ht x hx, fun h t ht x hx => h x t ht hx⟩

theorem isPlain_of_collects (h : ∀ t ∈ ts, t.body.IsPlain) (hparts : Collects name ts parts) :
    (∀ t ∈ parts.coefficients, t.body.IsPlain) ∧ ∀ t ∈ parts.remainder, t.body.IsPlain := by
  simp only [forall_isPlain_iff] at h ⊢
  refine ⟨fun x hx => ?_, fun x hx => h x (hparts.leaves_remainder hx)⟩
  rcases hparts.mem_leaves_coefficients hx with hx | hx
  · exact (Operand.isWritten_of_mem_one hx).isPlain
  · exact h x hx

theorem isPlain_of_foldConstants {folded : List Term} (h : ∀ t ∈ ts, t.body.IsPlain)
    (hfolded : foldConstants ts = .ok folded) : ∀ t ∈ folded, t.body.IsPlain := by
  rw [forall_isPlain_iff] at h ⊢
  intro x hx
  rcases mem_leaves_foldConstants hfolded hx with hx | hx
  · exact h x hx
  · exact hx.isPlain

theorem isPlain_of_divide {d e : Expr} (h : ∀ t ∈ ts, t.body.IsPlain) (hd : d.IsPlain)
    (he : divide ts d = .ok e) : e.IsPlain := by
  intro x hx
  rcases mem_leaves_divide he hx with hx | hx | hx
  · exact forall_isPlain_iff.1 h x hx
  · exact hd x hx
  · exact hx.isPlain

end Term

namespace Expr

variable {e f : Expr} {name : String}

/-- What is factored out stands in the expression already, whatever its name. -/
theorem isPlain_of_factorFor (h : e.IsPlain) (hf : e.factorFor name = .ok f) : f.IsPlain := by
  obtain ⟨parts, hcollect, hf⟩ := exists_of_bind_eq_ok hf
  have hparts := Term.collects_of_collect hcollect
  have hterms : ∀ t ∈ e.expand.terms .plus, t.body.IsPlain := forall_leaves_of_mem_terms (forall_leaves_expand h)
  split at hf
  · obtain rfl := Except.ok.inj hf
    exact forall_leaves_expand h
  next hne =>
  obtain ⟨x, hx, rfl⟩ := hparts.exists_mem_leaves fun hnil => hne (List.isEmpty_iff.2 hnil)
  rw [x.ofText?_text] at hf
  obtain rfl := Except.ok.inj hf
  obtain ⟨hcoefficients, hremainder⟩ := Term.isPlain_of_collects hterms hparts
  intro y hy
  rcases Term.mem_leaves_factored hy with rfl | hy | hy | hy
  · exact Term.forall_isPlain_iff.1 hterms y hx
  · exact Term.forall_isPlain_iff.1 hcoefficients y hy
  · exact Term.forall_isPlain_iff.1 hremainder y hy
  · exact hy.isPlain

/-! ### All rewrites -/

/-- The expressions that are read from texts, and what is made of them: by an operator, by expanding,
taking a sum to terms and putting terms together again, by collecting and factoring out, folding
constants and dividing, in any order. -/
inductive Derived : Expr → Prop
  | parsed {text : String} {e : Expr} : parse text = .ok e → Derived e
  | node {lhs rhs : Expr} (op : Operator) : Derived lhs → Derived rhs → Derived (node lhs op rhs)
  | expanded {e : Expr} : Derived e → Derived e.expand
  | term {e : Expr} {s : Sign} {t : Term} : Derived e → t ∈ e.terms s → Derived t.body
  | joined {ts : List Term} : (∀ t ∈ ts, Derived t.body) → Derived (Term.join ts)
  | collected {e : Expr} {name : String} {parts : Collected} {t : Term} : Derived e →
      e.collect name = .ok parts → t ∈ parts.coefficients ++ parts.remainder → Derived t.body
  | factored {e f : Expr} {name : String} : Derived e → e.factorFor name = .ok f → Derived f
  | folded {ts folded : List Term} {t : Term} : (∀ t ∈ ts, Derived t.body) →
      Term.foldConstants ts = .ok folded → t ∈ folded → Derived t.body
  | quotient {e d : Expr} : Derived e → Derived d → Derived (e.over d)
  | divided {ts : List Term} {d e : Expr} : (∀ t ∈ ts, Derived t.body) → Derived d →
      Term.divide ts d = .ok e → Derived e

/-- **All leaves of a derived expression are plain**, since each rewrite keeps them so. -/
theorem Derived.isPlain (h : e.Derived) : e.IsPlain := by
  induction h with
  | parsed hparse => exact isPlain_of_parse hparse
  | node op _ _ ihl ihr => exact isPlain_node.2 ⟨ihl, ihr⟩
  | expanded _ ih => exact forall_leaves_expand ih
  | term _ ht ih => exact forall_leaves_of_mem_terms ih _ ht
  | joined _ ih => exact Term.forall_leaves_join (fun x hx => (Operand.isWritten_of_mem_zero hx).isPlain) ih
  | collected _ hcollect ht ih =>
    obtain ⟨hcoefficients, hremainder⟩ :=
      Term.isPlain_of_collects (forall_leaves_of_mem_terms ih) (Term.collects_of_collect hcollect)
    exact (List.mem_append.1 ht).elim (hcoefficients _) (hremainder _)
  | factored _ hf ih => exact isPlain_of_factorFor ih hf
  | folded _ hfolded ht ih => exact Term.isPlain_of_foldConstants ih hfolded _ ht
  | quotient _ _ ih ihd => exact forall_leaves_over ih ihd
  | divided _ _ he ih ihd => exact Term.isPlain_of_divide ih ihd he

/-- **What is derived can be read**: the rewrites lead nowhere but to expressions that some text writes. -/
theorem derived_iff_exists_parse : e.Derived ↔ ∃ text, parse text = .ok e :=
  ⟨fun h => ⟨e.render, parse_render h.isPlain⟩, fun ⟨_, h⟩ => .parsed h⟩

/-! ### Exact forms -/

/-- Every leaf is exact: it is a name, or it stands for a number that is not negative. It is read as what it
stands for, like terms and factors are gathered, and the exact tests give an answer, all unless a numeral is
out of range; the tests that concern expressions without variables fail for no other. -/
structure HasExactForm (e : Expr) : Prop where
  leaves : ∀ x ∈ e.leaves, x.IsExact ∧ ∃ v, x.meaning? = some v ∧
    (x.isNumeral = true → ∃ q, 0 ≤ q ∧ v = .number q) ∧
      (¬ x.IsOutOfRange ∧ x.read = .ok v ∨ x.IsOutOfRange ∧ x.read = .error .exponentOutOfRange)
  combination : AnswersIf e.IsInRange e.combination
  constantValue : AnswersIf (e.isConstant = true → e.IsInRange) e.constantValue
  constantSign : AnswersIf (e.isConstant = true → e.IsInRange) e.constantSign
  /-- A sign is found unless there are variables, something is divided by zero or the value is zero. -/
  of_constantSign_eq_none : e.constantSign = .ok none → e.variables ≠ [] ∨
    (∃ d ∈ e.divisors, d.value? (.standard (0 : String → ℝ)) = some 0) ∨
      e.value? (.standard (0 : String → ℝ)) = some 0
  isZero : AnswersIf e.IsInRange e.isZero

theorem IsPlain.hasExactForm (h : e.IsPlain) : e.HasExactForm where
  leaves := by
    intro x hx
    obtain ⟨v, hv, hnumeral⟩ := (h x hx).isExact.exists_meaning?
    exact ⟨(h x hx).isExact, v, hv, hnumeral, Operand.read_cases hv⟩
  combination := h.isMeaningful.combination_answersIf
  constantValue := h.isMeaningful.constantValue_answersIf
  constantSign := h.isMeaningful.constantSign_answersIf
  of_constantSign_eq_none := by
    intro hs
    by_cases hvariables : e.variables = []
    · have hconst : e.isConstant = true := List.isEmpty_iff.2 hvariables
      have hin := h.isMeaningful.constantSign_answersIf.exists_ok_iff.1 ⟨none, hs⟩ hconst
      exact .inr (Expr.of_constantSign_eq_none (h.isMeaningful.isReadable_iff.2 hin) hconst hs)
    · exact .inl hvariables
  isZero := h.isMeaningful.isZero_answersIf

/-- **Every derived expression has an exact form**: its leaves are names and numerals for numbers that
are finite and not negative, and the exact tests give an answer unless a numeral is out of range, whatever
rewrites it has gone through. -/
theorem hasExactForm_of_derived (h : e.Derived) : e.HasExactForm :=
  h.isPlain.hasExactForm

/-- `17 - 24 / 25 + inf`, in which `inf` is a variable. -/
def withInf : Expr :=
  .node (.node (.leaf ⟨"17", by decide⟩) .sub
    (.node (.leaf ⟨"24", by decide⟩) .div (.leaf ⟨"25", by decide⟩))) .add (.leaf ⟨"inf", by decide⟩)

/-- With the constants folded: `16.04 + inf`. -/
def withInfFolded : List Term :=
  [⟨.plus, .leaf ⟨"16.04", by decide⟩⟩, ⟨.plus, .leaf ⟨"inf", by decide⟩⟩]

theorem hasExactForm_of_derived_withInf : parse "((17 - (24 / 25)) + inf)" = .ok withInf ∧
    Term.foldConstants (withInf.terms .plus) = .ok withInfFolded ∧
    (Term.join withInfFolded).HasExactForm := by
  have hrender : withInf.render = "((17 - (24 / 25)) + inf)" := by decide +kernel
  have hparse : parse "((17 - (24 / 25)) + inf)" = .ok withInf := hrender ▸ parse_render (by decide +kernel)
  have hfolded : Term.foldConstants (withInf.terms .plus) = .ok withInfFolded := by decide +kernel
  refine ⟨hparse, hfolded, hasExactForm_of_derived ?_⟩
  exact .joined fun t ht => .folded (fun t ht => .term (.parsed hparse) ht) hfolded ht

/-- A padded or signed infinity is an operand, but one without a meaning. -/
example : (⟨" inf ", by decide⟩ : Operand).read = .error .infiniteNumeral ∧
    (⟨"-inf", by decide⟩ : Operand).read = .error .infiniteNumeral := by decide +kernel

theorem parse_farZero : parse "0e1000000000000000000" = .ok (leaf .farZero) :=
  parse_render (e := leaf .farZero) (by decide)

/-- **A zero for which the exact tests fail**: it is read from a text and it is exact, but its digit is out of
range. -/
theorem constantValue_farZero : (leaf .farZero).constantValue = .error .exponentOutOfRange ∧
    ¬ ∀ e : Expr, e.Derived → (∀ x ∈ e.leaves, ∃ v, x.read = .ok v) ∧ (∃ c, e.combination = .ok c) ∧
      (∃ q, e.constantValue = .ok q) ∧ (∃ s, e.constantSign = .ok s) ∧ ∃ b, e.isZero = .ok b := by
  have herror : (leaf .farZero).constantValue = .error .exponentOutOfRange := by decide +kernel
  refine ⟨herror, fun h => ?_⟩
  obtain ⟨-, -, ⟨q, hq⟩, -, -⟩ := h _ (.parsed parse_farZero)
  cases herror.symm.trans hq

end Expr

end LinearRelations
