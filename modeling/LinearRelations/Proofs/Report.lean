import LinearRelations.Proofs.Isolation.Answer
import LinearRelations.Proofs.Numeric.Evaluation
import LinearRelations.Report

/-!
# Why there is no report

A text or a variable can be refused, and a refusal says what is wrong with it. Apart from that there is
no report if the size of a number stops the isolation of the variable, if a numeral is out of range when the
answer is put into the relation, or if the relation and its answer cannot be compared at the sample points.

* `ReportError.IsRefusal`: the causes that tell what is wrong with a text or a variable;
* `Report.ofText_eq_error_iff`: the report once the relation has been solved;
* `Report.parse_of_ofText`: what a report shows is read back;
* `Report.Failure`: all other causes, with what is behind each of them;
* `Report.failures_of_ofText`: there are no others, and each of them stops the report;
* `Report.ofText_quotientByZero`: a relation that is solved, but not reported on.
-/

namespace LinearRelations

/-- Whether the cause can lie in a text. -/
def ParseError.IsRefusal : ParseError → Prop
  | unknownOperator _ => False
  | sideNotExpression _ => False
  | _ => True

/-- Whether the cause lies in the relation or the variable. -/
def SolveError.IsRefusal : SolveError → Prop
  | inexact _ => False
  | _ => True

/-- Whether the cause tells what is wrong with the text or the variable. -/
def ReportError.IsRefusal : ReportError → Prop
  | input _ => True
  | parse cause => cause.IsRefusal
  | solve cause => cause.IsRefusal
  | exact _ => False
  | evaluation _ => False

/-! ### Refusals -/

theorem Expr.parse_yields (text : String) : Yields (fun _ => True) ParseError.IsRefusal (parse text) := by
  rcases h : parse text with cause | e
  · rcases unbalanced_or_invalidOperand_of_parse h with ⟨_, rfl⟩ | ⟨_, rfl⟩
    · trivial
    · trivial
  · trivial

namespace Relation

variable {r s : Relation} {name : String}

theorem parse_yields (text : String) : Yields (fun _ => True) ParseError.IsRefusal (parse text) := by
  have hcomparison : ∀ token, Yields (fun _ => True) ParseError.IsRefusal (Comparison.ofToken token) := by
    intro token
    rcases token with _ | _ | _ | _ | text
    case relation =>
      simp only [Comparison.ofToken, Comparison.ofSymbol]
      split
      · trivial
      · trivial
    all_goals trivial
  unfold parse
  simp only
  split
  · trivial
  · split
    · trivial
    · refine (Expr.parse_yields _).bind fun lhs _ => (Expr.parse_yields _).bind fun rhs _ => ?_
      exact (hcomparison _).bind fun _ _ => trivial

/-! ### The verification -/

/-- The difference of the sides behind the substitution is found where everything can be read. -/
theorem exists_residual (hr : r.IsReadable) (name : String) {value : Expr} (hvalue : value.IsReadable) :
    ∃ residual, r.residual name value = .ok residual := by
  obtain ⟨l, hl⟩ := Expr.exists_combination_iff.2 hr.1
  obtain ⟨m, hm⟩ := Expr.exists_combination_iff.2 hr.2
  obtain ⟨c, hc⟩ := Expr.exists_combination_iff.2 hvalue
  obtain ⟨d, hd⟩ := Expr.exists_combination_iff (e := .node r.lhs .sub r.rhs).2 (Expr.isReadable_node.2 hr)
  rw [residual, hl, hm, hc]
  simp only [bind, Except.bind]
  split
  · exact ⟨_, rfl⟩
  · rw [gatheredResidual, hd, hc]
    simp only [bind, Except.bind]
    split
    · exact ⟨_, rfl⟩
    · exact ⟨_, rfl⟩
    · exact ⟨_, rfl⟩

/-- **The residual of an answer is found unless a numeral of the relation is out of range.** -/
theorem residual_answersIf (hr : r.IsMeaningful) (hs : r.solve name = .ok s) :
    AnswersIf r.IsInRange (r.residual name s.rhs) := by
  by_cases hin : r.IsInRange
  · have hread := hr.isReadable_iff.2 hin
    exact .inl ⟨hin, exists_residual hread name (isReadable_of_solve hread hs).2⟩
  refine .inr ⟨hin, ?_⟩
  rcases hr.1.combination_answersIf with ⟨hl, c, hc⟩ | ⟨-, hc⟩
  · rcases hr.2.combination_answersIf with ⟨hm, -⟩ | ⟨-, hd⟩
    · exact absurd ⟨hl, hm⟩ hin
    · rw [residual, hc, hd]
      rfl
  · rw [residual, hc]
    rfl

/-- An unbounded answer of an equation cannot be put in the place of the variable. -/
theorem spotCheck_of_isUnbounded (r : Relation) (name : String) (heq : s.isEquation = true)
    (h : s.rhs.IsUnbounded) : r.spotCheck s name = .error .unboundedValue := by
  obtain ⟨c, hc, hunbounded⟩ := h
  have hevaluate : ∀ values, s.rhs.evaluate values = .error .unboundedValue := by
    intro values
    rw [Expr.evaluate, hc]
    simp [Except.mapError, bind, Except.bind, hunbounded]
  rw [spotCheck, if_pos heq, spotCheckEquation, hevaluate]
  rfl

open Classical in
/-- **Neither the relation nor the answer has an unbounded value in it**, if the relation divides by
nothing that is identically zero. -/
theorem not_obstacle_of_solve (hr : r.IsMeaningful) (hdiv : ∀ d ∈ r.divisors, d.value? .generic ≠ some 0)
    (hs : r.solve name = .ok s) : ¬ (r.Obstacle .unboundedValue ∨ s.Obstacle .unboundedValue) := by
  have hbounded : ∀ {e : Expr} {v : FormalField}, e.value? AtomValues.formal.valuation = some v →
      ¬ e.Obstacle .unboundedValue := by
    rintro e v hv ⟨hunbounded⟩
    exact Expr.not_isUnbounded_of_value? hv hunbounded
  obtain ⟨l, m, hl, hm⟩ := exists_generic_values hr.1 hr.2 hdiv
  obtain ⟨l', hl'⟩ := Expr.exists_formal_of_generic hl
  obtain ⟨m', hm'⟩ := Expr.exists_formal_of_generic hm
  obtain ⟨v, hv⟩ := exists_value?_of_solve hr hdiv hs
  obtain ⟨x, hx, rfl, hreached⟩ := reached_of_mem_stages (isolate_mem_of_solve hs)
  have hleft : s.lhs.value? AtomValues.formal.valuation = some (AtomValues.formal.valuation.unknown x.text) := by
    cases hreached with
    | isolate _ _ hdivide =>
      obtain ⟨hlhs, -⟩ := shape_of_divideOut hdivide
      rw [hlhs, Expr.value?_leaf_of_isVariable hx]
  rintro ((h | h) | h | h)
  · exact hbounded hl' h
  · exact hbounded hm' h
  · exact hbounded hleft h
  · exact hbounded hv h

end Relation

/-! ### Reports -/

namespace Report

variable {text name : String} {r s : Relation}

theorem verify_eq_error_iff (hr : r.IsMeaningful) (hs : r.solve name = .ok s) {cause : ReportError} :
    verify r s name = .error cause ↔ ¬ r.IsInRange ∧ cause = .exact .exponentOutOfRange ∨
      r.IsInRange ∧ ∃ fault, r.spotCheck s name = .error fault ∧ cause = .evaluation fault := by
  rw [verify]
  rcases Relation.residual_answersIf hr hs with ⟨hin, residual, hresidual⟩ | ⟨hout, hresidual⟩
  · rw [hresidual]
    rcases r.spotCheck s name with fault | check
    · simp [Except.mapError, bind, Except.bind, hin, eq_comm]
    · simp [Except.mapError, bind, Except.bind, pure, Except.pure, hin]
  · rw [hresidual]
    simp [Except.mapError, bind, Except.bind, hout, eq_comm]

/-- **Once a relation has been solved, only its verification can be in the way of a report**: a numeral is
out of range, or the relation cannot be compared with the answer. -/
theorem ofText_eq_error_iff (hvalid : validate text name = .ok ()) (hparse : Relation.parse text = .ok r)
    (hsolve : r.solve name = .ok s) {cause : ReportError} :
    ofText text name = .error cause ↔ ¬ r.IsInRange ∧ cause = .exact .exponentOutOfRange ∨
      r.IsInRange ∧ ∃ fault, r.spotCheck s name = .error fault ∧ cause = .evaluation fault := by
  rw [← verify_eq_error_iff (Relation.isMeaningful_of_parse hparse) hsolve]
  rw [Relation.solve] at hsolve
  rw [ofText, hvalid, hparse]
  simp only [Except.mapError, bind, Except.bind, hsolve]
  rcases verify r s name with cause' | ⟨steps, passed⟩
  · simp only [Except.error.injEq]
  · simp [pure, Except.pure]

theorem ofText_of_solve_eq_error (hvalid : validate text name = .ok ()) (hparse : Relation.parse text = .ok r)
    {cause : SolveError} (hsolve : r.solve name = .error cause) : ofText text name = .error (.solve cause) := by
  rw [Relation.solve] at hsolve
  rw [ofText, hvalid, hparse]
  simp only [Except.mapError, bind, Except.bind, hsolve]

theorem exists_of_ofText {report : Report} (h : ofText text name = .ok report) :
    ∃ r s, Relation.parse text = .ok r ∧ r.solve name = .ok s ∧ report.given = givenOf r name ∧
      report.finalAnswer = s.render := by
  rw [ofText] at h
  obtain ⟨-, -, h⟩ := exists_of_bind_eq_ok h
  obtain ⟨r, hparse, h⟩ := exists_of_bind_eq_ok h
  obtain ⟨s, hsolve, h⟩ := exists_of_bind_eq_ok h
  obtain ⟨⟨verification, passed⟩, -, h⟩ := exists_of_bind_eq_ok h
  obtain rfl := Except.ok.inj h
  exact ⟨r, s, eq_ok_of_mapError hparse, eq_ok_of_mapError hsolve, rfl, rfl⟩

/-- **What a report shows is read back**: the given relation as the one that was solved, and the final
answer as its answer. -/
theorem parse_of_ofText {report : Report} (h : ofText text name = .ok report) :
    ∃ r s, Relation.parse report.given.relation = .ok r ∧ Relation.parse report.finalAnswer = .ok s ∧
      r.solve name = .ok s := by
  obtain ⟨r, s, hparse, hsolve, hgiven, hanswer⟩ := exists_of_ofText h
  obtain ⟨hl, hr⟩ := Relation.isPlain_of_parse hparse
  have hstage := Relation.parse_render_of_stage hl hr (Relation.isolate_mem_of_solve hsolve)
  rw [hgiven, hanswer]
  exact ⟨r, s, Relation.parse_render hl hr, hstage, hsolve⟩

/-- A text is refused, or it writes a relation that is solved unless the size of a number is in the way. -/
theorem refused_or_parsed (text name : String) :
    (∃ cause, ofText text name = .error cause ∧ cause.IsRefusal) ∨
      validate text name = .ok () ∧ ∃ r, Relation.parse text = .ok r ∧
        ((∃ limit, r.solve name = .error (.inexact limit)) ∨ ∃ s, r.solve name = .ok s) := by
  rcases hvalid : validate text name with cause | ⟨⟩
  · left
    exact ⟨.input cause, by rw [ofText, hvalid]; rfl, trivial⟩
  have hparse := Relation.parse_yields text
  rcases hr : Relation.parse text with cause | r
  · left
    rw [hr] at hparse
    exact ⟨.parse cause, by rw [ofText, hvalid, hr]; rfl, hparse⟩
  rcases hs : r.solve name with cause | s
  · cases cause with
    | inexact limit => exact .inr ⟨rfl, r, rfl, .inl ⟨limit, hs⟩⟩
    | _ => exact .inl ⟨_, ofText_of_solve_eq_error hvalid hr hs, trivial⟩
  · exact .inr ⟨rfl, r, rfl, .inr ⟨s, hs⟩⟩

/-- Why a relation that has been read is not reported on, though neither it nor the variable is refused: the
size of a number stops the isolation of the variable, a numeral is out of range when the answer is put into
the relation, or the two cannot be compared at the sample points. -/
inductive Failure (r : Relation) (name : String) : ReportError → Prop where
  | isolation {limit : ExactError} (hlimit : limit.IsLimit) (hsolve : r.solve name = .error (.inexact limit)) :
      Failure r name (.solve (.inexact limit))
  | substitution {s : Relation} (hsolve : r.solve name = .ok s) (hrange : ¬ r.IsInRange) :
      Failure r name (.exact .exponentOutOfRange)
  | comparison {s : Relation} {fault : EvaluationError} (hsolve : r.solve name = .ok s) (hrange : r.IsInRange)
      (hspot : r.spotCheck s name = .error fault) (hobstacle : r.Obstacle fault ∨ s.Obstacle fault) :
      Failure r name (.evaluation fault)

theorem Failure.not_isRefusal {cause : ReportError} (h : Failure r name cause) : ¬ cause.IsRefusal := by
  cases h with
  | _ => exact fun hrefusal => hrefusal

/-- What is in the way of comparing a relation with its answer is in the way of evaluating a side of one of
them. -/
theorem obstacle_of_spotCheck (hr : r.IsMeaningful) (hrange : r.IsInRange) (hsolve : r.solve name = .ok s)
    {fault : EvaluationError} (hspot : r.spotCheck s name = .error fault) :
    r.Obstacle fault ∨ s.Obstacle fault := by
  have hread := hr.isReadable_iff.2 hrange
  exact (Relation.spotCheck_yields hread (Relation.isReadable_of_solve hread hsolve) name).of_eq_error hspot

open Classical in
/-- **All reasons for which there is no report**: a text or a variable is refused, or one of the failures
above occurs, and each of these does stop the report. No value is unbounded if the relation divides by
nothing that is identically zero. -/
theorem failures_of_ofText (text name : String) :
    (∀ cause, ofText text name = .error cause ∧ ¬ cause.IsRefusal ↔
      validate text name = .ok () ∧ ∃ r, Relation.parse text = .ok r ∧ Failure r name cause) ∧
    ∀ r, Relation.parse text = .ok r → (∀ d ∈ r.divisors, d.value? .generic ≠ some 0) →
      ¬ Failure r name (.evaluation .unboundedValue) := by
  refine ⟨fun cause => ⟨?_, ?_⟩, fun r hparse hdiv h => ?_⟩
  · rintro ⟨h, hnot⟩
    rcases refused_or_parsed text name with ⟨cause', hcause, hrefusal⟩ | ⟨hvalid, r, hparse, hsolve⟩
    · obtain rfl := Except.error.inj (h.symm.trans hcause)
      exact absurd hrefusal hnot
    refine ⟨hvalid, r, hparse, ?_⟩
    have hr := Relation.isMeaningful_of_parse hparse
    rcases hsolve with ⟨limit, hsolve⟩ | ⟨s, hsolve⟩
    · obtain rfl := Except.error.inj (h.symm.trans (ofText_of_solve_eq_error hvalid hparse hsolve))
      exact .isolation (Relation.isLimit_of_solve hr hsolve) hsolve
    · rcases (ofText_eq_error_iff hvalid hparse hsolve).1 h with ⟨hout, rfl⟩ | ⟨hin, fault, hspot, rfl⟩
      · exact .substitution hsolve hout
      · exact .comparison hsolve hin hspot (obstacle_of_spotCheck hr hin hsolve hspot)
  · rintro ⟨hvalid, r, hparse, h⟩
    refine ⟨?_, h.not_isRefusal⟩
    cases h with
    | isolation _ hsolve => exact ofText_of_solve_eq_error hvalid hparse hsolve
    | substitution hsolve hout => exact (ofText_eq_error_iff hvalid hparse hsolve).2 (.inl ⟨hout, rfl⟩)
    | comparison hsolve hin hspot _ =>
      exact (ofText_eq_error_iff hvalid hparse hsolve).2 (.inr ⟨hin, _, hspot, rfl⟩)
  · cases h with
    | comparison hsolve _ _ hobstacle =>
      exact Relation.not_obstacle_of_solve (Relation.isMeaningful_of_parse hparse) hdiv hsolve hobstacle

/-- `q = 1 / 0` -/
def quotientByZero : Relation :=
  ⟨.leaf ⟨"q", by decide⟩, .eq, .node .one .div .zero⟩

theorem spotCheck_quotientByZero :
    quotientByZero.spotCheck quotientByZero "q" = .error .unboundedValue := by
  refine Relation.spotCheck_of_isUnbounded _ _ rfl ⟨.unbounded, ?_, rfl⟩
  cbv

/-- `q = 1 / 0` is solved for `q`, but there is neither a report nor a refusal. -/
theorem ofText_quotientByZero :
    ofText "q = (1 / 0)" "q" = .error (.evaluation .unboundedValue) ∧
      ¬ ∀ text name cause, ofText text name = .error cause → cause.IsRefusal := by
  have hvalid : validate "q = (1 / 0)" "q" = .ok () := by cbv
  have hparse : Relation.parse "q = (1 / 0)" = .ok quotientByZero :=
    Relation.parse_render (r := quotientByZero) (by decide) (by decide)
  have hsolve : quotientByZero.solve "q" = .ok quotientByZero := by decide +kernel
  have hread : quotientByZero.IsReadable :=
    ⟨Expr.isReadable_of_isOk (by decide +kernel), Expr.isReadable_of_isOk (by decide +kernel)⟩
  have hin := (Relation.isMeaningful_of_parse hparse).isReadable_iff.1 hread
  have hfailure : ofText "q = (1 / 0)" "q" = .error (.evaluation .unboundedValue) :=
    (ofText_eq_error_iff hvalid hparse hsolve).2 (.inr ⟨hin, _, spotCheck_quotientByZero, rfl⟩)
  exact ⟨hfailure, fun h => h _ _ _ hfailure⟩

end Report

end LinearRelations
