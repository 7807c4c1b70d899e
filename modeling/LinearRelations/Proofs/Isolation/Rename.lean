import LinearRelations.Proofs.Exact.ZeroTest
import LinearRelations.Proofs.Isolation.Operands
import LinearRelations.Proofs.Isolation.Outcome

/-!
# Isolating a variable by other names

Isolating a variable does not depend on what the variables of a relation are called: by other names,
the same stages are reached with the same relations by other names, and the way ends alike.

* `Isolation.rename`: stages, answer and error by other names;
* `Term.divide_rename`, `Relation.divideOut_rename`: dividing commutes with renaming;
* `Relation.isolation_rename_of_isRenaming`: so does isolating, where all names there are get others;
* `Relation.mem_variables_of_isolation`: the variables that stages, answer and error mention;
* `Relation.isolation_rename`: isolating commutes with renaming the variables of the relation.
-/

namespace LinearRelations

def Relation.rename (ρ : String → String) (relation : Relation) : Relation :=
  ⟨relation.lhs.rename ρ, relation.comparison, relation.rhs.rename ρ⟩

namespace SolveError

/-- An error with the variables it names by other names. -/
def rename (ρ : String → String) : SolveError → SolveError
  | unknownVariable name relation => unknownVariable (ρ name) (relation.rename ρ)
  | nonlinear cause => nonlinear (cause.rename ρ)
  | indeterminateSign name coefficient => indeterminateSign (ρ name) (coefficient.rename ρ)
  | inexact cause => inexact cause

end SolveError

def Stage.rename (ρ : String → String) (stage : Stage) : Stage := ⟨stage.name, stage.relation.rename ρ⟩

/-- The stages and the answer, or the error, by other names. -/
def Isolation.rename (ρ : String → String) (isolation : Isolation) : Isolation :=
  ⟨isolation.stages.map (Stage.rename ρ),
    (isolation.answer.map (Relation.rename ρ)).mapError (SolveError.rename ρ)⟩

variable {ρ σ : String → String}

/-! ### Dividing -/

namespace Expr

theorem rename_of_ofSize {q : Rat} {size : Expr} (h : ofSize q = .ok (some size)) : size.rename ρ = size :=
  rename_of_forall_leaves fun _ hx => (Operand.isWritten_of_ofSize h hx).isVariable_eq_false

theorem sizeLiteral_rename (hρ : IsRenaming ρ) (e : Expr) : (e.rename ρ).sizeLiteral = e.sizeLiteral := by
  rw [sizeLiteral, constantValue_rename hρ]
  rfl

theorem rename_over (hρ : IsRenaming ρ) (term d : Expr) :
    (term.over d).rename ρ = (term.rename ρ).over (d.rename ρ) := by
  fun_induction Expr.over term d with
  | case1 operand hone =>
    rw [hone, rename_one]
    exact (if_pos rfl).symm
  | case2 operand hone => exact (if_neg (mt (rename_eq_one_iff hρ).1 hone)).symm
  | case3 a b ih => rw [rename_node, ih, rename_node, Expr.over]
  | case4 d hleaf hdiv =>
    rcases d with x | ⟨a, _ | _ | _ | _, b⟩
    · exact absurd rfl (hleaf x)
    all_goals first | rfl | exact absurd rfl (hdiv _ _)

end Expr

namespace Term

/-- A term by other names, with its value. -/
def renameEntry (ρ : String → String) (entry : Term × Option Rat) : Term × Option Rat :=
  (entry.1.rename ρ, entry.2)

theorem unvalued_map_rename (entries : List (Term × Option Rat)) :
    unvalued (entries.map (renameEntry ρ)) = (unvalued entries).map (rename ρ) := by
  rw [unvalued, unvalued, List.filter_map, List.map_map, List.map_map]
  rfl

theorem total_map_rename (entries : List (Term × Option Rat)) :
    total (entries.map (renameEntry ρ)) = total entries := by
  rw [total, total, List.foldl_map]
  rfl

theorem replaceNumeric_map_rename (entries : List (Term × Option Rat)) {size : Expr}
    (hsize : size.rename ρ = size) : replaceNumeric (entries.map (renameEntry ρ)) size =
      (replaceNumeric entries size).map (rename ρ) := by
  have hbefore : (entries.map (renameEntry ρ)).takeWhile (fun entry => entry.2.isNone) =
      (entries.takeWhile fun entry => entry.2.isNone).map (renameEntry ρ) := List.takeWhile_map ..
  have hnumber : (ofNumber (total entries) size).rename ρ = ofNumber (total entries) size := by
    rw [rename, ofNumber, hsize]
  simp only [replaceNumeric, total_map_rename, hbefore, List.length_map, ← List.map_drop,
    unvalued_map_rename]
  split
  · rcases unvalued entries with _ | ⟨t, ts⟩
    · exact congrArg (fun e => [(⟨.plus, e⟩ : Term)]) Expr.rename_zero.symm
    · rfl
  · rw [List.map_append, List.map_cons, hnumber]

variable (hρ : IsRenaming ρ)

include hρ

theorem valued_map_rename (ts : List Term) :
    valued (ts.map (rename ρ)) = (valued ts).map (List.map (renameEntry ρ)) := by
  induction ts with
  | nil => rfl
  | cons t ts ih =>
    rw [List.map_cons, valued_cons, valued_cons, ih, rename, Expr.constantValue_rename hρ]
    rcases t.body.constantValue with cause | value
    · rfl
    rcases valued ts with cause | entries
    · rfl
    · rfl

/-- Numbers are folded by any names. -/
theorem foldConstants_map_rename (ts : List Term) :
    foldConstants (ts.map (rename ρ)) = (foldConstants ts).map (List.map (rename ρ)) := by
  rw [foldConstants, foldConstants, valued_map_rename hρ]
  rcases valued ts with cause | entries
  · rfl
  simp only [Except.map, bind, Except.bind, List.all_map, total_map_rename]
  rw [show ((fun entry => entry.2.isNone) ∘ renameEntry ρ) =
    fun entry : Term × Option Rat => entry.2.isNone from rfl]
  by_cases hall : (entries.all fun entry => entry.2.isNone) = true
  · rw [if_pos hall, if_pos hall]
    rfl
  rw [if_neg hall, if_neg hall]
  rcases hsize : Expr.ofSize (total entries) with cause | _ | size
  · rfl
  · rfl
  · exact congrArg Except.ok (replaceNumeric_map_rename entries (Expr.rename_of_ofSize hsize))

theorem divideEach_rename (ts : List Term) (d : Expr) :
    divideEach (ts.map (rename ρ)) (d.rename ρ) = (divideEach ts d).map (Expr.rename ρ) := by
  have hover : mapOver (ts.map (rename ρ)) (d.rename ρ) = (mapOver ts d).map (rename ρ) := by
    rw [mapOver, mapOver, List.map_map, List.map_map]
    refine List.map_congr_left fun t _ => ?_
    exact congrArg (Term.mk t.sign) (Expr.rename_over hρ t.body d).symm
  rw [divideEach, divideEach, ← mapOver, ← mapOver, hover, foldConstants_map_rename hρ]
  rcases foldConstants (mapOver ts d) with cause | folded
  · rfl
  · exact congrArg Except.ok (join_map_rename folded)

/-- **Renaming and dividing commute.** -/
theorem divide_rename (ts : List Term) (d : Expr) :
    divide (ts.map (rename ρ)) (d.rename ρ) = (divide ts d).map (Expr.rename ρ) := by
  rw [divide, divide, List.isEmpty_map, Expr.isAdditive_rename, Expr.sizeLiteral_rename hρ]
  by_cases hnil : ts.isEmpty = true
  · rw [if_pos hnil, if_pos hnil]
    exact congrArg Except.ok Expr.rename_zero.symm
  rw [if_neg hnil, if_neg hnil]
  by_cases hadd : d.isAdditive = true
  · rw [if_pos hadd, if_pos hadd]
    rcases hsize : d.sizeLiteral with cause | _ | size
    · rfl
    · simp only [bind, Except.bind, foldConstants_map_rename hρ]
      rcases foldConstants ts with cause | folded
      · rfl
      · simp only [Except.map, pure, Except.pure, join_map_rename]
        rfl
    · obtain ⟨-, hnone⟩ | ⟨q, -, hq⟩ := Expr.of_sizeLiteral hsize
      · cases hnone
      have hdivide := divideEach_rename hρ ts size
      rwa [Expr.rename_of_ofSize hq] at hdivide
  · rw [if_neg hadd, if_neg hadd]
    exact divideEach_rename hρ ts d

end Term

namespace Relation

variable (hρ : IsRenaming ρ)

include hρ

theorem dividedBy_rename (x : Operand) (c : Comparison) (parts : Collected) :
    dividedBy (x.rename ρ) c (parts.rename ρ) = (dividedBy x c parts).map (rename ρ) := by
  rw [dividedBy, dividedBy, Collected.rename, Term.negateAll_map_rename, Term.join_map_rename,
    Term.divide_rename hρ]
  rcases Term.divide (Term.negateAll parts.remainder) (Term.join parts.coefficients) with cause | rhs
  · rfl
  · rfl

theorem mapError_dividedBy_rename (x : Operand) (c : Comparison) (parts : Collected) :
    (dividedBy (x.rename ρ) c (parts.rename ρ)).mapError .inexact =
      (((dividedBy x c parts).mapError .inexact).map (rename ρ)).mapError (SolveError.rename ρ) := by
  rw [dividedBy_rename hρ]
  rcases dividedBy x c parts with cause | s
  · rfl
  · rfl

theorem cancels_rename (parts : Collected) : cancels (parts.rename ρ) = cancels parts := by
  rw [cancels, cancels, Collected.rename, List.isEmpty_map, Term.join_map_rename, Expr.isZero_rename hρ]

theorem divideTurned_rename {x : Operand} (hx : x.isVariable = true) (c c' : Comparison)
    (parts : Collected) : divideTurned (x.rename ρ) c c' (parts.rename ρ) =
      ((divideTurned x c c' parts).map (rename ρ)).mapError (SolveError.rename ρ) := by
  have hjoin : Term.join (parts.rename ρ).coefficients = (Term.join parts.coefficients).rename ρ :=
    Term.join_map_rename _
  rw [divideTurned, divideTurned, hjoin, Expr.constantSign_rename hρ, ← Collected.rename_negate,
    Operand.text_rename hρ, if_pos hx]
  rcases (Term.join parts.coefficients).constantSign with cause | _ | sign
  · rfl
  · by_cases hc : c = .eq
    · simp only [if_pos hc, mapError_dividedBy_rename hρ]
    · simp only [if_neg hc]
      rfl
  · by_cases hneg : sign < 0
    · simp only [if_pos hneg, mapError_dividedBy_rename hρ]
    · simp only [if_neg hneg, mapError_dividedBy_rename hρ]

/-- **Renaming and dividing by the coefficients commute.** -/
theorem divideOut_rename {x : Operand} (hx : x.isVariable = true) (c : Comparison) (parts : Collected) :
    divideOut (x.rename ρ) c (parts.rename ρ) =
      ((divideOut x c parts).map (rename ρ)).mapError (SolveError.rename ρ) := by
  rw [divideOut_eq, divideOut_eq, Collected.allSubtracted_rename, ← Collected.rename_negate,
    divideTurned_rename hρ hx, divideTurned_rename hρ hx]
  split
  · rfl
  · rfl

/-! ### All names at once -/

theorem isolationOf_rename (r : Relation) {x : Operand} (hx : x.isVariable = true) (reached : List Stage)
    (parts : Collected) :
    isolationOf (r.rename ρ) (x.rename ρ) (reached.map (Stage.rename ρ)) (parts.rename ρ) =
      (isolationOf r x reached parts).rename ρ := by
  have hfactored : toZero (Term.factored (x.rename ρ) (parts.rename ρ)) (r.rename ρ).comparison =
      (toZero (Term.factored x parts) r.comparison).rename ρ := by
    rw [toZero, toZero, rename, rename, Term.rename_factored hρ, Expr.rename_zero]
  rw [isolationOf, isolationOf, cancels_rename hρ, Operand.text_rename hρ, if_pos hx]
  rcases cancels parts with cause | _ | _
  · rfl
  · simp only [hfactored, divideOut_rename hρ hx]
    rw [rename]
    rcases divideOut x r.comparison parts with cause | s
    · simp only [Except.map, Except.mapError, Isolation.rename, List.map_append]
      rfl
    · simp only [Except.map, Except.mapError, Isolation.rename, List.map_append]
      rfl
  · rfl

omit hρ in
theorem difference_rename (r : Relation) : (r.rename ρ).difference = r.difference.rename ρ := by
  rw [difference, difference, Expr.rename_expand, Expr.rename_node, Expr.rename_expand, Expr.rename_expand,
    rename]

omit hρ in
theorem begun_rename (r : Relation) : (r.rename ρ).begun = r.begun.map (Stage.rename ρ) := by
  have hexpand : (r.rename ρ).expand = r.expand.rename ρ := by
    rw [expand, expand, rename, rename, Expr.rename_expand, Expr.rename_expand]
  have hcollect : toZero (r.rename ρ).difference (r.rename ρ).comparison =
      (toZero r.difference r.comparison).rename ρ := by
    rw [toZero, toZero, rename, rename, ← difference_rename, Expr.rename_zero, rename]
  rw [begun, begun, hexpand, hcollect]
  rfl

theorem variables_rename (r : Relation) : (r.rename ρ).variables = r.variables.map ρ := by
  rw [Relation.variables, Relation.variables, List.map_append, rename, Expr.variables_rename hρ,
    Expr.variables_rename hρ]

theorem mem_variables_rename_iff {r : Relation} {name : String} :
    ρ name ∈ (r.rename ρ).variables ↔ name ∈ r.variables := by
  rw [variables_rename hρ, List.mem_map_of_injective hρ.injective]

/-- **Isolating a variable commutes with renaming** all the variables there are. -/
theorem isolation_rename_of_isRenaming (r : Relation) {name : String} (hname : name ∈ r.variables) :
    (r.rename ρ).isolation (ρ name) = (r.isolation name).rename ρ := by
  obtain ⟨x, hof, hx, rfl⟩ := exists_operand hname
  have hof' : Operand.ofText? (ρ x.text) = some (x.rename ρ) := by
    have htext : (x.rename ρ).text = ρ x.text := (Operand.text_rename hρ x).trans (if_pos hx)
    exact htext ▸ (x.rename ρ).ofText?_text
  rw [isolation_of_mem hof hname, isolation_of_mem hof' ((mem_variables_rename_iff hρ).2 hname),
    difference_rename, Expr.collect_rename hρ (x.isVariable_eq ▸ hx), begun_rename]
  rcases r.difference.collect x.text with cause | parts
  · rfl
  · exact isolationOf_rename hρ r hx r.begun parts

end Relation

/-! ### What an isolation mentions -/

/-- The variables that an error names. -/
def SolveError.variables : SolveError → List String
  | unknownVariable name relation => name :: relation.variables
  | nonlinear cause => cause.name :: cause.term.variables
  | indeterminateSign name coefficient => name :: coefficient.variables
  | inexact _ => []

/-- The variables of the stages, and of the answer or the error. -/
def Isolation.variables (isolation : Isolation) : List String :=
  isolation.stages.flatMap (fun stage => stage.relation.variables) ++
    match isolation.answer with
    | .ok answer => answer.variables
    | .error cause => cause.variables

theorem Relation.rename_congr {r : Relation} (h : ∀ y ∈ r.variables, ρ y = σ y) :
    r.rename ρ = r.rename σ := by
  rw [rename, rename, Expr.rename_congr fun y hy => h y (List.mem_append_left _ hy),
    Expr.rename_congr fun y hy => h y (List.mem_append_right _ hy)]

theorem SolveError.rename_congr {cause : SolveError} (h : ∀ y ∈ cause.variables, ρ y = σ y) :
    cause.rename ρ = cause.rename σ := by
  cases cause with
  | unknownVariable name relation =>
    rw [rename, rename, h _ List.mem_cons_self, Relation.rename_congr fun y hy => h y (List.mem_cons_of_mem _ hy)]
  | nonlinear cause =>
    rw [rename, rename, NonlinearTerm.rename, NonlinearTerm.rename, h _ List.mem_cons_self,
      Expr.rename_congr fun y hy => h y (List.mem_cons_of_mem _ hy)]
  | indeterminateSign name coefficient =>
    rw [rename, rename, h _ List.mem_cons_self, Expr.rename_congr fun y hy => h y (List.mem_cons_of_mem _ hy)]
  | inexact => rfl

/-- Only the names that are mentioned matter. -/
theorem Isolation.rename_congr {isolation : Isolation} (h : ∀ y ∈ isolation.variables, ρ y = σ y) :
    isolation.rename ρ = isolation.rename σ := by
  obtain ⟨stages, answer⟩ := isolation
  have hstages : stages.map (Stage.rename ρ) = stages.map (Stage.rename σ) := by
    refine List.map_congr_left fun stage hstage => ?_
    rw [Stage.rename, Stage.rename, Relation.rename_congr fun y hy =>
      h y (List.mem_append_left _ (List.mem_flatMap.2 ⟨stage, hstage, hy⟩))]
  rw [rename, rename, hstages]
  rcases answer with cause | s
  · exact congrArg (fun cause => Isolation.mk _ (.error cause))
      (SolveError.rename_congr fun y hy => h y (List.mem_append_right _ hy))
  · exact congrArg (fun s => Isolation.mk _ (.ok s))
      (Relation.rename_congr fun y hy => h y (List.mem_append_right _ hy))

namespace Relation

variable {r : Relation} {name : String}

/-- A variable is no written number. -/
theorem mem_variables_of_leaves {e : Expr} (h : ∀ y ∈ e.leaves, y ∈ r.leaves ∨ y.IsWritten) :
    ∀ y ∈ e.variables, y ∈ r.variables := by
  intro y hy
  obtain ⟨z, hz, hvar, rfl⟩ := Expr.mem_variables_iff.1 hy
  rcases h z hz with hz | hz
  · exact mem_variables_iff.2 ⟨z, hz, hvar, rfl⟩
  · rw [hz.isVariable_eq_false] at hvar
    cases hvar

theorem mem_variables_of_stage {stage : Stage} (h : stage ∈ (r.isolation name).stages) :
    ∀ y ∈ stage.relation.variables, y ∈ r.variables := by
  intro y hy
  rcases List.mem_append.1 hy with hy | hy
  · exact mem_variables_of_leaves
      (fun z hz => mem_leaves_of_stage h (mem_leaves_iff.2 (.inl hz))) y hy
  · exact mem_variables_of_leaves
      (fun z hz => mem_leaves_of_stage h (mem_leaves_iff.2 (.inr hz))) y hy

/-- An error names the variable that was asked for and variables of the relation. -/
theorem mem_variables_of_solve_eq_error {cause : SolveError} (h : r.solve name = .error cause) :
    ∀ y ∈ cause.variables, y = name ∨ y ∈ r.variables := by
  intro y hy
  by_cases hname : name ∈ r.variables
  swap
  · rw [solve_of_not_mem hname] at h
    obtain rfl := Except.error.inj h
    exact List.mem_cons.1 hy
  obtain ⟨x, hof, hx, rfl⟩ := exists_operand hname
  rcases hcollect : r.difference.collect x.text with nonlinear | parts
  · rw [solve_of_collect_eq_error hof hname hcollect] at h
    obtain rfl := Except.error.inj h
    obtain ⟨htext, hleaves⟩ := Term.of_collect_eq_error hcollect
    rw [Term.leavesOf_terms] at hleaves
    refine (List.mem_cons.1 hy).imp (·.trans htext) (mem_variables_of_leaves (fun z hz => ?_) y)
    exact .inl (mem_leaves_iff.2 (mem_leaves_difference.1 (hleaves hz)))
  rcases hcancels : cancels parts with inexact | _ | _
  · rw [solve, isolation_of_mem hof hname, hcollect] at h
    simp only [isolationOf, hcancels] at h
    obtain rfl := Except.error.inj h
    cases hy
  · rw [solve_eq_divideOut hof hname hcollect hcancels] at h
    rcases of_divideOut_eq_error h with ⟨inexact, rfl⟩ | ⟨_, parts', hturned, -, -, rfl⟩
    · cases hy
    refine (List.mem_cons.1 hy).imp_right (mem_variables_of_leaves (fun z hz => ?_) y)
    rcases Term.mem_leaves_join hz with hz | hz
    · exact .inr (Operand.isWritten_of_mem_zero hz)
    · exact ((mem_leaves_of_collect hcollect z).1 (hturned.leaves_eq.1 ▸ hz)).elim
        (fun hone => .inr (Operand.isWritten_of_mem_one hone)) .inl
  · rw [solve_of_cancels hof hname hcollect hcancels] at h
    obtain rfl := Except.error.inj h
    exact List.mem_cons.1 hy

/-- **Nothing is mentioned that was not asked for** or stood in the relation. -/
theorem mem_variables_of_isolation {y : String} (hy : y ∈ (r.isolation name).variables) :
    y = name ∨ y ∈ r.variables := by
  rcases List.mem_append.1 hy with hy | hy
  · obtain ⟨stage, hstage, hy⟩ := List.mem_flatMap.1 hy
    exact .inr (mem_variables_of_stage hstage y hy)
  · rcases hanswer : (r.isolation name).answer with cause | s
    · rw [hanswer] at hy
      exact mem_variables_of_solve_eq_error hanswer y hy
    · rw [hanswer] at hy
      exact .inr (mem_variables_of_stage (isolate_mem_of_solve hanswer) y hy)

/-- **Isolating a variable does not depend on names.** If the variables of a relation, and the one that is
asked for, get different names, and those of the relation names of variables, then the same stages are
reached by other names, with the answer or the error by other names at the end. -/
theorem isolation_rename (r : Relation) (name : String) (ρ : String → String)
    (hnames : ∀ y ∈ r.variables, isVariableName (ρ y) = true)
    (hinj : Set.InjOn ρ {y | y = name ∨ y ∈ r.variables}) :
    (r.rename ρ).isolation (ρ name) = (r.isolation name).rename ρ := by
  have hvariables : ∀ y ∈ r.variables, isVariableName y = true := by
    intro y hy
    obtain ⟨z, -, hz, rfl⟩ := mem_variables_iff.1 hy
    exact z.isVariable_eq ▸ hz
  -- the names extend to a renaming of all variables, which does the same with this relation
  obtain ⟨σ, hσ, heq⟩ := exists_isRenaming ρ r.variables.toFinset
    (fun y hy => hvariables y (List.mem_toFinset.1 hy)) (fun y hy => hnames y (List.mem_toFinset.1 hy))
    (hinj.mono fun y hy => .inr (List.mem_toFinset.1 hy))
  have hagree : ∀ y ∈ r.variables, ρ y = σ y := fun y hy => (heq y (List.mem_toFinset.2 hy)).symm
  have hrename : r.rename ρ = r.rename σ := rename_congr hagree
  by_cases hname : name ∈ r.variables
  · have hmentioned : ∀ y ∈ (r.isolation name).variables, ρ y = σ y := by
      intro y hy
      rcases mem_variables_of_isolation hy with rfl | hy
      · exact hagree y hname
      · exact hagree y hy
    rw [hrename, hagree name hname, isolation_rename_of_isRenaming hσ r hname,
      Isolation.rename_congr hmentioned]
  · have hname' : ρ name ∉ (r.rename ρ).variables := by
      rw [hrename, variables_rename hσ, List.mem_map]
      rintro ⟨y, hy, hyname⟩
      obtain rfl := hinj (.inr hy) (.inl rfl) ((hagree y hy).trans hyname)
      exact hname hy
    rw [isolation_of_not_mem hname, isolation_of_not_mem hname']
    rfl

/-- `d * i = o * i + 7`. -/
def twoSided : Relation :=
  let d : Expr := .leaf ⟨"d", by decide⟩
  let i : Expr := .leaf ⟨"i", by decide⟩
  let o : Expr := .leaf ⟨"o", by decide⟩
  let seven : Expr := .leaf ⟨"7", by decide⟩
  ⟨.node d .mul i, .eq, .node (.node o .mul i) .add seven⟩

/-- `i = 7 / (d - o)`. -/
def twoSidedAnswer : Relation :=
  let d : Expr := .leaf ⟨"d", by decide⟩
  let i : Expr := .leaf ⟨"i", by decide⟩
  let o : Expr := .leaf ⟨"o", by decide⟩
  let seven : Expr := .leaf ⟨"7", by decide⟩
  ⟨i, .eq, .node seven .div (.node d .sub o)⟩

/-- Names that come in the opposite order. -/
def reversedName (name : String) : String :=
  if name = "d" then "nan" else if name = "i" then "inf" else if name = "o" then "M_d" else name

theorem isolation_rename_twoSided : twoSided.solve "i" = .ok twoSidedAnswer ∧
    (twoSided.rename reversedName).solve "inf" = .ok (twoSidedAnswer.rename reversedName) ∧
    (twoSidedAnswer.rename reversedName).render = "inf = (7 / (nan - M_d))" := by
  have hvariables : ∀ y, y = "i" ∨ y ∈ twoSided.variables → y = "d" ∨ y = "i" ∨ y = "o" := by
    intro y hy
    rcases hy with rfl | hy
    · exact .inr (.inl rfl)
    · revert hy
      rw [show twoSided.variables = ["d", "i", "o", "i"] by decide +kernel]
      simp only [List.mem_cons, List.not_mem_nil, or_false]
      tauto
  have hnames : ∀ y ∈ twoSided.variables, isVariableName (reversedName y) = true := by decide +kernel
  have hinj : Set.InjOn reversedName {y | y = "i" ∨ y ∈ twoSided.variables} := by
    intro y hy z hz h
    rcases hvariables y hy with rfl | rfl | rfl <;> rcases hvariables z hz with rfl | rfl | rfl <;>
      first | rfl | exact absurd h (by decide)
  have hsolve : twoSided.solve "i" = .ok twoSidedAnswer := by
    let parts : Collected := ⟨[⟨.plus, .leaf ⟨"d", by decide⟩⟩, ⟨.minus, .leaf ⟨"o", by decide⟩⟩],
      [⟨.minus, .leaf ⟨"7", by decide⟩⟩]⟩
    have hcollect : twoSided.difference.collect "i" = .ok parts := by decide +kernel
    have hcancels : cancels parts = .ok false := by cbv
    rw [solve_eq_divideOut (x := ⟨"i", by decide⟩) rfl (by decide +kernel) hcollect hcancels]
    decide +kernel
  refine ⟨hsolve, ?_, by decide +kernel⟩
  calc (twoSided.rename reversedName).solve "inf"
      = ((twoSided.isolation "i").rename reversedName).answer :=
        congrArg Isolation.answer (isolation_rename twoSided "i" reversedName hnames hinj)
    _ = ((twoSided.solve "i").map (rename reversedName)).mapError (SolveError.rename reversedName) := rfl
    _ = .ok (twoSidedAnswer.rename reversedName) := by
      rw [hsolve]
      rfl

end Relation

end LinearRelations
