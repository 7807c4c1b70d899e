import LinearRelations.Proofs.Isolation.Soundness
import LinearRelations.Proofs.Syntax.Relation

/-!
# Operands on the way to an isolated variable

Isolating a variable brings no operand into a relation but numbers that it has written itself, and on
the right side of the answer the variable is gone.

* `Operand.IsWritten`: the operand writes the size of a number;
* `Term.mem_leaves_divide`: the operands of a divided sum;
* `Relation.Reached.mem_leaves`: the operands of a stage;
* `Relation.solve_isolates`: what the answer looks like;
* `Relation.parse_render_stages`: all stages are read back from their canonical texts.
-/

namespace LinearRelations

/-! ### Written numbers -/

/-- Whether an operand is the plain decimal of some number. -/
def Operand.IsWritten (operand : Operand) : Prop := ∃ q, Expr.ofSize q = .ok (some (.leaf operand))

namespace Operand

/-- A written number is read as a number. -/
theorem IsWritten.exists_read {operand : Operand} (h : operand.IsWritten) :
    ∃ q, operand.read = .ok (.number q) := by
  obtain ⟨q, hq⟩ := h
  obtain ⟨x, hleaf, hread⟩ := Expr.of_ofSize hq
  obtain rfl := Expr.leaf.inj hleaf
  exact ⟨_, hread⟩

/-- A written number is no variable. -/
theorem IsWritten.isVariable_eq_false {operand : Operand} (h : operand.IsWritten) :
    operand.isVariable = false := by
  obtain ⟨q, hread⟩ := h.exists_read
  exact isVariable_eq_false_of_meaning? (meaning?_of_read hread)

/-- A written number is plain: digits and points are neither blanks nor signs. -/
theorem IsWritten.isPlain {operand : Operand} (h : operand.IsWritten) : operand.IsPlain := by
  obtain ⟨q, hq⟩ := h
  obtain ⟨x, hleaf, htext⟩ := Expr.exists_of_ofSize hq
  obtain rfl := Expr.leaf.inj hleaf
  obtain ⟨places, -, -, -, htext⟩ := Text.of_plainDecimal htext
  intro c hc
  rw [htext, String.toList_ofList] at hc
  have hchar := Text.isDigit_or_point_of_mem_pointed hc
  refine ⟨Text.isBlank_eq_false hchar, ?_, ?_⟩ <;> rintro rfl <;> simp at hchar

theorem isWritten_of_mem_zero {operand : Operand} (h : operand ∈ Expr.zero.leaves) : operand.IsWritten := by
  rw [Expr.mem_leaves_leaf.1 h]
  exact ⟨0, by decide +kernel⟩

theorem isWritten_of_mem_one {operand : Operand} (h : operand ∈ Expr.one.leaves) : operand.IsWritten := by
  rw [Expr.mem_leaves_leaf.1 h]
  exact ⟨1, by decide +kernel⟩

theorem isWritten_of_ofSize {q : Rat} {size : Expr} {operand : Operand}
    (h : Expr.ofSize q = .ok (some size)) (hmem : operand ∈ size.leaves) : operand.IsWritten := by
  obtain ⟨x, rfl, -⟩ := Expr.of_ofSize h
  rw [Expr.mem_leaves_leaf.1 hmem]
  exact ⟨q, h⟩

end Operand

/-! ### Sums -/

namespace Term

variable {ts : List Term} {y : Operand}

theorem leavesOf_append (ss ts : List Term) : leavesOf (ss ++ ts) = leavesOf ss ++ leavesOf ts := by
  simp [leavesOf]

theorem leavesOf_negateAll (ts : List Term) : leavesOf (negateAll ts) = leavesOf ts := by
  simp [leavesOf, negateAll, negate, List.flatMap_map]

theorem unvalued_subset (entries : List (Term × Option Rat)) : unvalued entries ⊆ entries.map Prod.fst := by
  intro t ht
  obtain ⟨entry, hentry, rfl⟩ := List.mem_map.1 ht
  exact List.mem_map_of_mem (List.mem_of_mem_filter hentry)

/-- Replacing the numeric terms of a sum brings in the number that replaces them, or a zero. -/
theorem mem_leaves_replaceNumeric {entries : List (Term × Option Rat)} {size : Expr}
    (h : y ∈ leavesOf (replaceNumeric entries size)) :
    y ∈ leavesOf (entries.map Prod.fst) ∨ y ∈ size.leaves ∨ y ∈ Expr.zero.leaves := by
  have hunvalued : ∀ es ⊆ entries, y ∈ leavesOf (unvalued es) → y ∈ leavesOf (entries.map Prod.fst) := by
    intro es hsub hy
    obtain ⟨t, ht, hyt⟩ := mem_leavesOf.1 hy
    exact mem_leavesOf.2 ⟨t, List.map_subset _ hsub (unvalued_subset es ht), hyt⟩
  simp only [replaceNumeric] at h
  split at h
  · split at h
    · exact .inr (.inr (by simpa [leavesOf] using h))
    · exact .inl (hunvalued _ (List.Subset.refl _) h)
  · rw [leavesOf_append, List.mem_append, leavesOf, leavesOf, List.flatMap_cons, List.mem_append,
      ← leavesOf, ← leavesOf] at h
    rcases h with h | h | h
    · exact .inl (hunvalued _ (List.takeWhile_subset _) h)
    · exact .inr (.inl h)
    · exact .inl (hunvalued _ (List.drop_subset _ _) h)

theorem mem_leaves_foldConstants {folded : List Term} (h : foldConstants ts = .ok folded)
    (hy : y ∈ leavesOf folded) : y ∈ leavesOf ts ∨ y.IsWritten := by
  unfold foldConstants at h
  obtain ⟨entries, hentries, h⟩ := exists_of_bind_eq_ok h
  split at h
  · obtain rfl := Except.ok.inj h
    exact .inl hy
  · obtain ⟨size, hsize, h⟩ := exists_of_bind_eq_ok h
    rcases size with _ | size
    · obtain rfl := Except.ok.inj h
      exact .inl hy
    · obtain rfl := Except.ok.inj h
      rw [← (of_valued hentries).1]
      rcases mem_leaves_replaceNumeric hy with hy | hy | hy
      · exact .inl hy
      · exact .inr (Operand.isWritten_of_ofSize hsize hy)
      · exact .inr (Operand.isWritten_of_mem_zero hy)

theorem mem_leaves_joined_foldConstants {folded : List Term} (h : foldConstants ts = .ok folded)
    (hy : y ∈ (join folded).leaves) : y ∈ leavesOf ts ∨ y.IsWritten := by
  rcases mem_leaves_join hy with hy | hy
  · exact .inr (Operand.isWritten_of_mem_zero hy)
  · exact mem_leaves_foldConstants h hy

variable {d e : Expr}

theorem mem_leaves_divideEach (h : divideEach ts d = .ok e) (hy : y ∈ e.leaves) :
    y ∈ leavesOf ts ∨ y ∈ d.leaves ∨ y.IsWritten := by
  rw [divideEach, ← mapOver] at h
  obtain ⟨folded, hfold, h⟩ := exists_of_bind_eq_ok h
  obtain rfl := Except.ok.inj h
  rcases mem_leaves_joined_foldConstants hfold hy with hy | hy
  · obtain ⟨t, ht, hyt⟩ := mem_leavesOf.1 hy
    obtain ⟨t', ht', rfl⟩ := List.mem_map.1 ht
    rcases Expr.mem_leaves_over hyt with hyt | hyd
    · exact .inl (mem_leavesOf.2 ⟨t', ht', hyt⟩)
    · exact .inr (.inl hyd)
  · exact .inr (.inr hy)

/-- **A divided sum has the operands of the sum and of the divisor, and written numbers.** -/
theorem mem_leaves_divide (h : divide ts d = .ok e) (hy : y ∈ e.leaves) :
    y ∈ leavesOf ts ∨ y ∈ d.leaves ∨ y.IsWritten := by
  unfold divide at h
  split at h
  · obtain rfl := Except.ok.inj h
    exact .inr (.inr (Operand.isWritten_of_mem_zero hy))
  · split at h
    · obtain ⟨size, hsize, h⟩ := exists_of_bind_eq_ok h
      rcases size with _ | size
      · obtain ⟨folded, hfold, h⟩ := exists_of_bind_eq_ok h
        obtain rfl := Except.ok.inj h
        rcases Expr.mem_leaves_node.1 hy with hy | hy
        · rcases mem_leaves_joined_foldConstants hfold hy with hy | hy
          · exact .inl hy
          · exact .inr (.inr hy)
        · exact .inr (.inl hy)
      · rcases Expr.of_sizeLiteral hsize with ⟨-, hnone⟩ | ⟨q, -, hq⟩
        · cases hnone
        rcases mem_leaves_divideEach h hy with hy | hy | hy
        · exact .inl hy
        · exact .inr (.inr (Operand.isWritten_of_ofSize hq hy))
        · exact .inr (.inr hy)
    · exact mem_leaves_divideEach h hy

/-! ### The factored form -/

/-- The factored form has the operands of the parts, the variable and written numbers. -/
theorem mem_leaves_factored {x : Operand} {parts : Collected} (hy : y ∈ (factored x parts).leaves) :
    y = x ∨ y ∈ leavesOf parts.coefficients ∨ y ∈ leavesOf parts.remainder ∨ y.IsWritten := by
  have hproduct : ∀ cs : List Term, y ∈ (timesVariable x cs).leaves →
      y = x ∨ y ∈ leavesOf cs ∨ y.IsWritten := by
    intro cs hy
    simp only [timesVariable] at hy
    split at hy
    · exact .inl (Expr.mem_leaves_leaf.1 hy)
    · rcases Expr.mem_leaves_node.1 hy with hy | hy
      · exact .inl (Expr.mem_leaves_leaf.1 hy)
      · rcases mem_leaves_join hy with hy | hy
        · exact .inr (.inr (Operand.isWritten_of_mem_zero hy))
        · exact .inr (.inl hy)
  have hsum : ∀ (s : Sign) (cs : List Term), leavesOf cs = leavesOf parts.coefficients →
      y ∈ (join (⟨s, timesVariable x cs⟩ :: parts.remainder)).leaves →
      y = x ∨ y ∈ leavesOf parts.coefficients ∨ y ∈ leavesOf parts.remainder ∨ y.IsWritten := by
    intro s cs hcs hy
    rcases mem_leaves_join hy with hy | hy
    · exact .inr (.inr (.inr (Operand.isWritten_of_mem_zero hy)))
    · rcases List.mem_append.1 hy with hy | hy
      · rcases hproduct cs hy with hy | hy | hy
        · exact .inl hy
        · exact .inr (.inl (hcs ▸ hy))
        · exact .inr (.inr (.inr hy))
      · exact .inr (.inr (.inl hy))
  unfold factored at hy
  split at hy
  · exact hsum _ _ (leavesOf_negateAll _) hy
  · exact hsum _ _ rfl hy

end Term

/-! ### Relations -/

namespace Relation

variable {r : Relation} {x y : Operand}

/-- The operands of both sides. -/
def leaves (r : Relation) : List Operand := r.lhs.leaves ++ r.rhs.leaves

theorem mem_leaves_iff : y ∈ r.leaves ↔ y ∈ r.lhs.leaves ∨ y ∈ r.rhs.leaves := List.mem_append

theorem mem_variables_iff {name : String} :
    name ∈ r.variables ↔ ∃ y ∈ r.leaves, y.isVariable = true ∧ y.text = name := by
  have hsides : name ∈ r.variables ↔ name ∈ r.lhs.variables ∨ name ∈ r.rhs.variables := List.mem_append
  rw [hsides, Expr.mem_variables_iff, Expr.mem_variables_iff]
  simp only [mem_leaves_iff, or_and_right, exists_or]

theorem leaves_toZero {e : Expr} {c : Comparison} (hy : y ∈ (toZero e c).leaves) :
    y ∈ e.leaves ∨ y.IsWritten :=
  (mem_leaves_iff.1 hy).imp_right Operand.isWritten_of_mem_zero

theorem Turned.leaves_eq {c c' : Comparison} {parts parts' : Collected} (h : Turned c parts c' parts') :
    Term.leavesOf parts'.coefficients = Term.leavesOf parts.coefficients ∧
      Term.leavesOf parts'.remainder = Term.leavesOf parts.remainder := by
  cases h with
  | same => exact ⟨rfl, rfl⟩
  | around => exact ⟨Term.leavesOf_negateAll _, Term.leavesOf_negateAll _⟩

theorem Turned.comparison_eq {c c' : Comparison} {parts parts' : Collected} (h : Turned c parts c' parts') :
    c' = c ∨ c' = c.mirrored := by
  cases h with
  | same => exact .inl rfl
  | around => exact .inr rfl

/-- **The isolated relation has the variable on the left**, the comparison as it was or mirrored, and on
the right the operands of the parts and written numbers. -/
theorem shape_of_divideOut {c : Comparison} {parts : Collected} {s : Relation}
    (h : divideOut x c parts = .ok s) :
    s.lhs = .leaf x ∧ (s.comparison = c ∨ s.comparison = c.mirrored) ∧
      ∀ y ∈ s.rhs.leaves,
        y ∈ Term.leavesOf parts.coefficients ∨ y ∈ Term.leavesOf parts.remainder ∨ y.IsWritten := by
  obtain ⟨c', parts', hturned, -, hdivided⟩ := exists_of_divideOut h
  obtain ⟨hcoefficients, hremainder⟩ := hturned.leaves_eq
  obtain ⟨rhs, hrhs, rfl⟩ := exists_of_dividedBy hdivided
  refine ⟨rfl, hturned.comparison_eq, fun y hy => ?_⟩
  rcases Term.mem_leaves_divide hrhs hy with hy | hy | hy
  · rw [Term.leavesOf_negateAll, hremainder] at hy
    exact .inr (.inl hy)
  · rcases Term.mem_leaves_join hy with hy | hy
    · exact .inr (.inr (Operand.isWritten_of_mem_zero hy))
    · exact .inl (hcoefficients ▸ hy)
  · exact .inr (.inr hy)

/-- **No stage has other operands than the relation, written numbers apart.** -/
theorem Reached.mem_leaves {stage : Stage} (h : Reached r x stage) (hx : x ∈ r.leaves)
    (hy : y ∈ stage.relation.leaves) : y ∈ r.leaves ∨ y.IsWritten := by
  -- what is collected comes from the relation, or is a coefficient of one
  have hparts : ∀ parts, r.difference.collect x.text = .ok parts →
      y ∈ Term.leavesOf parts.coefficients ∨ y ∈ Term.leavesOf parts.remainder ∨ y.IsWritten →
      y ∈ r.leaves ∨ y.IsWritten := by
    intro parts hcollect hy
    obtain ⟨hcoefficients, hremainder⟩ := mem_leaves_of_collect hcollect y
    rcases hy with hy | hy | hy
    · exact (hcoefficients hy).elim (fun h => .inr (Operand.isWritten_of_mem_one h)) .inl
    · exact .inl (hremainder hy)
    · exact .inr hy
  cases h with
  | expand =>
    rw [mem_leaves_iff] at hy
    exact .inl (mem_leaves_iff.2 (hy.imp (Expr.mem_leaves_expand _).1 (Expr.mem_leaves_expand _).1))
  | collect =>
    exact (leaves_toZero hy).imp_left fun hy => mem_leaves_iff.2 (mem_leaves_difference.1 hy)
  | @factor parts hcollect _ =>
    rcases leaves_toZero hy with hy | hy
    · rcases Term.mem_leaves_factored hy with rfl | hy
      · exact .inl hx
      · exact hparts parts hcollect hy
    · exact .inr hy
  | @isolate parts s hcollect _ hs =>
    obtain ⟨hlhs, -, hrhs⟩ := shape_of_divideOut hs
    rcases mem_leaves_iff.1 hy with hy | hy
    · rw [hlhs, Expr.mem_leaves_leaf] at hy
      exact .inl (hy ▸ hx)
    · exact hparts parts hcollect (hrhs y hy)

/-- The isolated variable is an operand of the relation. -/
theorem mem_leaves_of_mem_stages {stage : Stage} {name : String} (h : stage ∈ (r.isolation name).stages)
    (hx : x.text = name) : x ∈ r.leaves := by
  have hname : name ∈ r.variables := by
    by_contra hnot
    rw [isolation_of_not_mem hnot] at h
    cases h
  obtain ⟨y, hy, -, htext⟩ := mem_variables_iff.1 hname
  exact Operand.ext (htext.trans hx.symm) ▸ hy

theorem mem_leaves_of_stage {stage : Stage} {name : String} (h : stage ∈ (r.isolation name).stages)
    (hy : y ∈ stage.relation.leaves) : y ∈ r.leaves ∨ y.IsWritten := by
  obtain ⟨x, -, hx, hreached⟩ := reached_of_mem_stages h
  exact hreached.mem_leaves (mem_leaves_of_mem_stages h hx) hy

/-- The variable is gone from the right side of the isolated relation. -/
theorem not_mem_leaves_of_divideOut {parts : Collected} {s : Relation} (hx : x.isVariable = true)
    (hcollect : r.difference.collect x.text = .ok parts) (hs : divideOut x r.comparison parts = .ok s) :
    x ∉ s.rhs.leaves := by
  intro hmem
  obtain ⟨hcoefficients, hremainder⟩ := (Term.collects_of_collect hcollect).not_mem_variables hx
  have hvariable : ∀ {t : Term}, x ∈ t.body.leaves → x.text ∈ t.body.variables :=
    fun hxt => Expr.mem_variables_iff.2 ⟨x, hxt, hx, rfl⟩
  obtain ⟨-, -, hrhs⟩ := shape_of_divideOut hs
  rcases hrhs x hmem with h | h | h
  · obtain ⟨t, ht, hxt⟩ := Term.mem_leavesOf.1 h
    exact hcoefficients t ht (hvariable hxt)
  · obtain ⟨t, ht, hxt⟩ := Term.mem_leavesOf.1 h
    exact hremainder t ht (hvariable hxt)
  · rw [h.isVariable_eq_false] at hx
    cases hx

/-- **An answer isolates the variable**: it stands alone on the left and nowhere on the right, where all
variables are others of the relation; the comparison is the one of the relation or its mirror image,
which for an equation is the same. And no stage on the way contains a new variable. -/
theorem solve_isolates (r : Relation) (name : String) :
    (∀ s, r.solve name = .ok s →
      (∃ x : Operand, x.text = name ∧ s.lhs = .leaf x) ∧
      s.rhs.hasLeaf name = false ∧
      (∀ y ∈ s.rhs.variables, y ∈ r.variables ∧ y ≠ name) ∧
      (r.comparison = .eq → s.comparison = .eq) ∧
      (s.comparison = r.comparison ∨ s.comparison = r.comparison.mirrored)) ∧
    ∀ stage ∈ (r.isolation name).stages, ∀ y ∈ stage.relation.variables, y ∈ r.variables := by
  have hstages : ∀ stage ∈ (r.isolation name).stages, ∀ y ∈ stage.relation.variables, y ∈ r.variables := by
    intro stage hstage y hy
    obtain ⟨z, hz, hvar, rfl⟩ := mem_variables_iff.1 hy
    rcases mem_leaves_of_stage hstage hz with hz | hz
    · exact mem_variables_iff.2 ⟨z, hz, hvar, rfl⟩
    · rw [hz.isVariable_eq_false] at hvar
      cases hvar
  refine ⟨fun s hs => ?_, hstages⟩
  have hstage := isolate_mem_of_solve hs
  obtain ⟨x, hx, rfl, hreached⟩ := reached_of_mem_stages hstage
  cases hreached with
  | @isolate parts _ hcollect _ hdivide =>
    obtain ⟨hlhs, hcomparison, -⟩ := shape_of_divideOut hdivide
    have hgone := not_mem_leaves_of_divideOut hx hcollect hdivide
    have hleaf : s.rhs.hasLeaf x.text = false := by
      refine Expr.hasLeaf_eq_false_iff.2 fun y hy htext => hgone ?_
      exact Operand.ext htext ▸ hy
    refine ⟨⟨x, rfl, hlhs⟩, hleaf, fun y hy => ⟨?_, ?_⟩, fun heq => ?_, hcomparison⟩
    · exact hstages _ hstage y (List.mem_append_right _ hy)
    · obtain ⟨z, hz, -, rfl⟩ := Expr.mem_variables_iff.1 hy
      exact Expr.hasLeaf_eq_false_iff.1 hleaf z hz
    · rcases hcomparison with h | h
      · exact h.trans heq
      · rw [h, heq]
        rfl

/-- `k * (4 + m) = 6 * n + 5 * m`, where `m` stands on both sides. -/
def shared : Relation :=
  let m : Expr := .leaf ⟨"m", by decide⟩
  let n : Expr := .leaf ⟨"n", by decide⟩
  let k : Expr := .leaf ⟨"k", by decide⟩
  let four : Expr := .leaf ⟨"4", by decide⟩
  let five : Expr := .leaf ⟨"5", by decide⟩
  let six : Expr := .leaf ⟨"6", by decide⟩
  ⟨.node k .mul (.node four .add m), .eq, .node (.node six .mul n) .add (.node five .mul m)⟩

/-- `m = (6 * n - k * 4) / (k - 5)`. -/
def sharedAnswer : Relation :=
  let m : Expr := .leaf ⟨"m", by decide⟩
  let n : Expr := .leaf ⟨"n", by decide⟩
  let k : Expr := .leaf ⟨"k", by decide⟩
  let four : Expr := .leaf ⟨"4", by decide⟩
  let five : Expr := .leaf ⟨"5", by decide⟩
  let six : Expr := .leaf ⟨"6", by decide⟩
  ⟨m, .eq, .node (.node (.node six .mul n) .sub (.node k .mul four)) .div (.node k .sub five)⟩

theorem solve_shared : shared.solve "m" = .ok sharedAnswer := by
  decide +kernel

theorem solve_isolates_shared :
    shared.solve "m" = .ok sharedAnswer ∧ sharedAnswer.rhs.hasLeaf "m" = false ∧
      (∀ y ∈ sharedAnswer.rhs.variables, y ∈ shared.variables ∧ y ≠ "m") ∧
      sharedAnswer.comparison = .eq := by
  obtain ⟨-, hgone, hvariables, heq, -⟩ := (solve_isolates shared "m").1 sharedAnswer solve_shared
  exact ⟨solve_shared, hgone, hvariables, heq rfl⟩

/-! ### Reading stages back -/

/-- The leaves of a stage are plain where those of the relation are. -/
theorem isPlain_of_stage {stage : Stage} {name : String} (hl : r.lhs.IsPlain) (hr : r.rhs.IsPlain)
    (h : stage ∈ (r.isolation name).stages) : ∀ y ∈ stage.relation.leaves, y.IsPlain := by
  intro y hy
  rcases mem_leaves_of_stage h hy with hy | hy
  · exact (mem_leaves_iff.1 hy).elim (hl y) (hr y)
  · exact hy.isPlain

theorem parse_render_of_stage {stage : Stage} {name : String} (hl : r.lhs.IsPlain) (hr : r.rhs.IsPlain)
    (h : stage ∈ (r.isolation name).stages) : parse stage.relation.render = .ok stage.relation := by
  have hplain := isPlain_of_stage hl hr h
  exact parse_render (fun y hy => hplain y (mem_leaves_iff.2 (.inl hy)))
    fun y hy => hplain y (mem_leaves_iff.2 (.inr hy))

/-- **Every stage is read back from its canonical text**, and so are the relation that the stages belong
to and the answer, however isolating the variable ends. -/
theorem parse_render_stages {text : String} (hparse : parse text = .ok r) (name : String) :
    parse r.render = .ok r ∧
      (∀ stage ∈ (r.isolation name).stages, parse stage.relation.render = .ok stage.relation) ∧
      ∀ s, r.solve name = .ok s → parse s.render = .ok s := by
  obtain ⟨hl, hr⟩ := isPlain_of_parse hparse
  have hstages : ∀ stage ∈ (r.isolation name).stages, parse stage.relation.render = .ok stage.relation :=
    fun _ => parse_render_of_stage hl hr
  refine ⟨parse_render hl hr, hstages, fun s hs => ?_⟩
  exact hstages ⟨.isolate, s⟩ (isolate_mem_of_solve hs)

theorem parse_render_stages_shared :
    parse shared.render = .ok shared ∧ shared.solve "m" = .ok sharedAnswer ∧
      parse sharedAnswer.render = .ok sharedAnswer := by
  have hparse : parse shared.render = .ok shared := parse_render (by decide) (by decide)
  exact ⟨hparse, solve_shared, (parse_render_stages hparse "m").2.2 sharedAnswer solve_shared⟩

end Relation

end LinearRelations
