import LinearRelations.Proofs.NormalForm

/-!
# Joined sums

The terms of a joined sum are those of the list it was made of, the added ones in front of the
subtracted ones. Where none is added the sum starts from a zero, and that zero is one more term when
the sum is read again; but it makes no difference when the terms are joined once more. So taking a
joined sum apart and joining it again does not change it.

* `Term.leading`, `Term.ordered`: a list in the order in which its terms stand in the joined sum, with
  that zero;
* `Term.terms_join`, `Term.terms_join_of_single`: the terms of a joined list;
* `Term.join_ordered`: joining them again makes the same sum;
* `Term.expand_join`: a joined list is expanded term by term;
* `Expr.IsNormalTerm`: what the terms of a normal expression are;
* `Expr.exists_terms_eq_cons`: the first of them is added;
* `Expr.rejoined`, `Term.terms_join_and_rejoined`: joining terms and taking a sum apart undo each other,
  but for the order.
-/

namespace LinearRelations

namespace Term

/-! ### Added and subtracted terms -/

@[simp] theorem added_cons_plus (body : Expr) (ts : List Term) :
    added (⟨.plus, body⟩ :: ts) = ⟨.plus, body⟩ :: added ts := rfl

@[simp] theorem added_cons_minus (body : Expr) (ts : List Term) :
    added (⟨.minus, body⟩ :: ts) = added ts := rfl

@[simp] theorem subtracted_cons_plus (body : Expr) (ts : List Term) :
    subtracted (⟨.plus, body⟩ :: ts) = subtracted ts := rfl

@[simp] theorem subtracted_cons_minus (body : Expr) (ts : List Term) :
    subtracted (⟨.minus, body⟩ :: ts) = ⟨.minus, body⟩ :: subtracted ts := rfl

@[simp] theorem added_append (ss ts : List Term) : added (ss ++ ts) = added ss ++ added ts :=
  List.filter_append ..

@[simp] theorem subtracted_append (ss ts : List Term) :
    subtracted (ss ++ ts) = subtracted ss ++ subtracted ts :=
  List.filter_append ..

theorem added_eq_self_iff {ts : List Term} : added ts = ts ↔ ∀ t ∈ ts, t.sign = .plus := by
  simp [added]

theorem subtracted_eq_self_iff {ts : List Term} : subtracted ts = ts ↔ ∀ t ∈ ts, t.sign = .minus := by
  simp [subtracted]

theorem added_eq_nil_iff {ts : List Term} : added ts = [] ↔ ∀ t ∈ ts, t.sign = .minus := by
  rw [added, List.filter_eq_nil_iff]
  refine forall₂_congr fun t _ => ?_
  cases t.sign <;> simp

theorem subtracted_eq_nil_iff {ts : List Term} : subtracted ts = [] ↔ ∀ t ∈ ts, t.sign = .plus := by
  rw [subtracted, List.filter_eq_nil_iff]
  refine forall₂_congr fun t _ => ?_
  cases t.sign <;> simp

theorem sign_of_mem_added {t : Term} {ts : List Term} (h : t ∈ added ts) : t.sign = .plus := by
  simpa using (List.mem_filter.1 h).2

theorem sign_of_mem_subtracted {t : Term} {ts : List Term} (h : t ∈ subtracted ts) : t.sign = .minus := by
  simpa using (List.mem_filter.1 h).2

@[simp] theorem added_added (ts : List Term) : added (added ts) = added ts :=
  added_eq_self_iff.2 fun _ h => sign_of_mem_added h

@[simp] theorem subtracted_added (ts : List Term) : subtracted (added ts) = [] :=
  subtracted_eq_nil_iff.2 fun _ h => sign_of_mem_added h

@[simp] theorem added_subtracted (ts : List Term) : added (subtracted ts) = [] :=
  added_eq_nil_iff.2 fun _ h => sign_of_mem_subtracted h

@[simp] theorem subtracted_subtracted (ts : List Term) : subtracted (subtracted ts) = subtracted ts :=
  subtracted_eq_self_iff.2 fun _ h => sign_of_mem_subtracted h

/-! ### Joining again -/

/-- Only the order among the added terms matters, and that among the subtracted ones. -/
theorem join_congr {ss ts : List Term} (hadded : added ss = added ts)
    (hsubtracted : subtracted ss = subtracted ts) : join ss = join ts := by
  rw [join, join, hadded, hsubtracted]

/-- A zero in front makes no difference where the sum would start from one. -/
theorem join_cons_zero {ts : List Term} (h : added ts = []) : join (⟨.plus, .zero⟩ :: ts) = join ts := by
  rw [join, join, added_cons_plus, subtracted_cons_plus, h, List.nil_append, List.singleton_append]
  rcases hts : subtracted ts with _ | ⟨⟨sign, body⟩, rest⟩
  · rfl
  · obtain rfl : sign = .minus := sign_of_mem_subtracted (hts ▸ List.mem_cons_self)
    rfl

/-- What a joined sum begins with: the added terms, or a zero where none is added. -/
def leading (ts : List Term) : List Term := if added ts = [] then [⟨.plus, .zero⟩] else added ts

/-- The terms of a list in the order in which they stand in the joined sum. -/
def ordered (ts : List Term) : List Term := leading ts ++ subtracted ts

theorem leading_of_added_eq_nil {ts : List Term} (h : added ts = []) : leading ts = [⟨.plus, .zero⟩] :=
  if_pos h

theorem leading_of_added_ne_nil {ts : List Term} (h : added ts ≠ []) : leading ts = added ts :=
  if_neg h

theorem ordered_of_added_eq_nil {ts : List Term} (h : added ts = []) :
    ordered ts = ⟨.plus, .zero⟩ :: ts := by
  unfold ordered
  rw [leading_of_added_eq_nil h, subtracted_eq_self_iff.2 (added_eq_nil_iff.1 h), List.singleton_append]

theorem ordered_of_added_ne_nil {ts : List Term} (h : added ts ≠ []) :
    ordered ts = added ts ++ subtracted ts := by
  unfold ordered
  rw [leading_of_added_ne_nil h]

/-- Added terms alone stand in the sum as they are. -/
theorem ordered_of_subtracted_eq_nil {ts : List Term} (h : subtracted ts = []) (hne : ts ≠ []) :
    ordered ts = ts := by
  have hadded : added ts = ts := added_eq_self_iff.2 (subtracted_eq_nil_iff.1 h)
  rw [ordered_of_added_ne_nil (by rwa [hadded]), hadded, h, List.append_nil]

/-- **Joining the terms of a joined sum makes the same sum.** -/
theorem join_ordered (ts : List Term) : join (ordered ts) = join ts := by
  by_cases h : added ts = []
  · rw [ordered_of_added_eq_nil h, join_cons_zero h]
  · rw [ordered_of_added_ne_nil h]
    apply join_congr
    · simp
    · simp

theorem mem_ordered {t : Term} {ts : List Term} (h : t ∈ ordered ts) : t = ⟨.plus, .zero⟩ ∨ t ∈ ts := by
  by_cases hadded : added ts = []
  · rw [ordered_of_added_eq_nil hadded] at h
    exact List.mem_cons.1 h
  · rw [ordered_of_added_ne_nil hadded] at h
    exact .inr ((added_append_subtracted_perm ts).mem_iff.1 h)

/-! ### The terms of a joined sum -/

theorem terms_foldl_append (sum : Expr) (ts : List Term) :
    (ts.foldl append sum).terms .plus = sum.terms .plus ++ ts.flatMap fun t => t.body.terms t.sign := by
  induction ts generalizing sum with
  | nil => simp
  | cons t ts ih =>
    have hstep : (append sum t).terms .plus = sum.terms .plus ++ t.body.terms t.sign := by
      rw [append]
      cases t.sign <;> rfl
    rw [List.foldl_cons, ih, hstep, List.flatMap_cons, List.append_assoc]

/-- **The terms of a joined list** are those of its members, one member after the other. -/
theorem terms_join (ts : List Term) :
    (join ts).terms .plus = (ordered ts).flatMap fun t => t.body.terms t.sign := by
  unfold join ordered
  by_cases h : added ts = []
  · rw [leading_of_added_eq_nil h, h, List.nil_append]
    rcases hts : subtracted ts with _ | ⟨⟨sign, body⟩, rest⟩
    · rfl
    · obtain rfl : sign = .minus := sign_of_mem_subtracted (hts ▸ List.mem_cons_self)
      rw [joinInOrder, terms_foldl_append]
      rfl
  · rw [leading_of_added_ne_nil h]
    obtain ⟨⟨sign, body⟩, rest, hts⟩ := List.exists_cons_of_ne_nil h
    obtain rfl : sign = .plus := sign_of_mem_added (hts ▸ List.mem_cons_self)
    rw [hts, List.cons_append, joinInOrder, terms_foldl_append]
    rfl

theorem flatMap_terms_of_single {ts : List Term} (h : ∀ t ∈ ts, t.body.isAdditive = false) :
    (ts.flatMap fun t => t.body.terms t.sign) = ts := by
  have hterm : ∀ t ∈ ts, t.body.terms t.sign = [t] := fun t ht =>
    Expr.terms_of_not_isAdditive (h t ht) t.sign
  rw [List.flatMap_congr hterm, List.flatMap_singleton']

/-- If no member is a sum itself, the terms of a joined list are its members. -/
theorem terms_join_of_single {ts : List Term} (h : ∀ t ∈ ts, t.body.isAdditive = false) :
    (join ts).terms .plus = ordered ts := by
  rw [terms_join, flatMap_terms_of_single]
  intro t ht
  rcases mem_ordered ht with rfl | ht
  · rfl
  · exact h t ht

/-! ### Expanding a joined sum -/

/-- The terms, each of them expanded. -/
def expandAll (ts : List Term) : List Term := ts.map fun t => ⟨t.sign, t.body.expand⟩

theorem added_expandAll (ts : List Term) : added (expandAll ts) = expandAll (added ts) :=
  List.filter_map

theorem subtracted_expandAll (ts : List Term) : subtracted (expandAll ts) = expandAll (subtracted ts) :=
  List.filter_map

theorem expandAll_append (ss ts : List Term) : expandAll (ss ++ ts) = expandAll ss ++ expandAll ts :=
  List.map_append

theorem expand_foldl_append (sum : Expr) (ts : List Term) :
    (ts.foldl append sum).expand = (expandAll ts).foldl append sum.expand := by
  induction ts generalizing sum with
  | nil => rfl
  | cons t ts ih =>
    have hstep : (append sum t).expand = append sum.expand ⟨t.sign, t.body.expand⟩ := by
      rw [append]
      cases t.sign <;> rfl
    rw [List.foldl_cons, ih, hstep]
    rfl

/-- **A joined list is expanded term by term.** -/
theorem expand_join (ts : List Term) : (join ts).expand = join (expandAll ts) := by
  rw [join, join, added_expandAll, subtracted_expandAll, ← expandAll_append]
  rcases added ts ++ subtracted ts with _ | ⟨⟨_ | _, body⟩, rest⟩
  · rfl
  · exact expand_foldl_append body rest
  · exact expand_foldl_append (.node .zero .sub body) rest

end Term

/-! ### Terms of an expression -/

/-- Whether an expression is normal and no sum. -/
structure Expr.IsNormalTerm (e : Expr) : Prop where
  normal : e.isNormal = true
  single : e.isAdditive = false

namespace Expr

theorem isNormalTerm_leaf (operand : Operand) : (leaf operand).IsNormalTerm := ⟨rfl, rfl⟩

theorem isNormalTerm_mul {lhs rhs : Expr} (hl : lhs.IsNormalTerm) (hr : rhs.IsNormalTerm) :
    (node lhs .mul rhs).IsNormalTerm :=
  ⟨by simp [isNormal, hl.normal, hl.single, hr.normal, hr.single], rfl⟩

theorem isNormalTerm_div {lhs rhs : Expr} (hl : lhs.IsNormalTerm) (hr : rhs.isNormal = true) :
    (node lhs .div rhs).IsNormalTerm :=
  ⟨by simp [isNormal, hl.normal, hl.single, hr], rfl⟩

/-- The first term of an expression stands under the sign of the expression. -/
theorem exists_terms_eq_cons (e : Expr) (s : Sign) : ∃ t rest, e.terms s = t :: rest ∧ t.sign = s := by
  fun_induction terms s e with
  | case1 s operand => exact ⟨_, _, rfl, rfl⟩
  | case2 s lhs rhs ihl ihr =>
    obtain ⟨t, rest, hlhs, hsign⟩ := ihl
    rw [hlhs]
    exact ⟨t, _, rfl, hsign⟩
  | case3 s lhs rhs ihl ihr =>
    obtain ⟨t, rest, hlhs, hsign⟩ := ihl
    rw [hlhs]
    exact ⟨t, _, rfl, hsign⟩
  | case4 s lhs rhs => exact ⟨_, _, rfl, rfl⟩
  | case5 s lhs rhs => exact ⟨_, _, rfl, rfl⟩

/-- No term of an expression is a sum itself. -/
theorem isAdditive_of_mem_terms {e : Expr} {s : Sign} {t : Term} (ht : t ∈ e.terms s) :
    t.body.isAdditive = false := by
  fun_induction terms s e with
  | case1 s operand =>
    rw [List.mem_singleton.1 ht]
    rfl
  | case2 s lhs rhs ihl ihr => exact (List.mem_append.1 ht).elim ihl ihr
  | case3 s lhs rhs ihl ihr => exact (List.mem_append.1 ht).elim ihl ihr
  | case4 s lhs rhs =>
    rw [List.mem_singleton.1 ht]
    rfl
  | case5 s lhs rhs =>
    rw [List.mem_singleton.1 ht]
    rfl

theorem isNormalTerm_of_mem_terms {e : Expr} (h : e.isNormal = true) {s : Sign} {t : Term}
    (ht : t ∈ e.terms s) : t.body.IsNormalTerm := by
  fun_induction terms s e with
  | case1 s operand =>
    rw [List.mem_singleton.1 ht]
    exact isNormalTerm_leaf operand
  | case2 s lhs rhs ihl ihr =>
    rw [isNormal, Bool.and_eq_true] at h
    exact (List.mem_append.1 ht).elim (ihl h.1) (ihr h.2)
    all_goals exact fun h => by cases h
  | case3 s lhs rhs ihl ihr =>
    rw [isNormal, Bool.and_eq_true] at h
    exact (List.mem_append.1 ht).elim (ihl h.1) (ihr h.2)
    all_goals exact fun h => by cases h
  | case4 s lhs rhs =>
    rw [List.mem_singleton.1 ht]
    exact ⟨h, rfl⟩
  | case5 s lhs rhs =>
    rw [List.mem_singleton.1 ht]
    exact ⟨h, rfl⟩

end Expr

namespace Term

/-- Terms of a normal sum are left as they are by expanding them. -/
theorem expandAll_of_isNormalTerm {ts : List Term} (h : ∀ t ∈ ts, t.body.IsNormalTerm) : expandAll ts = ts := by
  conv_rhs => rw [← List.map_id ts]
  refine List.map_congr_left fun t ht => ?_
  rw [Expr.expand_of_isNormal (h t ht).normal]
  rfl

/-- A joined list of terms of a normal sum is such a sum. -/
theorem expand_join_of_isNormalTerm {ts : List Term} (h : ∀ t ∈ ts, t.body.IsNormalTerm) :
    (join ts).expand = join ts := by
  rw [expand_join, expandAll_of_isNormalTerm h]

/-! ### Taking a sum apart and joining it again -/

/-- Where some term is added, a joined list has the operands of its members and no other. -/
theorem leaves_join_perm {ts : List Term} (h : added ts ≠ []) : (join ts).leaves.Perm (leavesOf ts) := by
  have hordered : (join ts).leaves = leavesOf (added ts ++ subtracted ts) := by
    obtain ⟨⟨sign, body⟩, rest, hts⟩ := List.exists_cons_of_ne_nil h
    obtain rfl : sign = .plus := sign_of_mem_added (hts ▸ List.mem_cons_self)
    rw [join, hts, List.cons_append, joinInOrder, leaves_foldl_append]
    rfl
  rw [hordered]
  exact (added_append_subtracted_perm ts).flatMap_right _

/-- The first term of an expression is added. -/
theorem added_terms_ne_nil (e : Expr) : added (e.terms .plus) ≠ [] := by
  obtain ⟨⟨sign, body⟩, rest, hterms, rfl⟩ := e.exists_terms_eq_cons .plus
  rw [hterms, added_cons_plus]
  exact List.cons_ne_nil _ _

end Term

/-- The expression with its terms joined again, the added ones first. -/
def Expr.rejoined (e : Expr) : Expr := Term.join (e.terms .plus)

namespace Expr

/-- What is joined again starts from a term of the expression, and not from a zero. -/
theorem terms_rejoined (e : Expr) :
    e.rejoined.terms .plus = Term.added (e.terms .plus) ++ Term.subtracted (e.terms .plus) := by
  rw [rejoined, Term.terms_join_of_single fun t => isAdditive_of_mem_terms,
    Term.ordered_of_added_ne_nil (Term.added_terms_ne_nil e)]

theorem leaves_rejoined_perm (e : Expr) : e.rejoined.leaves.Perm e.leaves := by
  have hperm := Term.leaves_join_perm (Term.added_terms_ne_nil e)
  rwa [Term.leavesOf_terms] at hperm

theorem value?_rejoined {K : Type*} [Field K] [DecidableEq K] (ρ : Valuation K) (e : Expr) :
    e.rejoined.value? ρ = e.value? ρ := by
  rw [rejoined, Term.value?_join, Term.sum?_terms_plus]

/-- Once the added terms stand in front, they stay there. -/
theorem rejoined_rejoined (e : Expr) : e.rejoined.rejoined = e.rejoined := by
  have hterms : e.rejoined.terms .plus = Term.ordered (e.terms .plus) :=
    Term.terms_join_of_single fun t => isAdditive_of_mem_terms
  rw [rejoined, hterms, Term.join_ordered, rejoined]

end Expr

/-- **Joining terms and taking a sum apart undo each other**, up to the order of added and subtracted
terms. The terms of a joined list none of which is a sum itself are the added ones and behind them the
subtracted ones, each in their order, with a zero in front exactly if none is added. And the terms of
an expression joined again need no such zero; they make an expression with the same operands that has
a value exactly where the first one has, and the same value, and that stays as it is when its terms
are joined once more. -/
theorem Term.terms_join_and_rejoined :
    (∀ ts : List Term, (∀ t ∈ ts, t.body.isAdditive = false) →
      (join ts).terms .plus =
        (if added ts = [] then [⟨.plus, .zero⟩] else []) ++ (added ts ++ subtracted ts)) ∧
    ∀ e : Expr, e.rejoined.terms .plus = added (e.terms .plus) ++ subtracted (e.terms .plus) ∧
      e.rejoined.leaves.Perm e.leaves ∧
      (∀ {K : Type*} [Field K] [DecidableEq K] (ρ : Valuation K), e.rejoined.value? ρ = e.value? ρ) ∧
      e.rejoined.rejoined = e.rejoined := by
  refine ⟨fun ts h => ?_, fun e => ⟨e.terms_rejoined, e.leaves_rejoined_perm, fun ρ => ?_, ?_⟩⟩
  · rw [terms_join_of_single h, ordered, leading]
    split
    · next hnil => rw [hnil, List.nil_append]
    · rw [List.nil_append]
  · exact e.value?_rejoined ρ
  · exact e.rejoined_rejoined

/-- `- 12 - e / 10`, in which no term is added. -/
def Term.bothSubtracted : List Term :=
  [⟨.minus, .leaf ⟨"12", by decide⟩⟩,
    ⟨.minus, .node (.leaf ⟨"e", by decide⟩) .div (.leaf ⟨"10", by decide⟩)⟩]

theorem Term.terms_join_and_rejoined_bothSubtracted :
    (∀ t ∈ bothSubtracted, t.body.isAdditive = false) ∧
      (join bothSubtracted).terms .plus = ⟨.plus, .zero⟩ :: bothSubtracted := by
  have hsingle : ∀ t ∈ bothSubtracted, t.body.isAdditive = false := by decide
  exact ⟨hsingle, terms_join_and_rejoined.{0}.1 bothSubtracted hsingle⟩

end LinearRelations
