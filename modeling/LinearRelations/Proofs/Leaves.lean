import LinearRelations.Proofs.Value

/-!
# Operands of an expression

Which variables and constants an expression contains, what it means and whether it can be read,
depends on its leaves alone. What is read is what the leaf stands for.

* `Operand.meaning?_of_read`: an operand is read as what it stands for;
* `Operand.read_cases`: what stands for something is read so, unless its digits are out of range;
* `Expr.leaves`: the operands from left to right;
* `Expr.constants`: the built-in constants among them;
* `Expr.divisors`: the expressions that stand behind a division sign;
* `Expr.IsMeaningful`, `Expr.IsReadable`: every leaf stands for something, and can be read;
* `Expr.IsInRange`: the digits of all numerals are within range;
* `ExactError.IsLimit`, `AnswersIf`: failing by the size of numbers alone;
* `Expr.exists_combination_iff`: like terms and factors are gathered where all leaves can be read.
-/

namespace LinearRelations

namespace Operand

theorem ext {x y : Operand} (h : x.text = y.text) : x = y := by
  cases x
  cases y
  cases h
  rfl

theorem text_of_ofText? {text : String} {x : Operand} (h : ofText? text = some x) : x.text = text := by
  unfold ofText? at h
  split at h
  · rw [← Option.some.inj h]
  · cases h

/-- The built-in constant that an operand names. -/
def constant? (operand : Operand) : Option Constant :=
  match operand.meaning? with
  | some (.constant c) => some c
  | _ => none

/-- **An operand is read as what it stands for.** -/
theorem meaning?_of_read {operand : Operand} {v : LeafValue} (h : operand.read = .ok v) :
    operand.meaning? = some v := by
  unfold read at h
  unfold meaning?
  split at h
  · next hname => rw [if_pos hname, Except.ok.inj h]
  next hname =>
  rw [if_neg hname]
  split at h
  · next numeral _ =>
    rcases hexact : numeral.exact with cause | q
    · rw [hexact] at h
      cases h
    · rw [hexact] at h
      simp only [Text.Numeral.value?_of_exact hexact]
      exact congrArg some (Except.ok.inj h)
  · exact congrArg some (Except.ok.inj h)

/-- Whether the operand is a numeral with digits that reach beyond the range of decimal places. -/
def IsOutOfRange (operand : Operand) : Prop :=
  Text.isName operand.text = false ∧ ∃ negative significand exponent,
    Text.Numeral.read? operand.text = some (.finite negative significand exponent) ∧
      Text.Numeral.isInRange significand exponent = false

/-- **What stands for something is read so, unless its digits are out of range.** -/
theorem read_cases {operand : Operand} {v : LeafValue} (h : operand.meaning? = some v) :
    ¬ operand.IsOutOfRange ∧ operand.read = .ok v ∨
      operand.IsOutOfRange ∧ operand.read = .error .exponentOutOfRange := by
  unfold meaning? at h
  unfold read
  split at h
  · next hname =>
    exact .inl ⟨fun hout => Bool.false_ne_true (hout.1.symm.trans hname), by
      rw [if_pos hname, Option.some.inj h]⟩
  next hname =>
  rw [if_neg hname]
  rcases hread : Text.Numeral.read? operand.text with _ | ⟨negative, n, k⟩ | _ | _
  · rw [hread] at h
    refine .inl ⟨?_, congrArg Except.ok (Option.some.inj h)⟩
    rintro ⟨-, negative, n, k, hnumeral, -⟩
    cases hread.symm.trans hnumeral
  · rw [hread] at h
    obtain rfl := Option.some.inj h
    rcases hrange : Text.Numeral.isInRange n k with _ | _
    · refine .inr ⟨⟨Bool.eq_false_of_not_eq_true hname, negative, n, k, hread, hrange⟩, ?_⟩
      simp only [Text.Numeral.exact, hrange]
      rfl
    · refine .inl ⟨?_, ?_⟩
      · rintro ⟨-, negative', n', k', hnumeral, hout⟩
        obtain ⟨rfl, rfl, rfl⟩ := Text.Numeral.finite.inj (Option.some.inj (hread.symm.trans hnumeral))
        cases hrange.symm.trans hout
      · simp only [Text.Numeral.exact, hrange]
        rfl
  · rw [hread] at h
    cases h
  · rw [hread] at h
    cases h

/-- A name is read as what it stands for. -/
theorem read_of_isName {operand : Operand} (h : Text.isName operand.text = true) :
    operand.read = .ok (.ofName operand.text) :=
  if_pos h

/-- A variable stands for the unknown of its name. -/
theorem read_of_isVariable {operand : Operand} (h : operand.isVariable = true) :
    operand.read = .ok (.unknown operand.text) := by
  simp only [isVariable, isNumeral, isConstantName, Bool.and_eq_true, Bool.not_eq_true',
    Option.isSome_eq_false_iff, Option.isNone_iff_eq_none] at h
  have hname : Text.isName operand.text = true := by
    have := operand.valid
    simpa [isOperand, h.1] using this
  rw [read_of_isName hname, LeafValue.ofName, h.2]

theorem meaning?_of_isVariable {operand : Operand} (h : operand.isVariable = true) :
    operand.meaning? = some (.unknown operand.text) :=
  meaning?_of_read (read_of_isVariable h)

/-- What stands for a number is no variable. -/
theorem isVariable_eq_false_of_meaning? {operand : Operand} {q : Rat}
    (h : operand.meaning? = some (.number q)) : operand.isVariable = false := by
  by_contra hvariable
  rw [meaning?_of_isVariable (Bool.eq_true_of_not_eq_false hvariable)] at h
  cases h

end Operand

/-- The values carried over by a field embedding. -/
def Valuation.map {K L : Type*} [Field K] [Field L] (f : K →+* L) (ρ : Valuation K) : Valuation L :=
  ⟨fun c => f (ρ.constant c), fun x => f (ρ.unknown x)⟩

namespace Expr

/-- The operands of an expression from left to right. -/
def leaves : Expr → List Operand
  | leaf operand => [operand]
  | node lhs _ rhs => lhs.leaves ++ rhs.leaves

/-- The built-in constants in an expression. -/
def constants (expr : Expr) : List Constant := expr.leaves.filterMap Operand.constant?

/-- The divisors in an expression, those inside of divisors included. -/
def divisors : Expr → List Expr
  | leaf _ => []
  | node lhs .div rhs => rhs :: (lhs.divisors ++ rhs.divisors)
  | node lhs _ rhs => lhs.divisors ++ rhs.divisors

@[simp] theorem mem_leaves_leaf {operand x : Operand} : x ∈ (leaf operand).leaves ↔ x = operand := by
  simp [leaves]

@[simp] theorem mem_leaves_node {operand : Operand} {lhs rhs : Expr} {op : Operator} :
    operand ∈ (node lhs op rhs).leaves ↔ operand ∈ lhs.leaves ∨ operand ∈ rhs.leaves := by
  simp [leaves]

theorem hasLeaf_eq_false_iff {name : String} {expr : Expr} :
    expr.hasLeaf name = false ↔ ∀ x ∈ expr.leaves, x.text ≠ name := by
  induction expr with
  | leaf operand => simp [hasLeaf]
  | node lhs op rhs ihl ihr =>
    simp only [hasLeaf, Bool.or_eq_false_iff, ihl, ihr, mem_leaves_node, or_imp, forall_and]

theorem mem_variables_iff {name : String} {expr : Expr} :
    name ∈ expr.variables ↔ ∃ x ∈ expr.leaves, x.isVariable = true ∧ x.text = name := by
  induction expr with
  | leaf operand =>
    rw [Expr.variables]
    split
    · next h => simpa [h] using eq_comm
    · next h => simp [h]
  | node lhs op rhs ihl ihr =>
    simp only [Expr.variables, List.mem_append, ihl, ihr, mem_leaves_node]
    constructor
    · rintro (⟨x, hx, h⟩ | ⟨x, hx, h⟩)
      · exact ⟨x, .inl hx, h⟩
      · exact ⟨x, .inr hx, h⟩
    · rintro ⟨x, hx | hx, h⟩
      · exact .inl ⟨x, hx, h⟩
      · exact .inr ⟨x, hx, h⟩

theorem mem_variables_node {name : String} {lhs rhs : Expr} {op : Operator} :
    name ∈ (node lhs op rhs).variables ↔ name ∈ lhs.variables ∨ name ∈ rhs.variables :=
  List.mem_append

theorem leaves_subset_of_mem_divisors {d e : Expr} (h : d ∈ e.divisors) : d.leaves ⊆ e.leaves := by
  have hnode : ∀ {lhs rhs : Expr}, (d ∈ lhs.divisors → d.leaves ⊆ lhs.leaves) →
      (d ∈ rhs.divisors → d.leaves ⊆ rhs.leaves) → d ∈ lhs.divisors ++ rhs.divisors →
      d.leaves ⊆ lhs.leaves ++ rhs.leaves := by
    intro lhs rhs ihl ihr h
    rcases List.mem_append.1 h with h | h
    · exact List.subset_append_of_subset_left _ (ihl h)
    · exact List.subset_append_of_subset_right _ (ihr h)
  fun_induction divisors e with
  | case1 => simp at h
  | case2 lhs rhs ihl ihr =>
    rcases List.mem_cons.1 h with rfl | h
    · exact List.subset_append_right _ _
    · exact hnode ihl ihr h
  | case3 lhs op rhs _ ihl ihr => exact hnode ihl ihr h

theorem variables_subset {e f : Expr} (h : e.leaves ⊆ f.leaves) : e.variables ⊆ f.variables := by
  intro name hname
  obtain ⟨x, hx, hv⟩ := mem_variables_iff.1 hname
  exact mem_variables_iff.2 ⟨x, h hx, hv⟩

theorem variables_zero : zero.variables = [] := by decide +kernel

theorem variables_one : one.variables = [] := by decide +kernel

end Expr

theorem Operand.mem_variables_of_meaning? {operand : Operand} {x : String}
    (h : operand.meaning? = some (.unknown x)) : x ∈ (Expr.leaf operand).variables := by
  have hvalid := operand.valid
  rw [isOperand, Bool.or_eq_true, Text.isNumeral, Bool.and_eq_true] at hvalid
  unfold meaning? LeafValue.ofName at h
  split at h
  · next hname =>
    split at h
    · cases h
    · next hnone =>
      obtain rfl := LeafValue.unknown.inj (Option.some.inj h)
      have hvar : operand.isVariable = true := by
        simp [isVariable, isNumeral, Text.isNumeral, hname, isConstantName, hnone]
      exact Expr.mem_variables_iff.2 ⟨operand, Expr.mem_leaves_leaf.2 rfl, hvar, rfl⟩
  · next hname =>
    obtain ⟨numeral, hread⟩ := Option.isSome_iff_exists.1 (hvalid.resolve_right hname).2
    rw [hread] at h
    rcases numeral with _ | _ | _ <;> simp [Text.Numeral.value?] at h

theorem Operand.mem_variables_of_read {operand : Operand} {x : String}
    (h : operand.read = .ok (.unknown x)) : x ∈ (Expr.leaf operand).variables :=
  mem_variables_of_meaning? (meaning?_of_read h)

/-! ### Size limits -/

/-- Whether a number is too large or too long for the host, though it has an exact value. -/
def ExactError.IsLimit : ExactError → Prop
  | exponentOutOfRange => True
  | tooManyDigits => True
  | textTooLong => True
  | infiniteNumeral => False
  | undefinedNumeral => False

/-- Whether a computation gives an answer if a condition is met, and otherwise is stopped by digits out
of range. -/
def AnswersIf {α : Type} (p : Prop) (x : Except ExactError α) : Prop :=
  p ∧ (∃ a, x = .ok a) ∨ ¬ p ∧ x = .error .exponentOutOfRange

namespace AnswersIf

variable {α β : Type} {p : Prop} {x : Except ExactError α}

theorem exists_ok_iff (h : AnswersIf p x) : (∃ a, x = .ok a) ↔ p := by
  rcases h with ⟨hp, hok⟩ | ⟨hp, herror⟩
  · exact iff_of_true hok hp
  · refine iff_of_false ?_ hp
    rintro ⟨a, ha⟩
    cases ha.symm.trans herror

/-- What follows cannot fail. -/
theorem bind {f : α → Except ExactError β} (h : AnswersIf p x) (hf : ∀ a, ∃ b, f a = .ok b) :
    AnswersIf p (x >>= f) := by
  rcases h with ⟨hp, a, rfl⟩ | ⟨hp, rfl⟩
  · exact .inl ⟨hp, hf a⟩
  · exact .inr ⟨hp, rfl⟩

theorem yields (h : AnswersIf p x) : Yields (fun _ => p) ExactError.IsLimit x := by
  rcases h with ⟨hp, a, rfl⟩ | ⟨-, rfl⟩
  · exact hp
  · trivial

end AnswersIf

namespace Expr

/-! ### Leaves that can be read -/

/-- Every leaf stands for something. -/
def IsMeaningful (expr : Expr) : Prop := ∀ x ∈ expr.leaves, ∃ v, x.meaning? = some v

/-- Every leaf can be read. -/
def IsReadable (expr : Expr) : Prop := ∀ x ∈ expr.leaves, ∃ v, x.read = .ok v

theorem isMeaningful_node {lhs rhs : Expr} {op : Operator} :
    (node lhs op rhs).IsMeaningful ↔ lhs.IsMeaningful ∧ rhs.IsMeaningful := by
  simp only [IsMeaningful, mem_leaves_node, or_imp, forall_and]

theorem isReadable_node {lhs rhs : Expr} {op : Operator} :
    (node lhs op rhs).IsReadable ↔ lhs.IsReadable ∧ rhs.IsReadable := by
  simp only [IsReadable, mem_leaves_node, or_imp, forall_and]

theorem isMeaningful_leaf {x : Operand} {v : LeafValue} (h : x.meaning? = some v) :
    (leaf x).IsMeaningful := by
  intro y hy
  rw [mem_leaves_leaf.1 hy]
  exact ⟨v, h⟩

theorem isReadable_leaf {x : Operand} {v : LeafValue} (h : x.read = .ok v) : (leaf x).IsReadable := by
  intro y hy
  rw [mem_leaves_leaf.1 hy]
  exact ⟨v, h⟩

theorem IsReadable.isMeaningful {e : Expr} (h : e.IsReadable) : e.IsMeaningful := by
  intro x hx
  obtain ⟨v, hv⟩ := h x hx
  exact ⟨v, Operand.meaning?_of_read hv⟩

/-- No leaf has digits that reach beyond the range of decimal places. -/
def IsInRange (expr : Expr) : Prop := ∀ x ∈ expr.leaves, ¬ x.IsOutOfRange

/-- Leaves that stand for something can be read if their digits are in range. -/
theorem IsMeaningful.isReadable_iff {e : Expr} (h : e.IsMeaningful) : e.IsReadable ↔ e.IsInRange := by
  constructor
  · intro hread x hx hout
    obtain ⟨v, hv⟩ := h x hx
    obtain ⟨w, hw⟩ := hread x hx
    rcases Operand.read_cases hv with ⟨hin, -⟩ | ⟨-, herror⟩
    · exact hin hout
    · cases hw.symm.trans herror
  · intro hin x hx
    obtain ⟨v, hv⟩ := h x hx
    rcases Operand.read_cases hv with ⟨-, hread⟩ | ⟨hout, -⟩
    · exact ⟨v, hread⟩
    · exact absurd hout (hin x hx)

/-- The form of a leaf is that of what it is read as. -/
theorem combination_leaf {x : Operand} {v : LeafValue} (h : x.read = .ok v) :
    (leaf x).combination = .ok (some v.combination) := by
  rw [combination, h]
  rfl

/-- **Like terms and factors are gathered just where all leaves can be read.** -/
theorem exists_combination_iff {e : Expr} : (∃ c, e.combination = .ok c) ↔ e.IsReadable := by
  induction e with
  | leaf operand =>
    constructor
    · rintro ⟨c, hc⟩
      obtain ⟨v, hv, -⟩ := exists_of_bind_eq_ok hc
      exact isReadable_leaf hv
    · intro h
      obtain ⟨v, hv⟩ := h operand (mem_leaves_leaf.2 rfl)
      exact ⟨_, combination_leaf hv⟩
  | node lhs op rhs ihl ihr =>
    rw [isReadable_node, ← ihl, ← ihr]
    constructor
    · rintro ⟨c, hc⟩
      obtain ⟨l, hl, hc⟩ := exists_of_bind_eq_ok hc
      obtain ⟨r, hr, -⟩ := exists_of_bind_eq_ok hc
      exact ⟨⟨l, hl⟩, r, hr⟩
    · rintro ⟨⟨l, hl⟩, r, hr⟩
      exact ⟨op.combine? l r, by rw [combination, hl, hr]; rfl⟩

theorem isReadable_of_isOk {e : Expr} (h : e.combination.isOk = true) : e.IsReadable := by
  rcases hform : e.combination with cause | c
  · rw [hform] at h
    cases h
  · exact exists_combination_iff.1 ⟨c, hform⟩

theorem isReadable_of_isZero {e : Expr} {b : Bool} (h : e.isZero = .ok b) : e.IsReadable := by
  obtain ⟨c, hc, -⟩ := exists_of_bind_eq_ok h
  exact exists_combination_iff.1 ⟨c, hc⟩

/-- What is in the way of gathering is in the way of reading some leaf. -/
theorem exists_mem_leaves_of_combination {e : Expr} {cause : ExactError}
    (h : e.combination = .error cause) : ∃ x ∈ e.leaves, x.read = .error cause := by
  induction e with
  | leaf operand =>
    refine ⟨operand, mem_leaves_leaf.2 rfl, ?_⟩
    rcases hread : operand.read with cause' | v
    · rw [combination, hread] at h
      exact congrArg Except.error (Except.error.inj h)
    · rw [combination_leaf hread] at h
      cases h
  | node lhs op rhs ihl ihr =>
    rcases hl : lhs.combination with cause' | l
    · rw [combination, hl] at h
      obtain rfl := Except.error.inj h
      obtain ⟨x, hx, hread⟩ := ihl hl
      exact ⟨x, mem_leaves_node.2 (.inl hx), hread⟩
    rcases hr : rhs.combination with cause' | r
    · rw [combination, hl, hr] at h
      obtain rfl := Except.error.inj h
      obtain ⟨x, hx, hread⟩ := ihr hr
      exact ⟨x, mem_leaves_node.2 (.inr hx), hread⟩
    · rw [combination, hl, hr] at h
      cases h

/-- **Like terms and factors are gathered unless a numeral is out of range**, if the leaves stand for
something. -/
theorem IsMeaningful.combination_answersIf {e : Expr} (h : e.IsMeaningful) :
    AnswersIf e.IsInRange e.combination := by
  by_cases hin : e.IsInRange
  · exact .inl ⟨hin, exists_combination_iff.2 (h.isReadable_iff.2 hin)⟩
  refine .inr ⟨hin, ?_⟩
  rcases hform : e.combination with cause | c
  · obtain ⟨x, hx, hread⟩ := exists_mem_leaves_of_combination hform
    obtain ⟨v, hv⟩ := h x hx
    rcases Operand.read_cases hv with ⟨-, hok⟩ | ⟨-, herror⟩
    · cases hread.symm.trans hok
    · rw [← Except.error.inj (hread.symm.trans herror)]
  · exact absurd (h.isReadable_iff.1 (exists_combination_iff.1 ⟨c, hform⟩)) hin

/-! ### Other valuations -/

section Transfer

variable {K L : Type*} [Field K] [Field L] [DecidableEq K] [DecidableEq L]

/-- The value depends on the values of the constants and variables in the expression alone. -/
theorem value?_congr {ρ σ : Valuation K} {e : Expr} (hc : ∀ c ∈ e.constants, ρ.constant c = σ.constant c)
    (hx : ∀ x ∈ e.variables, ρ.unknown x = σ.unknown x) : e.value? ρ = e.value? σ := by
  induction e with
  | leaf operand =>
    rw [value?, value?]
    rcases hmeaning : operand.meaning? with _ | v
    · rfl
    · cases v with
      | number q => rfl
      | constant c =>
        have hmem : c ∈ (leaf operand).constants := by simp [constants, leaves, Operand.constant?, hmeaning]
        simp [LeafValue.value, hc c hmem]
      | unknown x => simp [LeafValue.value, hx x (Operand.mem_variables_of_meaning? hmeaning)]
  | node lhs op rhs ihl ihr =>
    have hconstants : (node lhs op rhs).constants = lhs.constants ++ rhs.constants := by
      simp [constants, leaves]
    rw [hconstants] at hc
    rw [value?_node, value?_node,
      ihl (fun c h => hc c (List.mem_append_left _ h)) fun x h => hx x (mem_variables_node.2 (.inl h)),
      ihr (fun c h => hc c (List.mem_append_right _ h)) fun x h => hx x (mem_variables_node.2 (.inr h))]

/-- A field embedding carries values over. -/
theorem value?_map (f : K →+* L) (ρ : Valuation K) (e : Expr) :
    e.value? (ρ.map f) = (e.value? ρ).map f := by
  induction e with
  | leaf operand =>
    rw [value?, value?]
    rcases operand.meaning? with _ | (q | c | x)
    · rfl
    · simp [LeafValue.value]
    · rfl
    · rfl
  | node lhs op rhs ihl ihr =>
    rw [value?_node, value?_node, ihl, ihr]
    rcases lhs.value? ρ with _ | x
    · rfl
    rcases rhs.value? ρ with _ | y
    · simp
    cases op with
    | mul => simp
    | add => simp
    | sub => simp
    | div =>
      simp only [Option.map_some, Operator.div_onValues?, map_eq_zero]
      split
      · rfl
      · simp

end Transfer

theorem value?_leaf_of_isVariable {K : Type*} [Field K] [DecidableEq K] {ρ : Valuation K}
    {x : Operand} (hx : x.isVariable = true) : (leaf x).value? ρ = some (ρ.unknown x.text) := by
  simp [value?, Operand.meaning?_of_isVariable hx, LeafValue.value]

end Expr

end LinearRelations
