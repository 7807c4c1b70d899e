import LinearRelations.Expr.Parse

/-!
# Depth of parentheses

* `Token.depthAfter?_append`: depth is counted through a list piece by piece;
* `Token.outerFrom`: the precedences of the operators outside of parentheses;
* `Token.loosestFrom?_eq_none_iff`: a list without such operators is not cut;
* `Token.loosestFrom?_append`, `Token.outerFrom_of_loosestFrom?`: a list is cut where no operator in
  front of the cut is looser and all operators behind it bind tighter;
* `Token.unwrapped_of_cut`: a list with an operator outside of parentheses is not wrapped.
-/

namespace LinearRelations.Token

/-! ### Counting depth -/

theorem depthAfter?_append (depth : Nat) (ts us : List Token) :
    depthAfter? depth (ts ++ us) = (depthAfter? depth ts).bind fun d => depthAfter? d us := by
  fun_induction depthAfter? depth ts with
  | case1 depth => rfl
  | case2 depth text rest ih => exact ih
  | case3 text rest => rfl
  | case4 depth text rest ih => exact ih
  | case5 depth text rest ih => simpa only [List.cons_append, depthAfter?] using ih
  | case6 depth text precedence rest ih => simpa only [List.cons_append, depthAfter?] using ih
  | case7 depth text rest ih => simpa only [List.cons_append, depthAfter?] using ih

/-- One more open parenthesis in front is one more behind. -/
theorem depthAfter?_succ {depth d : Nat} {ts : List Token} (h : depthAfter? depth ts = some d) :
    depthAfter? (depth + 1) ts = some (d + 1) := by
  fun_induction depthAfter? depth ts with
  | case1 depth => rw [← Option.some.inj h]; rfl
  | case2 depth text rest ih => exact ih h
  | case3 text rest => cases h
  | case4 depth text rest ih => exact ih h
  | case5 depth text rest ih => exact ih h
  | case6 depth text precedence rest ih => exact ih h
  | case7 depth text rest ih => exact ih h

theorem depthAfter?_eq_of_isNested {ts : List Token} (h : isNested ts = true) (depth : Nat) :
    depthAfter? depth ts = some depth := by
  induction depth with
  | zero => exact beq_iff_eq.1 h
  | succ depth ih => exact depthAfter?_succ ih

theorem isNested_iff {ts : List Token} : isNested ts = true ↔ depthAfter? 0 ts = some 0 := beq_iff_eq

theorem isNested_group {ts : List Token} (h : isNested ts = true) (a b : String) :
    isNested (opening a :: (ts ++ [closing b])) = true := by
  rw [isNested_iff, depthAfter?, depthAfter?_append, depthAfter?_eq_of_isNested h]
  rfl

theorem isNested_cut {ts us : List Token} (ht : isNested ts = true) (hu : isNested us = true)
    (symbol : String) (p : Int) : isNested (ts ++ operator symbol p :: us) = true := by
  rw [isNested_iff, depthAfter?_append, isNested_iff.1 ht, Option.bind_some, depthAfter?]
  exact isNested_iff.1 hu

/-! ### Operators outside of parentheses -/

/-- The precedences of the operators outside of parentheses, `depth` of which are open in front of
the list. -/
def outerFrom : Nat → List Token → List Int
  | _, [] => []
  | 0, operator _ precedence :: rest => precedence :: outerFrom 0 rest
  | depth, opening _ :: rest => outerFrom (depth + 1) rest
  | depth, closing _ :: rest => outerFrom (depth - 1) rest
  | depth, _ :: rest => outerFrom depth rest

/-- The precedences of the operators outside of parentheses. -/
def outer (ts : List Token) : List Int := outerFrom 0 ts

theorem outerFrom_append {depth d : Nat} {ts : List Token} (us : List Token)
    (h : depthAfter? depth ts = some d) :
    outerFrom depth (ts ++ us) = outerFrom depth ts ++ outerFrom d us := by
  induction ts generalizing depth with
  | nil =>
    obtain rfl : depth = d := Option.some.inj h
    rfl
  | cons token ts ih =>
    cases token with
    | operand text => cases depth <;> exact ih h
    | relation text => cases depth <;> exact ih h
    | opening text => cases depth <;> exact ih h
    | closing text =>
      cases depth with
      | zero => cases h
      | succ depth => exact ih h
    | operator text p =>
      cases depth with
      | zero => exact congrArg (p :: ·) (ih h)
      | succ depth => exact ih h

/-- Inside of parentheses no operator is outside of them. -/
theorem outerFrom_succ {depth d : Nat} {ts : List Token} (h : depthAfter? depth ts = some d) :
    outerFrom (depth + 1) ts = [] := by
  fun_induction depthAfter? depth ts with
  | case1 depth => rfl
  | case2 depth text rest ih => exact ih h
  | case3 text rest => cases h
  | case4 depth text rest ih => exact ih h
  | case5 depth text rest ih => exact ih h
  | case6 depth text precedence rest ih => exact ih h
  | case7 depth text rest ih => exact ih h

theorem outer_group {ts : List Token} (h : isNested ts = true) (a b : String) :
    outer (opening a :: (ts ++ [closing b])) = [] := by
  show outerFrom 1 (ts ++ [closing b]) = []
  rw [outerFrom_append _ (depthAfter?_eq_of_isNested h 1), outerFrom_succ (isNested_iff.1 h)]
  rfl

/-! ### Cutting -/

variable {depth : Nat} {ts us : List Token}

/-- Only a list with an operator outside of parentheses is cut. -/
theorem loosestFrom?_eq_none_iff : loosestFrom? depth ts = none ↔ outerFrom depth ts = [] := by
  fun_induction outerFrom depth ts with
  | case1 depth => simp [loosestFrom?]
  | case2 text p rest ih =>
    constructor
    · intro h
      rw [loosestFrom?] at h
      split at h
      · split at h <;> cases h
      · cases h
    · intro h
      cases h
  | case3 depth text rest ih => rw [← ih, loosestFrom?, Option.map_eq_none_iff]
  | case4 depth text rest ih => rw [← ih, loosestFrom?, Option.map_eq_none_iff]
  | case5 depth token rest h0 ho hc ih =>
    rw [← ih, loosestFrom?, Option.map_eq_none_iff]
    · exact ho
    · exact hc
    · exact h0

/-- The operators outside of parentheses are those in front of the cut, the one cut at and those
behind it. -/
theorem outerFrom_of_loosestFrom? {split : Split} (h : loosestFrom? depth ts = some split) :
    outerFrom depth ts = outerFrom depth split.before ++ split.precedence :: outer split.after ∧
      (∀ q ∈ outerFrom depth split.before, q ≤ split.precedence) ∧
      ∀ q ∈ outer split.after, q < split.precedence := by
  fun_induction loosestFrom? depth ts generalizing split with
  | case1 => cases h
  | case2 symbol p rest split' h' hlt ih =>
    obtain rfl := Option.some.inj h
    obtain ⟨houter, hbefore, hafter⟩ := ih h'
    refine ⟨rfl, by simp [outerFrom], fun q hq => ?_⟩
    rw [outer, houter] at hq
    show q < p
    rcases List.mem_append.1 hq with hq | hq
    · have := hbefore q hq
      omega
    · rcases List.mem_cons.1 hq with rfl | hq
      · exact hlt
      · have := hafter q hq
        omega
  | case3 symbol p rest split' h' hle ih =>
    obtain rfl := Option.some.inj h
    obtain ⟨houter, hbefore, hafter⟩ := ih h'
    refine ⟨congrArg (p :: ·) houter, fun q hq => ?_, hafter⟩
    show q ≤ split'.precedence
    rcases List.mem_cons.1 hq with rfl | hq
    · omega
    · exact hbefore q hq
  | case4 symbol p rest hnone ih =>
    obtain rfl := Option.some.inj h
    have hrest := loosestFrom?_eq_none_iff.1 hnone
    refine ⟨rfl, by simp [outerFrom], by simp [outer, hrest]⟩
  | case5 depth text rest ih =>
    obtain ⟨split', h', rfl⟩ := Option.map_eq_some_iff.1 h
    have := ih h'
    cases depth <;> exact this
  | case6 depth text rest ih =>
    obtain ⟨split', h', rfl⟩ := Option.map_eq_some_iff.1 h
    have := ih h'
    cases depth <;> exact this
  | case7 depth token rest h0 ho hc ih =>
    obtain ⟨split', h', rfl⟩ := Option.map_eq_some_iff.1 h
    have := ih h'
    cases token with
    | opening text => exact absurd rfl (ho text)
    | closing text => exact absurd rfl (hc text)
    | operand text => cases depth <;> exact this
    | relation text => cases depth <;> exact this
    | operator text p =>
      cases depth with
      | zero => exact absurd rfl (h0 text p rfl)
      | succ depth => exact this

/-- A nested list is cut into nested lists. -/
theorem depthAfter?_of_loosestFrom? {d : Nat} {split : Split} (h : loosestFrom? depth ts = some split)
    (hd : depthAfter? depth ts = some d) : depthAfter? depth split.before = some 0 := by
  fun_induction loosestFrom? depth ts generalizing split with
  | case1 => cases h
  | case2 symbol p rest split' h' hlt ih =>
    obtain rfl := Option.some.inj h
    rfl
  | case3 symbol p rest split' h' hle ih =>
    obtain rfl := Option.some.inj h
    have := ih h' hd
    exact this
  | case4 symbol p rest hnone ih =>
    obtain rfl := Option.some.inj h
    rfl
  | case5 depth text rest ih =>
    obtain ⟨split', h', rfl⟩ := Option.map_eq_some_iff.1 h
    have hrest : depthAfter? (depth + 1) rest = some d := by cases depth <;> exact hd
    have := ih h' hrest
    cases depth <;> exact this
  | case6 depth text rest ih =>
    obtain ⟨split', h', rfl⟩ := Option.map_eq_some_iff.1 h
    cases depth with
    | zero => cases hd
    | succ depth => exact ih h' hd
  | case7 depth token rest h0 ho hc ih =>
    obtain ⟨split', h', rfl⟩ := Option.map_eq_some_iff.1 h
    cases token with
    | opening text => exact absurd rfl (ho text)
    | closing text => exact absurd rfl (hc text)
    | operand text =>
      have := ih h' (by cases depth <;> exact hd)
      cases depth <;> exact this
    | relation text =>
      have := ih h' (by cases depth <;> exact hd)
      cases depth <;> exact this
    | operator text p =>
      cases depth with
      | zero => exact absurd rfl (h0 text p rfl)
      | succ depth =>
        have := ih h' hd
        exact this

theorem isNested_of_loosest? {split : Split} (hts : isNested ts = true) (h : loosest? ts = some split) :
    isNested split.before = true ∧ isNested split.after = true := by
  have hbefore := depthAfter?_of_loosestFrom? h (isNested_iff.1 hts)
  refine ⟨isNested_iff.2 hbefore, ?_⟩
  rw [← tokens_of_loosestFrom? h, isNested_iff, Split.tokens, depthAfter?_append, hbefore] at hts
  exact isNested_iff.2 hts

/-- A list is cut at an operator that no operator in front of it is looser than and all operators
behind it bind tighter than. -/
theorem loosestFrom?_append {symbol : String} {p : Int} (hdepth : depthAfter? depth ts = some 0)
    (hbefore : ∀ q ∈ outerFrom depth ts, q ≤ p) (hafter : ∀ q ∈ outer us, q < p) :
    loosestFrom? depth (ts ++ operator symbol p :: us) = some ⟨ts, symbol, p, us⟩ := by
  induction ts generalizing depth with
  | nil =>
    obtain rfl : depth = 0 := Option.some.inj hdepth
    rw [List.nil_append, loosestFrom?]
    rcases h : loosestFrom? 0 us with _ | split
    · rfl
    · obtain ⟨houter, -, -⟩ := outerFrom_of_loosestFrom? h
      have hlt : split.precedence < p := hafter _ (by rw [outer, houter]; simp)
      simp [hlt]
  | cons token ts ih =>
    cases token with
    | operand text =>
      have hcut : loosestFrom? depth (ts ++ operator symbol p :: us) = some ⟨ts, symbol, p, us⟩ :=
        ih (by cases depth <;> exact hdepth) (by cases depth <;> exact hbefore)
      rw [List.cons_append, loosestFrom?, hcut]
      · rfl
      all_goals simp
    | relation text =>
      have hcut : loosestFrom? depth (ts ++ operator symbol p :: us) = some ⟨ts, symbol, p, us⟩ :=
        ih (by cases depth <;> exact hdepth) (by cases depth <;> exact hbefore)
      rw [List.cons_append, loosestFrom?, hcut]
      · rfl
      all_goals simp
    | opening text =>
      have hcut : loosestFrom? (depth + 1) (ts ++ operator symbol p :: us) =
          some ⟨ts, symbol, p, us⟩ :=
        ih (by cases depth <;> exact hdepth) (by cases depth <;> exact hbefore)
      rw [List.cons_append, loosestFrom?, hcut]
      rfl
    | closing text =>
      cases depth with
      | zero => cases hdepth
      | succ depth =>
        rw [List.cons_append, loosestFrom?, Nat.add_sub_cancel, ih hdepth hbefore]
        rfl
    | operator text q =>
      cases depth with
      | zero =>
        have hq : q ≤ p := hbefore q (by simp [outerFrom])
        have := ih hdepth fun q hq => hbefore q (by simp [outerFrom, hq])
        rw [List.cons_append, loosestFrom?, this]
        simp [Split.consBefore]
        omega
      | succ depth =>
        rw [List.cons_append, loosestFrom?, ih hdepth hbefore]
        · rfl
        all_goals simp

/-! ### Wrapping -/

theorem unwrapped_group (h : isNested ts = true) (a b : String) :
    unwrapped (opening a :: (ts ++ [closing b])) = unwrapped ts := by
  rw [unwrapped]
  simp [h]

/-- A list with its parentheses taken off is nested if it was. -/
theorem isNested_unwrapped (h : isNested ts = true) : isNested (unwrapped ts) = true := by
  fun_induction unwrapped ts with
  | case1 text rest _ _ hinner ih => exact ih hinner
  | case2 => exact h
  | case3 => exact h
  | case4 => exact h

theorem unwrapped_subset (ts : List Token) : unwrapped ts ⊆ ts := by
  fun_induction unwrapped ts with
  | case1 text rest _ _ _ ih =>
    intro token htoken
    exact List.mem_cons_of_mem _ (List.dropLast_subset _ (ih htoken))
  | case2 => exact List.Subset.refl _
  | case3 => exact List.Subset.refl _
  | case4 => exact List.Subset.refl _

/-- A list that is nested up to one of its operators is not wrapped in parentheses. -/
theorem unwrapped_of_cut (h : isNested ts = true) (hne : ts ≠ []) (symbol : String) (p : Int) :
    unwrapped (ts ++ operator symbol p :: us) = ts ++ operator symbol p :: us := by
  obtain ⟨token, ts, rfl⟩ := List.exists_cons_of_ne_nil hne
  cases token with
  | opening text =>
    -- the parenthesis at the start is closed in front of the operator
    have hone : depthAfter? 1 ts = some 0 := isNested_iff.1 h
    have hnone : depthAfter? 0 ts = none := by
      rcases hd : depthAfter? 0 ts with _ | d
      · rfl
      · rw [depthAfter?_succ hd] at hone
        cases hone
    have hinner : isNested (ts ++ operator symbol p :: us).dropLast = false := by
      rw [List.dropLast_append_of_ne_nil (by simp), isNested, depthAfter?_append, hnone]
      rfl
    rw [List.cons_append, unwrapped]
    split
    · rw [if_neg (by rw [hinner]; exact Bool.false_ne_true)]
    · rfl
  | operand text => simp [unwrapped]
  | operator text q => simp [unwrapped]
  | closing text => simp [unwrapped]
  | relation text => simp [unwrapped]

end LinearRelations.Token
