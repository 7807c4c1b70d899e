import LinearRelations.Proofs.Syntax.Grammar

/-!
# Balanced parentheses

The parentheses of a nested token list are a Dyck word: nothing, or an opening parenthesis, a Dyck word,
the closing parenthesis that belongs to it, and a Dyck word again. Counting the open ones decides this, since
`depth` of them are closed again by a word that falls into Dyck words at `depth` closing parentheses.

* `Token.steps`: the parentheses of a token list;
* `IsDyck`, `ClosesFrom`: words that close what they open, and words that close `depth` more;
* `Token.depthAfter?_eq_zero_iff`: counting the open parentheses finds these words;
* `Expr.ReadsNext`: the slices of a list that are read in turn;
* `Expr.ofTokens_unbalanced_iff`: only unbalanced lists are refused as such, as a whole and never by a slice.
-/

namespace LinearRelations

open DyckStep

/-! ### Dyck words -/

/-- A word is nothing, or what an opening parenthesis and the closing one that belongs to it enclose, with
more behind it. -/
inductive IsDyck : List DyckStep → Prop
  | nil : IsDyck []
  | nest {u v : List DyckStep} : IsDyck u → IsDyck v → IsDyck (U :: (u ++ D :: v))

/-- A word closes `depth` parentheses that are open in front of it, and those that it opens. -/
def ClosesFrom : Nat → List DyckStep → Prop
  | 0, w => IsDyck w
  | depth + 1, w => ∃ u v, w = u ++ D :: v ∧ IsDyck u ∧ ClosesFrom depth v

section Dyck

variable {depth : Nat} {w : List DyckStep}

theorem closesFrom_nil_iff : ClosesFrom depth [] ↔ depth = 0 := by
  cases depth with
  | zero => exact iff_of_true IsDyck.nil rfl
  | succ depth =>
    refine iff_of_false ?_ (Nat.succ_ne_zero depth)
    rintro ⟨u, v, h, -⟩
    exact List.append_ne_nil_of_right_ne_nil u (List.cons_ne_nil D v) h.symm

theorem closesFrom_cons_U_iff : ClosesFrom depth (U :: w) ↔ ClosesFrom (depth + 1) w := by
  constructor
  · intro h
    cases depth with
    | zero =>
      obtain _ | @⟨u, v, hu, hv⟩ : IsDyck (U :: w) := h
      exact ⟨u, v, rfl, hu, hv⟩
    | succ depth =>
      obtain ⟨u, v, heq, hu, hv⟩ := h
      -- the word in front of the first closing parenthesis begins with the opening one
      obtain _ | @⟨a, b, ha, hb⟩ := hu
      · cases heq
      · rw [List.cons_append, List.append_assoc, List.cons_append] at heq
        exact ⟨a, b ++ D :: v, (List.cons.inj heq).2, ha, b, v, rfl, hb, hv⟩
  · rintro ⟨u, v, rfl, hu, hv⟩
    cases depth with
    | zero => exact IsDyck.nest hu hv
    | succ depth =>
      obtain ⟨a, b, rfl, ha, hb⟩ := hv
      refine ⟨U :: (u ++ D :: a), b, ?_, IsDyck.nest hu ha, hb⟩
      rw [List.cons_append, List.append_assoc, List.cons_append]

theorem not_closesFrom_zero_cons_D : ¬ ClosesFrom 0 (D :: w) := by
  intro h
  cases (h : IsDyck (D :: w))

theorem closesFrom_succ_cons_D_iff : ClosesFrom (depth + 1) (D :: w) ↔ ClosesFrom depth w := by
  constructor
  · rintro ⟨u, v, heq, hu, hv⟩
    cases hu with
    | nil => rwa [(List.cons.inj heq).2]
    | nest ha hb => cases heq
  · intro h
    exact ⟨[], w, rfl, IsDyck.nil, h⟩

end Dyck

namespace Token

/-- The step that a parenthesis takes. -/
def step? : Token → Option DyckStep
  | opening _ => some U
  | closing _ => some D
  | _ => none

/-- The parentheses of a token list. -/
def steps (ts : List Token) : List DyckStep := ts.filterMap step?

/-- **Counting the open parentheses** finds out whether all of them are closed. -/
theorem depthAfter?_eq_zero_iff {depth : Nat} {ts : List Token} :
    depthAfter? depth ts = some 0 ↔ ClosesFrom depth (steps ts) := by
  fun_induction depthAfter? depth ts with
  | case1 depth =>
    rw [Option.some.injEq]
    exact closesFrom_nil_iff.symm
  | case2 depth text rest ih => exact ih.trans closesFrom_cons_U_iff.symm
  | case3 text rest => exact iff_of_false (Option.some_ne_none 0).symm not_closesFrom_zero_cons_D
  | case4 depth text rest ih => exact ih.trans closesFrom_succ_cons_D_iff.symm
  | case5 depth text rest ih => exact ih
  | case6 depth text precedence rest ih => exact ih
  | case7 depth text rest ih => exact ih

theorem isNested_iff_isDyck {ts : List Token} : isNested ts = true ↔ IsDyck (steps ts) :=
  isNested_iff.trans depthAfter?_eq_zero_iff

end Token

/-! ### Reading unbalanced lists -/

namespace Expr

open Token (isNested unwrapped loosest? spaced steps isNested_iff_isDyck)

variable {ts us : List Token}

/-- A nested list is read by reading the lists in front of and behind its loosest operator, as
`ofTokens_of_isNested` says. -/
def ReadsNext (ts us : List Token) : Prop :=
  isNested ts = true ∧ ∃ cut, loosest? (unwrapped ts) = some cut ∧ (us = cut.before ∨ us = cut.after)

theorem ReadsNext.isNested (h : ReadsNext ts us) : isNested us = true := by
  obtain ⟨hnested, cut, hcut, hus⟩ := h
  have hslices := Token.isNested_of_loosest? (Token.isNested_unwrapped hnested) hcut
  rcases hus with rfl | rfl
  · exact hslices.1
  · exact hslices.2

/-- All that is read behind the first step is nested. -/
theorem isNested_of_transGen (h : Relation.TransGen ReadsNext ts us) : isNested us = true := by
  induction h with
  | single hnext => exact hnext.isNested
  | tail _ hnext _ => exact hnext.isNested

theorem not_unbalanced_of_isNested (h : isNested ts = true) (shown : String) :
    ofTokens ts ≠ .error (.unbalanced shown) := by
  intro herror
  rcases refused_of_isNested h herror with ⟨text, heq⟩ | ⟨symbol, p, -, -, heq⟩
  · cases heq
  · cases heq

/-- **Reading refuses for its parentheses** the lists whose parentheses are no Dyck word, and shows the list
as a whole: no list that is read in turn is ever refused for them. -/
theorem ofTokens_unbalanced_iff (ts : List Token) :
    (∀ shown, ofTokens ts = .error (.unbalanced shown) ↔ ¬ IsDyck (steps ts) ∧ shown = spaced ts) ∧
      ∀ us, Relation.TransGen ReadsNext ts us → ∀ shown, ofTokens us ≠ .error (.unbalanced shown) := by
  constructor
  · intro shown
    by_cases hnested : isNested ts = true
    · refine iff_of_false (not_unbalanced_of_isNested hnested shown) ?_
      rintro ⟨hnot, -⟩
      exact hnot (isNested_iff_isDyck.1 hnested)
    · have hnot : ¬ IsDyck (steps ts) := fun h => hnested (isNested_iff_isDyck.2 h)
      rw [ofTokens_of_not_isNested (Bool.eq_false_iff.2 hnested)]
      constructor
      · intro h
        cases h
        exact ⟨hnot, rfl⟩
      · rintro ⟨-, rfl⟩
        rfl
  · intro us h shown
    exact not_unbalanced_of_isNested (isNested_of_transGen h) shown

end Expr

end LinearRelations
