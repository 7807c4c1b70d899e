import LinearRelations.Proofs.Leaves
import LinearRelations.Proofs.Syntax.Nesting

/-!
# The grammar of expressions

* `Expr.Renders`: which expression a token list writes, by the precedences of its operators;
* `Expr.ofTokens_of_renders`: what a list writes is read from it;
* `Expr.renders_of_ofTokens`: what is read from a list is written by it;
* `Expr.refused_of_isNested`: a nested list is refused for an operand or an operator alone;
* `Expr.ofTokens_spec`: reading accepts the grammar and nothing else.
-/

namespace LinearRelations

/-- The operator of a symbol writes the symbol. -/
theorem Operator.symbol_of_ofSymbol? {text : String} {op : Operator}
    (h : Operator.ofSymbol? text = some op) : op.symbol = text := by
  unfold Operator.ofSymbol? at h
  split at h
  · next htext => cases h; exact htext.symm
  split at h
  · next htext => cases h; exact htext.symm
  split at h
  · next htext => cases h; exact htext.symm
  split at h
  · next htext => cases h; exact htext.symm
  · cases h

namespace Expr

open Token (isNested unwrapped outer loosest? spaced)

/-- The expression that a token list writes: an operand, a list in parentheses, or two lists around an
operator, which outside of parentheses is at least as loose as those in front of it and looser than
those behind it. -/
inductive Renders : List Token → Expr → Prop
  | operand (x : Operand) : Renders [.operand x.text] (leaf x)
  | group {ts : List Token} {t : Expr} (a b : String) :
      Renders ts t → Renders (.opening a :: (ts ++ [.closing b])) t
  | split {ts us : List Token} {l r : Expr} {p : Int} (op : Operator) :
      Renders ts l → Renders us r → (∀ q ∈ outer ts, q ≤ p) → (∀ q ∈ outer us, q < p) →
      Renders (ts ++ .operator op.symbol p :: us) (node l op r)

namespace Renders

variable {ts : List Token} {t : Expr}

theorem isNested (h : Renders ts t) : isNested ts = true := by
  induction h with
  | operand x => rfl
  | group a b _ ih => exact Token.isNested_group ih a b
  | split op _ _ _ _ ihl ihr => exact Token.isNested_cut ihl ihr _ _

theorem ne_nil (h : Renders ts t) : ts ≠ [] := by
  cases h <;> simp

/-- A leaf is written by an operand token. -/
theorem operand_mem (h : Renders ts t) : ∀ x ∈ t.leaves, Token.operand x.text ∈ ts := by
  induction h with
  | operand x =>
    intro y hy
    rw [mem_leaves_leaf.1 hy]
    exact List.mem_singleton_self _
  | group a b _ ih =>
    intro x hx
    exact List.mem_cons_of_mem _ (List.mem_append_left _ (ih x hx))
  | split op _ _ _ _ ihl ihr =>
    intro x hx
    rcases mem_leaves_node.1 hx with hx | hx
    · exact List.mem_append_left _ (ihl x hx)
    · exact List.mem_append_right _ (List.mem_cons_of_mem _ (ihr x hx))

/-- Parentheses around all of a list do not matter. -/
theorem of_unwrapped (h : Renders (unwrapped ts) t) : Renders ts t := by
  fun_induction unwrapped ts with
  | case1 text rest b hlast hinner ih =>
    obtain ⟨inner, rfl⟩ := List.getLast?_eq_some_iff.1 hlast
    rw [List.dropLast_concat] at ih h
    exact group text b (ih h)
  | case2 => exact h
  | case3 => exact h
  | case4 => exact h

end Renders

/-! ### Reading what is written -/

theorem ofTokens_of_isNested {ts : List Token} (h : isNested ts = true) :
    ofTokens ts = (match loosest? (unwrapped ts) with
      | none => ofUnsplit (unwrapped ts)
      | some cut => do
        let lhs ← ofTokens cut.before
        let rhs ← ofTokens cut.after
        ofParts lhs cut.symbol rhs) := by
  rw [ofTokens, if_pos h]
  split
  · next heq => rw [heq]
  · next heq => rw [heq]

theorem ofText_text (x : Operand) : ofText x.text = .ok (leaf x) := by
  rw [ofText, x.ofText?_text]

theorem ofParts_symbol (l r : Expr) (op : Operator) : ofParts l op.symbol r = .ok (node l op r) := by
  rw [ofParts, Operator.ofSymbol?_symbol]

/-- **What a token list writes is read from it.** -/
theorem ofTokens_of_renders {ts : List Token} {t : Expr} (h : Renders ts t) : ofTokens ts = .ok t := by
  induction h with
  | operand x =>
    rw [ofTokens_of_isNested rfl]
    simp only [unwrapped, loosest?, Token.loosestFrom?, Option.map_none]
    exact ofText_text x
  | @group ts t a b h ih =>
    rw [ofTokens_of_isNested (Token.isNested_group h.isNested a b), Token.unwrapped_group h.isNested,
      ← ofTokens_of_isNested h.isNested, ih]
  | @split ts us l r p op hl hr hbefore hafter ihl ihr =>
    have hcut : loosest? (ts ++ .operator op.symbol p :: us) = some ⟨ts, op.symbol, p, us⟩ :=
      Token.loosestFrom?_append (Token.isNested_iff.1 hl.isNested) hbefore hafter
    rw [ofTokens_of_isNested (Token.isNested_cut hl.isNested hr.isNested _ _),
      Token.unwrapped_of_cut hl.isNested hl.ne_nil, hcut]
    simp only [ihl, ihr, bind, Except.bind]
    exact ofParts_symbol l r op

/-! ### Writing what is read -/

theorem eq_leaf_of_ofText {text : String} {t : Expr} (h : ofText text = .ok t) :
    ∃ x : Operand, x.text = text ∧ t = leaf x := by
  unfold ofText at h
  split at h
  · next x hx => exact ⟨x, Operand.text_of_ofText? hx, (Except.ok.inj h).symm⟩
  · cases h

/-- No operand is empty. -/
theorem ofText_empty : ofText "" = .error (.invalidOperand "") := by decide +kernel

theorem renders_of_ofUnsplit {ts : List Token} {t : Expr} (h : ofUnsplit ts = .ok t) : Renders ts t := by
  unfold ofUnsplit at h
  split at h
  · rw [ofText_empty] at h
    cases h
  · next text =>
    obtain ⟨x, rfl, rfl⟩ := eq_leaf_of_ofText h
    exact .operand x
  · cases h

theorem eq_node_of_ofParts {l r t : Expr} {symbol : String} (h : ofParts l symbol r = .ok t) :
    ∃ op : Operator, op.symbol = symbol ∧ t = node l op r := by
  unfold ofParts at h
  split at h
  · next op hop => exact ⟨op, Operator.symbol_of_ofSymbol? hop, (Except.ok.inj h).symm⟩
  · cases h

/-- **What is read from a token list is written by it.** -/
theorem renders_of_ofTokens {ts : List Token} {t : Expr} (h : ofTokens ts = .ok t) : Renders ts t := by
  fun_induction ofTokens ts generalizing t with
  | case1 ts hnested hnone => exact (renders_of_ofUnsplit h).of_unwrapped
  | case2 ts hnested cut hcut ihl ihr =>
    obtain ⟨l, hl, h⟩ := exists_of_bind_eq_ok h
    obtain ⟨r, hr, h⟩ := exists_of_bind_eq_ok h
    obtain ⟨op, hop, rfl⟩ := eq_node_of_ofParts h
    obtain ⟨-, hbefore, hafter⟩ := Token.outerFrom_of_loosestFrom? hcut
    have hsplit := Renders.split op (ihl hl) (ihr hr) hbefore hafter
    rw [hop, ← Token.Split.tokens, Token.tokens_of_loosestFrom? hcut] at hsplit
    exact hsplit.of_unwrapped
  | case3 ts hnested => cases h

/-! ### Refusing what is not written -/

/-- The symbols of the operator tokens are those of the four operators. -/
def HasOperators (ts : List Token) : Prop :=
  ∀ symbol p, Token.operator symbol p ∈ ts → symbol ∈ ["*", "/", "+", "-"]

theorem exists_of_hasOperators {ts : List Token} {symbol : String} {p : Int} (h : HasOperators ts)
    (hmem : .operator symbol p ∈ ts) : ∃ op : Operator, op.symbol = symbol := by
  have hsymbol := h symbol p hmem
  simp only [List.mem_cons, List.not_mem_nil, or_false] at hsymbol
  rcases hsymbol with rfl | rfl | rfl | rfl
  · exact ⟨.mul, rfl⟩
  · exact ⟨.div, rfl⟩
  · exact ⟨.add, rfl⟩
  · exact ⟨.sub, rfl⟩

theorem invalidOperand_of_ofUnsplit {ts : List Token} {e : ParseError} (h : ofUnsplit ts = .error e) :
    ∃ text, e = .invalidOperand text := by
  have htext : ∀ text, ofText text = .error e → ∃ text, e = .invalidOperand text := by
    intro text h
    unfold ofText at h
    split at h
    · cases h
    · exact ⟨text, (Except.error.inj h).symm⟩
  unfold ofUnsplit at h
  split at h
  · exact htext _ h
  · exact htext _ h
  · exact ⟨_, (Except.error.inj h).symm⟩

/-- A nested list is refused for one of its operands, or for an operator that is none of the four. -/
theorem refused_of_isNested {ts : List Token} {e : ParseError} (hnested : isNested ts = true)
    (h : ofTokens ts = .error e) :
    (∃ text, e = .invalidOperand text) ∨
      ∃ symbol p, .operator symbol p ∈ ts ∧ Operator.ofSymbol? symbol = none ∧ e = .unknownOperator symbol := by
  fun_induction ofTokens ts generalizing e with
  | case1 ts _ hnone => exact .inl (invalidOperand_of_ofUnsplit h)
  | case2 ts _ cut hcut ihl ihr =>
    -- the lists on both sides of the cut are nested again
    have hcutNested := Token.isNested_of_loosest? (Token.isNested_unwrapped hnested) hcut
    have htokens : cut.tokens ⊆ ts := by
      rw [Token.tokens_of_loosestFrom? hcut]
      exact Token.unwrapped_subset ts
    rcases hl : ofTokens cut.before with cause | l
    · rw [hl] at h
      rcases ihl hcutNested.1 (hl.trans h) with hoperand | ⟨symbol, p, hmem, hsymbol⟩
      · exact .inl hoperand
      · exact .inr ⟨symbol, p, htokens (List.mem_append_left _ hmem), hsymbol⟩
    rcases hr : ofTokens cut.after with cause | r
    · rw [hl, hr] at h
      rcases ihr hcutNested.2 (hr.trans h) with hoperand | ⟨symbol, p, hmem, hsymbol⟩
      · exact .inl hoperand
      · exact .inr ⟨symbol, p, htokens (List.mem_append_right _ (List.mem_cons_of_mem _ hmem)), hsymbol⟩
    rw [hl, hr] at h
    simp only [bind, Except.bind, ofParts] at h
    split at h
    · cases h
    · next hsymbol =>
      have hmem : .operator cut.symbol cut.precedence ∈ cut.tokens :=
        List.mem_append_right _ List.mem_cons_self
      exact .inr ⟨_, _, htokens hmem, hsymbol, (Except.error.inj h).symm⟩
  | case3 ts hnot => exact absurd hnested hnot

/-- A nested list over the four operators is refused for one of its operands. -/
theorem invalidOperand_of_ofTokens {ts : List Token} {e : ParseError} (hops : HasOperators ts)
    (hnested : isNested ts = true) (h : ofTokens ts = .error e) : ∃ text, e = .invalidOperand text := by
  rcases refused_of_isNested hnested h with hoperand | ⟨symbol, p, hmem, hsymbol, -⟩
  · exact hoperand
  · obtain ⟨op, rfl⟩ := exists_of_hasOperators hops hmem
    rw [Operator.ofSymbol?_symbol] at hsymbol
    cases hsymbol

theorem ofTokens_of_not_isNested {ts : List Token} (h : isNested ts = false) :
    ofTokens ts = .error (.unbalanced (spaced ts)) := by
  rw [ofTokens, if_neg (by rw [h]; exact Bool.false_ne_true)]

/-- **Reading accepts the grammar and nothing else**: it returns the one expression that a list
writes, and refuses a list that writes none for its parentheses or for one of its operands. -/
theorem ofTokens_spec {ts : List Token} (hops : HasOperators ts) :
    (∀ t, ofTokens ts = .ok t ↔ Renders ts t) ∧
      (∀ t u, Renders ts t → Renders ts u → t = u) ∧
      ((¬ ∃ t, Renders ts t) →
        ofTokens ts = .error (.unbalanced (spaced ts)) ∨
          ∃ text, ofTokens ts = .error (.invalidOperand text)) := by
  refine ⟨fun t => ⟨renders_of_ofTokens, ofTokens_of_renders⟩, ?_, ?_⟩
  · intro t u ht hu
    exact Except.ok.inj ((ofTokens_of_renders ht).symm.trans (ofTokens_of_renders hu))
  · intro hnone
    by_cases hnested : isNested ts = true
    · right
      rcases h : ofTokens ts with e | t
      · obtain ⟨text, rfl⟩ := invalidOperand_of_ofTokens hops hnested h
        exact ⟨text, rfl⟩
      · exact absurd ⟨t, renders_of_ofTokens h⟩ hnone
    · left
      exact ofTokens_of_not_isNested (Bool.eq_false_iff.2 hnested)

/-- Differences group to the left: `a - b - c`. -/
def differences : List Token :=
  [.operand "a", .operator "-" 2, .operand "b", .operator "-" 2, .operand "c"]

theorem ofTokens_spec_differences :
    HasOperators differences ∧ ∃ a b c : Operand, a.text = "a" ∧ b.text = "b" ∧ c.text = "c" ∧
      ofTokens differences = .ok (node (node (leaf a) .sub (leaf b)) .sub (leaf c)) := by
  have hops : HasOperators differences := by
    intro symbol p hmem
    simp only [differences, List.mem_cons, List.not_mem_nil, Token.operator.injEq, reduceCtorEq,
      false_or, or_false] at hmem
    obtain ⟨rfl, -⟩ | ⟨rfl, -⟩ := hmem <;> simp
  let a : Operand := ⟨"a", by decide +kernel⟩
  let b : Operand := ⟨"b", by decide +kernel⟩
  let c : Operand := ⟨"c", by decide +kernel⟩
  have hinner : Renders [.operand "a", .operator "-" 2, .operand "b"] (node (leaf a) .sub (leaf b)) :=
    .split .sub (.operand a) (.operand b) (by simp [outer, Token.outerFrom])
      (by simp [outer, Token.outerFrom])
  have houter : Renders differences (node (node (leaf a) .sub (leaf b)) .sub (leaf c)) :=
    .split .sub hinner (.operand c) (by simp [outer, Token.outerFrom])
      (by simp [outer, Token.outerFrom])
  exact ⟨hops, a, b, c, rfl, rfl, rfl, ((ofTokens_spec hops).1 _).2 houter⟩

end Expr

end LinearRelations
