import LinearRelations.Proofs.Syntax.Printing
import LinearRelations.Relation.Basic

/-!
# Reading relations back

The canonical text of a relation holds exactly one comparison, since no operand contains a sign of
comparison, and what stands on either side of it is the canonical text of an expression.

* `Token.leading?_comparison`: the comparison at the start of a text;
* `Token.scanFrom_of_leading?_comparison`: a comparison is cut out whole;
* `Relation.scan_render`: the tokens of a canonical text;
* `Relation.parse_render`: a relation with plain leaves is read back;
* `Relation.isPlain_of_parse`: what is read from a text has plain leaves.
-/

namespace LinearRelations

/-! ### Scanning the symbols of relations -/

theorem Comparison.exists_toList_symbol (comparison : Comparison) :
    ∃ c cs, comparison.symbol.toList = c :: cs ∧ c ∈ ['=', '<', '>'] := by
  cases comparison with
  | eq => exact ⟨'=', [], rfl, by simp⟩
  | lt => exact ⟨'<', [], rfl, by simp⟩
  | le => exact ⟨'<', ['='], rfl, by simp⟩
  | gt => exact ⟨'>', [], rfl, by simp⟩
  | ge => exact ⟨'>', ['='], rfl, by simp⟩

namespace Token

theorem longestFirst_relationSymbols : longestFirst relationSymbols =
    [relation "<=", relation ">=", relation "=", relation "<", relation ">"] := by
  cbv

theorem leading?_relationSymbols_eq_none {c : Char} (h : c ∉ ['=', '<', '>']) (tail : List Char) :
    leading? (longestFirst relationSymbols) (c :: tail) = none := by
  simp only [List.mem_cons, List.not_mem_nil, or_false, not_or] at h
  obtain ⟨heq, hlt, hgt⟩ := h
  rw [longestFirst_relationSymbols]
  simp [leading?, text, List.isPrefixOf, Ne.symm heq, Ne.symm hlt, Ne.symm hgt]

/-- A comparison is read whole, if no equals sign follows it. -/
theorem leading?_comparison (comparison : Comparison) {rest : List Char}
    (hrest : ∀ c ∈ rest.head?, c ≠ '=') :
    leading? (longestFirst relationSymbols) (comparison.symbol.toList ++ rest) =
      some (relation comparison.symbol) := by
  have hhead : (['='].isPrefixOf rest) = false := by
    rcases rest with _ | ⟨c, rest⟩
    · rfl
    · simp [List.isPrefixOf, Ne.symm (hrest c rfl)]
  rw [longestFirst_relationSymbols]
  cases comparison <;> simp_all [leading?, text, Comparison.symbol, List.isPrefixOf]

/-- Characters of no comparison become one operand. -/
theorem scanFrom_relationSymbols {cs : List Char} (h : ∀ c ∈ cs, c ∉ ['=', '<', '>']) :
    scanFrom (longestFirst relationSymbols) [] cs = pendingOperand cs := by
  have happ : scanFrom (longestFirst relationSymbols) [] (cs ++ []) =
      scanFrom (longestFirst relationSymbols) ([] ++ cs) [] :=
    scanFrom_append_of_leading?_eq_none fun c hc => leading?_relationSymbols_eq_none (h c hc)
  rw [List.append_nil, List.nil_append] at happ
  rw [happ, scanFrom]

/-- **A comparison is cut out whole**, and what stands in front of it becomes one operand. -/
theorem scanFrom_of_leading?_comparison (comparison : Comparison) {ls rest : List Char}
    (hl : ∀ c ∈ ls, c ∉ ['=', '<', '>'])
    (hlead : leading? (longestFirst relationSymbols) (comparison.symbol.toList ++ rest) =
      some (relation comparison.symbol)) :
    scanFrom (longestFirst relationSymbols) [] (ls ++ (comparison.symbol.toList ++ rest)) =
      pendingOperand ls ++ relation comparison.symbol ::
        scanFrom (longestFirst relationSymbols) [] rest := by
  obtain ⟨c, cs, hsymbol, -⟩ := comparison.exists_toList_symbol
  rw [scanFrom_append_of_leading?_eq_none fun c hc => leading?_relationSymbols_eq_none (hl c hc),
    List.nil_append, hsymbol, List.cons_append]
  rw [hsymbol, List.cons_append] at hlead
  rw [scanFrom_of_leading? hlead, text, hsymbol, ← List.cons_append, List.drop_left]

theorem scanFrom_comparison (comparison : Comparison) {ls rs : List Char}
    (hl : ∀ c ∈ ls, c ∉ ['=', '<', '>']) (hr : ∀ c ∈ rs, c ∉ ['=', '<', '>']) :
    scanFrom (longestFirst relationSymbols) [] (ls ++ (comparison.symbol.toList ++ rs)) =
      pendingOperand ls ++ relation comparison.symbol :: pendingOperand rs := by
  have hhead : ∀ c ∈ rs.head?, c ≠ '=' := by
    rintro c hc rfl
    exact hr '=' (List.mem_of_mem_head? hc) (by simp)
  rw [scanFrom_of_leading?_comparison comparison hl (leading?_comparison comparison hhead),
    scanFrom_relationSymbols hr]

/-- Where there is a token, no empty operand is put in. -/
theorem scan_of_scanFrom {symbols : List Token} {text : String} {token : Token} {before after : List Token}
    (h : scanFrom (longestFirst symbols) [] (Text.unspaced text.toList) = before ++ token :: after) :
    scan symbols text = before ++ token :: after := by
  rw [scan, scanChars, h]
  split
  · next hnil => simp at hnil
  · rfl

theorem joined_pendingOperand (cs : List Char) : joined (pendingOperand cs) = String.ofList cs := by
  unfold pendingOperand
  split
  · next hnil =>
    rw [List.isEmpty_iff.1 hnil]
    rfl
  · simp [joined, text, String.join]

theorem kind_of_mem_pendingOperand {cs : List Char} {token : Token} (h : token ∈ pendingOperand cs) :
    token.kind ≠ .relation := by
  rw [eq_of_mem_pendingOperand h]
  simp [kind]

theorem comparisonCount_pendingOperand (cs : List Char) :
    Relation.comparisonCount (pendingOperand cs) = 0 :=
  List.countP_eq_zero.2 fun _ h => by simpa using kind_of_mem_pendingOperand h

end Token

/-! ### The sides of a relation -/

namespace Expr

/-- No sign of comparison occurs in the canonical text of an expression. -/
theorem notMem_comparisons_render (e : Expr) : ∀ c ∈ e.render.toList, c ∉ ['=', '<', '>'] := by
  induction e with
  | leaf operand => exact operand.notMem_comparisons
  | node lhs op rhs ihl ihr =>
    have hop : ∀ c ∈ op.symbol.toList, c ∉ ['=', '<', '>'] := by
      cases op <;> simp [Operator.symbol]
    intro c hc
    simp only [render, String.toList_append, List.mem_append] at hc
    rcases hc with (((((hc | hc) | hc) | hc) | hc) | hc) | hc
    · simp_all
    · exact ihl c hc
    · simp_all
    · exact hop c hc
    · simp_all
    · exact ihr c hc
    · simp_all

/-- Reading ignores blanks. -/
theorem parse_unspaced (text : String) :
    parse (String.ofList (Text.unspaced text.toList)) = parse text := by
  have hunspaced : Text.unspaced (Text.unspaced text.toList) = Text.unspaced text.toList :=
    Text.unspaced_of_forall fun c hc => (Text.mem_unspaced.1 hc).2
  rw [parse, parse, Token.scan, Token.scan, Token.scanChars, Token.scanChars, String.toList_ofList,
    hunspaced]

end Expr

/-! ### Reading texts -/

namespace Relation

variable {r : Relation}

theorem unspaced_render (r : Relation) : Text.unspaced r.render.toList =
    Text.unspaced r.lhs.render.toList ++
      (r.comparison.symbol.toList ++ Text.unspaced r.rhs.render.toList) := by
  have hsymbol : Text.unspaced r.comparison.symbol.toList = r.comparison.symbol.toList := by
    cases r.comparison <;> decide
  have hspace : Text.unspaced " ".toList = [] := by decide
  simp only [render, String.toList_append, Text.unspaced_append, hsymbol, hspace, List.nil_append,
    List.append_assoc]

/-- **The tokens of a canonical text**: the comparison between what stands on its sides. -/
theorem scan_render (r : Relation) : Token.scan Token.relationSymbols r.render =
    Token.pendingOperand (Text.unspaced r.lhs.render.toList) ++ .relation r.comparison.symbol ::
      Token.pendingOperand (Text.unspaced r.rhs.render.toList) := by
  have hside : ∀ e : Expr, ∀ c ∈ Text.unspaced e.render.toList, c ∉ ['=', '<', '>'] :=
    fun e c hc => e.notMem_comparisons_render c (Text.mem_unspaced.1 hc).1
  refine Token.scan_of_scanFrom ?_
  rw [unspaced_render, Token.scanFrom_comparison r.comparison (hside r.lhs) (hside r.rhs)]

/-- What is read from a text whose first comparison is known. -/
theorem parse_of_scan {text : String} {before after : List Token} (comparison : Comparison)
    (hscan : Token.scan Token.relationSymbols text = before ++ .relation comparison.symbol :: after)
    (hbefore : ∀ token ∈ before, token.kind ≠ .relation) :
    parse text = if comparisonCount after = 0 then do
        let lhs ← Expr.parse (Token.joined before)
        let rhs ← Expr.parse (Token.joined after)
        return ⟨lhs, comparison, rhs⟩
      else .error (.severalComparisons text (comparisonCount after + 1)) := by
  have hcount : comparisonCount (before ++ .relation comparison.symbol :: after) =
      comparisonCount after + 1 := by
    have hnone : List.countP (fun token : Token => token.kind == .relation) before = 0 :=
      List.countP_eq_zero.2 fun token h => by simpa using hbefore token h
    rw [comparisonCount, List.countP_append, hnone, Nat.zero_add, List.countP_cons_of_pos rfl,
      comparisonCount]
  have htake : (before ++ .relation comparison.symbol :: after).takeWhile
      (fun token => token.kind != .relation) = before := by
    rw [List.takeWhile_append_of_pos fun token h => bne_iff_ne.2 (hbefore token h)]
    simp [Token.kind]
  rw [parse, hscan]
  simp only [htake, List.drop_left, hcount]
  by_cases hafter : comparisonCount after = 0
  · simp [hafter, Comparison.ofToken, Comparison.ofSymbol, Comparison.ofSymbol?_symbol, bind,
      Except.bind, pure, Except.pure]
  · rw [if_pos (by omega), if_neg hafter]

/-- **A relation with plain leaves is read back from its canonical text.** -/
theorem parse_render (hl : r.lhs.IsPlain) (hr : r.rhs.IsPlain) : parse r.render = .ok r := by
  rw [parse_of_scan r.comparison r.scan_render fun _ => Token.kind_of_mem_pendingOperand,
    if_pos (Token.comparisonCount_pendingOperand _), Token.joined_pendingOperand,
    Token.joined_pendingOperand, Expr.parse_unspaced, Expr.parse_unspaced, Expr.parse_render hl,
    Expr.parse_render hr]
  rfl

/-- **What is read from a text has plain leaves.** -/
theorem isPlain_of_parse {text : String} (h : parse text = .ok r) : r.lhs.IsPlain ∧ r.rhs.IsPlain := by
  unfold parse at h
  simp only at h
  split at h
  · cases h
  · split at h
    · cases h
    · obtain ⟨lhs, hl, h⟩ := exists_of_bind_eq_ok h
      obtain ⟨rhs, hr, h⟩ := exists_of_bind_eq_ok h
      obtain ⟨c, -, h⟩ := exists_of_bind_eq_ok h
      obtain rfl := Except.ok.inj h
      exact ⟨Expr.isPlain_of_parse hl, Expr.isPlain_of_parse hr⟩

end Relation

end LinearRelations
