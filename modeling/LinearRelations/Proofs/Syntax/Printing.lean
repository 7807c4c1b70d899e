import LinearRelations.Proofs.Plain
import LinearRelations.Proofs.Syntax.Grammar

/-!
# Reading canonical texts back

* `Token.mem_of_scanFrom`: scanning gives operands and symbols;
* `Token.symbolOf?`: the symbol of expressions that a character is;
* `Expr.tokens`: the tokens of a canonical text;
* `Expr.scanFrom_render`: scanning a canonical text with plain leaves gives its tokens;
* `Expr.renders_tokens`: these write the expression;
* `Expr.isPlain_of_parse`: what is read from a text has plain leaves;
* `Expr.unbalanced_or_invalidOperand_of_parse`: what a text is refused for;
* `Expr.parse_render_iff`: a canonical text is read back exactly when the leaves are plain.
-/

namespace LinearRelations

/-- The precedence that a text gives to an operator. -/
def Operator.precedence : Operator → Int
  | mul => 1
  | div => 1
  | add => 2
  | sub => 2

namespace Token

/-! ### Scanning one symbol or character -/

section Scan

variable {symbols : List Token} {c : Char} {pending rest : List Char}

theorem scanFrom_of_leading? {symbol : Token} (h : leading? symbols (c :: rest) = some symbol) :
    scanFrom symbols pending (c :: rest) = pendingOperand pending ++
      symbol :: scanFrom symbols [] ((c :: rest).drop symbol.text.toList.length) := by
  rw [scanFrom]
  split
  · next symbol' h' =>
    obtain rfl : symbol = symbol' := Option.some.inj (h.symm.trans h')
    rfl
  · next h' =>
    rw [h] at h'
    cases h'

theorem scanFrom_of_leading?_eq_none (h : leading? symbols (c :: rest) = none) :
    scanFrom symbols pending (c :: rest) = scanFrom symbols (pending ++ [c]) rest := by
  rw [scanFrom]
  split
  · next symbol' h' =>
    rw [h] at h'
    cases h'
  · rfl

/-- Characters that begin no symbol are kept for an operand. -/
theorem scanFrom_append_of_leading?_eq_none {cs : List Char}
    (h : ∀ c ∈ cs, ∀ tail, leading? symbols (c :: tail) = none) :
    scanFrom symbols pending (cs ++ rest) = scanFrom symbols (pending ++ cs) rest := by
  induction cs generalizing pending with
  | nil => rw [List.nil_append, List.append_nil]
  | cons c cs ih =>
    obtain ⟨hc, hcs⟩ := List.forall_mem_cons.1 h
    rw [List.cons_append, scanFrom_of_leading?_eq_none (hc _), ih hcs, List.append_assoc,
      List.singleton_append]

theorem eq_of_mem_pendingOperand {token : Token} (h : token ∈ pendingOperand pending) :
    token = operand (String.ofList pending) := by
  unfold pendingOperand at h
  split at h
  · cases h
  · exact List.mem_singleton.1 h

/-- Scanning gives operands and symbols, nothing else. -/
theorem mem_of_scanFrom {token : Token} (h : token ∈ scanFrom symbols pending rest) :
    (∃ text, token = operand text) ∨ token ∈ symbols := by
  fun_induction scanFrom symbols pending rest with
  | case1 pending => exact .inl ⟨_, eq_of_mem_pendingOperand h⟩
  | case2 pending c tail symbol hsymbol ih =>
    rcases List.mem_append.1 h with h | h
    · exact .inl ⟨_, eq_of_mem_pendingOperand h⟩
    · rcases List.mem_cons.1 h with rfl | h
      · exact .inr (List.mem_of_find?_eq_some hsymbol)
      · exact ih h
  | case3 pending c tail _ ih => exact ih h

end Scan

/-! ### Scanning the symbols of expressions -/

/-- The symbol of expressions that a character is. -/
def symbolOf? (c : Char) : Option Token :=
  expressionSymbols.find? fun symbol => symbol.text.toList == [c]

theorem longestFirst_expressionSymbols : longestFirst expressionSymbols = expressionSymbols := by
  rw [longestFirst, List.mergeSort_of_pairwise]
  decide

/-- Every symbol is a single character. -/
theorem leading?_expressionSymbols (c : Char) (tail : List Char) :
    leading? expressionSymbols (c :: tail) = symbolOf? c := by
  have hsingle : ∀ symbol ∈ expressionSymbols, ∃ d, symbol.text.toList = [d] := by
    intro symbol hsymbol
    simp only [expressionSymbols, List.mem_cons, List.not_mem_nil, or_false] at hsymbol
    rcases hsymbol with rfl | rfl | rfl | rfl | rfl | rfl <;> exact ⟨_, rfl⟩
  rw [leading?, symbolOf?]
  refine List.find?_congr fun symbol hsymbol => ?_
  obtain ⟨d, hd⟩ := hsingle symbol hsymbol
  simp [hd, List.isPrefixOf]

theorem text_of_symbolOf? {c : Char} {symbol : Token} (h : symbolOf? c = some symbol) :
    symbol.text.toList = [c] := by
  simpa using List.find?_some h

/-- The characters of symbols. -/
theorem symbolOf?_eq_none_iff {c : Char} :
    symbolOf? c = none ↔ c ∉ ['(', ')', '*', '/'] ∧ c ≠ '+' ∧ c ≠ '-' := by
  simp only [symbolOf?, List.find?_eq_none, expressionSymbols, text, List.mem_cons,
    List.not_mem_nil, or_false, not_or]
  simp [@eq_comm _ c]
  tauto

variable {c : Char} {pending cs rest : List Char}

theorem scanFrom_symbol {symbol : Token} (h : symbolOf? c = some symbol) :
    scanFrom expressionSymbols pending (c :: rest) =
      pendingOperand pending ++ symbol :: scanFrom expressionSymbols [] rest := by
  have hlead : leading? expressionSymbols (c :: rest) = some symbol :=
    (leading?_expressionSymbols c rest).trans h
  rw [scanFrom_of_leading? hlead, text_of_symbolOf? h]
  rfl

theorem scanFrom_char (h : symbolOf? c = none) :
    scanFrom expressionSymbols pending (c :: rest) =
      scanFrom expressionSymbols (pending ++ [c]) rest :=
  scanFrom_of_leading?_eq_none ((leading?_expressionSymbols c rest).trans h)

/-- Characters of no symbol are kept for an operand. -/
theorem scanFrom_append (h : ∀ c ∈ cs, symbolOf? c = none) :
    scanFrom expressionSymbols pending (cs ++ rest) =
      scanFrom expressionSymbols (pending ++ cs) rest :=
  scanFrom_append_of_leading?_eq_none fun c hc tail => (leading?_expressionSymbols c tail).trans (h c hc)

/-- An operand in the result has neither blanks nor symbols in it, if the text has no blanks. -/
theorem notMem_symbols_of_scanFrom {text : String}
    (hpending : ∀ c ∈ pending, Text.isBlank c = false ∧ symbolOf? c = none)
    (hrest : ∀ c ∈ rest, Text.isBlank c = false)
    (h : operand text ∈ scanFrom expressionSymbols pending rest) :
    ∀ c ∈ text.toList, Text.isBlank c = false ∧ symbolOf? c = none := by
  have hoperand : ∀ pending : List Char,
      (∀ c ∈ pending, Text.isBlank c = false ∧ symbolOf? c = none) →
      operand text ∈ pendingOperand pending →
      ∀ c ∈ text.toList, Text.isBlank c = false ∧ symbolOf? c = none := by
    intro pending hpending hmem
    obtain rfl := operand.inj (eq_of_mem_pendingOperand hmem)
    rwa [String.toList_ofList]
  induction rest generalizing pending with
  | nil =>
    rw [scanFrom] at h
    exact hoperand pending hpending h
  | cons c rest ih =>
    obtain ⟨hc, hrest⟩ := List.forall_mem_cons.1 hrest
    rcases hsymbol : symbolOf? c with _ | symbol
    · rw [scanFrom_char hsymbol] at h
      refine ih (fun d hd => ?_) hrest h
      rcases List.mem_append.1 hd with hd | hd
      · exact hpending d hd
      · rw [List.mem_singleton.1 hd]
        exact ⟨hc, hsymbol⟩
    · rw [scanFrom_symbol hsymbol, List.mem_append] at h
      rcases h with h | h
      · exact hoperand pending hpending h
      · rcases List.mem_cons.1 h with rfl | h
        · have := List.mem_of_find?_eq_some hsymbol
          simp [expressionSymbols] at this
        · exact ih (by simp) hrest h

end Token

namespace Operand

open Token (symbolOf? scanFrom expressionSymbols)

theorem symbolOf?_eq_none {x : Operand} (h : x.IsPlain) : ∀ c ∈ x.text.toList, symbolOf? c = none :=
  fun c hc => Token.symbolOf?_eq_none_iff.2 ⟨x.notMem_brackets c hc, (h c hc).2⟩

/-- A plain operand in front of a symbol, or at the end, is scanned whole. -/
theorem scanFrom_text {x : Operand} (h : x.IsPlain) {rest : List Char}
    (hrest : ∀ c ∈ rest.head?, symbolOf? c ≠ none) :
    scanFrom expressionSymbols [] (x.text.toList ++ rest) =
      .operand x.text :: scanFrom expressionSymbols [] rest := by
  have hne : x.text.toList ≠ [] := fun hnil => x.text_ne_empty (String.toList_eq_nil_iff.1 hnil)
  have hpending : Token.pendingOperand x.text.toList = [.operand x.text] := by
    rw [Token.pendingOperand, if_neg (by simpa using hne), String.ofList_toList]
  rw [Token.scanFrom_append (symbolOf?_eq_none h), List.nil_append]
  rcases rest with _ | ⟨c, rest⟩
  · rw [scanFrom, scanFrom, hpending]
    rfl
  · obtain ⟨symbol, hsymbol⟩ := Option.ne_none_iff_exists'.1 (hrest c rfl)
    rw [Token.scanFrom_symbol hsymbol, Token.scanFrom_symbol hsymbol, hpending]
    rfl

end Operand

namespace Operator

theorem symbolOf?_symbol (op : Operator) :
    ∃ c, op.symbol.toList = [c] ∧ Token.symbolOf? c = some (.operator op.symbol op.precedence) ∧
      Text.isBlank c = false := by
  cases op <;> exact ⟨_, rfl, by decide, by decide⟩

end Operator

namespace Expr

open Token (symbolOf? scanFrom expressionSymbols outer isNested)

/-! ### The tokens of a canonical text -/

/-- The tokens of the canonical text. -/
def tokens : Expr → List Token
  | leaf operand => [.operand operand.text]
  | node lhs op rhs =>
    .opening "(" :: ((lhs.tokens ++ .operator op.symbol op.precedence :: rhs.tokens) ++ [.closing ")"])

theorem isNested_tokens (e : Expr) : isNested e.tokens = true := by
  induction e with
  | leaf operand => rfl
  | node lhs op rhs ihl ihr => exact Token.isNested_group (Token.isNested_cut ihl ihr _ _) _ _

/-- All operators stand in parentheses. -/
theorem outer_tokens (e : Expr) : outer e.tokens = [] := by
  cases e with
  | leaf operand => rfl
  | node lhs op rhs =>
    exact Token.outer_group (Token.isNested_cut lhs.isNested_tokens rhs.isNested_tokens _ _) _ _

theorem renders_tokens (e : Expr) : Renders e.tokens e := by
  induction e with
  | leaf operand => exact .operand operand
  | node lhs op rhs ihl ihr =>
    refine .group _ _ (.split op ihl ihr ?_ ?_)
    · simp [outer_tokens]
    · simp [outer_tokens]

theorem unspaced_render_node (lhs rhs : Expr) (op : Operator) :
    Text.unspaced (node lhs op rhs).render.toList =
      '(' :: (Text.unspaced lhs.render.toList ++
        (op.symbol.toList ++ (Text.unspaced rhs.render.toList ++ [')']))) := by
  obtain ⟨c, hc, -, hblank⟩ := op.symbolOf?_symbol
  simp only [render, String.toList_append, Text.unspaced_append, hc, List.append_assoc]
  have hsymbol : Text.unspaced [c] = [c] := by simp [Text.unspaced, hblank]
  rw [hsymbol]
  rfl

/-- **Scanning a canonical text gives its tokens**, if the leaves are plain. -/
theorem scanFrom_render {e : Expr} (h : e.IsPlain) {rest : List Char}
    (hrest : ∀ c ∈ rest.head?, symbolOf? c ≠ none) :
    scanFrom expressionSymbols [] (Text.unspaced e.render.toList ++ rest) =
      e.tokens ++ scanFrom expressionSymbols [] rest := by
  induction e generalizing rest with
  | leaf x =>
    have hx : x.IsPlain := h x (by simp)
    have hblank : Text.unspaced x.text.toList = x.text.toList :=
      Text.unspaced_of_forall fun c hc => (hx c hc).1
    rw [render, hblank, Operand.scanFrom_text hx hrest]
    rfl
  | node lhs op rhs ihl ihr =>
    obtain ⟨hl, hr⟩ := isPlain_node.1 h
    obtain ⟨c, hc, hsymbol, -⟩ := op.symbolOf?_symbol
    have hopening : symbolOf? '(' = some (.opening "(") := by decide
    have hclosing : symbolOf? ')' = some (.closing ")") := by decide
    rw [unspaced_render_node, hc, List.cons_append, Token.scanFrom_symbol hopening]
    simp only [List.append_assoc, List.cons_append, List.nil_append]
    rw [ihl hl (by simp [hsymbol]), Token.scanFrom_symbol hsymbol, ihr hr (by simp [hclosing]),
      Token.scanFrom_symbol hclosing]
    simp [tokens, Token.pendingOperand]

/-! ### Reading texts -/

theorem scan_render {e : Expr} (h : e.IsPlain) : Token.scan expressionSymbols e.render = e.tokens := by
  have hscan : scanFrom expressionSymbols [] (Text.unspaced e.render.toList) = e.tokens := by
    have hnil : scanFrom expressionSymbols [] [] = [] := by
      rw [scanFrom]
      rfl
    have hrender : scanFrom expressionSymbols [] (Text.unspaced e.render.toList ++ []) =
        e.tokens ++ scanFrom expressionSymbols [] [] := scanFrom_render h (by simp)
    rwa [List.append_nil, hnil, List.append_nil] at hrender
  rw [Token.scan, Token.scanChars, Token.longestFirst_expressionSymbols, hscan]
  split
  · next hnil => exact absurd hnil (renders_tokens e).ne_nil
  · rfl

/-- **A canonical text with plain leaves is read back.** -/
theorem parse_render {e : Expr} (h : e.IsPlain) : parse e.render = .ok e := by
  rw [parse, scan_render h]
  exact ofTokens_of_renders (renders_tokens e)

/-- **What is read from a text has plain leaves.** -/
theorem isPlain_of_parse {text : String} {e : Expr} (h : parse text = .ok e) : e.IsPlain := by
  intro x hx
  have hmem := (renders_of_ofTokens h).operand_mem x hx
  rw [Token.scan, Token.scanChars, Token.longestFirst_expressionSymbols] at hmem
  split at hmem
  · exact absurd (Token.operand.inj (List.mem_singleton.1 hmem)) x.text_ne_empty
  · have hchars := Token.notMem_symbols_of_scanFrom (by simp)
      (fun c hc => (Text.mem_unspaced.1 hc).2) hmem
    intro c hc
    obtain ⟨hblank, hsymbol⟩ := hchars c hc
    exact ⟨hblank, (Token.symbolOf?_eq_none_iff.1 hsymbol).2⟩

theorem hasOperators_scan (text : String) : HasOperators (Token.scan expressionSymbols text) := by
  intro symbol p hmem
  rw [Token.scan, Token.scanChars, Token.longestFirst_expressionSymbols] at hmem
  split at hmem
  · simp at hmem
  · rcases Token.mem_of_scanFrom hmem with ⟨text, h⟩ | h
    · cases h
    · simp only [expressionSymbols, List.mem_cons, List.not_mem_nil, Token.operator.injEq, reduceCtorEq,
        false_or, or_false] at h
      rcases h with ⟨rfl, -⟩ | ⟨rfl, -⟩ | ⟨rfl, -⟩ | ⟨rfl, -⟩ <;> simp

/-- **A text is refused for its parentheses or for one of its operands.** -/
theorem unbalanced_or_invalidOperand_of_parse {text : String} {cause : ParseError}
    (h : parse text = .error cause) :
    (∃ shown, cause = .unbalanced shown) ∨ ∃ operand, cause = .invalidOperand operand := by
  unfold parse at h
  by_cases hnested : isNested (Token.scan expressionSymbols text) = true
  · exact .inr (invalidOperand_of_ofTokens (hasOperators_scan text) hnested h)
  · rw [ofTokens_of_not_isNested (Bool.eq_false_iff.2 hnested)] at h
    exact .inl ⟨_, (Except.error.inj h).symm⟩

/-- **Canonical texts are read back exactly when the leaves are plain**, as those of all expressions
are that were read from a text. -/
theorem parse_render_iff :
    (∀ e : Expr, parse e.render = .ok e ↔ e.IsPlain) ∧
      ∀ text e, parse text = .ok e → e.IsPlain ∧ parse e.render = .ok e := by
  constructor
  · intro e
    exact ⟨isPlain_of_parse, parse_render⟩
  · intro text e h
    have hplain := isPlain_of_parse h
    exact ⟨hplain, parse_render hplain⟩

/-- A signed number is an operand, but its sign is read as an operator. -/
theorem parse_render_iff_signed :
    ∃ x : Operand, x.text = "-5" ∧ parse (leaf x).render ≠ .ok (leaf x) := by
  refine ⟨⟨"-5", by decide +kernel⟩, rfl, fun h => ?_⟩
  have hplain := (parse_render_iff.1 _).1 h
  obtain ⟨-, -, hsign⟩ := hplain _ (mem_leaves_leaf.2 rfl) '-' (by decide)
  exact hsign rfl

end Expr

end LinearRelations
