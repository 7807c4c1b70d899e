import LinearRelations.Proofs.Syntax.Relation

/-!
# Reading relations in one pass

A relation is read in two passes: the text is cut at its comparisons, and what stands on either side
is scanned once more, for the symbols of expressions. As no symbol of the one kind shares a character
with one of the other, scanning once for the symbols of both kinds gives the same tokens.

* `Relation.parseAtOnce`: the relation that a text writes, read in one pass;
* `Token.Compared`: a text by its comparisons and the pieces between them;
* `Token.scanFrom_allSymbols`: a piece without comparisons is scanned for the symbols of expressions;
* `Relation.parse_eq_parseAtOnce`: both ways of reading give the same relation or the same refusal.
-/

namespace LinearRelations

/-- The symbols of expressions and those of relations. -/
def Token.allSymbols : List Token := expressionSymbols ++ relationSymbols

/-- The comparisons in a token list. -/
def Token.comparisons (tokens : List Token) : List Token :=
  tokens.filter fun token => token.kind == .relation

/-- The relation that a text writes: all symbols are scanned at once, and each side is read from the
tokens in front of the only comparison and behind it. -/
def Relation.parseAtOnce (text : String) : Except ParseError Relation :=
  let tokens := Token.scan Token.allSymbols text
  match Token.comparisons tokens with
  | [] => .error (.missingComparison text)
  | [sign] => do
    let lhs ← Expr.ofTokens (tokens.takeWhile fun token => token.kind != .relation)
    let rhs ← Expr.ofTokens (tokens.dropWhile fun token => token.kind != .relation).tail
    let comparison ← Comparison.ofToken sign
    return ⟨lhs, comparison, rhs⟩
  | signs => .error (.severalComparisons text signs.length)

namespace Token

/-! ### Texts by their comparisons -/

/-- The rules by which a text falls into comparisons, each read as long as it goes, and pieces without
any; counted are the comparisons. -/
inductive Compared : List Char → Nat → Prop
  | plain {cs : List Char} : (∀ c ∈ cs, c ∉ ['=', '<', '>']) → Compared cs 0
  | cut {ls rest : List Char} {n : Nat} (comparison : Comparison) :
      (∀ c ∈ ls, c ∉ ['=', '<', '>']) →
      leading? (longestFirst relationSymbols) (comparison.symbol.toList ++ rest) =
        some (relation comparison.symbol) →
      Compared rest n → Compared (ls ++ (comparison.symbol.toList ++ rest)) (n + 1)

/-- A character of comparisons begins one. -/
theorem exists_comparison {c : Char} (h : c ∈ ['=', '<', '>']) (tail : List Char) :
    ∃ (comparison : Comparison) (rest : List Char), c :: tail = comparison.symbol.toList ++ rest ∧
      leading? (longestFirst relationSymbols) (comparison.symbol.toList ++ rest) =
        some (relation comparison.symbol) := by
  have hequals : c = '=' ∨ c = '<' ∨ c = '>' := by simpa using h
  by_cases hhead : tail.head? = some '='
  · obtain ⟨rest, rfl⟩ : ∃ rest, tail = '=' :: rest := List.head?_eq_some_iff.1 hhead
    rw [longestFirst_relationSymbols]
    rcases hequals with rfl | rfl | rfl
    · exact ⟨.eq, '=' :: rest, rfl, rfl⟩
    · exact ⟨.le, rest, rfl, rfl⟩
    · exact ⟨.ge, rest, rfl, rfl⟩
  · have hrest : ∀ c ∈ tail.head?, c ≠ '=' := by
      rintro c hc rfl
      exact hhead hc
    rcases hequals with rfl | rfl | rfl
    · exact ⟨.eq, tail, rfl, leading?_comparison .eq hrest⟩
    · exact ⟨.lt, tail, rfl, leading?_comparison .lt hrest⟩
    · exact ⟨.gt, tail, rfl, leading?_comparison .gt hrest⟩

theorem Compared.cons {c : Char} {cs : List Char} {n : Nat} (hc : c ∉ ['=', '<', '>'])
    (h : Compared cs n) : Compared (c :: cs) n := by
  cases h with
  | plain hcs => exact .plain (List.forall_mem_cons.2 ⟨hc, hcs⟩)
  | cut comparison hls hlead hrest =>
    exact .cut comparison (List.forall_mem_cons.2 ⟨hc, hls⟩) hlead hrest

/-- Every text falls into comparisons and pieces without any. -/
theorem exists_compared (cs : List Char) : ∃ n, Compared cs n := by
  match cs with
  | [] => exact ⟨0, .plain (by simp)⟩
  | c :: tail =>
    by_cases hc : c ∈ ['=', '<', '>']
    · obtain ⟨comparison, rest, heq, hlead⟩ := exists_comparison hc tail
      have hshort : rest.length ≤ tail.length := by
        have hlength := congrArg List.length heq
        cases comparison <;> simp [Comparison.symbol] at hlength <;> omega
      obtain ⟨n, hrest⟩ := exists_compared rest
      have hcut : Compared ([] ++ (comparison.symbol.toList ++ rest)) (n + 1) :=
        .cut comparison (by simp) hlead hrest
      exact ⟨n + 1, heq ▸ hcut⟩
    · obtain ⟨n, htail⟩ := exists_compared tail
      exact ⟨n, htail.cons hc⟩
termination_by cs.length

/-! ### Scanning for all symbols -/

theorem longestFirst_allSymbols : longestFirst allSymbols =
    [relation "<=", relation ">=", opening "(", closing ")", operator "*" 1, operator "/" 1,
      operator "+" 2, operator "-" 2, relation "=", relation "<", relation ">"] := by
  cbv

theorem leading?_allSymbols_of_notMem {c : Char} (h : c ∉ ['=', '<', '>']) (tail : List Char) :
    leading? (longestFirst allSymbols) (c :: tail) = symbolOf? c := by
  simp only [List.mem_cons, List.not_mem_nil, or_false, not_or] at h
  have heq : ('=' == c) = false := beq_false_of_ne (Ne.symm h.1)
  have hlt : ('<' == c) = false := beq_false_of_ne (Ne.symm h.2.1)
  have hgt : ('>' == c) = false := beq_false_of_ne (Ne.symm h.2.2)
  rw [← leading?_expressionSymbols c tail, longestFirst_allSymbols]
  simp [leading?, text, expressionSymbols, List.isPrefixOf, heq, hlt, hgt, List.find?]

theorem leading?_allSymbols_of_mem {c : Char} (h : c ∈ ['=', '<', '>']) (tail : List Char) :
    leading? (longestFirst allSymbols) (c :: tail) =
      leading? (longestFirst relationSymbols) (c :: tail) := by
  rw [longestFirst_allSymbols, longestFirst_relationSymbols]
  simp only [List.mem_cons, List.not_mem_nil, or_false] at h
  rcases h with rfl | rfl | rfl <;> simp [leading?, text, List.isPrefixOf, List.find?]

theorem leading?_allSymbols_comparison {comparison : Comparison} {rest : List Char}
    (h : leading? (longestFirst relationSymbols) (comparison.symbol.toList ++ rest) =
      some (relation comparison.symbol)) :
    leading? (longestFirst allSymbols) (comparison.symbol.toList ++ rest) =
      some (relation comparison.symbol) := by
  obtain ⟨c, cs, hsymbol, hc⟩ := comparison.exists_toList_symbol
  rw [hsymbol, List.cons_append] at h ⊢
  rw [leading?_allSymbols_of_mem hc, h]

/-- **A piece without comparisons is scanned for the symbols of expressions**, if it is followed by a
symbol or by nothing. -/
theorem scanFrom_allSymbols {pending cs tail : List Char} (hcs : ∀ c ∈ cs, c ∉ ['=', '<', '>'])
    (htail : tail = [] ∨ ∃ symbol, leading? (longestFirst allSymbols) tail = some symbol) :
    scanFrom (longestFirst allSymbols) pending (cs ++ tail) =
      scanFrom expressionSymbols pending cs ++ scanFrom (longestFirst allSymbols) [] tail := by
  induction cs generalizing pending with
  | nil =>
    rw [List.nil_append, scanFrom.eq_1 expressionSymbols]
    rcases tail with _ | ⟨c, tail⟩
    · rw [scanFrom.eq_1, scanFrom.eq_1]
      simp [pendingOperand]
    · obtain ⟨symbol, hsymbol⟩ := htail.resolve_left (by simp)
      rw [scanFrom_of_leading? hsymbol, scanFrom_of_leading? hsymbol]
      rfl
  | cons c cs ih =>
    obtain ⟨hc, hcs⟩ := List.forall_mem_cons.1 hcs
    have hlead := leading?_allSymbols_of_notMem hc (cs ++ tail)
    rw [List.cons_append]
    rcases hsymbol : symbolOf? c with _ | symbol
    · rw [scanFrom_of_leading?_eq_none (hlead.trans hsymbol), scanFrom_char hsymbol, ih hcs]
    · rw [scanFrom_of_leading? (hlead.trans hsymbol), scanFrom_symbol hsymbol,
        text_of_symbolOf? hsymbol, List.append_assoc, List.cons_append]
      exact congrArg (fun tokens => _ ++ symbol :: tokens) (ih hcs)

theorem scanFrom_allSymbols_plain {cs : List Char} (hcs : ∀ c ∈ cs, c ∉ ['=', '<', '>']) :
    scanFrom (longestFirst allSymbols) [] cs = scanFrom expressionSymbols [] cs := by
  have hnil : scanFrom (longestFirst allSymbols) [] (cs ++ []) =
      scanFrom expressionSymbols [] cs ++ scanFrom (longestFirst allSymbols) [] [] :=
    scanFrom_allSymbols hcs (.inl rfl)
  rwa [List.append_nil, scanFrom.eq_1 (longestFirst allSymbols), pendingOperand,
    if_pos (by rfl), List.append_nil] at hnil

/-- A comparison is cut out whole, and what stands in front of it is scanned for the symbols of
expressions. -/
theorem scanFrom_allSymbols_cut (comparison : Comparison) {ls rest : List Char}
    (hl : ∀ c ∈ ls, c ∉ ['=', '<', '>'])
    (hlead : leading? (longestFirst relationSymbols) (comparison.symbol.toList ++ rest) =
      some (relation comparison.symbol)) :
    scanFrom (longestFirst allSymbols) [] (ls ++ (comparison.symbol.toList ++ rest)) =
      scanFrom expressionSymbols [] ls ++ relation comparison.symbol ::
        scanFrom (longestFirst allSymbols) [] rest := by
  have hall := leading?_allSymbols_comparison hlead
  rw [scanFrom_allSymbols hl (.inr ⟨_, hall⟩)]
  obtain ⟨c, cs, hsymbol, -⟩ := comparison.exists_toList_symbol
  rw [hsymbol, List.cons_append] at hall ⊢
  rw [scanFrom_of_leading? hall, text, hsymbol, ← List.cons_append, List.drop_left]
  rfl

/-! ### Counting comparisons -/

theorem kind_of_mem_scanFrom {pending cs : List Char} {token : Token}
    (h : token ∈ scanFrom expressionSymbols pending cs) : token.kind ≠ .relation := by
  rcases mem_of_scanFrom h with ⟨text, rfl⟩ | h
  · simp [kind]
  · exact (show ∀ token ∈ expressionSymbols, token.kind ≠ .relation by decide) token h

theorem comparisons_eq_nil {tokens : List Token} (h : ∀ token ∈ tokens, token.kind ≠ .relation) :
    comparisons tokens = [] :=
  List.filter_eq_nil_iff.2 fun token htoken => by simpa using h token htoken

/-- The comparisons around a first one. -/
theorem comparisons_cut {before : List Token} (h : ∀ token ∈ before, token.kind ≠ .relation)
    (text : String) (after : List Token) :
    comparisons (before ++ relation text :: after) = relation text :: comparisons after := by
  have hbefore := comparisons_eq_nil h
  unfold comparisons at hbefore ⊢
  rw [List.filter_append, hbefore, List.nil_append, List.filter_cons_of_pos rfl]

theorem comparisonCount_eq (tokens : List Token) :
    Relation.comparisonCount tokens = (comparisons tokens).length :=
  List.countP_eq_length_filter

/-- An empty operand that is put in does not count. -/
theorem comparisons_scan (symbols : List Token) (text : String) : comparisons (scan symbols text) =
    comparisons (scanFrom (longestFirst symbols) [] (Text.unspaced text.toList)) := by
  rw [scan, scanChars]
  split
  · next hnil => rw [hnil]; rfl
  · rfl

/-- Both ways of scanning find the comparisons of a text. -/
theorem Compared.length_comparisons {cs : List Char} {n : Nat} (h : Compared cs n) :
    (comparisons (scanFrom (longestFirst relationSymbols) [] cs)).length = n ∧
      (comparisons (scanFrom (longestFirst allSymbols) [] cs)).length = n := by
  induction h with
  | plain hcs =>
    rw [scanFrom_relationSymbols hcs, scanFrom_allSymbols_plain hcs,
      comparisons_eq_nil fun _ => kind_of_mem_pendingOperand,
      comparisons_eq_nil fun _ => kind_of_mem_scanFrom]
    exact ⟨rfl, rfl⟩
  | cut comparison hls hlead _ ih =>
    rw [scanFrom_of_leading?_comparison comparison hls hlead,
      scanFrom_allSymbols_cut comparison hls hlead,
      comparisons_cut fun _ => kind_of_mem_pendingOperand,
      comparisons_cut fun _ => kind_of_mem_scanFrom, List.length_cons, List.length_cons, ih.1, ih.2]
    exact ⟨rfl, rfl⟩

end Token

/-! ### Reading sides -/

namespace Expr

/-- No tokens and an empty operand are refused alike. -/
theorem ofTokens_nil : ofTokens [.operand ""] = ofTokens [] := by
  rw [ofTokens_of_isNested rfl, ofTokens_of_isNested rfl]
  simp [Token.unwrapped, Token.loosest?, Token.loosestFrom?, ofUnsplit]

/-- A text without blanks is read from what is scanned. -/
theorem parse_ofList {cs : List Char} (h : ∀ c ∈ cs, Text.isBlank c = false) :
    parse (String.ofList cs) = ofTokens (Token.scanFrom Token.expressionSymbols [] cs) := by
  rw [parse, Token.scan, String.toList_ofList, Token.scanChars, Text.unspaced_of_forall h,
    Token.longestFirst_expressionSymbols]
  split
  · next hnil => rw [hnil, ofTokens_nil]
  · rfl

end Expr

namespace Relation

open Token (scanFrom longestFirst expressionSymbols relationSymbols allSymbols Compared)

variable {text : String}

theorem parseAtOnce_of_comparisons_eq_nil (h : Token.comparisons (Token.scan allSymbols text) = []) :
    parseAtOnce text = .error (.missingComparison text) := by
  rw [parseAtOnce, h]

/-- What is read at once from a text whose first comparison is known. -/
theorem parseAtOnce_of_scan {before after : List Token} (comparison : Comparison)
    (hscan : Token.scan allSymbols text = before ++ .relation comparison.symbol :: after)
    (hbefore : ∀ token ∈ before, token.kind ≠ .relation) :
    parseAtOnce text = if (Token.comparisons after).length = 0 then do
        let lhs ← Expr.ofTokens before
        let rhs ← Expr.ofTokens after
        return ⟨lhs, comparison, rhs⟩
      else .error (.severalComparisons text ((Token.comparisons after).length + 1)) := by
  have hne : ∀ token ∈ before, (token.kind != .relation) = true :=
    fun token h => bne_iff_ne.2 (hbefore token h)
  rw [parseAtOnce, hscan]
  simp only [Token.comparisons_cut hbefore]
  rcases hafter : Token.comparisons after with _ | ⟨sign, signs⟩
  · have htake : (before ++ .relation comparison.symbol :: after).takeWhile
        (fun token => token.kind != .relation) = before := by
      rw [List.takeWhile_append_of_pos hne]
      simp [Token.kind]
    have hdrop : (before ++ .relation comparison.symbol :: after).dropWhile
        (fun token => token.kind != .relation) = .relation comparison.symbol :: after := by
      rw [List.dropWhile_append_of_pos hne]
      simp [Token.kind]
    simp [htake, hdrop, Comparison.ofToken, Comparison.ofSymbol, Comparison.ofSymbol?_symbol, bind,
      Except.bind, pure, Except.pure]
  · simp

theorem parse_of_comparisons_eq_nil (h : Token.comparisons (Token.scan relationSymbols text) = []) :
    parse text = .error (.missingComparison text) := by
  have htake : (Token.scan relationSymbols text).takeWhile (fun token => token.kind != .relation) =
      Token.scan relationSymbols text := by
    refine List.takeWhile_eq_self_iff.2 fun token htoken => ?_
    simpa using List.filter_eq_nil_iff.1 h token htoken
  rw [parse]
  simp only [htake, List.drop_length]

/-- **Reading in two passes and in one gives the same**: the same relation, or a refusal for the same
cause, which shows the same operand, expression or count. -/
theorem parse_eq_parseAtOnce (text : String) : parse text = parseAtOnce text := by
  have hblank : ∀ c ∈ Text.unspaced text.toList, Text.isBlank c = false :=
    fun c hc => (Text.mem_unspaced.1 hc).2
  obtain ⟨n, h⟩ := Token.exists_compared (Text.unspaced text.toList)
  generalize hcs : Text.unspaced text.toList = cs at h hblank
  cases h with
  | plain hplain =>
    obtain ⟨htwo, hone⟩ := (Compared.plain hplain).length_comparisons
    rw [← hcs, ← Token.comparisons_scan, List.length_eq_zero_iff] at htwo hone
    rw [parse_of_comparisons_eq_nil htwo, parseAtOnce_of_comparisons_eq_nil hone]
  | @cut ls rest m comparison hls hlead hrest =>
    have htwo : Token.scan relationSymbols text = Token.pendingOperand ls ++
        .relation comparison.symbol :: scanFrom (longestFirst relationSymbols) [] rest :=
      Token.scan_of_scanFrom (hcs ▸ Token.scanFrom_of_leading?_comparison comparison hls hlead)
    have hone : Token.scan allSymbols text = scanFrom expressionSymbols [] ls ++
        .relation comparison.symbol :: scanFrom (longestFirst allSymbols) [] rest :=
      Token.scan_of_scanFrom (hcs ▸ Token.scanFrom_allSymbols_cut comparison hls hlead)
    obtain ⟨htwoCount, honeCount⟩ := hrest.length_comparisons
    rw [parse_of_scan comparison htwo fun _ => Token.kind_of_mem_pendingOperand,
      parseAtOnce_of_scan comparison hone fun _ => Token.kind_of_mem_scanFrom,
      Token.comparisonCount_eq, htwoCount, honeCount]
    cases hrest with
    | cut => rw [if_neg (Nat.succ_ne_zero _), if_neg (Nat.succ_ne_zero _)]
    | plain hplain =>
      -- behind the only comparison both scans go to the end
      rw [if_pos rfl, if_pos rfl, Token.scanFrom_relationSymbols hplain,
        Token.scanFrom_allSymbols_plain hplain, Token.joined_pendingOperand,
        Token.joined_pendingOperand, Expr.parse_ofList fun c hc => hblank c (by simp [hc]),
        Expr.parse_ofList fun c hc => hblank c (by simp [hc])]

end Relation

end LinearRelations
