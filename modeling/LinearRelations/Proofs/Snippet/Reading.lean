import LinearRelations.Proofs.Snippet.Grammar
import LinearRelations.Proofs.Snippet.Literal
import LinearRelations.Proofs.Syntax.Printing

/-!
# Reading snippets

The snippet of an expression is written for the language of snippets: the expression in parentheses,
with variables as entries of a table. Numbers are written there as they stand in the expression, so
the snippet says the same if these are literals, too; otherwise it cannot even be cut into lexemes.

* `Snippet.Letters`: the alphabet of identifiers;
* `Snippet.Scans`: the lexemes of a text;
* `Snippet.Reads`: the tree of a text;
* `Expr.tree`: the tree that a snippet stands for;
* `Expr.scans_snippet_iff`: the lexemes of a snippet;
* `Expr.reads_snippet_iff`: a snippet has the tree of its expression if all numbers in it are
  literals, and none otherwise;
* `Expr.not_reads_snippet_leadingZeros`: a number that is none.
-/

namespace LinearRelations

open Text (digitValue? isLetter isLetterOrDigit isName)

namespace Snippet

/-! ### Lexemes -/

/-- The characters beyond ASCII that identifiers begin and go on with. No digit is among the first. -/
structure Letters where
  begins : Char → Bool
  continues : Char → Bool
  begins_of_digit : ∀ c, (digitValue? c).isSome = true → begins c = false

namespace Letters

/-- No character beyond ASCII. -/
def ascii : Letters := ⟨fun _ => false, fun _ => false, fun _ _ => rfl⟩

variable (letters : Letters)

def isStart (c : Char) : Bool := isLetter c || 127 < c.toNat && letters.begins c

def isInside (c : Char) : Bool := isLetterOrDigit c || 127 < c.toNat && letters.continues c

/-- Whether a text can name something. -/
def isIdentifier (text : String) : Bool :=
  (match text.toList with
    | [] => false
    | c :: cs => letters.isStart c && cs.all letters.isInside) && !reserved.contains text

end Letters

/-- The characters that stand for themselves between quotation marks. -/
def isQuotable (c : Char) : Bool := c != quote && c != '\x5c' && c != '\n'

/-- The text up to the next quotation mark, which has at least one character, and the rest. -/
def quoted? (cs : List Char) : Option (Lexeme × List Char) :=
  match cs.takeWhile isQuotable, cs.dropWhile isQuotable with
  | d :: text, c :: rest => if c = quote then some (.quoted (String.ofList (d :: text)), rest) else none
  | _, _ => none

/-- The name that goes on with a text, after its first character, and the rest. -/
def name? (letters : Letters) (c : Char) (cs : List Char) : Option (Lexeme × List Char) :=
  if goesOn (cs.dropWhile letters.isInside) then none
  else some (.name (String.ofList (c :: cs.takeWhile letters.isInside)), cs.dropWhile letters.isInside)

/-- The lexeme that a character is in front of a text. Twice the sign of a product or of a quotient is
another operator. -/
def symbol? (c : Char) (rest : List Char) : Option Lexeme :=
  match c with
  | '(' => some .opening
  | ')' => some .closing
  | '[' => some .entryOpening
  | ']' => some .entryClosing
  | '+' => some (.operator .add)
  | '-' => some (.operator .sub)
  | '*' => if rest.head? = some '*' then none else some (.operator .mul)
  | '/' => if rest.head? = some '/' then none else some (.operator .div)
  | _ => none

/-- The lexeme at the start of a text, and the rest. -/
def lexeme? (letters : Letters) : List Char → Option (Lexeme × List Char)
  | [] => none
  | c :: rest =>
    match symbol? c rest with
    | some l => some (l, rest)
    | none =>
      if c = quote then quoted? rest
      else if letters.isStart c then name? letters c rest
      else (literal? (c :: rest)).map fun (q, rest) => (.number q, rest)

/-- A text is cut into lexemes from left to right; blanks may stand between them. -/
inductive Scans (letters : Letters) : List Char → List Lexeme → Prop
  | nil : Scans letters [] []
  | blank {cs : List Char} {ls : List Lexeme} (h : Scans letters cs ls) : Scans letters (' ' :: cs) ls
  | cons {cs rest : List Char} {l : Lexeme} {ls : List Lexeme} (hl : lexeme? letters cs = some (l, rest))
      (h : Scans letters rest ls) : Scans letters cs (l :: ls)

/-- The tree of a text: what its lexemes make up. -/
def Reads (letters : Letters) (text : String) (tree : Tree) : Prop :=
  ∃ ls, Scans letters text.toList ls ∧ Derives .sum ls tree

variable {letters : Letters}

theorem Letters.goesOn_of_isStart {c : Char} (h : letters.isStart c = true) : goesOn [c] = true := by
  rw [isStart, Bool.or_eq_true, Bool.and_eq_true] at h
  rcases h with h | ⟨h, -⟩
  · simp [goesOn, Text.isLetterOrDigit_of_isLetter h]
  · simp [goesOn, h]

theorem Letters.goesOn_of_isInside {c : Char} (h : letters.isInside c = true) : goesOn [c] = true := by
  rw [isInside, Bool.or_eq_true, Bool.and_eq_true] at h
  rcases h with h | ⟨h, -⟩ <;> simp [goesOn, h]

theorem Letters.isStart_of_digit {c : Char} (h : (digitValue? c).isSome = true) : letters.isStart c = false := by
  have hletter : isLetter c = false := by
    by_contra hletter
    rw [digitValue?_of_isLetter (Bool.of_not_eq_false hletter)] at h
    cases h
  rw [isStart, hletter, letters.begins_of_digit c h, Bool.and_false, Bool.or_false]

/-- A name that is not reserved is an identifier in every alphabet. -/
theorem Letters.isIdentifier_of_isName (letters : Letters) {text : String}
    (hname : isName text = true) (h : text ∉ reserved) : letters.isIdentifier text = true := by
  rcases htext : text.toList with _ | ⟨c, cs⟩
  · rw [isName, htext] at hname
    cases hname
  · rw [isName, htext, Text.isNameChars, Bool.and_eq_true, List.all_eq_true] at hname
    have hcs : cs.all letters.isInside = true :=
      List.all_eq_true.2 fun d hd => by simp [isInside, hname.2 d hd]
    simp [isIdentifier, htext, isStart, hname.1, hcs, h]

/-- No character that a word can go on with is a symbol. -/
theorem symbol?_eq_none {c : Char} (hc : goesOn [c] = true) (rest : List Char) : symbol? c rest = none := by
  unfold symbol?
  split
  all_goals first | rfl | exact absurd hc (by decide)

theorem lexeme?_blank (cs : List Char) : lexeme? letters (' ' :: cs) = none := by
  have hliteral : literal? (' ' :: cs) = none := rfl
  have hsymbol : symbol? ' ' cs = none := rfl
  simp [lexeme?, hsymbol, hliteral, quote, Letters.isStart, isLetter]

theorem scans_nil_iff {ls : List Lexeme} : Scans letters [] ls ↔ ls = [] := by
  constructor
  · rintro (_ | _ | ⟨hl, -⟩)
    · rfl
    · cases hl
  · rintro rfl
    exact .nil

theorem scans_blank_iff {cs : List Char} {ls : List Lexeme} :
    Scans letters (' ' :: cs) ls ↔ Scans letters cs ls := by
  constructor
  · rintro (_ | h | ⟨hl, -⟩)
    · exact h
    · rw [lexeme?_blank] at hl
      cases hl
  · exact .blank

theorem scans_iff_of_lexeme? {cs rest : List Char} {l : Lexeme} {ls : List Lexeme}
    (hl : lexeme? letters cs = some (l, rest)) :
    Scans letters cs ls ↔ ∃ ls', ls = l :: ls' ∧ Scans letters rest ls' := by
  constructor
  · rintro (_ | h | ⟨hl', h⟩)
    · cases hl
    · rw [lexeme?_blank] at hl
      cases hl
    · obtain ⟨rfl, rfl⟩ := Prod.mk.inj (Option.some.inj (hl.symm.trans hl'))
      exact ⟨_, rfl, h⟩
  · rintro ⟨ls', rfl, h⟩
    exact .cons hl h

theorem not_scans {c : Char} {cs : List Char} {ls : List Lexeme} (hc : c ≠ ' ')
    (hl : lexeme? letters (c :: cs) = none) :
    ¬ Scans letters (c :: cs) ls := by
  rintro (_ | h | ⟨hl', h⟩)
  · exact hc rfl
  · rw [hl] at hl'
    cases hl'

/-! ### The lexemes of words and symbols -/

/-- An identifier ends where no word goes on. -/
theorem lexeme?_identifier {text : String} (hname : letters.isIdentifier text = true) {tail : List Char}
    (htail : goesOn tail = false) : lexeme? letters (text.toList ++ tail) = some (.name text, tail) := by
  rw [Letters.isIdentifier, Bool.and_eq_true] at hname
  replace hname := hname.1
  rcases htext : text.toList with _ | ⟨c, cs⟩
  · rw [htext] at hname
    cases hname
  rw [htext] at hname
  simp only [Bool.and_eq_true, List.all_eq_true] at hname
  obtain ⟨hstart, hinside⟩ := hname
  have hstop : tail.takeWhile letters.isInside = [] ∧ tail.dropWhile letters.isInside = tail := by
    rcases tail with _ | ⟨d, tail⟩
    · exact ⟨rfl, rfl⟩
    · have hd : ¬ letters.isInside d = true := fun hd => by
        have hgoes := Letters.goesOn_of_isInside hd
        simp only [goesOn] at htail hgoes
        rw [htail] at hgoes
        cases hgoes
      simp [hd]
  have hquote : c ≠ quote := by
    rintro rfl
    revert hstart
    simp [Letters.isStart, quote, isLetter]
  rw [List.cons_append, lexeme?, symbol?_eq_none (Letters.goesOn_of_isStart hstart)]
  simp only [if_neg hquote, if_pos hstart]
  rw [name?, List.takeWhile_append_of_pos hinside, List.dropWhile_append_of_pos hinside, hstop.1, hstop.2,
    List.append_nil, if_neg (by rw [htail]; exact Bool.false_ne_true), ← htext, String.ofList_toList]

theorem lexeme?_quoted {text : String} (hname : isName text = true) (tail : List Char) :
    lexeme? letters (quote :: (text.toList ++ quote :: tail)) = some (.quoted text, tail) := by
  have hquotable : ∀ d ∈ text.toList, isQuotable d = true := by
    intro d hd
    have hletter := Text.isLetterOrDigit_of_isNameChars hname d hd
    simp only [isQuotable, Bool.and_eq_true, bne_iff_ne]
    refine ⟨⟨?_, ?_⟩, ?_⟩ <;> rintro rfl <;> exact absurd hletter (by decide)
  have htake : (text.toList ++ quote :: tail).takeWhile isQuotable = text.toList := by
    rw [List.takeWhile_append_of_pos hquotable, List.takeWhile_cons_of_neg (by decide), List.append_nil]
  have hdrop : (text.toList ++ quote :: tail).dropWhile isQuotable = quote :: tail := by
    rw [List.dropWhile_append_of_pos hquotable, List.dropWhile_cons_of_neg (by decide)]
  have hsymbol : symbol? quote (text.toList ++ quote :: tail) = none := symbol?_eq_none (by decide) _
  rcases htext : text.toList with _ | ⟨c, cs⟩
  · rw [isName, htext] at hname
    cases hname
  · rw [← htext, lexeme?, hsymbol]
    simp only [if_pos, quoted?, htake, hdrop]
    rw [htext]
    simp only [if_pos]
    rw [← htext, String.ofList_toList]

/-- A numeral is cut off as the literal that it is. -/
theorem lexeme?_numeral (letters : Letters) {x : Operand} (hplain : x.IsPlain) (hnumeral : x.isNumeral = true)
    (tail : List Char) :
    lexeme? letters (x.text.toList ++ tail) =
      (literal? (x.text.toList ++ tail)).map fun (q, rest) => (.number q, rest) := by
  obtain ⟨c, cs, htext, hc⟩ := Operand.exists_head_of_isNumeral hplain hnumeral
  have hgoes := Operand.goesOn_of_isNumeral hplain hnumeral c (htext ▸ List.mem_cons_self)
  have hstart : letters.isStart c = false := by
    rcases hc with hdigit | rfl
    · exact Letters.isStart_of_digit hdigit
    · rfl
  have hquote : c ≠ quote := by
    rintro rfl
    exact absurd hc (by decide)
  rw [htext, List.cons_append, lexeme?, symbol?_eq_none hgoes]
  simp only [if_neg hquote, hstart, if_neg Bool.false_ne_true]

end Snippet

namespace Operand

open Snippet

/-- What an operand stands for in a snippet: a variable for its entry, a number for itself and a constant
for its name. -/
def tree (table : String) (x : Operand) : Tree :=
  if x.isVariable then .entry (.name table) (.quoted x.text)
  else match x.meaning? with
    | some (.number q) => .number q
    | _ => .name x.text

def lexemes (table : String) (x : Operand) : List Lexeme :=
  if x.isVariable then [.name table, .entryOpening, .quoted x.text, .entryClosing]
  else match x.meaning? with
    | some (.number q) => [.number q]
    | _ => [.name x.text]

variable {x : Operand}

/-- The kinds of plain operands: numbers, variables and constants. -/
theorem kind_of_isPlain (hplain : x.IsPlain) :
    (x.isNumeral = true ∧ x.isVariable = false ∧ ∃ q, x.meaning? = some (.number q)) ∨
      (x.isNumeral = false ∧ x.isVariable = true ∧ isName x.text = true) ∨
      (x.isNumeral = false ∧ x.isVariable = false ∧ isName x.text = true ∧ x.text ∉ reserved ∧
        ∃ c, x.meaning? = some (.constant c)) := by
  by_cases hnumeral : x.isNumeral = true
  · obtain ⟨k, -, -, hread⟩ := exists_exponent_of_isNumeral hplain hnumeral
    exact .inl ⟨hnumeral, isVariable_eq_false_of_meaning? hread, _, hread⟩
  rw [Bool.not_eq_true] at hnumeral
  have hname : isName x.text = true := by
    have hvalid := x.valid
    rwa [isOperand, ← isNumeral, hnumeral, Bool.false_or] at hvalid
  rcases hconstant : Constant.ofName? x.text with _ | c
  · exact .inr (.inl ⟨hnumeral, by simp [isVariable, hnumeral, isConstantName, hconstant], hname⟩)
  · have hnamed : ∀ pair ∈ Constant.named, pair.1 ∉ reserved := by decide
    have hmem : (x.text, c) ∈ Constant.named := by
      obtain ⟨before, after, heq, -⟩ := List.lookup_eq_some_iff.1 hconstant
      rw [heq]
      exact List.mem_append_right _ List.mem_cons_self
    have hread : x.meaning? = some (.constant c) := by
      rw [meaning?, if_pos hname, LeafValue.ofName, hconstant]
    exact .inr (.inr ⟨hnumeral, by simp [isVariable, isConstantName, hconstant], hname, hnamed _ hmem, c, hread⟩)

/-- The lexemes of an operand in a snippet, in front of where it ends. -/
theorem scans_snippet_append_iff {letters : Letters} {table : String} (htable : letters.isIdentifier table = true)
    (hplain : x.IsPlain) {tail : List Char} (htail : Ends tail) {ls : List Lexeme} :
    Scans letters (((Expr.leaf x).snippet table).toList ++ tail) ls ↔
      (x.isNumeral = true → x.IsLiteral) ∧
        ∃ ls', ls = x.lexemes table ++ ls' ∧ Scans letters tail ls' := by
  rcases kind_of_isPlain hplain with
    ⟨hnumeral, hvariable, q, hread⟩ | ⟨hnumeral, hvariable, hname⟩ |
      ⟨hnumeral, hvariable, hname, hreserved, c, hread⟩
  · have hsnippet : (Expr.leaf x).snippet table = x.text := by simp [Expr.snippet, hvariable]
    have hlexemes : x.lexemes table = [.number q] := by simp [lexemes, hvariable, hread]
    have hlexeme := lexeme?_numeral letters hplain hnumeral tail
    rw [hsnippet, hlexemes]
    by_cases hliteral : x.IsLiteral
    · rw [literal?_of_isLiteral hplain hnumeral hliteral hread htail] at hlexeme
      simp [scans_iff_of_lexeme? hlexeme, hliteral]
    · rw [literal?_of_not_isLiteral hplain hnumeral hliteral htail] at hlexeme
      obtain ⟨d, ds, htext, -⟩ := exists_head_of_isNumeral hplain hnumeral
      have hblank : d ≠ ' ' := by
        rintro rfl
        exact absurd (goesOn_of_isNumeral hplain hnumeral ' ' (by simp [htext])) (by decide)
      rw [htext, List.cons_append] at hlexeme ⊢
      simp [not_scans hblank hlexeme, hliteral, hnumeral]
  · have hsnippet : ((Expr.leaf x).snippet table).toList ++ tail =
        table.toList ++ '[' :: quote :: (x.text.toList ++ quote :: ']' :: tail) := by
      simp [Expr.snippet, hvariable, quote]
    have hopening : lexeme? letters ('[' :: quote :: (x.text.toList ++ quote :: ']' :: tail)) =
        some (.entryOpening, quote :: (x.text.toList ++ quote :: ']' :: tail)) := rfl
    have hclosing : lexeme? letters (']' :: tail) = some (.entryClosing, tail) := rfl
    rw [hsnippet, scans_iff_of_lexeme? (lexeme?_identifier htable rfl)]
    simp [scans_iff_of_lexeme? hopening, scans_iff_of_lexeme? (lexeme?_quoted hname _),
      scans_iff_of_lexeme? hclosing, lexemes, hvariable, hnumeral]
  · have hsnippet : (Expr.leaf x).snippet table = x.text := by simp [Expr.snippet, hvariable]
    have hlexemes : x.lexemes table = [.name x.text] := by simp [lexemes, hvariable, hread]
    have hidentifier := letters.isIdentifier_of_isName hname hreserved
    rw [hsnippet, hlexemes, scans_iff_of_lexeme? (lexeme?_identifier hidentifier (goesOn_of_ends htail))]
    simp [hnumeral]

theorem derives_lexemes {table : String} (htable : table ∉ reserved) (hplain : x.IsPlain) :
    Derives .operand (x.lexemes table) (x.tree table) := by
  rcases kind_of_isPlain hplain with
    ⟨-, hvariable, q, hread⟩ | ⟨-, hvariable, -⟩ | ⟨-, hvariable, -, hreserved, c, hread⟩
  · simpa [lexemes, tree, hvariable, hread] using Derives.number q
  · simpa [lexemes, tree, hvariable] using
      Derives.entry (.name htable) (.product (.operand (.quoted x.text)))
  · simpa [lexemes, tree, hvariable, hread] using Derives.name hreserved

end Operand

namespace Expr

open Snippet

/-- The tree that the snippet of an expression stands for: that of the expression. -/
def tree (table : String) : Expr → Tree
  | leaf x => x.tree table
  | node lhs op rhs => .node (lhs.tree table) op (rhs.tree table)

def lexemes (table : String) : Expr → List Lexeme
  | leaf x => x.lexemes table
  | node lhs op rhs =>
    .opening :: (lhs.lexemes table ++ .operator op :: rhs.lexemes table) ++ [.closing]

/-- Whether all numbers in an expression are written as literals are. -/
def HasLiterals (e : Expr) : Prop := ∀ x ∈ e.leaves, x.isNumeral = true → x.IsLiteral

instance (e : Expr) : Decidable e.HasLiterals := List.decidableBAll _ e.leaves

theorem hasLiterals_node {lhs rhs : Expr} {op : Operator} :
    (node lhs op rhs).HasLiterals ↔ lhs.HasLiterals ∧ rhs.HasLiterals := by
  simp only [HasLiterals, mem_leaves_node, or_imp, forall_and]

/-- An operator stands between blanks. -/
theorem lexeme?_operator (letters : Letters) (op : Operator) (cs : List Char) :
    lexeme? letters (op.symbol.toList ++ ' ' :: cs) = some (.operator op, ' ' :: cs) := by
  cases op <;> rfl

/-- The lexemes of a snippet in front of where it ends, by induction on the expression. -/
theorem scans_snippet_append_iff {letters : Letters} {table : String} (htable : letters.isIdentifier table = true)
    {e : Expr} (hplain : e.IsPlain) {tail : List Char} (htail : Ends tail) {ls : List Lexeme} :
    Scans letters ((e.snippet table).toList ++ tail) ls ↔
      e.HasLiterals ∧ ∃ ls', ls = e.lexemes table ++ ls' ∧ Scans letters tail ls' := by
  induction e generalizing tail ls with
  | leaf x =>
    rw [Operand.scans_snippet_append_iff htable (hplain x (mem_leaves_leaf.2 rfl)) htail]
    simp [HasLiterals, lexemes]
  | node lhs op rhs ihl ihr =>
    obtain ⟨hl, hr⟩ := isPlain_node.1 hplain
    have hsnippet : ((node lhs op rhs).snippet table).toList ++ tail =
        '(' :: ((lhs.snippet table).toList ++ ' ' :: (op.symbol.toList ++
          ' ' :: ((rhs.snippet table).toList ++ ')' :: tail))) := by
      simp [snippet]
    have hopening : ∀ cs, lexeme? letters ('(' :: cs) = some (.opening, cs) := fun _ => rfl
    have hclosing : ∀ cs, lexeme? letters (')' :: cs) = some (.closing, cs) := fun _ => rfl
    have hblank : ∀ cs, Ends (' ' :: cs) := fun _ => Or.inl rfl
    have hend : ∀ cs, Ends (')' :: cs) := fun _ => Or.inr rfl
    rw [hsnippet, scans_iff_of_lexeme? (hopening _)]
    simp only [ihl hl (hblank _), scans_blank_iff, scans_iff_of_lexeme? (lexeme?_operator letters op _),
      ihr hr (hend _), scans_iff_of_lexeme? (hclosing _), hasLiterals_node, lexemes]
    constructor
    · rintro ⟨_, rfl, hliteralsl, _, rfl, _, rfl, hliteralsr, _, rfl, rest, rfl, h⟩
      exact ⟨⟨hliteralsl, hliteralsr⟩, rest, by simp, h⟩
    · rintro ⟨⟨hliteralsl, hliteralsr⟩, rest, rfl, h⟩
      exact ⟨_, by simp, hliteralsl, _, rfl, _, rfl, hliteralsr, _, rfl, rest, rfl, h⟩

/-- **The lexemes of a snippet**: those of the tree, if all numbers are literals, and none otherwise. -/
theorem scans_snippet_iff {letters : Letters} {table : String} (htable : letters.isIdentifier table = true)
    {e : Expr} (hplain : e.IsPlain) {ls : List Lexeme} :
    Scans letters (e.snippet table).toList ls ↔ e.HasLiterals ∧ ls = e.lexemes table := by
  have hnil : Ends [] := trivial
  have h : Scans letters ((e.snippet table).toList ++ []) ls ↔ _ := scans_snippet_append_iff htable hplain hnil
  simpa [scans_nil_iff] using h

/-- The lexemes of a snippet make up the tree of the expression. -/
theorem derives_lexemes {table : String} (htable : table ∉ reserved) {e : Expr} (hplain : e.IsPlain) :
    Derives .operand (e.lexemes table) (e.tree table) := by
  induction e with
  | leaf x => exact Operand.derives_lexemes htable (hplain x (mem_leaves_leaf.2 rfl))
  | node lhs op rhs ihl ihr =>
    obtain ⟨hl, hr⟩ := isPlain_node.1 hplain
    refine .group ?_
    rcases hop : op.isAdditive with _ | _
    · exact .product (.times (.operand (ihl hl)) hop (ihr hr))
    · exact .plus (.product (.operand (ihl hl))) hop (.operand (ihr hr))

/-- **What the snippet of an expression says.** Whatever identifier names the table: if all numbers in
the expression are written as literals are, the snippet has exactly one tree, and that is the tree of
the expression, with the number that each leaf is read as, the names of the constants, and the entries
of the variables. Otherwise the snippet is no expression: it cannot be cut into lexemes. -/
theorem reads_snippet_iff (letters : Letters) {text : String} {e : Expr} (hparse : parse text = .ok e)
    {table : String} (htable : letters.isIdentifier table = true) :
    (∀ t, Reads letters (e.snippet table) t ↔ e.HasLiterals ∧ t = e.tree table) ∧
      ((∃ ls, Scans letters (e.snippet table).toList ls) ↔ e.HasLiterals) := by
  have hplain := isPlain_of_parse hparse
  have hreserved : table ∉ reserved := by
    rw [Letters.isIdentifier, Bool.and_eq_true] at htable
    simpa using htable.2
  have hderives : Derives .sum (e.lexemes table) (e.tree table) :=
    .product (.operand (derives_lexemes hreserved hplain))
  have hscans : ∀ ls, Scans letters (e.snippet table).toList ls ↔ e.HasLiterals ∧ ls = e.lexemes table :=
    fun _ => scans_snippet_iff htable hplain
  constructor
  · intro t
    constructor
    · rintro ⟨ls, hls, ht⟩
      obtain ⟨hliterals, rfl⟩ := (hscans ls).1 hls
      exact ⟨hliterals, ht.unique hderives⟩
    · rintro ⟨hliterals, rfl⟩
      exact ⟨_, (hscans _).2 ⟨hliterals, rfl⟩, hderives⟩
  · simp [hscans]

/-- `((.5e2 * M_E) + (00 / q7))`: a number of each kind, a constant and a variable. -/
def mixed : Expr :=
  node (node (leaf ⟨".5e2", by decide +kernel⟩) .mul (leaf ⟨"M_E", by decide⟩)) .add
    (node (leaf ⟨"00", by decide +kernel⟩) .div (leaf ⟨"q7", by decide⟩))

theorem reads_snippet_iff_mixed :
    parse "((.5e2 * M_E) + (00 / q7))" = .ok mixed ∧ Letters.ascii.isIdentifier "row" = true ∧
      Reads .ascii "((.5e2 * M_E) + (00 / row['q7']))"
        (.node (.node (.number 50) .mul (.name "M_E")) .add
          (.node (.number 0) .div (.entry (.name "row") (.quoted "q7")))) := by
  have hrender : mixed.render = "((.5e2 * M_E) + (00 / q7))" := by decide +kernel
  have hparse : parse "((.5e2 * M_E) + (00 / q7))" = .ok mixed := hrender ▸ parse_render (by decide +kernel)
  have hsnippet : mixed.snippet "row" = "((.5e2 * M_E) + (00 / row['q7']))" := by decide +kernel
  have htable : Letters.ascii.isIdentifier "row" = true := by decide
  have hreads := (reads_snippet_iff .ascii hparse htable).1
  rw [hsnippet] at hreads
  exact ⟨hparse, htable, (hreads _).2 ⟨by decide +kernel, by decide +kernel⟩⟩

/-- `007`. -/
def leadingZeros : Expr := leaf ⟨"007", by decide +kernel⟩

/-- Not every number of an expression is a literal: `007` is seven, and no tree is read from it. -/
theorem not_reads_snippet_leadingZeros :
    parse "007" = .ok leadingZeros ∧ Letters.ascii.isIdentifier "row" = true ∧
      leadingZeros.tree "row" = .number 7 ∧ ∀ t, ¬ Reads .ascii (leadingZeros.snippet "row") t := by
  have hrender : leadingZeros.render = "007" := by decide +kernel
  have hparse : parse "007" = .ok leadingZeros := hrender ▸ parse_render (by decide +kernel)
  have htable : Letters.ascii.isIdentifier "row" = true := by decide
  refine ⟨hparse, htable, by decide +kernel, ?_⟩
  rintro t ⟨ls, hls, -⟩
  have hliterals : ¬ leadingZeros.HasLiterals := by decide +kernel
  exact hliterals ((scans_snippet_iff htable (isPlain_of_parse hparse)).1 hls).1

end Expr

end LinearRelations
