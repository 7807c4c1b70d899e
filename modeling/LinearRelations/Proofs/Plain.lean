import LinearRelations.Proofs.PlainDecimal

/-!
# Plain operands

An operand is plain when no blank and no sign occurs in its text. A plain operand is a name or an
unsigned finite number, so it has an exact meaning, however many digits that takes. It is read as
that unless the digits are out of range.

* `Text.isNumeralChar`: the characters that occur in numerals;
* `Operand.notMem_brackets`, `Operand.notMem_comparisons`: the symbols that no operand contains;
* `Operand.IsExact`: the operand is a name or a numeral for a number that is finite and not negative;
* `Operand.IsPlain.isExact`, `Operand.IsPlain.exists_meaning?`: a plain operand is exact and stands for
  something.
-/

namespace LinearRelations

namespace Text

/-- The characters that can occur in a numeral. -/
def isNumeralChar (c : Char) : Bool :=
  isPadding c || (digitValue? c).isSome || isLetter c || c == '.' || c == '+' || c == '-'

theorem isNumeralChar_of_digitValue? {c : Char} {d : Nat} (h : digitValue? c = some d) :
    isNumeralChar c = true := by
  simp [isNumeralChar, h]

/-- A character whose lower case is a letter is one itself. -/
theorem isLetter_of_toLower {c : Char} (h : c.toLower.isLower = true) : isLetter c = true := by
  rw [Char.isLower_toLower_eq_isAlpha] at h
  simp [isLetter, h]

theorem isLetterOrDigit_of_isLetter {c : Char} (h : isLetter c = true) : isLetterOrDigit c = true := by
  simp only [isLetter, isLetterOrDigit, Char.isAlphanum, Bool.or_eq_true] at h ⊢
  rcases h with h | h
  · exact .inl (.inl h)
  · exact .inr h

theorem isNameChars_of_isLetter {text : List Char} (hne : text ≠ [])
    (h : ∀ c ∈ text, isLetter c = true) : isNameChars text = true := by
  obtain ⟨c, rest, rfl⟩ := List.exists_cons_of_ne_nil hne
  obtain ⟨hc, hrest⟩ := List.forall_mem_cons.1 h
  rw [isNameChars, hc, Bool.true_and, List.all_eq_true]
  exact fun d hd => isLetterOrDigit_of_isLetter (hrest d hd)

theorem isLetterOrDigit_of_isNameChars {text : List Char} (h : isNameChars text = true) :
    ∀ c ∈ text, isLetterOrDigit c = true := by
  rcases text with _ | ⟨c, rest⟩
  · cases h
  · rw [isNameChars, Bool.and_eq_true, List.all_eq_true] at h
    exact List.forall_mem_cons.2 ⟨isLetterOrDigit_of_isLetter h.1, h.2⟩

namespace Numeral

/-! ### Characters of numerals -/

theorem isNumeralChar_of_moreDigits {text : List Char}
    (h : ∀ c ∈ (moreDigits text).2, isNumeralChar c = true) : ∀ c ∈ text, isNumeralChar c = true := by
  fun_induction moreDigits text with
  | case1 => exact h
  | case2 c d hd =>
    intro c' hc'
    rw [List.mem_singleton.1 hc']
    exact isNumeralChar_of_digitValue? hd
  | case3 c hd => exact h
  | case4 c c' rest d hd ds rest' hmore ih =>
    rw [hmore] at ih
    intro x hx
    rcases List.mem_cons.1 hx with rfl | hx
    · exact isNumeralChar_of_digitValue? hd
    · exact ih h x hx
  | case5 c c' rest hd d hd' hunder ds rest' hmore ih =>
    rw [hmore] at ih
    intro x hx
    rcases List.mem_cons.1 hx with rfl | hx
    · rw [beq_iff_eq.1 hunder]
      rfl
    rcases List.mem_cons.1 hx with rfl | hx
    · exact isNumeralChar_of_digitValue? hd'
    · exact ih h x hx
  | case6 => exact h

theorem isNumeralChar_of_digits {text : List Char}
    (h : ∀ c ∈ (digits text).2, isNumeralChar c = true) : ∀ c ∈ text, isNumeralChar c = true := by
  unfold digits at h
  split at h
  · exact h
  · next c rest =>
    split at h
    · next d hd =>
      intro x hx
      rcases List.mem_cons.1 hx with rfl | hx
      · exact isNumeralChar_of_digitValue? hd
      · exact isNumeralChar_of_moreDigits h x hx
    · exact h

theorem isNumeralChar_of_sign {text : List Char}
    (h : ∀ c ∈ (sign text).2, isNumeralChar c = true) : ∀ c ∈ text, isNumeralChar c = true := by
  unfold sign at h
  split at h
  · exact List.forall_mem_cons.2 ⟨rfl, h⟩
  · exact List.forall_mem_cons.2 ⟨rfl, h⟩
  · exact h

theorem isNumeralChar_of_fraction {text : List Char}
    (h : ∀ c ∈ (fraction text).2, isNumeralChar c = true) : ∀ c ∈ text, isNumeralChar c = true := by
  unfold fraction at h
  split at h
  · exact List.forall_mem_cons.2 ⟨rfl, isNumeralChar_of_digits h⟩
  · exact h

theorem isNumeralChar_of_exponent? {text : List Char} {k : Int} (h : exponent? text = some k) :
    ∀ c ∈ text, isNumeralChar c = true := by
  unfold exponent? at h
  split at h
  · simp
  · next c rest =>
    split at h
    · next hc =>
      have hletter : isNumeralChar c = true := by rcases hc with rfl | rfl <;> rfl
      refine List.forall_mem_cons.2 ⟨hletter, isNumeralChar_of_sign (isNumeralChar_of_digits ?_)⟩
      -- nothing may stand behind the digits
      simp only at h
      split at h
      · cases h
      · next heq => simp [heq]
      · cases h
    · cases h

/-- A word is made of letters. -/
theorem isLetter_of_word? {text : List Char} {numeral : Numeral} (h : word? text = some numeral) :
    text ≠ [] ∧ ∀ c ∈ text, isLetter c = true := by
  have hword : ∀ w : String, w ≠ "" → w.toList.all Char.isLower = true →
      String.ofList (text.map Char.toLower) = w → text ≠ [] ∧ ∀ c ∈ text, isLetter c = true := by
    rintro w hne hw rfl
    refine ⟨by rintro rfl; exact hne rfl, fun c hc => isLetter_of_toLower ?_⟩
    rw [String.toList_ofList, List.all_map] at hw
    exact List.all_eq_true.1 hw c hc
  unfold word? at h
  split at h
  · next heq => exact hword _ (by decide) (by decide) heq
  · next heq => exact hword _ (by decide) (by decide) heq
  · next heq => exact hword _ (by decide) (by decide) heq
  · cases h

theorem isNumeralChar_of_unsigned? {negative : Bool} {text : List Char} {numeral : Numeral}
    (h : unsigned? negative text = some numeral) : ∀ c ∈ text, isNumeralChar c = true := by
  unfold unsigned? at h
  split at h
  · next heq =>
    intro c hc
    simp [isNumeralChar, (isLetter_of_word? heq).2 c hc]
  · simp only at h
    split at h
    · cases h
    · obtain ⟨k, hk, -⟩ := Option.map_eq_some_iff.1 h
      exact isNumeralChar_of_digits (isNumeralChar_of_fraction (isNumeralChar_of_exponent? hk))

theorem isNumeralChar_of_unpadded {text : List Char}
    (h : ∀ c ∈ unpadded text, isNumeralChar c = true) : ∀ c ∈ text, isNumeralChar c = true := by
  have hdrop : ∀ l : List Char, (∀ c ∈ l.dropWhile isPadding, isNumeralChar c = true) →
      ∀ c ∈ l, isNumeralChar c = true := by
    intro l hl c hc
    rw [← List.takeWhile_append_dropWhile (p := isPadding) (l := l), List.mem_append] at hc
    rcases hc with hc | hc
    · simp [isNumeralChar, List.mem_takeWhile_imp hc]
    · exact hl c hc
  refine hdrop text fun c hc => hdrop (text.dropWhile isPadding).reverse ?_ c (List.mem_reverse.2 hc)
  intro c hc
  exact h c (List.mem_reverse.2 hc)

/-- All characters of a numeral are those of numerals. -/
theorem isNumeralChar_of_read? {text : String} {numeral : Numeral} (h : read? text = some numeral) :
    ∀ c ∈ text.toList, isNumeralChar c = true :=
  isNumeralChar_of_unpadded (isNumeralChar_of_sign (isNumeralChar_of_unsigned? h))

/-! ### Plain numerals -/

/-- Without padding and sign a numeral is an unsigned number. -/
theorem read?_eq_unsigned? {text : String} (hpadding : ∀ c ∈ text.toList, isPadding c = false)
    (hsign : ∀ c ∈ text.toList, c ≠ '+' ∧ c ≠ '-') : read? text = unsigned? false text.toList := by
  have hunsigned : sign text.toList = (false, text.toList) := by
    unfold sign
    split
    · next heq => exact absurd rfl (hsign '+' (by rw [heq]; exact List.mem_cons_self)).1
    · next heq => exact absurd rfl (hsign '-' (by rw [heq]; exact List.mem_cons_self)).2
    · rfl
  rw [read?, readChars?, unpadded_of_forall hpadding, hunsigned]

/-- A word for a number that is not finite is a name. -/
theorem word?_eq_none {text : String} (hname : isName text = false) : word? text.toList = none := by
  rcases hword : word? text.toList with _ | numeral
  · rfl
  · obtain ⟨hne, hletter⟩ := isLetter_of_word? hword
    rw [isName, isNameChars_of_isLetter hne hletter] at hname
    cases hname

/-- An unsigned number without padding is finite or a name. -/
theorem exists_finite_of_read? {text : String} {numeral : Numeral} (h : read? text = some numeral)
    (hpadding : ∀ c ∈ text.toList, isPadding c = false) (hsign : ∀ c ∈ text.toList, c ≠ '+' ∧ c ≠ '-')
    (hname : isName text = false) :
    ∃ significand exponent, numeral = finite false significand exponent := by
  rw [read?_eq_unsigned? hpadding hsign, unsigned?, word?_eq_none hname] at h
  simp only at h
  split at h
  · cases h
  · obtain ⟨k, -, rfl⟩ := Option.map_eq_some_iff.1 h
    exact ⟨_, _, rfl⟩

end Numeral

end Text

/-! ### Operands -/

namespace Operand

/-- No blank and no sign occurs in the text. -/
def IsPlain (operand : Operand) : Prop :=
  ∀ c ∈ operand.text.toList, Text.isBlank c = false ∧ c ≠ '+' ∧ c ≠ '-'

instance (operand : Operand) : Decidable operand.IsPlain := List.decidableBAll _ operand.text.toList

theorem text_ne_empty (operand : Operand) : operand.text ≠ "" := by
  intro h
  have hvalid := operand.valid
  rw [h] at hvalid
  exact absurd hvalid (by decide +kernel)

/-- The characters of an operand are those of names and of numerals. -/
theorem isLetterOrDigit_or_isNumeralChar {operand : Operand} {c : Char} (hc : c ∈ operand.text.toList) :
    Text.isLetterOrDigit c = true ∨ Text.isNumeralChar c = true := by
  have hvalid := operand.valid
  rw [isOperand, Text.isNumeral, Bool.or_eq_true, Bool.and_eq_true] at hvalid
  rcases hvalid with ⟨-, hread⟩ | hname
  · obtain ⟨numeral, hread⟩ := Option.isSome_iff_exists.1 hread
    exact .inr (Text.Numeral.isNumeralChar_of_read? hread c hc)
  · exact .inl (Text.isLetterOrDigit_of_isNameChars hname c hc)

/-- No parenthesis and no sign of multiplication or division occurs in an operand. -/
theorem notMem_brackets (operand : Operand) : ∀ c ∈ operand.text.toList, c ∉ ['(', ')', '*', '/'] := by
  intro c hc hmem
  have hchar := isLetterOrDigit_or_isNumeralChar hc
  simp only [List.mem_cons, List.not_mem_nil, or_false] at hmem
  rcases hmem with rfl | rfl | rfl | rfl <;> revert hchar <;> decide

/-- No sign of comparison occurs in an operand. -/
theorem notMem_comparisons (operand : Operand) : ∀ c ∈ operand.text.toList, c ∉ ['=', '<', '>'] := by
  intro c hc hmem
  have hchar := isLetterOrDigit_or_isNumeralChar hc
  simp only [List.mem_cons, List.not_mem_nil, or_false] at hmem
  rcases hmem with rfl | rfl | rfl <;> revert hchar <;> decide

/-- A plain operand that is no name is a numeral for a finite number without a sign. -/
theorem exists_finite {operand : Operand} {numeral : Text.Numeral} (h : operand.IsPlain)
    (hname : Text.isName operand.text = false) (hread : Text.Numeral.read? operand.text = some numeral) :
    ∃ significand exponent, numeral = .finite false significand exponent := by
  have hpadding : ∀ c ∈ operand.text.toList, Text.isPadding c = false := by
    intro c hc
    simp [Text.isPadding, (h c hc).1]
  exact Text.Numeral.exists_finite_of_read? hread hpadding (fun c hc => (h c hc).2) hname

/-- Whether the operand is a name, or a numeral that denotes a finite number and no negative one. -/
def IsExact (operand : Operand) : Prop :=
  Text.isName operand.text = true ∨ operand.isNumeral = true ∧
    ∃ numeral q, Text.Numeral.read? operand.text = some numeral ∧ numeral.value? = some q ∧ 0 ≤ q

/-- **A plain operand is exact**: infinities and undefined numbers without a sign are names. -/
theorem IsPlain.isExact {operand : Operand} (h : operand.IsPlain) : operand.IsExact := by
  by_cases hname : Text.isName operand.text = true
  · exact .inl hname
  have hnumeral : Text.isNumeral operand.text = true := by
    have hvalid := operand.valid
    rw [isOperand, Bool.or_eq_true] at hvalid
    exact hvalid.resolve_right hname
  obtain ⟨numeral, hread⟩ := Option.isSome_iff_exists.1 (Bool.and_eq_true_iff.1 hnumeral).2
  obtain ⟨n, k, rfl⟩ := exists_finite h (Bool.eq_false_iff.2 hname) hread
  exact .inr ⟨hnumeral, _, _, hread, Text.Numeral.value?_finite n k, by positivity⟩

/-- An exact operand has an exact meaning; a numeral stands for its number. -/
theorem IsExact.exists_meaning? {operand : Operand} (h : operand.IsExact) :
    ∃ v, operand.meaning? = some v ∧ (operand.isNumeral = true → ∃ q, 0 ≤ q ∧ v = .number q) := by
  rcases h with hname | ⟨hnumeral, numeral, q, hread, hvalue, hq⟩
  · have hnot : ¬ operand.isNumeral = true := by simp [isNumeral, Text.isNumeral, hname]
    exact ⟨.ofName operand.text, if_pos hname, fun h => absurd h hnot⟩
  · have hname : ¬ Text.isName operand.text = true := by
      intro hname
      simp [isNumeral, Text.isNumeral, hname] at hnumeral
    refine ⟨.number q, ?_, fun _ => ⟨q, hq, rfl⟩⟩
    rw [meaning?, if_neg hname, hread]
    simp only [hvalue, Option.map_some]

/-- A plain operand stands for something. -/
theorem IsPlain.exists_meaning? {operand : Operand} (h : operand.IsPlain) : ∃ v, operand.meaning? = some v := by
  obtain ⟨v, hv, -⟩ := h.isExact.exists_meaning?
  exact ⟨v, hv⟩

end Operand

namespace Expr

/-- No blank and no sign occurs in a leaf. -/
def IsPlain (expr : Expr) : Prop := ∀ x ∈ expr.leaves, x.IsPlain

instance (expr : Expr) : Decidable expr.IsPlain := List.decidableBAll _ expr.leaves

theorem isPlain_node {lhs rhs : Expr} {op : Operator} :
    (node lhs op rhs).IsPlain ↔ lhs.IsPlain ∧ rhs.IsPlain := by
  simp only [IsPlain, mem_leaves_node, or_imp, forall_and]

end Expr

end LinearRelations
