import LinearRelations.Proofs.Leaves

/-!
# Reading plain decimals back

The plain decimal of a rational number is a numeral, and it is read as the size of that number: what can be
written has its digits within the range of what can be read.

* `Text.Numeral.readChars?_pointed`: digits with a point are read as a significand and a power of ten;
* `Text.Numeral.isInRange_of_not_isLong`: few digits and places are within range;
* `Text.plainDecimal_cases`: the ways in which writing a number ends;
* `Text.dvd_of_decimalPlaces?`: behind the point there is room for the whole fraction;
* `Expr.of_ofSize`: a literal made for a number is read as its size.
-/

namespace LinearRelations.Text

/-! ### Characters -/

theorem digitValue?_of_isDigit {c : Char} (h : c.isDigit = true) :
    digitValue? c = some (c.toNat - 48) := by
  have hc := Char.isDigit_iff_toNat.1 h
  have h0 : '0'.toNat = 48 := rfl
  have h9 : '9'.toNat = 57 := rfl
  rw [digitValue?, zeros, List.find?_cons_of_pos]
  · rfl
  · simp only [Bool.and_eq_true, decide_eq_true_eq]
    omega

theorem not_isAlpha_of_isDigit {c : Char} (h : c.isDigit = true) :
    ¬ c.isUpper = true ∧ ¬ c.isLower = true := by
  simp only [Char.isDigit, Char.isUpper, Char.isLower, Bool.and_eq_true, decide_eq_true_eq,
    ge_iff_le, UInt32.le_iff_toNat_le] at h ⊢
  have h9 : '9'.val.toNat = 57 := rfl
  have hA : 'A'.val.toNat = 65 := rfl
  have ha : 'a'.val.toNat = 97 := rfl
  omega

theorem isLetter_eq_false {c : Char} (h : c.isDigit = true) : isLetter c = false := by
  have hne : c ≠ '_' := by rintro rfl; simp at h
  simp [isLetter, Char.isAlpha, not_isAlpha_of_isDigit h, hne]

theorem digitValue?_point : digitValue? '.' = none := by decide

theorem isBlank_eq_false {c : Char} (h : c.isDigit = true ∨ c = '.') : isBlank c = false := by
  rcases h with h | rfl
  · have hc := Char.isDigit_iff_toNat.1 h
    have h0 : '0'.toNat = 48 := rfl
    have h9 : '9'.toNat = 57 := rfl
    simp only [isBlank, blankRanges, List.any_cons, List.any_nil, Bool.or_false,
      Bool.or_eq_false_iff, Bool.and_eq_false_iff, decide_eq_false_iff_not]
    omega
  · decide

theorem isPadding_eq_false {c : Char} (h : c.isDigit = true ∨ c = '.') : isPadding c = false := by
  simp [isPadding, isBlank_eq_false h]

theorem unpadded_of_forall {text : List Char} (h : ∀ c ∈ text, isPadding c = false) :
    unpadded text = text := by
  have hdrop : ∀ l : List Char, (∀ c ∈ l, isPadding c = false) → l.dropWhile isPadding = l := by
    intro l hl
    rcases l with _ | ⟨c, l⟩
    · rfl
    · simp [hl c (by simp)]
  rw [unpadded, hdrop text h, hdrop _ (by simpa using h), List.reverse_reverse]

/-! ### Digits -/

/-- The values of decimal digits. -/
def digitValues (cs : List Char) : List Nat := cs.map fun c => c.toNat - 48

namespace Numeral

theorem ofDigits_digitValues (cs : List Char) :
    ofDigits (digitValues cs) = Nat.ofDigitChars 10 cs 0 := by
  rw [ofDigits, digitValues, List.foldl_map, Nat.ofDigitChars_eq_foldl]
  rfl

/-- Reading digits ends at a point. -/
theorem moreDigits_append {cs : List Char} (rest : List Char) (hcs : ∀ c ∈ cs, c.isDigit = true)
    (hrest : ∀ c ∈ rest.head?, c = '.') : moreDigits (cs ++ rest) = (digitValues cs, rest) := by
  induction cs with
  | nil =>
    rcases rest with _ | ⟨c, _ | ⟨c', rest⟩⟩
    · rfl
    · obtain rfl := hrest c (by simp)
      simp [moreDigits, digitValue?_point, digitValues]
    · obtain rfl := hrest c (by simp)
      simp [moreDigits, digitValue?_point, digitValues]
  | cons c cs ih =>
    have hc := digitValue?_of_isDigit (hcs c (by simp))
    have ih := ih fun c h => hcs c (by simp [h])
    rcases happ : cs ++ rest with _ | ⟨c', l⟩
    · obtain ⟨rfl, rfl⟩ := List.append_eq_nil_iff.1 happ
      simp [moreDigits, hc, digitValues]
    · rw [List.cons_append, happ, moreDigits, hc, ← happ, ih]
      rfl

theorem digits_append {cs : List Char} (rest : List Char) (hcs : ∀ c ∈ cs, c.isDigit = true)
    (hne : cs ≠ []) (hrest : ∀ c ∈ rest.head?, c = '.') :
    digits (cs ++ rest) = (digitValues cs, rest) := by
  rcases cs with _ | ⟨c, cs⟩
  · exact absurd rfl hne
  · rw [List.cons_append, digits, digitValue?_of_isDigit (hcs c (by simp)),
      moreDigits_append rest (fun c h => hcs c (by simp [h])) hrest]
    rfl

/-- A text that begins with a digit is no word. -/
theorem word?_cons {c : Char} (hc : c.isDigit = true) (cs : List Char) : word? (c :: cs) = none := by
  have hlow : c.toLower.toNat ≤ 57 := by
    rw [Char.toLower_eq_of_not_isUpper (not_isAlpha_of_isDigit hc).1]
    exact (Char.isDigit_iff_toNat.1 hc).2
  have hne : ∀ (w : String) (d : Char), w.toList.head? = some d → 57 < d.toNat →
      String.ofList ((c :: cs).map Char.toLower) ≠ w := by
    rintro w d hw hd rfl
    simp only [String.toList_ofList, List.map_cons, List.head?_cons, Option.some.injEq] at hw
    rw [hw] at hlow
    omega
  unfold word?
  split
  · next h => exact absurd h (hne _ 'i' rfl (by decide))
  · next h => exact absurd h (hne _ 'i' rfl (by decide))
  · next h => exact absurd h (hne _ 'n' rfl (by decide))
  · rfl

/-- **Digits, with a point somewhere behind the first of them, denote a significand and a power of
ten.** -/
theorem readChars?_digits {whole : List Char} (parts : List Char)
    (hw : ∀ c ∈ whole, c.isDigit = true) (hne : whole ≠ []) (hp : ∀ c ∈ parts, c.isDigit = true) :
    readChars? whole = some (.finite false (Nat.ofDigitChars 10 whole 0) 0) ∧
      (parts ≠ [] → readChars? (whole ++ '.' :: parts) =
        some (.finite false (Nat.ofDigitChars 10 (whole ++ parts) 0) (-parts.length))) := by
  obtain ⟨c, cs, rfl⟩ := List.exists_cons_of_ne_nil hne
  have hc : c.isDigit = true := hw c (by simp)
  have hsign : ∀ rest, sign (c :: rest) = (false, c :: rest) := by
    intro rest
    unfold sign
    split
    · next h => obtain ⟨rfl, -⟩ := List.cons.inj h; simp at hc
    · next h => obtain ⟨rfl, -⟩ := List.cons.inj h; simp at hc
    · rfl
  have hvalues : digitValues (c :: cs) ≠ [] := by simp [digitValues]
  constructor
  · have hpad : unpadded (c :: cs) = c :: cs :=
      unpadded_of_forall fun d hd => isPadding_eq_false (.inl (hw d hd))
    have hdigits : digits (c :: cs) = (digitValues (c :: cs), []) := by
      simpa using digits_append [] hw hne (by simp)
    simp only [readChars?, hpad, hsign, unsigned?, word?_cons hc, hdigits, fraction, exponent?]
    simp [hvalues, ofDigits_digitValues]
  · intro hpne
    have hpad : unpadded (c :: cs ++ '.' :: parts) = c :: cs ++ '.' :: parts := by
      refine unpadded_of_forall fun d hd => isPadding_eq_false ?_
      rcases List.mem_append.1 hd with hd | hd
      · exact .inl (hw d hd)
      · rcases List.mem_cons.1 hd with rfl | hd
        · exact .inr rfl
        · exact .inl (hp d hd)
    have hdigits := digits_append ('.' :: parts) hw hne (by simp)
    have hparts : digits parts = (digitValues parts, []) := by
      simpa using digits_append [] hp hpne (by simp)
    simp only [readChars?, hpad]
    rw [List.cons_append, hsign, ← List.cons_append]
    simp only [unsigned?, List.cons_append, word?_cons hc]
    rw [← List.cons_append, hdigits]
    simp only [fraction, hparts, exponent?]
    have happ : ofDigits (digitValues (c :: cs) ++ digitValues parts) =
        Nat.ofDigitChars 10 (c :: cs ++ parts) 0 := by
      rw [← ofDigits_digitValues, digitValues, digitValues, digitValues, List.map_append]
    rw [happ]
    simp [digitValues]

end Numeral

/-! ### Digits with a point -/

theorem isDigit_of_mem_padded {width n : Nat} {c : Char} (h : c ∈ padded width (Nat.toDigits 10 n)) :
    c.isDigit = true := by
  rcases List.mem_append.1 h with h | h
  · rw [List.eq_of_mem_replicate h]
    rfl
  · exact Nat.isDigit_of_mem_toDigits (by decide) (by decide) h

theorem ofDigitChars_padded (width n : Nat) :
    Nat.ofDigitChars 10 (padded width (Nat.toDigits 10 n)) 0 = n := by
  rw [padded, Nat.ofDigitChars_append, Nat.ofDigitChars_replicate_zero, Nat.mul_zero,
    Nat.ofDigitChars_ten_toDigits]

theorem le_length_padded (width : Nat) (digits : List Char) : width ≤ (padded width digits).length := by
  simp only [padded, List.length_append, List.length_replicate]
  omega

/-- **A number written with a point is read as itself over a power of ten.** -/
theorem readChars?_pointed (places n : Nat) :
    Numeral.readChars? (pointed places n) = some (.finite false n (-places)) := by
  unfold pointed
  split
  · next hzero =>
    subst hzero
    have hdigits : ∀ c ∈ Nat.toDigits 10 n, c.isDigit = true := fun c hc =>
      Nat.isDigit_of_mem_toDigits (by decide) (by decide) hc
    rw [(Numeral.readChars?_digits [] hdigits Nat.toDigits_ne_nil (by simp)).1,
      Nat.ofDigitChars_ten_toDigits]
    rfl
  · next hplaces =>
    set digits := padded (places + 1) (Nat.toDigits 10 n) with hdef
    have hdigit : ∀ c ∈ digits, c.isDigit = true := fun c hc => isDigit_of_mem_padded hc
    have hlen : places + 1 ≤ digits.length := le_length_padded _ _
    have hw : digits.take (digits.length - places) ≠ [] := by
      rw [Ne, List.take_eq_nil_iff]
      rintro (h | h)
      · omega
      · simp [h] at hlen
    have hp : digits.drop (digits.length - places) ≠ [] := by
      rw [Ne, List.drop_eq_nil_iff]
      omega
    have hread := (Numeral.readChars?_digits _ (fun c hc => hdigit c (List.mem_of_mem_take hc)) hw
      fun c hc => hdigit c (List.mem_of_mem_drop hc)).2 hp
    simp only
    rw [hread, List.take_append_drop, hdef, ofDigitChars_padded, ← hdef, List.length_drop]
    congr 3
    omega

theorem isNameChars_pointed (places n : Nat) : isNameChars (pointed places n) = false := by
  have hhead : ∀ {cs : List Char}, (∀ c ∈ cs.head?, c.isDigit = true) → isNameChars cs = false := by
    intro cs h
    rcases cs with _ | ⟨c, cs⟩
    · rfl
    · simp [isNameChars, isLetter_eq_false (h c (by simp))]
  refine hhead fun c hc => ?_
  unfold pointed at hc
  split at hc
  · exact Nat.isDigit_of_mem_toDigits (by decide) (by decide) (List.mem_of_mem_head? hc)
  · next hplaces =>
    have hlen := le_length_padded (places + 1) (Nat.toDigits 10 n)
    rw [List.head?_append, List.head?_take, if_neg (by omega)] at hc
    obtain ⟨d, hd⟩ : ∃ d, (padded (places + 1) (Nat.toDigits 10 n)).head? = some d := by
      rw [← Option.isSome_iff_exists, List.isSome_head?]
      intro h
      simp [h] at hlen
    rw [hd] at hc
    obtain rfl : d = c := by simpa using hc
    exact isDigit_of_mem_padded (List.mem_of_mem_head? hd)

/-- A plain decimal is made of digits and points. -/
theorem isDigit_or_point_of_mem_pointed {places n : Nat} {c : Char} (h : c ∈ pointed places n) :
    c.isDigit = true ∨ c = '.' := by
  unfold pointed at h
  split at h
  · exact .inl (Nat.isDigit_of_mem_toDigits (by decide) (by decide) h)
  · rcases List.mem_append.1 h with h | h
    · exact .inl (isDigit_of_mem_padded (List.mem_of_mem_take h))
    · rcases List.mem_cons.1 h with rfl | h
      · exact .inr rfl
      · exact .inl (isDigit_of_mem_padded (List.mem_of_mem_drop h))

/-! ### Decimal places -/

theorem eq_of_factorCount {p n k rest : Nat} (h : factorCount p n = (k, rest)) :
    n = p ^ k * rest := by
  fun_induction factorCount p n generalizing k rest with
  | case1 n hn count rest' hcount ih =>
    obtain ⟨rfl, rfl⟩ := Prod.mk.inj h
    rw [pow_succ', mul_assoc, ← ih hcount, Nat.mul_div_cancel' (Nat.dvd_of_mod_eq_zero hn.2.2)]
  | case2 n hn =>
    obtain ⟨rfl, rfl⟩ := Prod.mk.inj h
    simp

/-- **There are enough places behind the point for the whole fraction.** -/
theorem dvd_of_decimalPlaces? {denominator places : Nat}
    (h : decimalPlaces? denominator = some places) : denominator ∣ 10 ^ places := by
  rcases htwo : factorCount 2 denominator with ⟨twos, rest⟩
  rcases hfive : factorCount 5 rest with ⟨fives, rest'⟩
  simp only [decimalPlaces?, htwo, hfive] at h
  split at h
  · next hone =>
    obtain rfl := Option.some.inj h
    rw [eq_of_factorCount htwo, eq_of_factorCount hfive, hone, mul_one,
      show 10 = 2 * 5 from rfl, mul_pow]
    exact mul_dvd_mul (pow_dvd_pow 2 (le_max_left ..)) (pow_dvd_pow 5 (le_max_right ..))
  · cases h

/-- A whole number in units of a power of the base. -/
theorem size_eq_mul_zpow (base n : ℕ) (k : ℤ) :
    (if 0 ≤ k then ((n * base ^ k.toNat : ℕ) : ℚ) else mkRat n (base ^ (-k).toNat)) = n * (base : ℚ) ^ k := by
  rcases k with k | k
  · simp
  · have hneg : ¬ (0 : ℤ) ≤ Int.negSucc k := by omega
    have hk : -(Int.negSucc k) = ((k + 1 : ℕ) : ℤ) := by omega
    rw [if_neg hneg, hk, Int.toNat_natCast, Rat.mkRat_eq_div, zpow_negSucc, div_eq_mul_inv]
    push_cast
    rfl

namespace Numeral

theorem scaled_false (n : ℕ) (k : ℤ) : scaled false n k = (n : ℚ) * 10 ^ k := by
  have hsize : (if 0 ≤ k then ((n * 10 ^ k.toNat : ℕ) : ℚ) else mkRat n (10 ^ (-k).toNat)) = n * (10 : ℚ) ^ k :=
    size_eq_mul_zpow 10 n k
  by_cases hn : n = 0
  · simp [scaled, hn]
  · rw [← hsize]
    simp only [scaled, if_neg hn, Bool.false_eq_true, if_false]

/-- A numeral with an exponent of either sign. -/
theorem value?_finite (n : ℕ) (k : ℤ) : (finite false n k).value? = some ((n : ℚ) * 10 ^ k) :=
  congrArg some (scaled_false n k)

/-- It is read as that number, or its digits are out of range. -/
theorem exact_finite (n : ℕ) (k : ℤ) : (finite false n k).exact =
    if isInRange n k then .ok ((n : ℚ) * 10 ^ k) else .error .exponentOutOfRange := by
  rw [exact, scaled_false]

/-- Numbers of few digits are within range at all places that a text can hold. -/
theorem isInRange_of_not_isLong {n places : ℕ} (hn : isLong n = false) (hplaces : places ≤ placeLimit) :
    isInRange n (-places) = true := by
  have hlt : n < 10 ^ digitLimit := by simpa [isLong] using hn
  have hlength : (Nat.toDigits 10 n).length ≤ digitLimit := Nat.toDigits_length 10 n digitLimit (by decide) hlt
  simp only [isInRange, Bool.and_eq_true, decide_eq_true_eq]
  unfold digitLimit at hlength
  unfold placeLimit at hplaces
  unfold smallestExponent largestExponent
  omega

end Numeral

/-- **The ways in which writing a number ends.** -/
theorem plainDecimal_cases (q : Rat) :
    decimalPlaces? q.den = none ∧ plainDecimal q = .ok none ∨
      ∃ places, decimalPlaces? q.den = some places ∧
        (placeLimit < places ∧ plainDecimal q = .error .textTooLong ∨
          places ≤ placeLimit ∧ isLong (unitsAt places q) = true ∧ plainDecimal q = .error .tooManyDigits ∨
          places ≤ placeLimit ∧ isLong (unitsAt places q) = false ∧
            plainDecimal q = .ok (some (String.ofList (pointed places (unitsAt places q))))) := by
  rw [plainDecimal]
  rcases decimalPlaces? q.den with _ | places
  · exact .inl ⟨rfl, rfl⟩
  refine .inr ⟨places, rfl, ?_⟩
  simp only
  split
  · next hplaces => exact .inl ⟨hplaces, rfl⟩
  next hplaces =>
  rw [not_lt] at hplaces
  split
  · next hlong => exact .inr (.inl ⟨hplaces, hlong, rfl⟩)
  · next hlong => exact .inr (.inr ⟨hplaces, Bool.eq_false_of_not_eq_true hlong, rfl⟩)

/-- What is written has few digits and places. -/
theorem of_plainDecimal {q : Rat} {text : String} (h : plainDecimal q = .ok (some text)) :
    ∃ places, decimalPlaces? q.den = some places ∧ places ≤ placeLimit ∧ isLong (unitsAt places q) = false ∧
      text = String.ofList (pointed places (unitsAt places q)) := by
  rcases plainDecimal_cases q with ⟨-, heq⟩ | ⟨places, hsome, ⟨-, heq⟩ | ⟨-, -, heq⟩ | ⟨hplaces, hlong, heq⟩⟩
  · rw [h] at heq
    cases heq
  · rw [h] at heq
    cases heq
  · rw [h] at heq
    cases heq
  · rw [h] at heq
    exact ⟨places, hsome, hplaces, hlong, Option.some.inj (Except.ok.inj heq)⟩

/-- Down to its last decimal place a number is a whole one. -/
theorem unitsAt_div {q : Rat} {places : ℕ} (h : decimalPlaces? q.den = some places) :
    (unitsAt places q : ℚ) / 10 ^ places = |q| := by
  have hpos : (10 : ℚ) ^ places ≠ 0 := by positivity
  have hden : (q.den : ℚ) ≠ 0 := by exact_mod_cast q.den_ne_zero
  have hdvd : q.den ∣ q.num.natAbs * 10 ^ places := (dvd_of_decimalPlaces? h).mul_left _
  rw [unitsAt, Nat.cast_div hdvd hden, Nat.cast_mul, Nat.cast_pow, Nat.cast_ofNat, mul_div_right_comm,
    mul_div_cancel_right₀ _ hpos]
  rw [← Rat.num_div_den q, abs_div, Nat.abs_cast, Nat.cast_natAbs, Int.cast_abs, Rat.num_div_den]

/-- **The plain decimal of a number is a numeral that is read as its size.** -/
theorem read?_of_plainDecimal {q : Rat} {text : String} (h : plainDecimal q = .ok (some text)) :
    isName text = false ∧ ∃ numeral, Numeral.read? text = some numeral ∧ numeral.exact = .ok |q| := by
  obtain ⟨places, hsome, hplaces, hlong, rfl⟩ := of_plainDecimal h
  refine ⟨by rw [isName, String.toList_ofList, isNameChars_pointed], _,
    by rw [Numeral.read?, String.toList_ofList, readChars?_pointed], ?_⟩
  rw [Numeral.exact_finite, if_pos (Numeral.isInRange_of_not_isLong hlong hplaces), zpow_neg, zpow_natCast,
    ← div_eq_mul_inv, unitsAt_div hsome]

end LinearRelations.Text

namespace LinearRelations

theorem Operand.read_of_plainDecimal {q : Rat} {x : Operand} (h : Text.plainDecimal q = .ok (some x.text)) :
    x.read = .ok (.number |q|) := by
  obtain ⟨hname, numeral, hread, hexact⟩ := Text.read?_of_plainDecimal h
  simp [read, hname, hread, hexact, Except.map]

/-- What a literal is made of. -/
theorem Expr.exists_of_ofSize {q : Rat} {size : Expr} (h : ofSize q = .ok (some size)) :
    ∃ x : Operand, size = leaf x ∧ Text.plainDecimal q = .ok (some x.text) := by
  obtain ⟨text, htext, h⟩ := exists_of_bind_eq_ok h
  obtain ⟨x, hx, rfl⟩ := Option.map_eq_some_iff.1 (Except.ok.inj h)
  obtain ⟨text', rfl, hof⟩ := Option.bind_eq_some_iff.1 hx
  obtain rfl := Operand.text_of_ofText? hof
  exact ⟨x, rfl, htext⟩

/-- **A literal is read as the size of the number it is made for.** -/
theorem Expr.of_ofSize {q : Rat} {size : Expr} (h : ofSize q = .ok (some size)) :
    ∃ x : Operand, size = leaf x ∧ x.read = .ok (.number |q|) := by
  obtain ⟨x, rfl, htext⟩ := exists_of_ofSize h
  exact ⟨x, rfl, Operand.read_of_plainDecimal htext⟩

theorem Expr.value?_of_ofSize {K : Type*} [Field K] [DecidableEq K] (ρ : Valuation K) {q : Rat}
    {size : Expr} (h : ofSize q = .ok (some size)) : size.value? ρ = some ((|q| : ℚ) : K) := by
  obtain ⟨x, rfl, hx⟩ := of_ofSize h
  rw [value?, Operand.meaning?_of_read hx]
  rfl

end LinearRelations
